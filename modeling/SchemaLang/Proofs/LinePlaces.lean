import Mathlib.Data.List.DropRight
import SchemaLang.Location.LineTable
import SchemaLang.Proofs.Coverage

/-!
# Lines and columns

A line is counted by the line feeds before a place and a column by the bytes since the last of
them.  A reader that walks over a text counts them as it goes, a line table finds them by binary
search, and both give every token the same place.

All three numbers of a place are 32 bits wide.  Lines and columns count from one, so the end of a
text of `2 ^ 32 - 1` bytes may need one bit more than there is for one of them: its line becomes
zero if all bytes are line feeds, and its column if none is.
-/

namespace SchemaLang

open String (utf8Len)

/-- The line that a text breaks off in: what stands behind its last line feed. -/
def lastLine (cs : List Char) : List Char :=
  cs.rtakeWhile (· ≠ '\n')

theorem lastLine_concat_feed (cs : List Char) : lastLine (cs ++ ['\n']) = [] :=
  List.rtakeWhile_concat_neg _ _ _ (by simp)

theorem lastLine_concat {c : Char} (hc : c ≠ '\n') (cs : List Char) :
    lastLine (cs ++ [c]) = lastLine cs ++ [c] :=
  List.rtakeWhile_concat_pos _ _ _ (by simpa using hc)

theorem lastLine_append {ds : List Char} (hds : '\n' ∉ ds) (cs : List Char) :
    lastLine (cs ++ ds) = lastLine cs ++ ds := by
  induction ds using List.reverseRecOn with
  | nil => rw [List.append_nil, List.append_nil]
  | append_singleton ds d ih =>
      obtain ⟨hds, hd⟩ : '\n' ∉ ds ∧ '\n' ≠ d := by simpa using hds
      rw [← List.append_assoc, lastLine_concat hd.symm, ih hds, List.append_assoc]

/-- A text has a byte for each of its line feeds, and those of its last line besides. -/
theorem count_feed_add_lastLine_le (cs : List Char) :
    cs.count '\n' + utf8Len (lastLine cs) ≤ utf8Len cs := by
  induction cs using List.reverseRecOn with
  | nil => exact Nat.le_refl 0
  | append_singleton cs c ih =>
      have hsize := Char.utf8Size_pos c
      by_cases hc : c = '\n'
      · subst hc
        simp [lastLine_concat_feed]
        omega
      · simp [lastLine_concat hc, hc]
        omega

/-! ### Walking over a text -/

namespace Position

/-- How far a reader is that has walked over a text from its start. -/
theorem advance_start (cs : List Char) :
    start.advance cs = ⟨utf8Len cs, cs.count '\n' + 1, utf8Len (lastLine cs) + 1⟩ := by
  induction cs using List.reverseRecOn with
  | nil => rfl
  | append_singleton cs c ih =>
      rw [advance_append, ih, advance_cons, advance_nil, after]
      by_cases hc : c = '\n'
      · subst hc
        simp [lastLine_concat_feed]
      · simp [hc, lastLine_concat hc, Nat.add_right_comm]

end Position

/-! ### Looking up in a table -/

namespace LineTable

theorem behindFeeds_append (n : Nat) (cs ds : List Char) :
    behindFeeds n (cs ++ ds) = behindFeeds n cs ++ behindFeeds (n + utf8Len cs) ds := by
  induction cs generalizing n with
  | nil => rfl
  | cons c cs ih =>
      have hbehind : n + utf8Len (c :: cs) = n + c.utf8Size + utf8Len cs := by
        rw [String.utf8Len_cons, Nat.add_assoc, Nat.add_comm c.utf8Size]
      rw [List.cons_append, behindFeeds, behindFeeds, ih, hbehind]
      split <;> rfl

theorem length_behindFeeds (n : Nat) (cs : List Char) :
    (behindFeeds n cs).length = cs.count '\n' := by
  fun_induction behindFeeds n cs with
  | case1 => rfl
  | case2 n cs behind ih => simp [ih]
  | case3 n c cs behind hc ih => simp [ih, hc]

/-- A line other than the first starts behind what stands in front of the text, and not behind the
text. -/
theorem lt_and_le_of_mem_behindFeeds {n : Nat} {cs : List Char} :
    ∀ i ∈ behindFeeds n cs, n < i ∧ i ≤ n + utf8Len cs := by
  fun_induction behindFeeds n cs with
  | case1 => simp
  | case2 n cs behind ih =>
      have hsize := Char.utf8Size_pos '\n'
      refine List.forall_mem_cons.mpr ⟨?_, fun i hi => ?_⟩
      · rw [String.utf8Len_cons]
        omega
      · have hmore := ih i hi
        rw [String.utf8Len_cons]
        omega
  | case3 n c cs behind _ ih =>
      intro i hi
      have hmore := ih i hi
      have hsize := Char.utf8Size_pos c
      rw [String.utf8Len_cons]
      omega

theorem pairwise_behindFeeds (n : Nat) (cs : List Char) :
    (behindFeeds n cs).Pairwise (· < ·) := by
  fun_induction behindFeeds n cs with
  | case1 => exact .nil
  | case2 n cs behind ih => exact .cons (fun i hi => (lt_and_le_of_mem_behindFeeds i hi).1) ih
  | case3 n c cs behind _ ih => exact ih

/-- Behind the last line start of a text stands the line that the text breaks off in. -/
theorem getLast_behindFeeds (cs : List Char) :
    (0 :: behindFeeds 0 cs).getLast (by simp) + utf8Len (lastLine cs) = utf8Len cs := by
  induction cs using List.reverseRecOn with
  | nil => rfl
  | append_singleton cs c ih =>
      simp only [behindFeeds_append, Nat.zero_add, behindFeeds]
      by_cases hc : c = '\n'
      · subst hc
        simp [lastLine_concat_feed]
      · simp only [hc, if_false, List.append_nil, lastLine_concat hc, String.utf8Len_append,
          ← Nat.add_assoc, ih]

/-- If `k` lines start at the offset or in front of it, the search finds the last of them. -/
theorem index?_searchBetween {starts : Array Nat} {offset low high k : Nat} (h : high ≤ starts.size)
    (hsorted : ∀ i j (hij : i < j) (hj : j < starts.size), starts[i] < starts[j])
    (hk : ∀ i (hi : i < starts.size), starts[i] ≤ offset ↔ i < k)
    (hlow : low ≤ k) (hhigh : k ≤ high) (hpos : 0 < k) :
    (searchBetween starts offset low high h).index? = some (k - 1) := by
  -- Along the search, between bounds that `k` never leaves.
  fun_induction searchBetween starts offset low high h with
  | case1 low high h hlt middle hfound =>
      have hbelow := (hk middle (by omega)).mp (Nat.le_of_eq hfound)
      have hlast : ¬ middle + 1 < k := by
        intro hmore
        have hnext := (hk (middle + 1) (by omega)).mpr hmore
        have hstep := hsorted middle (middle + 1) (Nat.lt_succ_self _) (by omega)
        omega
      obtain rfl : k = middle + 1 := by omega
      rfl
  | case2 low high h hlt middle _ hless ih =>
      have hbelow := (hk middle (by omega)).mp (Nat.le_of_lt hless)
      exact ih hsorted hbelow hhigh
  | case3 low high h hlt middle hne hless ih =>
      have habove : ¬ middle < k := fun hmiddle =>
        absurd ((hk middle (by omega)).mpr hmiddle) (by omega)
      exact ih hsorted hlow (by omega)
  | case4 low high h hlow =>
      obtain rfl : k = low := by omega
      simp [Finding.index?, minus?, Nat.succ_le_of_lt hpos]

theorem ofText_starts_eq {text : String} {before after : List Char}
    (htext : text.toList = before ++ after) :
    (ofText text).starts =
      ((0 :: behindFeeds 0 before) ++ behindFeeds (utf8Len before) after).toArray := by
  rw [ofText, htext, behindFeeds_append, Nat.zero_add, List.cons_append]

/-- The lines that start with the text or behind a line feed before the offset. -/
theorem starts_le_iff {text : String} {before after : List Char}
    (htext : text.toList = before ++ after) (i : Nat) (hi : i < (ofText text).starts.size) :
    (ofText text).starts[i] ≤ utf8Len before ↔ i < before.count '\n' + 1 := by
  have hlength : (0 :: behindFeeds 0 before).length = before.count '\n' + 1 := by
    rw [List.length_cons, length_behindFeeds]
  have hfront : ∀ a ∈ 0 :: behindFeeds 0 before, a ≤ utf8Len before :=
    List.forall_mem_cons.mpr ⟨Nat.zero_le _, fun a ha => by
      simpa using (lt_and_le_of_mem_behindFeeds a ha).2⟩
  simp only [ofText_starts_eq htext, List.getElem_toArray, List.getElem_append, ← hlength]
  split
  · rename_i hline
    exact iff_of_true (hfront _ (List.getElem_mem hline)) hline
  · rename_i hline
    refine iff_of_false (Nat.not_le_of_lt ?_) hline
    exact (lt_and_le_of_mem_behindFeeds _ (List.getElem_mem _)).1

/-- The lines of a text start one behind the other. -/
theorem starts_lt (text : String) (i j : Nat) (hij : i < j) (hj : j < (ofText text).starts.size) :
    (ofText text).starts[i] < (ofText text).starts[j] := by
  have hsorted : (0 :: behindFeeds 0 text.toList).Pairwise (· < ·) :=
    .cons (fun a ha => (lt_and_le_of_mem_behindFeeds a ha).1) (pairwise_behindFeeds 0 text.toList)
  exact List.pairwise_iff_getElem.mp hsorted i j _ _ hij

/-- Behind any characters of the text, the table has the place of a reader that walked over them; no
difference is negative on the way. -/
theorem place?_ofText {text : String} {before after : List Char}
    (htext : text.toList = before ++ after) (source : String) :
    (ofText text).place? (utf8Len before) source =
      some ((Position.start.advance before).toLocation source) := by
  have hcount : before.count '\n' + 1 ≤ (ofText text).starts.size := by
    rw [ofText_starts_eq htext, List.size_toArray, List.length_append, List.length_cons,
      length_behindFeeds]
    omega
  have hline : ((ofText text).search (utf8Len before)).index? = some (before.count '\n') :=
    index?_searchBetween _ (starts_lt text) (starts_le_iff htext) (Nat.zero_le _) hcount
      (Nat.succ_pos _)
  have hstart : (ofText text).starts[before.count '\n']? =
      some ((0 :: behindFeeds 0 before).getLast (by simp)) := by
    rw [ofText_starts_eq htext, List.getElem?_toArray,
      List.getElem?_append_left (by simp [length_behindFeeds]), ← List.getLast?_eq_some_getLast,
      List.getLast?_eq_getElem?, List.length_cons, length_behindFeeds]
    rfl
  have hlast := getLast_behindFeeds before
  have hcolumn : minus? (utf8Len before) ((0 :: behindFeeds 0 before).getLast (by simp)) =
      some (utf8Len (lastLine before)) := by
    rw [minus?, if_pos (by omega)]
    congr 1
    omega
  simp [place?, hline, hstart, hcolumn, Position.advance_start, Position.toLocation]

end LineTable

/-! ### The places of tokens -/

/-- The places of all tokens, and the one where the source stops. -/
def Tokens.places (ts : Tokens) : List Location :=
  ts.list.map Token.location ++ [ts.stop]

/-- A token stands where a reader is that has walked over the text in front of it. -/
theorem Tokens.exists_before_of_mem_cut (source : String) (p : Position) (cs : List Char) :
    ∀ t ∈ cut source p cs, ∃ before rest, cs = before ++ rest ∧ rest ≠ [] ∧
      t.location = (p.advance before).toLocation source := by
  fun_induction cut source p cs with
  | case1 => simp
  | case2 p cs ih =>
      intro t ht
      obtain ⟨before, rest, hsplit, hrest, hplace⟩ := ih t ht
      refine ⟨'/' :: '/' :: cs.takeWhile inComment ++ before, rest, ?_, hrest, ?_⟩
      · rw [List.append_assoc, ← hsplit]
        simp [List.takeWhile_append_dropWhile]
      · rw [hplace, Position.advance_append]
  | case3 p c cs _ _ ih =>
      intro t ht
      obtain ⟨before, rest, rfl, hrest, hplace⟩ := ih t ht
      exact ⟨c :: before, rest, rfl, hrest, hplace⟩
  | case4 p c cs _ _ lexeme ih =>
      refine List.forall_mem_cons.mpr ⟨⟨[], c :: cs, rfl, by simp, rfl⟩, fun t ht => ?_⟩
      obtain ⟨before, rest, hsplit, hrest, hplace⟩ := ih t ht
      refine ⟨lexeme.1.text ++ before, rest, ?_, hrest, ?_⟩
      · rw [List.append_assoc, ← hsplit]
        exact (Lexeme.next_append c cs).symm
      · rw [hplace, Position.advance_append]

/-- Every place is that of a reader that has walked over a part of the text. -/
theorem Tokens.exists_before_of_mem_places {text source : String} :
    ∀ place ∈ (ofSource text source).places, ∃ before after, text.toList = before ++ after ∧
      place = (Position.start.advance before).toLocation source := by
  refine List.forall_mem_append.mpr ⟨List.forall_mem_map.mpr fun t ht => ?_, ?_⟩
  · obtain ⟨before, rest, htext, _, hplace⟩ := exists_before_of_mem_cut source _ _ t ht
    exact ⟨before, rest, htext, hplace⟩
  · exact List.forall_mem_singleton.mpr ⟨text.toList, [], (List.append_nil _).symm, rfl⟩

/-- Two stretches from the start of a text that end in the same line and column are equally long. -/
theorem utf8Len_eq_of_isPrefix {before more : List Char} (h : before <+: more)
    (hline : before.count '\n' = more.count '\n')
    (hcolumn : utf8Len (lastLine before) = utf8Len (lastLine more)) :
    utf8Len before = utf8Len more := by
  obtain ⟨between, rfl⟩ := h
  have hbetween : '\n' ∉ between := by
    rw [List.count_append] at hline
    exact List.count_eq_zero.mp (by omega)
  rw [lastLine_append hbetween, String.utf8Len_append] at hcolumn
  rw [String.utf8Len_append]
  omega

/-- 32 bits keep numbers of that width apart, also one further on. -/
theorem eq_of_ofNat_add_one_eq {m n : Nat} (hm : m < 2 ^ 32) (hn : n < 2 ^ 32)
    (h : UInt32.ofNat (m + 1) = UInt32.ofNat (n + 1)) : m = n := by
  have hnat := congrArg UInt32.toNat h
  simp only [UInt32.toNat_ofNat'] at hnat
  omega

/-- The place behind a stretch from the start of a text, in numbers that 32 bits have room for. -/
structure Location.IsBehind (place : Location) (before : List Char) : Prop where
  offset : place.offset.toNat = utf8Len before
  line : place.line.toNat = before.count '\n' + 1
  column : place.column.toNat = utf8Len (lastLine before) + 1

theorem toNat_ofNat_of_ne {n : Nat} (hle : n ≤ 2 ^ 32) (hne : n ≠ 2 ^ 32) :
    (UInt32.ofNat n).toNat = n :=
  UInt32.toNat_ofNat_of_lt' (Nat.lt_of_le_of_ne hle hne)

/-- A stretch that is not all that 32 bits can measure has an exact place. -/
theorem Position.isBehind_advance_start {before : List Char} (h : utf8Len before + 1 < 2 ^ 32)
    (source : String) : ((start.advance before).toLocation source).IsBehind before := by
  have hwidth := count_feed_add_lastLine_le before
  have hexact (n : Nat) (hn : n < 2 ^ 32) : (UInt32.ofNat n).toNat = n :=
    UInt32.toNat_ofNat_of_lt' hn
  rw [advance_start]
  exact ⟨hexact (utf8Len before) (by omega), hexact (before.count '\n' + 1) (by omega),
    hexact (utf8Len (lastLine before) + 1) (by omega)⟩

/-- In a text that 32 bits can measure, the line table finds the place of every token and of the end
of the text, with no difference negative on the way.  The offset is exact, and so are the line and
the column, except for the one number that has no room in 32 bits; all tokens are too far in front
for that.  No two places share their line and column. -/
theorem Tokens.ofSource_places (text source : String) (h : text.utf8ByteSize < 2 ^ 32) :
    (∀ place ∈ (ofSource text source).places, ∃ before after, text.toList = before ++ after ∧
      (LineTable.ofText text).place? (utf8Len before) source = some place ∧
      place.offset.toNat = utf8Len before ∧
      (before.count '\n' + 1 ≠ 2 ^ 32 → place.line.toNat = before.count '\n' + 1) ∧
      (utf8Len (lastLine before) + 1 ≠ 2 ^ 32 →
        place.column.toNat = utf8Len (lastLine before) + 1)) ∧
    (∀ t ∈ (ofSource text source).list, ∃ before after, text.toList = before ++ after ∧
      t.location.IsBehind before) ∧
    (∀ p ∈ (ofSource text source).places, ∀ q ∈ (ofSource text source).places,
      p.line = q.line → p.column = q.column → p.offset = q.offset) := by
  have hsize (before after : List Char) (htext : text.toList = before ++ after) :
      utf8Len before + utf8Len after < 2 ^ 32 := by
    rwa [← String.utf8Len_append, ← htext, String.utf8Len_toList]
  refine ⟨fun place hplace => ?_, fun t ht => ?_, fun p hp q hq hline hcolumn => ?_⟩
  · obtain ⟨before, after, htext, rfl⟩ := exists_before_of_mem_places place hplace
    have hbefore := hsize before after htext
    have hwidth := count_feed_add_lastLine_le before
    refine ⟨before, after, htext, LineTable.place?_ofText htext source, ?_⟩
    rw [Position.advance_start]
    exact ⟨UInt32.toNat_ofNat_of_lt' (show utf8Len before < 2 ^ 32 by omega),
      toNat_ofNat_of_ne (show before.count '\n' + 1 ≤ 2 ^ 32 by omega),
      toNat_ofNat_of_ne (show utf8Len (lastLine before) + 1 ≤ 2 ^ 32 by omega)⟩
  · obtain ⟨before, rest, htext, hrest, hplace⟩ := exists_before_of_mem_cut source _ _ t ht
    have hbefore := hsize before rest htext
    have hnonempty : utf8Len rest ≠ 0 := by rwa [Ne, String.utf8Len_eq_zero]
    refine ⟨before, rest, htext, ?_⟩
    rw [hplace]
    exact Position.isBehind_advance_start (by omega) source
  · obtain ⟨front, after, htext, rfl⟩ := exists_before_of_mem_places p hp
    obtain ⟨other, behind, htext', rfl⟩ := exists_before_of_mem_places q hq
    have hfront := hsize front after htext
    have hother := hsize other behind htext'
    have hwidth := count_feed_add_lastLine_le front
    have hwidth' := count_feed_add_lastLine_le other
    rw [Position.advance_start, Position.advance_start] at hline hcolumn ⊢
    have hfeeds := eq_of_ofNat_add_one_eq (by omega) (by omega) hline
    have hbytes := eq_of_ofNat_add_one_eq (by omega) (by omega) hcolumn
    -- Both are read from the start of one text, so one of them is a part of the other.
    have hlength : utf8Len front = utf8Len other := by
      obtain hprefix | hprefix := List.prefix_or_prefix_of_prefix
        ⟨after, htext.symm⟩ ⟨behind, htext'.symm⟩
      · exact utf8Len_eq_of_isPrefix hprefix hfeeds hbytes
      · exact (utf8Len_eq_of_isPrefix hprefix hfeeds.symm hbytes.symm).symm
    exact congrArg UInt32.ofNat hlength

/-- Behind a letter of two bytes, a line feed and a blank stands a name in column two. -/
theorem Tokens.ofSource_places_second_line :
    "é\n x\n".utf8ByteSize < 2 ^ 32 ∧
      (LineTable.ofText "é\n x\n").place? 4 "s" = some ⟨4, 2, 2, "s"⟩ := by
  have hplaces : (ofSource "é\n x\n" "s").places =
      [⟨0, 1, 1, "s"⟩, ⟨4, 2, 2, "s"⟩, ⟨6, 3, 1, "s"⟩] := by
    with_unfolding_all rfl
  obtain ⟨before, after, _, htable, hoffset, _⟩ :=
    (ofSource_places "é\n x\n" "s" (by decide)).1 ⟨4, 2, 2, "s"⟩ (by simp [hplaces])
  rw [← hoffset] at htable
  exact ⟨by decide, htable⟩

/-- A text of line feeds. -/
def feeds (n : Nat) : String :=
  String.ofList (List.replicate n '\n')

theorem utf8ByteSize_feeds (n : Nat) : (feeds n).utf8ByteSize = n := by
  rw [← String.utf8Len_toList, feeds, String.toList_ofList]
  induction n with
  | zero => rfl
  | succ n ih => rw [List.replicate_succ, String.utf8Len_cons, ih]; rfl

theorem count_feeds (n : Nat) : (feeds n).toList.count '\n' = n := by
  rw [feeds, String.toList_ofList, List.count_replicate_self]

/-- As many line feeds as 32 bits can measure end in a line of that number, counted from zero. -/
theorem Tokens.stop_line_of_feeds :
    (feeds (2 ^ 32 - 1)).utf8ByteSize < 2 ^ 32 ∧
      (feeds (2 ^ 32 - 1)).toList.count '\n' + 1 = 2 ^ 32 ∧
      (ofSource (feeds (2 ^ 32 - 1)) "").stop.line.toNat = 0 := by
  have hstop : (ofSource (feeds (2 ^ 32 - 1)) "").stop =
      (Position.start.advance (feeds (2 ^ 32 - 1)).toList).toLocation "" := rfl
  rw [utf8ByteSize_feeds, hstop, Position.advance_start, count_feeds]
  decide

end SchemaLang
