import SchemaLang.Proofs.Tokenization

/-!
# Nothing is lost between tokens

`Laid` places a list of tokens in a text: blanks and whole comments, a token, blanks and whole
comments, the next token, and so on to the end of the text.  `laid_cut` says that the tokens of a
text lie in it like that, from which `Tokens.ofSource_covers` reads off where each of them stands.
-/

namespace SchemaLang

open Lexeme
open String (utf8Len)

/-- Blanks and whole comments, in front of what stands behind them. -/
inductive Skip : List Char → List Char → Prop
  | nil (after : List Char) : Skip [] after
  | blank {c : Char} {gap after : List Char} (hc : IsBlank c) (hmore : Skip gap after) :
      Skip (c :: gap) after
  | comment {word gap after : List Char} (hword : word ∈ Pattern.comment)
      (hrest : LineEnds (gap ++ after)) (hmore : Skip gap after) : Skip (word ++ gap) after

/-- The first byte of a token. -/
def Token.start (t : Token) : Nat :=
  t.location.offset.toNat

/-- The byte behind a token. -/
def Token.finish (t : Token) : Nat :=
  t.start + t.literal.utf8ByteSize

/-- The tokens of a text with `n` bytes before it: in front of each of them, and of the byte where
the text stops, are blanks and whole comments only. -/
inductive Laid (stop : Nat) : Nat → List Char → List Token → Prop
  | stop {n : Nat} {gap : List Char} (hgap : Skip gap []) (hstop : stop = n + utf8Len gap) :
      Laid stop n gap []
  | token {n : Nat} {gap rest : List Char} {t : Token} {ts : List Token}
      (hgap : Skip gap (t.literal.toList ++ rest)) (hstart : t.start = n + utf8Len gap)
      (hliteral : t.literal ≠ "") (hmore : Laid stop t.finish rest ts) :
      Laid stop n (gap ++ (t.literal.toList ++ rest)) (t :: ts)

/-- The piece is what the text has from byte `i` on, as far as the piece goes. -/
def StandsAt (text : String) (i : Nat) (piece : String) : Prop :=
  ∃ before after : String, text = before ++ piece ++ after ∧ before.utf8ByteSize = i

/-! ### What is skipped -/

namespace Skip

theorem append {gap more after : List Char} (h : Skip gap (more ++ after))
    (hmore : Skip more after) : Skip (gap ++ more) after := by
  generalize hafter : more ++ after = text at h
  induction h with
  | nil => exact hmore
  | blank hc _ ih => exact .blank hc (ih hafter)
  | @comment word gap text hword hrest _ ih =>
      rw [List.append_assoc]
      exact .comment hword (by rwa [List.append_assoc, hafter]) (ih hafter)

theorem singleton {c : Char} (hc : IsBlank c) (after : List Char) : Skip [c] after :=
  .blank hc (.nil after)

/-- The comment at the front of a text goes to the end of its line. -/
theorem line (cs : List Char) :
    Skip ('/' :: '/' :: cs.takeWhile Tokens.inComment) (cs.dropWhile Tokens.inComment) := by
  have hword := mem_comment_iff.mpr ⟨_, not_mem_takeWhile_inComment cs, rfl⟩
  have hgap : Skip ('/' :: '/' :: cs.takeWhile Tokens.inComment ++ [])
      (cs.dropWhile Tokens.inComment) := .comment hword (lineEnds_dropWhile cs) (.nil _)
  rwa [List.append_nil] at hgap

end Skip

/-! ### Where tokens stand -/

namespace Laid

variable {stop n : Nat} {cs : List Char} {ts : List Token}

/-- What is skipped may stand in front. -/
theorem skip {gap : List Char} (hgap : Skip gap cs) (h : Laid stop (n + utf8Len gap) cs ts) :
    Laid stop n (gap ++ cs) ts := by
  cases h with
  | stop hmore hstop =>
      refine .stop (Skip.append ?_ hmore) ?_
      · rwa [List.append_nil]
      · rw [hstop, String.utf8Len_append, Nat.add_assoc]
  | token hmore hstart hliteral htail =>
      rw [← List.append_assoc]
      refine .token (hgap.append hmore) ?_ hliteral htail
      rw [hstart, String.utf8Len_append, Nat.add_assoc]

/-- Nothing has to be skipped in front of a token. -/
theorem cons {t : Token} (hstart : t.start = n) (hliteral : t.literal ≠ "")
    (h : Laid stop t.finish cs ts) : Laid stop n (t.literal.toList ++ cs) (t :: ts) := by
  have hlaid := Laid.token (n := n) (.nil (t.literal.toList ++ cs)) hstart hliteral h
  rwa [List.nil_append] at hlaid

theorem ne_empty (h : Laid stop n cs ts) : ∀ t ∈ ts, t.literal ≠ "" := by
  induction h with
  | stop => simp
  | token _ _ hliteral _ ih => exact List.forall_mem_cons.mpr ⟨hliteral, ih⟩

theorem le_start (h : Laid stop n cs ts) : ∀ t ∈ ts, n ≤ t.start := by
  induction h with
  | stop => simp
  | token _ hstart _ _ ih =>
      refine List.forall_mem_cons.mpr ⟨by omega, fun u hu => ?_⟩
      have hlater := ih u hu
      unfold Token.finish at hlater
      omega

/-- Tokens stand one behind the other. -/
theorem pairwise (h : Laid stop n cs ts) : ts.Pairwise fun t u => t.finish ≤ u.start := by
  induction h with
  | stop => exact .nil
  | token _ _ _ hmore ih => exact .cons hmore.le_start ih

theorem exists_split (h : Laid stop n cs ts) : ∀ t ∈ ts,
    ∃ before after, cs = before ++ t.literal.toList ++ after ∧ t.start = n + utf8Len before := by
  induction h with
  | stop => simp
  | @token n gap rest t ts _ hstart _ _ ih =>
      refine List.forall_mem_cons.mpr ⟨⟨gap, rest, by simp, hstart⟩, fun u hu => ?_⟩
      obtain ⟨before, after, rfl, hu⟩ := ih u hu
      refine ⟨gap ++ (t.literal.toList ++ before), after, by simp, ?_⟩
      rw [hu, Token.finish, hstart]
      simp only [String.utf8Len_append, String.utf8Len_toList]
      omega

theorem standsAt {text : String} (h : Laid stop 0 text.toList ts) :
    ∀ t ∈ ts, StandsAt text t.start t.literal := by
  intro t ht
  obtain ⟨before, after, htext, hstart⟩ := h.exists_split t ht
  refine ⟨String.ofList before, String.ofList after, ?_, ?_⟩
  · rw [← String.toList_inj, htext]
    simp
  · rw [String.utf8ByteSize_ofList, hstart, Nat.zero_add]

end Laid

/-- Cutting a text lays its tokens out, as long as 32 bits hold every offset. -/
theorem laid_cut (source : String) (p : Position) (cs : List Char)
    (h : p.offset + utf8Len cs < 2 ^ 32) :
    Laid (p.offset + utf8Len cs) p.offset cs (Tokens.cut source p cs) := by
  fun_induction Tokens.cut source p cs with
  | case1 p => exact .stop (.nil []) rfl
  | case2 p cs ih =>
      have hsplit : '/' :: '/' :: cs.takeWhile Tokens.inComment ++ cs.dropWhile Tokens.inComment =
          '/' :: '/' :: cs := by simp [List.takeWhile_append_dropWhile]
      rw [← hsplit, String.utf8Len_append, ← Nat.add_assoc] at h ⊢
      rw [Position.offset_advance] at ih
      exact .skip (.line cs) (ih h)
  | case3 p c cs _ hblank ih =>
      rw [← List.singleton_append, String.utf8Len_append, ← Nat.add_assoc] at h ⊢
      have hoffset : (p.after c).offset = p.offset + utf8Len [c] := Position.offset_advance p [c]
      rw [hoffset] at ih
      exact .skip (.singleton (isBlank_iff.mp hblank) cs) (ih h)
  | case4 p c cs _ _ lexeme ih =>
      -- Nothing is skipped here: the gap in front of a token was taken by the other two cases.
      rw [← next_append c cs, String.utf8Len_append, ← Nat.add_assoc] at h ⊢
      rw [Position.offset_advance] at ih
      have hstart : (UInt32.ofNat p.offset).toNat = p.offset := by
        rw [UInt32.toNat_ofNat']
        exact Nat.mod_eq_of_lt (by omega)
      generalize htoken : (⟨lexeme.1.kind, String.ofList lexeme.1.text, p.toLocation source⟩ :
        Token) = t
      have htext : lexeme.1.text = t.literal.toList := by rw [← htoken, String.toList_ofList]
      have hplace : t.start = p.offset := by rw [← htoken]; exact hstart
      have hfinish : t.finish = p.offset + utf8Len lexeme.1.text := by
        rw [Token.finish, hplace, htext, String.utf8Len_toList]
      have hne : t.literal ≠ "" := by
        rw [← htoken]
        simpa using next_text_ne_nil c cs
      rw [← hfinish] at h ih ⊢
      have hlaid := Laid.cons hplace hne (ih h)
      rwa [← htext] at hlaid

/-- The tokens of a text that 32 bits can measure stand in it one behind the other, each of them
where it says it is, with nothing but blanks and whole comments around them. -/
theorem Tokens.ofSource_covers (text source : String) (h : text.utf8ByteSize < 2 ^ 32) :
    Laid text.utf8ByteSize 0 text.toList (ofSource text source).list ∧
      (ofSource text source).stop.offset.toNat = text.utf8ByteSize ∧
      (∀ t ∈ (ofSource text source).list, t.literal ≠ "" ∧ StandsAt text t.start t.literal) ∧
      (ofSource text source).list.Pairwise fun t u => t.finish ≤ u.start := by
  have hsize : Position.start.offset + utf8Len text.toList = text.utf8ByteSize := by
    rw [String.utf8Len_toList, Position.start, Nat.zero_add]
  have hlaid := laid_cut source .start text.toList (by rwa [hsize])
  rw [hsize] at hlaid
  have hstop : (ofSource text source).stop.offset.toNat = text.utf8ByteSize := by
    rw [← Nat.mod_eq_of_lt h, ← hsize, ← Position.offset_advance]
    exact UInt32.toNat_ofNat'
  exact ⟨hlaid, hstop, fun t ht => ⟨hlaid.ne_empty t ht, hlaid.standsAt t ht⟩, hlaid.pairwise⟩

theorem Tokens.ofSource_covers_open_quote :
    "é \"x".utf8ByteSize < 2 ^ 32 ∧
      Laid 5 0 ['é', ' ', '"', 'x']
        [⟨.invalid, "é", ⟨0, 1, 1, "s"⟩⟩, ⟨.invalid, "\"x", ⟨3, 1, 4, "s"⟩⟩] := by
  have htokens : (ofSource "é \"x" "s").list =
      [⟨.invalid, "é", ⟨0, 1, 1, "s"⟩⟩, ⟨.invalid, "\"x", ⟨3, 1, 4, "s"⟩⟩] := by
    with_unfolding_all rfl
  have hlaid := (ofSource_covers "é \"x" "s" (by decide)).1
  rw [htokens] at hlaid
  exact ⟨by decide, hlaid⟩

end SchemaLang
