import SchemaLang.Proofs.Coverage

/-!
# Layout between tokens

Blanks and comments may be put in front of a token and behind it, and at the end of a source.
`Spaced` says of two texts that the second is the first with such layout put into it, at as many
places as one likes.  Where the text behind a lexeme has changed, it has a blank before it differs
from the old one.  Only quotations and comments have blanks in them, so the lexeme is cut off as
before.
-/

namespace SchemaLang

open Lexeme Tokens

/-- Some blanks, and behind them a comment with its line feed, or no comment. -/
inductive Layout : List Char → Prop
  | blanks {run : List Char} (hne : run ≠ []) (hrun : ∀ c ∈ run, IsBlank c) : Layout run
  | comment {run line : List Char} (hne : run ≠ []) (hrun : ∀ c ∈ run, IsBlank c)
      (hline : '\n' ∉ line) : Layout (run ++ '/' :: '/' :: (line ++ ['\n']))

/-- Layout, or nothing. -/
def Filler (text : List Char) : Prop :=
  text = [] ∨ Layout text

/-- A text, and one that has fillers before and behind the tokens and at the end besides. -/
inductive Spaced : List Char → List Char → Prop
  | stop {gap filler : List Char} (hgap : Skip gap []) (hfiller : Filler filler) :
      Spaced gap (gap ++ filler)
  | token {gap before behind rest : List Char} {c : Char} {cs : List Char}
      (hgap : Skip gap (c :: cs)) (hstart : AtToken (c :: cs)) (hbefore : Filler before)
      (hbehind : Filler behind) (hmore : Spaced (next c cs).2 rest) :
      Spaced (gap ++ (c :: cs)) (gap ++ (before ++ ((next c cs).1.text ++ (behind ++ rest))))

/-! ### Cutting by what comes next -/

namespace Tokens

theorem cut_nil (source : String) (p : Position) : cut source p [] = [] := by
  rw [cut]

theorem cut_blank {c : Char} (hc : IsBlank c) (source : String) (p : Position) (cs : List Char) :
    cut source p (c :: cs) = cut source (p.after c) cs := by
  rw [cut, if_pos (isBlank_iff.mpr hc)]
  rintro ds rfl -
  simp [IsBlank] at hc

theorem cut_comment {line rest : List Char} (hline : '\n' ∉ line) (hrest : LineEnds rest)
    (source : String) (p : Position) :
    cut source p ('/' :: '/' :: (line ++ rest)) =
      cut source (p.advance ('/' :: '/' :: line)) rest := by
  obtain ⟨htake, hdrop⟩ := span_line hline hrest
  rw [cut, htake, hdrop]

theorem cut_token {c : Char} {cs : List Char} (hstart : AtToken (c :: cs)) (source : String)
    (p : Position) : cut source p (c :: cs) =
      ⟨(next c cs).1.kind, String.ofList (next c cs).1.text, p.toLocation source⟩ ::
        cut source (p.advance (next c cs).1.text) (next c cs).2 := by
  have hblank : ¬ isBlank c := fun hc => hstart.2.1 c rfl (isBlank_iff.mp hc)
  rw [cut, if_neg hblank]
  rintro ds rfl rfl
  exact not_atToken_comment ds hstart

/-- What is skipped changes places only. -/
theorem cut_skip {gap after : List Char} (h : Skip gap after) (source : String) (p : Position) :
    cut source p (gap ++ after) = cut source (p.advance gap) after := by
  induction h generalizing p with
  | nil => rfl
  | blank hc _ ih =>
      rw [List.cons_append, cut_blank hc, ih]
      rfl
  | comment hword hrest _ ih =>
      obtain ⟨line, hline, rfl⟩ := mem_comment_iff.mp hword
      rw [List.append_assoc, List.cons_append, List.cons_append, cut_comment hline hrest, ih,
        Position.advance_append]

end Tokens

/-! ### Fillers are skipped -/

namespace Skip

theorem blanks {run gap after : List Char} (hrun : ∀ c ∈ run, IsBlank c) (h : Skip gap after) :
    Skip (run ++ gap) after := by
  induction run with
  | nil => exact h
  | cons c run ih =>
      obtain ⟨hc, hrun⟩ := List.forall_mem_cons.mp hrun
      exact .blank hc (ih hrun)

theorem comment_line {line : List Char} (hline : '\n' ∉ line) (after : List Char) :
    Skip ('/' :: '/' :: (line ++ ['\n'])) after := by
  have hword := mem_comment_iff.mpr ⟨line, hline, rfl⟩
  have hfeed : IsBlank '\n' := by simp [IsBlank]
  exact .comment hword (by simp [LineEnds]) (.singleton hfeed after)

/-- In front of a token, a gap has no open comment at its end. -/
theorem of_atToken {gap text : List Char} (h : Skip gap text) (hstart : AtToken text)
    (other : List Char) : Skip gap other := by
  induction h with
  | nil => exact .nil other
  | blank hc _ ih => exact .blank hc (ih hstart)
  | @comment word gap text hword hrest _ ih =>
      refine .comment hword ?_ (ih hstart)
      cases gap with
      | nil =>
          -- A comment that ends the gap would go on to a line feed, and no token starts with one.
          obtain ⟨hne, hblank, -⟩ := hstart
          cases text with
          | nil => exact absurd rfl hne
          | cons c cs =>
              have hfeed : c = '\n' := hrest c rfl
              exact absurd (by simp [IsBlank, hfeed]) (hblank c rfl)
      | cons c gap => exact hrest

/-- A gap at the end may go on with what may stand there, if what is left of that behind an open
comment may. -/
theorem append_of_nil {gap more : List Char} (h : Skip gap []) (hmore : Skip more [])
    (hline : Skip (more.dropWhile inComment) []) : Skip (gap ++ more) [] := by
  generalize hend : ([] : List Char) = text at h
  induction h with
  | nil => exact hend ▸ hmore
  | blank hc _ ih => exact .blank hc (ih hend)
  | @comment word gap text hword hrest _ ih =>
      subst hend
      cases gap with
      | nil =>
          -- The comment was open at the end, so that it now takes in the first line of `more`.
          obtain ⟨line, hnotin, rfl⟩ := mem_comment_iff.mp hword
          have hopen : '/' :: '/' :: (line ++ more.takeWhile inComment) ∈ Pattern.comment := by
            refine mem_comment_iff.mpr ⟨_, ?_, rfl⟩
            simpa [hnotin] using not_mem_takeWhile_inComment more
          have hrest : LineEnds (more.dropWhile inComment ++ []) := by
            rw [List.append_nil]
            exact lineEnds_dropWhile more
          have hskip := Skip.comment hopen hrest hline
          simpa [List.takeWhile_append_dropWhile] using hskip
      | cons c gap =>
          rw [List.append_assoc]
          exact .comment hword hrest (ih rfl)

end Skip

namespace Layout

theorem skip {text : List Char} (h : Layout text) (after : List Char) : Skip text after := by
  cases h with
  | blanks _ hrun =>
      have hskip := Skip.blanks hrun (.nil after)
      rwa [List.append_nil] at hskip
  | comment _ hrun hline => exact .blanks hrun (.comment_line hline after)

theorem exists_cons {text : List Char} (h : Layout text) : ∃ c cs, text = c :: cs ∧ IsBlank c := by
  have hcons {run : List Char} (more : List Char) (hne : run ≠ []) (hrun : ∀ c ∈ run, IsBlank c) :
      ∃ c cs, run ++ more = c :: cs ∧ IsBlank c := by
    cases run with
    | nil => exact absurd rfl hne
    | cons c run => exact ⟨c, run ++ more, rfl, hrun c List.mem_cons_self⟩
  cases h with
  | blanks hne hrun =>
      have hblank := hcons [] hne hrun
      rwa [List.append_nil] at hblank
  | comment hne hrun => exact hcons _ hne hrun

end Layout

theorem skip_dropWhile_blanks {run more : List Char} (hrun : ∀ c ∈ run, IsBlank c)
    (hmore : Skip more []) (hline : Skip (more.dropWhile inComment) []) :
    Skip ((run ++ more).dropWhile inComment) [] := by
  induction run with
  | nil => exact hline
  | cons c run ih =>
      by_cases hc : inComment c
      · rw [List.cons_append, List.dropWhile_cons_of_pos hc]
        exact ih (List.forall_mem_cons.mp hrun).2
      · rw [List.cons_append, List.dropWhile_cons_of_neg hc]
        exact .blanks hrun hmore

/-- The end of its first line is all that an open comment leaves of layout. -/
theorem Layout.skip_dropWhile {text : List Char} (h : Layout text) :
    Skip (text.dropWhile inComment) [] := by
  cases h with
  | blanks _ hrun =>
      have hskip := skip_dropWhile_blanks hrun (.nil []) (.nil [])
      rwa [List.append_nil] at hskip
  | @comment run line _ hrun hline =>
      refine skip_dropWhile_blanks hrun (.comment_line hline []) ?_
      have hfeed : IsBlank '\n' := by simp [IsBlank]
      have hcomment : '\n' ∉ '/' :: '/' :: line := by simpa using hline
      have hrest : ('/' :: '/' :: (line ++ ['\n'])).dropWhile inComment = ['\n'] :=
        (span_line hcomment (by simp [LineEnds])).2
      rw [hrest]
      exact .singleton hfeed []

namespace Filler

variable {filler : List Char}

theorem skip (h : Filler filler) (after : List Char) : Skip filler after := by
  obtain rfl | hlayout := h
  · exact .nil after
  · exact hlayout.skip after

/-- A filler may stand at the end of a text. -/
theorem skip_append {gap : List Char} (h : Filler filler) (hgap : Skip gap []) :
    Skip (gap ++ filler) [] := by
  obtain rfl | hlayout := h
  · rwa [List.append_nil]
  · exact hgap.append_of_nil (hlayout.skip []) hlayout.skip_dropWhile

end Filler

/-! ### Texts with layout in them -/

namespace Spaced

/-- What is skipped may stand in front. -/
theorem skip {gap text other : List Char} (hgap : Skip gap text) (h : Spaced text other) :
    Spaced (gap ++ text) (gap ++ other) := by
  cases h with
  | stop hmore hfiller =>
      rw [← List.append_assoc]
      exact .stop (Skip.append (by rwa [List.append_nil]) hmore) hfiller
  | token hmore hstart hbefore hbehind htail =>
      rw [← List.append_assoc, ← List.append_assoc]
      exact .token (hgap.append hmore) hstart hbefore hbehind htail

/-- One lexeme, with fillers around it. -/
theorem lexeme {before behind rest other : List Char} {c : Char} {cs : List Char} {l : Lexeme}
    (hnext : next c cs = (l, rest)) (hstart : AtToken (c :: cs)) (hbefore : Filler before)
    (hbehind : Filler behind) (h : Spaced rest other) :
    Spaced (c :: cs) (before ++ (l.text ++ (behind ++ other))) := by
  have hspaced := Spaced.token (.nil (c :: cs)) hstart hbefore hbehind (by rwa [hnext])
  rwa [hnext] at hspaced

/-- A text need not be changed. -/
theorem refl (text : List Char) : Spaced text text := by
  induction hlength : text.length using Nat.strongRecOn generalizing text with
  | ind n ih =>
  subst hlength
  cases text with
  | nil => exact .stop (.nil []) (.inl rfl)
  | cons c cs =>
  by_cases hblank : IsBlank c
  · exact skip (.singleton hblank cs) (ih _ (Nat.lt_succ_self _) cs rfl)
  by_cases hcomment : ['/', '/'] <+: c :: cs
  · obtain ⟨ds, hds⟩ := hcomment
    have hsplit : '/' :: '/' :: ds.takeWhile inComment ++ ds.dropWhile inComment = c :: cs := by
      rw [← hds]
      simp [List.takeWhile_append_dropWhile]
    have hshorter : (ds.dropWhile inComment).length < (c :: cs).length := by
      rw [← hsplit, List.length_append]
      simp
    rw [← hsplit]
    exact skip (.line ds) (ih _ hshorter _ rfl)
  · have hstart : AtToken (c :: cs) := ⟨List.cons_ne_nil _ _, by simpa using hblank, hcomment⟩
    have hmore := ih _ (next_length_lt c cs) _ rfl
    have hsame := lexeme (Prod.eta (next c cs)).symm hstart (.inl rfl) (.inl rfl) hmore
    rwa [List.nil_append, List.nil_append, next_append] at hsame

end Spaced

/-! ### What comes behind a token -/

/-- Up to its first blank, the other text is the same. -/
def SameToBlank (text other : List Char) : Prop :=
  ∀ x, x <+: other → (∀ c ∈ x, ¬ IsBlank c) → x <+: text

namespace SameToBlank

theorem append (u : List Char) {text other : List Char} (h : SameToBlank text other) :
    SameToBlank (u ++ text) (u ++ other) := by
  intro x hx hblank
  obtain hshort | ⟨v, rfl⟩ := List.prefix_or_prefix_of_prefix hx (List.prefix_append u other)
  · exact hshort.trans (List.prefix_append u text)
  · rw [List.prefix_append_right_inj] at hx ⊢
    exact h v hx fun c hc => hblank c (List.mem_append_right _ hc)

theorem cons_blank {c : Char} (hc : IsBlank c) (text cs : List Char) :
    SameToBlank text (c :: cs) := by
  intro x hx hblank
  cases x with
  | nil => exact List.nil_prefix
  | cons d x =>
      obtain ⟨rfl, -⟩ := List.cons_prefix_cons.mp hx
      exact absurd hc (hblank d List.mem_cons_self)

theorem filler {filler text other : List Char} (hfiller : Filler filler)
    (h : SameToBlank text other) : SameToBlank text (filler ++ other) := by
  obtain rfl | hlayout := hfiller
  · exact h
  · obtain ⟨c, cs, rfl, hc⟩ := hlayout.exists_cons
    exact cons_blank hc text _

end SameToBlank

theorem Spaced.sameToBlank {text other : List Char} (h : Spaced text other) :
    SameToBlank text other := by
  induction h with
  | @stop gap filler _ hfiller =>
      have hend := (SameToBlank.filler hfiller (fun x hx _ => hx : SameToBlank [] [])).append gap
      rwa [List.append_nil, List.append_nil] at hend
  | @token gap before behind rest c cs _ _ hbefore hbehind _ ih =>
      have hmore := ((ih.filler hbehind).append (next c cs).1.text).filler hbefore
      rw [next_append] at hmore
      exact hmore.append gap

/-! ### A lexeme in front of another text -/

namespace Lexeme

theorem not_isBlank_of_isNameChar {c : Char} (h : isNameChar c) : ¬ IsBlank c := by
  rintro (rfl | rfl | rfl | rfl | rfl) <;> exact absurd h (by decide)

theorem IsParts.not_isBlank {parts : List Char} (h : IsParts parts) : ∀ c ∈ parts, ¬ IsBlank c := by
  induction h with
  | nil => simp
  | cons hc hu _ ih =>
      refine List.forall_mem_cons.mpr ⟨by simp [IsBlank], List.forall_mem_cons.mpr ⟨?_, ?_⟩⟩
      · exact not_isBlank_of_isNameChar (by simp [isNameChar, hc])
      · exact List.forall_mem_append.mpr ⟨fun c hmem => not_isBlank_of_isNameChar (hu c hmem), ih⟩

theorem IsName.not_isBlank {w : List Char} (h : IsName w) : ∀ c ∈ w, ¬ IsBlank c := by
  cases h with
  | intro hc hu hparts =>
      refine List.forall_mem_cons.mpr ⟨?_, List.forall_mem_append.mpr ⟨?_, hparts.not_isBlank⟩⟩
      · exact not_isBlank_of_isNameChar (by simp [isNameChar, hc])
      · exact fun c hmem => not_isBlank_of_isNameChar (hu c hmem)

theorem IsDigits.not_isBlank {w : List Char} (h : IsDigits w) : ∀ c ∈ w, ¬ IsBlank c :=
  fun c hc => not_isBlank_of_isNameChar (by simp [isNameChar, h.2 c hc])

theorem IsMark.not_isBlank {mark : Char} (h : IsMark mark) : ¬ IsBlank mark := by
  obtain rfl | rfl := h <;> simp [IsBlank]

theorem IsExponent.not_isBlank {e : List Char} (h : IsExponent e) : ∀ c ∈ e, ¬ IsBlank c := by
  cases h with
  | none => simp
  | unsigned hmark hds => exact List.forall_mem_cons.mpr ⟨hmark.not_isBlank, hds.not_isBlank⟩
  | signed hmark hsign hds =>
      refine List.forall_mem_cons.mpr ⟨hmark.not_isBlank, List.forall_mem_cons.mpr ⟨?_, ?_⟩⟩
      · obtain rfl | rfl := hsign <;> simp [IsBlank]
      · exact hds.not_isBlank

theorem IsDecimal.not_isBlank {w : List Char} (h : IsDecimal w) : ∀ c ∈ w, ¬ IsBlank c := by
  cases h with
  | intro hwhole hfraction hexponent =>
      refine List.forall_mem_append.mpr ⟨hwhole.not_isBlank, ?_⟩
      refine List.forall_mem_cons.mpr ⟨by simp [IsBlank], ?_⟩
      exact List.forall_mem_append.mpr ⟨hfraction.not_isBlank, hexponent.not_isBlank⟩

theorem not_isBlank_of_punctuation? {c : Char} {kind : TokenKind}
    (h : punctuation? c = some kind) : ¬ IsBlank c := by
  rintro (rfl | rfl | rfl | rfl | rfl) <;> cases h

/-- Of the tokens only strings have blanks in them. -/
theorem isQuoted_or_not_isBlank {kind : TokenKind} {w : List Char} (h : w ∈ kind.pattern) :
    IsQuoted w ∨ ∀ c ∈ w, ¬ IsBlank c := by
  rcases mem_pattern_cases h with ⟨hname, -⟩ | ⟨-, hdigits⟩ | ⟨-, hdecimal⟩ | ⟨-, hquoted⟩ |
    ⟨c, rfl, hc⟩
  · exact .inr hname.not_isBlank
  · exact .inr hdigits.not_isBlank
  · exact .inr hdecimal.not_isBlank
  · exact .inl hquoted
  · exact .inr (by simpa using not_isBlank_of_punctuation? hc)

theorem isQuoted_of_cons {kind : TokenKind} {u : List Char} (h : '"' :: u ∈ kind.pattern) :
    IsQuoted ('"' :: u) := by
  have hself : '"' :: u <+: '"' :: u := List.prefix_refl _
  rcases mem_pattern_cases h with ⟨hname, -⟩ | ⟨-, hdigits⟩ | ⟨-, hdecimal⟩ | ⟨-, hquoted⟩ |
    ⟨c, hc, hsome⟩
  · exact absurd (hname.isPrefix_name hself).1 (by decide)
  · exact absurd (hdigits.isPrefix_number hself).1 (by decide)
  · exact absurd (hdecimal.isPrefix_number hself).1 (by decide)
  · exact hquoted
  · cases hc
    cases hsome

/-- A string ends at its second quote. -/
theorem IsQuoted.eq_of_isPrefix {v w : List Char} (hw : IsQuoted w) (hv : IsQuoted v)
    (h : v <+: w) : v = w := by
  cases w with
  | nil => cases hw
  | cons c cs =>
      have hshort := (hv.quoted_eq h).2
      have hlong := (hw.quoted_eq (List.prefix_refl _)).2
      exact congrArg Lexeme.text (hshort.symm.trans hlong)

end Lexeme

/-- A token starts as well where its lexeme is in front of another text. -/
theorem AtToken.of_sameToBlank {word rest other : List Char} (h : AtToken (word ++ rest))
    (hne : word ≠ []) (hother : SameToBlank rest other) : AtToken (word ++ other) := by
  obtain ⟨-, hblank, hcomment⟩ := h
  refine ⟨by simp [hne], ?_, fun hstart => hcomment ?_⟩
  · rwa [List.head?_append_of_ne_nil _ hne] at hblank ⊢
  · exact hother.append word _ hstart (by simp [IsBlank])

theorem SameToBlank.head?_ne {rest other : List Char} {c : Char} (h : SameToBlank rest other)
    (hc : ¬ IsBlank c) (hne : rest.head? ≠ some c) : other.head? ≠ some c := by
  intro hother
  obtain ⟨more, rfl⟩ := List.head?_eq_some_iff.mp hother
  obtain ⟨t, rfl⟩ := h [c] (List.prefix_append [c] more) (by simpa using hc)
  exact hne rfl

/-- Only a dot behind a word matters for its kind. -/
theorem Wins.of_head? {word rest other : List Char} {kind : TokenKind} (h : Wins word rest kind)
    (hrest : rest.head? ≠ some '.') (hother : other.head? ≠ some '.') : Wins word other kind := by
  cases h with
  | keyword hkind hword => exact .keyword hkind hword hother
  | identifier hword hkeyword =>
      exact .identifier hword fun kind hkind hmem => absurd (hkeyword kind hkind hmem) hrest
  | other hkind hword => exact .other hkind hword

/-- The longest match stays the longest in front of a text that is the same up to its first blank:
a longer one would have that blank in it, so both would be strings, which end at their second
quote. -/
theorem IsLongest.of_sameToBlank {word rest other : List Char} {kind : TokenKind}
    (h : IsLongest (word ++ rest) word rest) (hne : word ≠ []) (hkind : word ∈ kind.pattern)
    (hcomment : ¬ ['/', '/'] <+: word ++ other) (hother : SameToBlank rest other) :
    IsLongest (word ++ other) word other where
  split := rfl
  fits := .inr ⟨kind, hkind⟩
  longest w hw hfits := by
    obtain ⟨kind', hmem⟩ := exists_mem_pattern hcomment hw hfits
    obtain hshort | ⟨x, rfl⟩ := List.prefix_or_prefix_of_prefix hw (List.prefix_append word other)
    · exact hshort.length_le
    -- A match that reaches past the old word is a string or has no blank; without one, it was a
    -- match in front of the old text too.
    obtain hquoted | hblank := isQuoted_or_not_isBlank hmem
    · obtain ⟨c, u, rfl⟩ := List.exists_cons_of_ne_nil hne
      have hc : c = '"' := (hquoted.quoted_eq (List.prefix_refl _)).1
      subst hc
      have hsame := hquoted.eq_of_isPrefix (isQuoted_of_cons hkind) (List.prefix_append _ x)
      exact Nat.le_of_eq (congrArg List.length hsame.symm)
    · rw [List.prefix_append_right_inj] at hw
      have hx : x <+: rest := hother x hw fun c hc => hblank c (List.mem_append_right _ hc)
      exact h.longest _ ((List.prefix_append_right_inj word).mpr hx) hfits

/-- The lexeme at the front of a text is the same in front of another that is the same up to its
first blank.  A dot behind a keyword would tell the two apart. -/
theorem next_of_sameToBlank {c : Char} {cs other : List Char} (hstart : AtToken (c :: cs))
    (hkind : (next c cs).1.kind ≠ .invalid) (hdot : (next c cs).2.head? ≠ some '.')
    (hother : SameToBlank (next c cs).2 other) :
    ∃ d ds, (next c cs).1.text ++ other = d :: ds ∧ AtToken (d :: ds) ∧
      next d ds = ((next c cs).1, other) := by
  have hwins := wins_next hkind
  have hlongest := isLongest_next hstart.2.2 hkind
  rw [← next_append c cs] at hstart hlongest
  have hne := next_text_ne_nil c cs
  have hstart' := hstart.of_sameToBlank hne hother
  have hlongest' := hlongest.of_sameToBlank hne hwins.mem_pattern hstart'.2.2 hother
  have hwins' := hwins.of_head? hdot (hother.head?_ne (by simp [IsBlank]) hdot)
  obtain ⟨d, ds, hcons⟩ := List.exists_cons_of_ne_nil (List.append_ne_nil_of_left_ne_nil hne other)
  rw [hcons] at hstart' hlongest'
  exact ⟨d, ds, hcons, hstart', next_eq_of_isLongest hstart'.2.2 hlongest' hwins'⟩

/-- Layout changes neither the tokens nor how they are written. -/
theorem Spaced.map_word_cut {text other : List Char} (h : Spaced text other)
    (source source' : String) (p p' : Position)
    (hvalid : ∀ t ∈ cut source p text, t.kind ≠ .invalid) :
    (cut source' p' other).map Token.word = (cut source p text).map Token.word := by
  induction h generalizing p p' with
  | @stop gap filler hgap hfiller =>
      have htext := cut_skip hgap source p
      have hother := cut_skip (hfiller.skip_append hgap) source' p'
      rw [List.append_nil, cut_nil] at htext hother
      rw [htext, hother]
  | @token gap before behind rest c cs hgap hstart hbefore hbehind hmore ih =>
      rw [cut_skip hgap, cut_token hstart] at hvalid
      obtain ⟨hkind, hvalid⟩ := List.forall_mem_cons.mp hvalid
      have hdot : (next c cs).2.head? ≠ some '.' := by
        -- A dot that no lexeme has taken is an invalid token of its own.
        intro hhead
        obtain ⟨ds, hds⟩ := List.head?_eq_some_iff.mp hhead
        have hstart : AtToken ('.' :: ds) := atToken_cons (by simp) (by decide)
        rw [hds, cut_token hstart] at hvalid
        exact (List.forall_mem_cons.mp hvalid).1 rfl
      obtain ⟨d, ds, hcons, hstart', hnext⟩ := next_of_sameToBlank hstart hkind hdot
        (hmore.sameToBlank.filler hbehind)
      have hgap' := hgap.of_atToken hstart
      rw [cut_skip hgap, cut_token hstart, cut_skip (hgap' _), cut_skip (hbefore.skip _), hcons,
        cut_token hstart', hnext, cut_skip (hbehind.skip _), List.map_cons, List.map_cons,
        ih _ _ hvalid]
      rfl

end SchemaLang
