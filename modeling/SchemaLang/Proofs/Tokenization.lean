import Mathlib.Data.String.Basic
import SchemaLang.Proofs.LongestMatch

/-!
# The entries of a source

`Scan` says what a lexer has to give for a source: blanks and comments are skipped, at any other
place stands the longest match of the patterns, or text that fits none of them, and the end of the
source stands last.  It is a relation that cuts at no place by itself; `scan_iff_entries` says that
it holds of one sequence only, the entries of the tokens that `Tokens.ofSource` cuts.
-/

namespace SchemaLang

open Pattern Lexeme
open String (utf8Len)

namespace Position

theorem offset_after (p : Position) (c : Char) :
    (p.after c).offset = p.offset + c.utf8Size := by
  unfold after
  split <;> rfl

theorem offset_advance (p : Position) (cs : List Char) :
    (p.advance cs).offset = p.offset + utf8Len cs := by
  induction cs generalizing p with
  | nil => rfl
  | cons c cs ih =>
      rw [advance_cons, ih, offset_after, String.utf8Len_cons, Nat.add_assoc,
        Nat.add_comm c.utf8Size]

end Position

/-- One answer of a lexer: the kind of a token, its text, and the number of bytes before it, in 32
bits.  The end of a source has no kind and no text. -/
structure Entry where
  kind : Option TokenKind
  literal : String
  offset : UInt32
deriving DecidableEq, Repr

/-- Space, tab, carriage return, line feed or form feed. -/
def IsBlank (c : Char) : Prop :=
  c = ' ' ∨ c = '\t' ∨ c = '\r' ∨ c = '\n' ∨ c = '\x0c'

/-- Neither a blank nor a comment comes next. -/
def AtToken (text : List Char) : Prop :=
  text ≠ [] ∧ (∀ c ∈ text.head?, ¬ IsBlank c) ∧ ¬ ['/', '/'] <+: text

/-- The entries of a text with `n` bytes before it. -/
inductive Scan : Nat → List Char → List Entry → Prop
  | stop (n : Nat) : Scan n [] [⟨none, "", UInt32.ofNat n⟩]
  | blank {n : Nat} {c : Char} {cs : List Char} {es : List Entry}
      (hc : IsBlank c) (hmore : Scan (n + c.utf8Size) cs es) : Scan n (c :: cs) es
  | comment {n : Nat} {text word rest : List Char} {es : List Entry}
      (htext : text = word ++ rest) (hword : word ∈ comment) (hrest : LineEnds rest)
      (hmore : Scan (n + utf8Len word) rest es) : Scan n text es
  | token {n : Nat} {text word rest : List Char} {kind : TokenKind} {es : List Entry}
      (hstart : AtToken text) (hword : IsLongest text word rest) (hkind : Wins word rest kind)
      (hmore : Scan (n + utf8Len word) rest es) :
      Scan n text (⟨some kind, String.ofList word, UInt32.ofNat n⟩ :: es)
  | invalid {n : Nat} {text word rest : List Char} {es : List Entry}
      (hstart : AtToken text) (hnone : ∀ w, w <+: text → ¬ Fits w)
      (hword : Rejected text word rest) (hmore : Scan (n + utf8Len word) rest es) :
      Scan n text (⟨some .invalid, String.ofList word, UInt32.ofNat n⟩ :: es)

def Token.entry (t : Token) : Entry :=
  ⟨some t.kind, t.literal, t.location.offset⟩

/-- The entries of all tokens, and one for the end of the source. -/
def Tokens.entries (ts : Tokens) : List Entry :=
  ts.list.map Token.entry ++ [⟨none, "", ts.stop.offset⟩]

theorem isBlank_iff {c : Char} : isBlank c ↔ IsBlank c := by
  simp [isBlank, IsBlank, or_assoc]

theorem mem_comment_iff {w : List Char} :
    w ∈ comment ↔ ∃ line, '\n' ∉ line ∧ w = '/' :: '/' :: line := by
  rw [comment, mem_word_mul]
  simp only [mem_single_kstar]
  constructor
  · rintro ⟨line, hline, rfl⟩
    exact ⟨line, fun hmem => hline _ hmem rfl, rfl⟩
  · rintro ⟨line, hline, rfl⟩
    exact ⟨line, fun c hc hne => hline (hne ▸ hc), rfl⟩

theorem not_mem_takeWhile_inComment (cs : List Char) : '\n' ∉ cs.takeWhile Tokens.inComment :=
  fun hmem => absurd (forall_mem_takeWhile Tokens.inComment cs _ hmem) (by decide)

theorem atToken_cons {c : Char} {cs : List Char}
    (hcomment : ∀ ds, c = '/' → cs = '/' :: ds → False) (hblank : ¬ isBlank c) :
    AtToken (c :: cs) := by
  refine ⟨List.cons_ne_nil _ _, by simpa [← isBlank_iff] using hblank, fun hstart => ?_⟩
  obtain ⟨rfl, ds, rfl⟩ := List.cons_prefix_cons.mp hstart
  exact hcomment ds rfl rfl

theorem not_atToken_cons {c : Char} {cs : List Char} (h : IsBlank c) :
    ¬ AtToken (c :: cs) :=
  fun hstart => hstart.2.1 c rfl h

theorem not_atToken_comment (cs : List Char) : ¬ AtToken ('/' :: '/' :: cs) :=
  fun hstart => hstart.2.2 (List.prefix_append ['/', '/'] cs)

namespace Scan

variable {n : Nat} {es : List Entry}

theorem nil_iff : Scan n [] es ↔ es = [⟨none, "", UInt32.ofNat n⟩] := by
  constructor
  · intro h
    cases h with
    | stop => rfl
    | comment htext hword =>
        obtain ⟨line, -, rfl⟩ := mem_comment_iff.mp hword
        cases htext
    | token hstart => exact absurd rfl hstart.1
    | invalid hstart => exact absurd rfl hstart.1
  · rintro rfl
    exact .stop n

theorem comment_iff (cs : List Char) : Scan n ('/' :: '/' :: cs) es ↔
    Scan (n + utf8Len ('/' :: '/' :: cs.takeWhile Tokens.inComment))
      (cs.dropWhile Tokens.inComment) es := by
  constructor
  · intro h
    cases h with
    | blank hc => simp [IsBlank] at hc
    | comment htext hword hrest hmore =>
        obtain ⟨line, hline, rfl⟩ := mem_comment_iff.mp hword
        have hcs := (List.cons.inj (List.cons.inj htext).2).2
        obtain ⟨htake, hdrop⟩ := span_line hline hrest
        rwa [hcs, List.append_eq, htake, hdrop]
    | token hstart => exact absurd hstart (not_atToken_comment cs)
    | invalid hstart => exact absurd hstart (not_atToken_comment cs)
  · intro h
    have hword := mem_comment_iff.mpr ⟨_, not_mem_takeWhile_inComment cs, rfl⟩
    exact .comment (by simp [List.takeWhile_append_dropWhile]) hword (lineEnds_dropWhile cs) h

theorem blank_iff {c : Char} (hc : IsBlank c) (cs : List Char) :
    Scan n (c :: cs) es ↔ Scan (n + c.utf8Size) cs es := by
  constructor
  · intro h
    cases h with
    | blank _ hmore => exact hmore
    | comment htext hword =>
        obtain ⟨line, -, rfl⟩ := mem_comment_iff.mp hword
        cases htext
        simp [IsBlank] at hc
    | token hstart => exact absurd hstart (not_atToken_cons hc)
    | invalid hstart => exact absurd hstart (not_atToken_cons hc)
  · exact .blank hc

/-- Where neither a blank nor a comment comes next, the first entry is the next lexeme. -/
theorem token_iff {c : Char} {cs : List Char} (hstart : AtToken (c :: cs)) :
    Scan n (c :: cs) es ↔ ∃ more,
      es = ⟨some (next c cs).1.kind, String.ofList (next c cs).1.text, UInt32.ofNat n⟩ :: more ∧
      Scan (n + utf8Len (next c cs).1.text) (next c cs).2 more := by
  have hcomment := hstart.2.2
  constructor
  · intro h
    cases h with
    | blank hc => exact absurd hstart (not_atToken_cons hc)
    | comment htext hword =>
        exact absurd (htext ▸ (isPrefix_of_mem_comment hword).trans (List.prefix_append _ _))
          hcomment
    | token _ hword hkind hmore =>
        rw [next_eq_of_isLongest hcomment hword hkind]
        exact ⟨_, rfl, hmore⟩
    | invalid _ hnone hword hmore =>
        have hkind : (next c cs).1.kind = .invalid := by
          refine Decidable.byContradiction fun hvalid => ?_
          have hlongest := isLongest_next hcomment hvalid
          exact hnone _ ⟨_, hlongest.split.symm⟩ hlongest.fits
        obtain ⟨rfl, rfl⟩ := (rejected_next hkind).unique hword
        exact ⟨_, by rw [hkind], hmore⟩
  · rintro ⟨more, rfl, hmore⟩
    by_cases hkind : (next c cs).1.kind = .invalid
    · rw [hkind]
      exact .invalid hstart (fun w hw => not_fits_of_invalid hcomment hkind hw)
        (rejected_next hkind) hmore
    · exact .token hstart (isLongest_next hcomment hkind) (wins_next hkind) hmore

end Scan

/-- The entries of a text are those of the tokens that are cut from it. -/
theorem scan_iff_cut (source : String) (p : Position) (cs : List Char) (es : List Entry) :
    Scan p.offset cs es ↔ es = (Tokens.cut source p cs).map Token.entry ++
      [⟨none, "", UInt32.ofNat (p.advance cs).offset⟩] := by
  fun_induction Tokens.cut source p cs generalizing es with
  | case1 p => exact Scan.nil_iff
  | case2 p cs ih =>
      rw [Scan.comment_iff, ← Position.offset_advance, ih, ← Position.advance_append]
      simp [List.takeWhile_append_dropWhile]
  | case3 p c cs _ hblank ih =>
      rw [Scan.blank_iff (isBlank_iff.mp hblank), ← Position.offset_after, ih]
      rfl
  | case4 p c cs hcomment hblank lexeme ih =>
      have hstop : ((p.advance lexeme.1.text).advance lexeme.2) = p.advance (c :: cs) := by
        rw [← Position.advance_append, next_append]
      rw [hstop] at ih
      rw [Scan.token_iff (atToken_cons hcomment hblank), ← Position.offset_advance]
      constructor
      · rintro ⟨more, rfl, hmore⟩
        rw [(ih more).mp hmore]
        rfl
      · rintro rfl
        exact ⟨_, rfl, (ih _).mpr rfl⟩

/-- The patterns allow one sequence of entries for a source, that of the tokens it is cut into. -/
theorem Tokens.scan_iff_entries (text source : String) (es : List Entry) :
    Scan 0 text.toList es ↔ es = (ofSource text source).entries :=
  scan_iff_cut source .start text.toList es

/-- A keyword in front of a dot, and a number in front of a mark that starts no exponent. -/
example : (Tokens.ofSource "use.1 1.2e+" "").entries =
    [⟨some .identifier, "use", 0⟩, ⟨some .invalid, ".", 3⟩, ⟨some .integer, "1", 4⟩,
      ⟨some .float, "1.2", 6⟩, ⟨some .identifier, "e", 9⟩, ⟨some .plus, "+", 10⟩,
      ⟨none, "", 11⟩] := by
  with_unfolding_all rfl

end SchemaLang
