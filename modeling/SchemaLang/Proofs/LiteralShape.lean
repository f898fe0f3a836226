import SchemaLang.Literal
import SchemaLang.Proofs.Success
import SchemaLang.Token.Source

/-!
# The shape of literals

A string stands in quotes and a number is written in digits.  Whatever is cut from a source has
the shape of its kind, and a literal of the right shape is converted without complaint, but for
integers of `2 ^ 63` and more.
-/

namespace SchemaLang

namespace Lexeme

/-- Digits, at least one. -/
def IsDigits (cs : List Char) : Prop :=
  cs ≠ [] ∧ ∀ c ∈ cs, isDigit c

/-- A text of one line between two quotes. -/
inductive IsQuoted : List Char → Prop
  | intro {body : List Char} (h : ∀ c ∈ body, isQuotable c) : IsQuoted ('"' :: body ++ ['"'])

/-- The mark of an exponent. -/
def IsMark (c : Char) : Prop :=
  c = 'e' ∨ c = 'E'

/-- Nothing, or an exponent with or without a sign. -/
inductive IsExponent : List Char → Prop
  | none : IsExponent []
  | unsigned {mark : Char} {ds : List Char} (hmark : IsMark mark) (hds : IsDigits ds) :
      IsExponent (mark :: ds)
  | signed {mark sign : Char} {ds : List Char} (hmark : IsMark mark)
      (hsign : sign = '+' ∨ sign = '-') (hds : IsDigits ds) : IsExponent (mark :: sign :: ds)

/-- Digits on both sides of a point, and perhaps an exponent. -/
inductive IsDecimal : List Char → Prop
  | intro {whole fraction exponent : List Char} (hwhole : IsDigits whole)
      (hfraction : IsDigits fraction) (hexponent : IsExponent exponent) :
      IsDecimal (whole ++ '.' :: (fraction ++ exponent))

/-- The text of a literal is one that its kind may have.  Nothing is asked of other lexemes. -/
def HasShape (lexeme : Lexeme) : Prop :=
  match lexeme.kind with
  | .string => IsQuoted lexeme.text
  | .integer => IsDigits lexeme.text
  | .float => IsDecimal lexeme.text
  | _ => True

theorem forall_mem_takeWhile (p : Char → Bool) (cs : List Char) : ∀ c ∈ cs.takeWhile p, p c :=
  List.all_eq_true.mp List.all_takeWhile

/-- Characters of a class before anything else are taken off as a whole. -/
theorem span_append {p : Char → Bool} {u rest : List Char} (hu : ∀ c ∈ u, p c)
    (hrest : ∀ c ∈ rest.head?, p c = false) :
    (u ++ rest).takeWhile p = u ∧ (u ++ rest).dropWhile p = rest := by
  rw [List.takeWhile_append_of_pos hu, List.dropWhile_append_of_pos hu]
  cases rest with
  | nil => simp
  | cons c cs => simp [hrest c rfl]

theorem isDigits_takeWhile {c : Char} (hc : isDigit c) (cs : List Char) :
    IsDigits (c :: cs.takeWhile isDigit) :=
  ⟨List.cons_ne_nil _ _, List.forall_mem_cons.mpr ⟨hc, forall_mem_takeWhile _ cs⟩⟩

theorem isExponent_exponent (cs : List Char) : IsExponent (exponent cs).1 := by
  fun_cases exponent cs with
  | case1 mark sign d rest hmark hsigned =>
      simp only [Bool.and_eq_true, Bool.or_eq_true, decide_eq_true_eq] at hmark hsigned
      exact .signed hmark hsigned.1 (isDigits_takeWhile hsigned.2 rest)
  | case2 mark sign d rest hmark hsigned hsign =>
      simp only [Bool.or_eq_true, decide_eq_true_eq] at hmark
      rw [List.takeWhile_cons_of_pos hsign]
      exact .unsigned hmark (isDigits_takeWhile hsign _)
  | case5 mark d h =>
      simp only [Bool.and_eq_true, Bool.or_eq_true, decide_eq_true_eq] at h
      exact .unsigned h.1 ⟨List.cons_ne_nil _ _, by simpa using h.2⟩
  | case3 => exact .none
  | case4 => exact .none
  | case6 => exact .none
  | case7 => exact .none

/-- A name is no literal, whether it is a keyword or not. -/
theorem hasShape_name (c : Char) (cs : List Char) : (name c cs).1.HasShape := by
  unfold name keyword?
  dsimp only
  repeat' split
  all_goals trivial

theorem hasShape_number {c : Char} (hc : isDigit c) (cs : List Char) :
    (number c cs).1.HasShape := by
  have hwhole := isDigits_takeWhile hc cs
  unfold number
  dsimp only
  split
  · rename_i d rest _
    split
    · rename_i hd
      have hfraction := isDigits_takeWhile hd rest
      have hdecimal := IsDecimal.intro hwhole hfraction
        (isExponent_exponent (rest.dropWhile isDigit))
      simpa [HasShape] using hdecimal
    · exact hwhole
  · exact hwhole

theorem hasShape_quoted (cs : List Char) : (quoted cs).1.HasShape := by
  unfold quoted
  split
  · exact .intro (forall_mem_takeWhile _ cs)
  · exact trivial

theorem hasShape_punctuation (c : Char) :
    HasShape ⟨(punctuation? c).getD .invalid, [c]⟩ := by
  unfold punctuation?
  split <;> trivial

/-- What is cut from the front of a text has the shape of its kind. -/
theorem hasShape_next (c : Char) (cs : List Char) : (next c cs).1.HasShape := by
  unfold next
  split
  · exact hasShape_name c cs
  split
  · rename_i hc
    exact hasShape_number hc cs
  split
  · exact hasShape_quoted cs
  · exact hasShape_punctuation c

end Lexeme

/-- What a token is and how it is written. -/
def Token.word (t : Token) : TokenKind × String :=
  (t.kind, t.literal)

/-- A token that is a literal has a text that its kind may have. -/
def Token.HasShape (t : Token) : Prop :=
  Lexeme.HasShape ⟨t.kind, t.literal.toList⟩

namespace Tokens

/-- Every literal has the shape of its kind. -/
def WellShaped (ts : Tokens) : Prop :=
  ∀ t ∈ ts.list, t.HasShape

theorem hasShape_of_mem_cut {source : String} {p : Position} {cs : List Char} :
    ∀ t ∈ cut source p cs, t.HasShape := by
  fun_induction cut source p cs with
  | case1 => simp
  | case2 p cs ih => exact ih
  | case3 p c cs _ hblank ih => exact ih
  | case4 p c cs _ hblank lexeme ih =>
      refine List.forall_mem_cons.mpr ⟨?_, ih⟩
      simpa [Token.HasShape] using Lexeme.hasShape_next c cs

/-- The tokens of a source are well shaped. -/
theorem wellShaped_ofSource (text source : String) : (ofSource text source).WellShaped :=
  hasShape_of_mem_cut

end Tokens

namespace Decimal

open Lexeme (IsDigits IsExponent IsDecimal IsMark)

/-- A number below `2 ^ 63`: 64 signed bits hold it. -/
def FitsSigned (n : Nat) : Prop :=
  n < 0x8000000000000000

instance (n : Nat) : Decidable (FitsSigned n) :=
  inferInstanceAs (Decidable (n < 0x8000000000000000))

theorem fitsSigned_iff (n : Nat) :
    FitsSigned n ↔ -signedBound ≤ (n : Int) ∧ (n : Int) < signedBound := by
  unfold FitsSigned signedBound
  omega

/-- A text that starts with a digit has no sign. -/
theorem signed_of_isDigit {c : Char} (hc : isDigit c) (cs : List Char) :
    signed (c :: cs) = (false, c :: cs) := by
  unfold signed
  split
  · simp_all [isDigit]
  · simp_all [isDigit]
  · rfl

/-- Digits are an integer of 64 signed bits if their number is small enough. -/
theorem readInt?_of_isDigits {ds : List Char} (h : IsDigits ds) :
    readInt? ds = if FitsSigned (natOf ds) then some (natOf ds : Int) else none := by
  obtain ⟨hne, hall⟩ := h
  cases ds with
  | nil => exact absurd rfl hne
  | cons c cs =>
      have hdigits : (c :: cs).all isDigit = true := List.all_eq_true.mpr hall
      simp only [readInt?, signed_of_isDigit (hall c List.mem_cons_self), hdigits,
        List.isEmpty_cons, Bool.not_true, Bool.or_self, Bool.false_eq_true, if_false,
        Bool.and_eq_true, decide_eq_true_eq, fitsSigned_iff]

/-- Digits before anything but a digit are taken off as a whole. -/
theorem takeWhile_isDigit_append {ds rest : List Char} (hds : IsDigits ds)
    (hrest : ∀ c ∈ rest.head?, isDigit c = false) :
    (ds ++ rest).takeWhile isDigit = ds ∧ (ds ++ rest).dropWhile isDigit = rest :=
  Lexeme.span_append hds.2 hrest

theorem isDigits_iff {ds : List Char} : IsDigits ds ↔ ds ≠ [] ∧ ds.all isDigit := by
  rw [List.all_eq_true]
  exact Iff.rfl

theorem isDigit_of_isMark {c : Char} (h : IsMark c) : isDigit c = false := by
  rcases h with rfl | rfl <;> decide

/-- An exponent, if there is one, starts with no digit. -/
theorem isDigit_head?_of_isExponent {cs : List Char} (h : IsExponent cs) :
    ∀ c ∈ cs.head?, isDigit c = false := by
  cases h with
  | none => simp
  | unsigned hmark => simpa using isDigit_of_isMark hmark
  | signed hmark => simpa using isDigit_of_isMark hmark

theorem isSome_readExponent? {cs : List Char} (h : IsExponent cs) : (readExponent? cs).isSome := by
  cases h with
  | none => rfl
  | @unsigned mark ds hmark hds =>
      cases ds with
      | nil => exact absurd rfl hds.1
      | cons d ds =>
          have hd := hds.2 d List.mem_cons_self
          rw [isDigits_iff] at hds
          have hmark : (mark = 'e' || mark = 'E') = true := by simpa [IsMark] using hmark
          simp [readExponent?, signed_of_isDigit hd, hmark, hds.2]
  | @signed mark sign ds hmark hsign hds =>
      rw [isDigits_iff] at hds
      have hmark : (mark = 'e' || mark = 'E') = true := by simpa [IsMark] using hmark
      rcases hsign with rfl | rfl <;> simp [readExponent?, signed, hmark, hds]

/-- A decimal is read whatever its digits are. -/
theorem isSome_readUnsigned?_of_isDecimal {cs : List Char} (h : IsDecimal cs) :
    (readUnsigned? cs).isSome := by
  cases h with
  | @intro whole fraction exponent hwhole hfraction hexponent =>
      obtain ⟨htake, hdrop⟩ :=
        takeWhile_isDigit_append hfraction (isDigit_head?_of_isExponent hexponent)
      obtain ⟨hfirst, hrest⟩ := takeWhile_isDigit_append hwhole
        (show ∀ c ∈ ('.' :: (fraction ++ exponent)).head?, isDigit c = false by
          simp [isDigit])
      simp [readUnsigned?, hfirst, hrest, htake, hdrop, hwhole.1, isSome_readExponent? hexponent]

theorem isSome_readUnsigned?_of_isDigits {ds : List Char} (h : IsDigits ds) :
    (readUnsigned? ds).isSome := by
  have hnil : ∀ c ∈ ([] : List Char).head?, isDigit c = false := by simp
  obtain ⟨hfirst, hrest⟩ := takeWhile_isDigit_append h hnil
  rw [List.append_nil] at hfirst hrest
  simp [readUnsigned?, hfirst, hrest, h.1, readExponent?]

/-- What starts with digits and is a number without a sign is a float. -/
theorem isSome_readFloat?_of_isDigits_append {ds rest : List Char} (hds : IsDigits ds)
    (h : (readUnsigned? (ds ++ rest)).isSome) : (readFloat? (ds ++ rest)).isSome := by
  cases ds with
  | nil => exact absurd rfl hds.1
  | cons c cs =>
      have hsigned := signed_of_isDigit (hds.2 c List.mem_cons_self) (cs ++ rest)
      simp only [List.cons_append] at h ⊢
      simp only [readFloat?, hsigned, Option.isSome_map]
      split
      · rfl
      split
      · rfl
      · exact h

end Decimal

namespace Literal

open Lexeme

/-- The text of a string literal. -/
def textOf (literal : String) : String :=
  String.ofList literal.toList.tail.dropLast

theorem unquote_of_isQuoted {literal : String} (h : IsQuoted literal.toList) (place : Location) :
    unquote literal place = .ok (textOf literal) := by
  unfold unquote textOf
  generalize literal.toList = cs at h
  cases h with
  | intro hbody => simp

/-- A literal of digits is an integer if its number is small enough. -/
theorem succeedsIff_toInt {literal : String} (h : IsDigits literal.toList) (place : Location) :
    SucceedsIff (toInt literal place) (Decimal.FitsSigned (Decimal.natOf literal.toList))
      (Decimal.natOf literal.toList : Int) := by
  unfold toInt
  rw [Decimal.readInt?_of_isDigits h]
  by_cases hsmall : Decimal.FitsSigned (Decimal.natOf literal.toList)
  · rw [if_pos hsmall]
    exact (SucceedsIff.pure _).congr (by simp only [hsmall]) fun _ => rfl
  · rw [if_neg hsmall]
    exact SucceedsIff.error hsmall

theorem succeedsIff_toSize {literal : String} (h : IsDigits literal.toList) (place : Location) :
    SucceedsIff (toSize literal place) (Decimal.FitsSigned (Decimal.natOf literal.toList))
      (Decimal.natOf literal.toList) := by
  have hint := succeedsIff_toInt h place
  unfold toSize
  cases hrun : toInt literal place with
  | error e =>
      exact SucceedsIff.error (hint.not_of_eq_error hrun)
  | ok n =>
      obtain ⟨hsmall, rfl⟩ := hint.of_eq_ok hrun
      exact (SucceedsIff.pure _).congr (by simp only [hsmall]) fun _ => rfl

end Literal

namespace Token

/-- The text between the quotes of a string is read off. -/
theorem unquote_literal {t : Token} (h : t.HasShape) (hkind : t.kind = .string) (place : Location) :
    Literal.unquote t.literal place = .ok (Literal.textOf t.literal) := by
  unfold HasShape at h
  rw [hkind] at h
  exact Literal.unquote_of_isQuoted h place

theorem isDigits_literal {t : Token} (h : t.HasShape) (hkind : t.kind = .integer) :
    Lexeme.IsDigits t.literal.toList := by
  unfold HasShape at h
  rw [hkind] at h
  exact h

/-- The literal of a number writes a float. -/
theorem isSome_readFloat?_literal {t : Token} (h : t.HasShape)
    (hkind : t.kind = .integer ∨ t.kind = .float) :
    (Decimal.readFloat? t.literal.toList).isSome := by
  unfold HasShape at h
  generalize t.literal.toList = cs at h
  rcases hkind with hkind | hkind <;> rw [hkind] at h
  · have hnumber := Decimal.isSome_readUnsigned?_of_isDigits h
    rw [← List.append_nil cs] at hnumber ⊢
    exact Decimal.isSome_readFloat?_of_isDigits_append h hnumber
  · have hnumber := Decimal.isSome_readUnsigned?_of_isDecimal h
    cases h with
    | intro hwhole => exact Decimal.isSome_readFloat?_of_isDigits_append hwhole hnumber

end Token

end SchemaLang
