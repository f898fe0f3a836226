import Mathlib.Computability.Language
import SchemaLang.Proofs.LiteralShape

/-!
# The patterns of tokens

Comments and every kind of token have a pattern, a regular language over characters built from
single characters by union, concatenation and repetition.  A text belongs to the pattern of a kind
if it has the shape of that kind: the lemmas `mem_digits`, `mem_decimal`, `mem_quotation` and
`mem_dotted` say so, and only they open the patterns.
-/

namespace SchemaLang

open Computability Lexeme

namespace Pattern

/-- The texts of one character of a class. -/
def single (p : Char → Prop) : Language Char :=
  { w | ∃ c, p c ∧ w = [c] }

/-- The pattern `[0-9]`. -/
def digit : Language Char :=
  single fun c => '0' ≤ c ∧ c ≤ '9'

/-- The pattern `[A-Za-z_]`. -/
def letter : Language Char :=
  single fun c => 'A' ≤ c ∧ c ≤ 'Z' ∨ 'a' ≤ c ∧ c ≤ 'z' ∨ c = '_'

/-- The pattern `[0-9]+`. -/
def digits : Language Char :=
  digit * digit∗

/-- The pattern `[A-Za-z_][A-Za-z0-9_]*`. -/
def part : Language Char :=
  letter * (letter + digit)∗

/-- Parts with dots between them. -/
def dotted : Language Char :=
  part * ({['.']} * part)∗

/-- The pattern `"[^"\n]*"`. -/
def quotation : Language Char :=
  {['"']} * (single fun c => c ≠ '"' ∧ c ≠ '\n')∗ * {['"']}

/-- The pattern `[eE][+-]?[0-9]+`. -/
def power : Language Char :=
  single (fun c => c = 'e' ∨ c = 'E') * (1 + single fun c => c = '+' ∨ c = '-') * digits

/-- Digits on both sides of a point, and perhaps an exponent. -/
def decimal : Language Char :=
  digits * {['.']} * digits * (1 + power)

/-- The pattern `//[^\n]*`. -/
def comment : Language Char :=
  {['/', '/']} * (single fun c => c ≠ '\n')∗

end Pattern

open Pattern

/-- The pattern of a kind of token. -/
def TokenKind.pattern : TokenKind → Language Char
  | .packageKeyword => {['p', 'a', 'c', 'k', 'a', 'g', 'e']}
  | .useKeyword => {['u', 's', 'e']}
  | .classKeyword => {['c', 'l', 'a', 's', 's']}
  | .structKeyword => {['s', 't', 'r', 'u', 'c', 't']}
  | .enumKeyword => {['e', 'n', 'u', 'm']}
  | .identifier => dotted
  | .string => quotation
  | .integer => digits
  | .float => decimal
  | .leftBrace => {['\x7b']}
  | .rightBrace => {['\x7d']}
  | .leftBracket => {['[']}
  | .rightBracket => {[']']}
  | .leftAngle => {['<']}
  | .rightAngle => {['>']}
  | .leftParen => {['(']}
  | .rightParen => {[')']}
  | .colon => {[':']}
  | .comma => {[',']}
  | .at => {['@']}
  | .plus => {['+']}
  | .minus => {['-']}
  | .star => {['*']}
  | .slash => {['/']}
  | .caret => {['^']}
  | .invalid => 0

namespace Pattern

/-! ### What belongs to a pattern -/

@[simp] theorem mem_single {p : Char → Prop} {w : List Char} :
    w ∈ single p ↔ ∃ c, p c ∧ w = [c] := Iff.rfl

@[simp] theorem mem_word {word w : List Char} : w ∈ ({word} : Language Char) ↔ w = word := Iff.rfl

theorem mem_single_kstar {p : Char → Prop} {w : List Char} : w ∈ (single p)∗ ↔ ∀ c ∈ w, p c := by
  rw [Language.mem_kstar]
  constructor
  · rintro ⟨l, rfl, hl⟩ c hc
    obtain ⟨u, hu, hcu⟩ := List.mem_flatten.mp hc
    obtain ⟨d, hd, rfl⟩ := hl u hu
    rw [List.mem_singleton] at hcu
    exact hcu ▸ hd
  · intro h
    refine ⟨w.map fun c => [c], by rw [← List.flatMap_def, List.flatMap_singleton'], ?_⟩
    intro u hu
    obtain ⟨c, hc, rfl⟩ := List.mem_map.mp hu
    exact ⟨c, h c hc, rfl⟩

theorem mem_single_mul {p : Char → Prop} {l : Language Char} {w : List Char} :
    w ∈ single p * l ↔ ∃ c u, p c ∧ u ∈ l ∧ w = c :: u := by
  rw [Language.mem_mul]
  constructor
  · rintro ⟨_, ⟨c, hc, rfl⟩, u, hu, rfl⟩
    exact ⟨c, u, hc, hu, rfl⟩
  · rintro ⟨c, u, hc, hu, rfl⟩
    exact ⟨[c], ⟨c, hc, rfl⟩, u, hu, rfl⟩

theorem mem_word_mul {word w : List Char} {l : Language Char} :
    w ∈ ({word} : Language Char) * l ↔ ∃ u ∈ l, w = word ++ u := by
  rw [Language.mem_mul]
  constructor
  · rintro ⟨_, rfl, u, hu, rfl⟩
    exact ⟨u, hu, rfl⟩
  · rintro ⟨u, hu, rfl⟩
    exact ⟨word, rfl, u, hu, rfl⟩

theorem digit_eq : digit = single fun c => isDigit c := by
  simp [digit, isDigit]

theorem letter_eq : letter = single fun c => isNameStart c := by
  unfold letter
  congr 1
  funext c
  simp only [isNameStart, Bool.or_eq_true, Bool.and_eq_true, decide_eq_true_eq, eq_iff_iff]
  tauto

theorem letter_add_digit : letter + digit = single fun c => isNameChar c := by
  rw [letter_eq, digit_eq]
  ext w
  rw [Language.mem_add]
  constructor
  · rintro (⟨c, hc, rfl⟩ | ⟨c, hc, rfl⟩)
    · exact ⟨c, by simp [isNameChar, hc], rfl⟩
    · exact ⟨c, by simp [isNameChar, hc], rfl⟩
  · rintro ⟨c, hc, rfl⟩
    have hc : isNameStart c ∨ isDigit c := by simpa [isNameChar] using hc
    exact hc.imp (fun h => ⟨c, h, rfl⟩) fun h => ⟨c, h, rfl⟩

theorem mem_digits {w : List Char} : w ∈ digits ↔ IsDigits w := by
  rw [digits, digit_eq, mem_single_mul]
  constructor
  · rintro ⟨c, u, hc, hu, rfl⟩
    exact ⟨List.cons_ne_nil _ _, List.forall_mem_cons.mpr ⟨hc, mem_single_kstar.mp hu⟩⟩
  · rintro ⟨hne, hall⟩
    cases w with
    | nil => exact absurd rfl hne
    | cons c u =>
        obtain ⟨hc, hu⟩ := List.forall_mem_cons.mp hall
        exact ⟨c, u, hc, mem_single_kstar.mpr hu, rfl⟩

theorem mem_quotation {w : List Char} : w ∈ quotation ↔ IsQuoted w := by
  rw [quotation, mul_assoc, mem_word_mul]
  simp only [Language.mem_mul, mem_single_kstar, mem_word]
  constructor
  · rintro ⟨_, ⟨body, hbody, _, rfl, rfl⟩, rfl⟩
    exact .intro fun c hc => by simpa [isQuotable] using hbody c hc
  · rintro ⟨hbody⟩
    refine ⟨_, ⟨_, fun c hc => ?_, _, rfl, rfl⟩, rfl⟩
    simpa [isQuotable] using hbody c hc

theorem mem_power_or_nil {w : List Char} : w ∈ 1 + power ↔ IsExponent w := by
  rw [Language.mem_add, Language.mem_one, power, mul_assoc, mem_single_mul]
  simp only [Language.mem_mul, Language.mem_add, Language.mem_one, mem_single, mem_digits]
  constructor
  · rintro (rfl | ⟨mark, _, hmark, ⟨_, rfl | ⟨sign, hsign, rfl⟩, ds, hds, rfl⟩, rfl⟩)
    · exact .none
    · exact .unsigned hmark hds
    · exact .signed hmark hsign hds
  · rintro (_ | ⟨hmark, hds⟩ | ⟨hmark, hsign, hds⟩)
    · exact .inl rfl
    · exact .inr ⟨_, _, hmark, ⟨[], .inl rfl, _, hds, rfl⟩, rfl⟩
    · exact .inr ⟨_, _, hmark, ⟨_, .inr ⟨_, hsign, rfl⟩, _, hds, rfl⟩, rfl⟩

theorem mem_decimal {w : List Char} : w ∈ decimal ↔ IsDecimal w := by
  rw [decimal, mul_assoc, mul_assoc]
  simp only [Language.mem_mul, mem_digits, mem_word, mem_power_or_nil]
  constructor
  · rintro ⟨whole, hwhole, _, ⟨_, rfl, _, ⟨fraction, hfraction, e, he, rfl⟩, rfl⟩, rfl⟩
    have hdecimal : IsDecimal (whole ++ '.' :: (fraction ++ e)) := .intro hwhole hfraction he
    exact hdecimal
  · intro h
    cases h with
    | @intro whole fraction e hwhole hfraction he =>
        exact ⟨whole, hwhole, _, ⟨_, rfl, _, ⟨fraction, hfraction, e, he, rfl⟩, rfl⟩, rfl⟩

end Pattern

namespace Lexeme

/-- Further parts of a dotted name. -/
inductive IsParts : List Char → Prop
  | nil : IsParts []
  | cons {c : Char} {u parts : List Char} (hc : isNameStart c) (hu : ∀ x ∈ u, isNameChar x)
      (hparts : IsParts parts) : IsParts ('.' :: c :: (u ++ parts))

/-- A name, with or without dots. -/
inductive IsName : List Char → Prop
  | intro {c : Char} {u parts : List Char} (hc : isNameStart c) (hu : ∀ x ∈ u, isNameChar x)
      (hparts : IsParts parts) : IsName (c :: (u ++ parts))

end Lexeme

namespace Pattern

theorem mem_part {w : List Char} :
    w ∈ part ↔ ∃ c u, isNameStart c ∧ (∀ x ∈ u, isNameChar x) ∧ w = c :: u := by
  rw [part, letter_add_digit, letter_eq, mem_single_mul]
  simp only [mem_single_kstar]

theorem mem_parts {w : List Char} : w ∈ ({['.']} * part)∗ ↔ IsParts w := by
  rw [Language.mem_kstar]
  constructor
  · rintro ⟨l, rfl, hl⟩
    induction l with
    | nil => exact .nil
    | cons v l ih =>
        obtain ⟨hv, hmore⟩ := List.forall_mem_cons.mp hl
        obtain ⟨_, hpart, rfl⟩ := mem_word_mul.mp hv
        obtain ⟨c, u, hc, hu, rfl⟩ := mem_part.mp hpart
        have hparts : IsParts ('.' :: c :: (u ++ l.flatten)) := .cons hc hu (ih hmore)
        exact hparts
  · intro h
    induction h with
    | nil => exact ⟨[], rfl, by simp⟩
    | @cons c u parts hc hu _ ih =>
        obtain ⟨l, rfl, hl⟩ := ih
        have hpart : c :: u ∈ part := mem_part.mpr ⟨c, u, hc, hu, rfl⟩
        refine ⟨('.' :: c :: u) :: l, by simp, List.forall_mem_cons.mpr ⟨?_, hl⟩⟩
        exact mem_word_mul.mpr ⟨c :: u, hpart, rfl⟩

theorem mem_dotted {w : List Char} : w ∈ dotted ↔ IsName w := by
  rw [dotted, Language.mem_mul]
  simp only [mem_part, mem_parts]
  constructor
  · rintro ⟨_, ⟨c, u, hc, hu, rfl⟩, parts, hparts, rfl⟩
    exact .intro hc hu hparts
  · intro h
    cases h with
    | @intro c u parts hc hu hparts => exact ⟨c :: u, ⟨c, u, hc, hu, rfl⟩, parts, hparts, rfl⟩

end Pattern

end SchemaLang
