import SchemaLang.Proofs.ParserFaults
import SchemaLang.Proofs.Parsing

/-!
# Array types, suffix by suffix

Behind the word of a type stands a pair of brackets for each array around it.  The pairs are read
from left to right, and each of them puts an array around the type that is read so far.  The first
size that 64 signed bits do not hold ends the reading, whatever stands behind it.
-/

namespace SchemaLang

open TokenReader Grammar

namespace FieldType

/-- The sizes of the arrays around the innermost type, the outermost first. -/
def dimensions : FieldType → List ArraySize
  | .array element size => size :: element.dimensions
  | .primitive _ => []
  | .named _ => []

theorem dimensions_foldl_array (sizes : List ArraySize) (type : FieldType) :
    (sizes.foldl .array type).dimensions = sizes.reverse ++ type.dimensions := by
  induction sizes generalizing type with
  | nil => rfl
  | cons size sizes ih => simp [ih, dimensions]

theorem innermost_foldl_array (sizes : List ArraySize) (type : FieldType) :
    (sizes.foldl .array type).innermost = type.innermost := by
  induction sizes generalizing type with
  | nil => rfl
  | cons size sizes ih => rw [List.foldl_cons, ih, innermost]

/-- A word stands for a type without arrays. -/
theorem dimensions_ofWord (word : String) : (ofWord word).dimensions = [] := by
  unfold ofWord
  split <;> rfl

theorem innermost_ofWord (word : String) : (ofWord word).innermost = ofWord word := by
  unfold ofWord
  split <;> rfl

end FieldType

namespace Grammar

/-- A number of `2 ^ 63` or more: 64 signed bits do not hold it. -/
def TooLarge (n : Word .integer) : Prop :=
  0x8000000000000000 ≤ numberOf n

instance (n : Word .integer) : Decidable (TooLarge n) :=
  inferInstanceAs (Decidable (0x8000000000000000 ≤ numberOf n))

theorem fitsSigned_iff_not_tooLarge (n : Word .integer) :
    Decimal.FitsSigned (numberOf n) ↔ ¬ TooLarge n := by
  unfold Decimal.FitsSigned TooLarge
  omega

/-- The numbers between brackets, from left to right. -/
def numbers (suffixes : List (Word .leftBracket × Size)) : List (Word .integer) :=
  suffixes.filterMap fun suffix => suffix.2.number

theorem numbers_cons_none (opening : Word .leftBracket) (closing : Word .rightBracket)
    (suffixes : List (Word .leftBracket × Size)) :
    numbers ((opening, ⟨none, closing⟩) :: suffixes) = numbers suffixes := rfl

theorem numbers_cons_some (opening : Word .leftBracket) (n : Word .integer)
    (closing : Word .rightBracket) (suffixes : List (Word .leftBracket × Size)) :
    numbers ((opening, ⟨some n, closing⟩) :: suffixes) = n :: numbers suffixes := rfl

namespace Typed

/-- The sizes of the arrays from left to right, each the number between its brackets or none. -/
def sizesRead (t : Typed) : List ArraySize :=
  t.sizes.map fun suffix => .ofOption (suffix.2.number.map numberOf)

/-- The word with an array around it for each suffix, from left to right. -/
def wrapped (t : Typed) : FieldType :=
  t.sizesRead.foldl .array (.ofWord t.word.1.literal)

end Typed

end Grammar

namespace FieldType

/-- A number that is too large is refused, at its place. -/
theorem readSize_of_tooLarge {n : Word .integer} (h : TooLarge n) (closing : Word .rightBracket)
    (stop : Location) (rest : List Token) :
    readSize stop (size.tokens ⟨some n, closing⟩ ++ rest) =
      .error (.invalidNumber n.1.literal n.1.location) := by
  have hdigits := Token.isDigits_literal n.2.2 (kind_word n)
  have hsize := Literal.succeedsIff_toSize hdigits n.1.location
  have htokens : size.tokens ⟨some n, closing⟩ ++ rest = n.1 :: closing.1 :: rest := rfl
  rw [readSize_eq, bind_apply, htokens, readNumber_cons (kind_word n), bind_apply]
  cases hrun : Literal.toSize n.1.literal n.1.location with
  | ok value =>
      exact absurd h ((fitsSigned_iff_not_tooLarge n).mp (hsize.of_eq_ok hrun).1)
  | error e =>
      obtain rfl := Literal.toSize_eq_error hrun
      rfl

/-- The sizes behind a word are read, or the first number that is too large is refused. -/
theorem readSizes_eq (suffixes : List (Word .leftBracket × Size)) (stop : Location)
    {rest : List Token} (hrest : NotAhead [.leftBracket] rest) :
    manyAfter .leftBracket readSize advances_readSize.keeps stop
        ((size.behind .leftBracket).many.tokens suffixes ++ rest) =
      match (numbers suffixes).find? fun n => TooLarge n with
      | some n => .error (.invalidNumber n.1.literal n.1.location)
      | none => .ok ((size.behind .leftBracket).many.meaning suffixes, rest) := by
  induction suffixes with
  | nil =>
      rw [Rule.many_tokens_nil, List.nil_append, manyAfter_of_notAhead hrest]
      rfl
  | cons suffix suffixes ih =>
      obtain ⟨opening, number, closing⟩ := suffix
      have htokens : (size.behind .leftBracket).many.tokens
          ((opening, ⟨number, closing⟩) :: suffixes) ++ rest = opening.1 ::
            (size.tokens ⟨number, closing⟩ ++
              ((size.behind .leftBracket).many.tokens suffixes ++ rest)) := by
        simp
      rw [htokens, manyAfter_cons (kind_word opening)]
      have hread (hsmall : size.Admissible ⟨number, closing⟩) (ts : List Token) :
          readSize stop (size.tokens ⟨number, closing⟩ ++ ts) =
            .ok (size.meaning ⟨number, closing⟩, ts) :=
        (reads_readSize.run stop _ (notAhead_none ts) _).mpr ⟨hsmall, rfl⟩
      -- A number that fits puts the question off to the suffixes behind it.
      cases number with
      | none =>
          rw [bind_of_ok (hread trivial _), bind_apply, ih, numbers_cons_none]
          split <;> rfl
      | some n =>
          rw [numbers_cons_some]
          by_cases hlarge : TooLarge n
          · rw [bind_apply, readSize_of_tooLarge hlarge, List.find?_cons_of_pos (by simpa)]
            rfl
          · have hsmall := (fitsSigned_iff_not_tooLarge n).mpr hlarge
            rw [bind_of_ok (hread hsmall _), bind_apply, ih, List.find?_cons_of_neg (by simpa)]
            split <;> rfl

/-- A word with suffixes is read, up to what stands behind the last bracket, as the word with an
array around it for each suffix, the last of them outermost; if a number is too large, the first
such number is refused. -/
theorem read_suffixes (t : Typed) (stop : Location) {rest : List Token}
    (hrest : NotAhead [.leftBracket] rest) :
    (read stop (typed.tokens t ++ rest) =
      match (numbers t.sizes).find? fun n => TooLarge n with
      | some n => .error (.invalidNumber n.1.literal n.1.location)
      | none => .ok (t.wrapped, rest)) ∧
    t.wrapped.dimensions = t.sizesRead.reverse ∧
    (∀ p, Primitive.ofKeyword? t.word.1.literal = some p → t.wrapped.innermost = .primitive p) ∧
    (Primitive.ofKeyword? t.word.1.literal = none →
      t.wrapped.innermost = .named ⟨t.word.1.literal, none⟩) := by
  have hinnermost : t.wrapped.innermost = .ofWord t.word.1.literal := by
    rw [Typed.wrapped, innermost_foldl_array, innermost_ofWord]
  refine ⟨?_, ?_, fun p hp => ?_, fun hnone => ?_⟩
  · have htokens : typed.tokens t ++ rest =
        t.word.1 :: ((size.behind .leftBracket).many.tokens t.sizes ++ rest) := rfl
    rw [htokens, read, bind_of_ok (expect_word t.word _ stop _), bind_apply,
      readSizes_eq t.sizes stop hrest]
    split <;> rfl
  · rw [Typed.wrapped, dimensions_foldl_array, dimensions_ofWord, List.append_nil]
  · rw [hinnermost, ofWord, hp]
  · rw [hinnermost, ofWord, hnone]
    rfl

/-- Two arrays around a word, as `T[][007]` writes them. -/
def gridTree : Typed where
  word := wordAt 0 .identifier "T" trivial
  sizes :=
    let seven := wordAt 4 .integer "007" ⟨by decide, List.all_eq_true.mp rfl⟩
    [(wordAt 1 .leftBracket "[" trivial, ⟨none, wordAt 2 .rightBracket "]" trivial⟩),
      (wordAt 3 .leftBracket "[" trivial, ⟨some seven, wordAt 7 .rightBracket "]" trivial⟩)]

/-- The array of seven is the outer one, and the name of the field is left. -/
theorem read_suffixes_grid :
    NotAhead [.leftBracket] [tokenAt 9 .identifier "x"] ∧
      read default (typed.tokens gridTree ++ [tokenAt 9 .identifier "x"]) =
        .ok (.array (.array (.named ⟨"T", none⟩) .unbounded) (.fixed 7),
          [tokenAt 9 .identifier "x"]) := by
  have hname : NotAhead [.leftBracket] [tokenAt 9 .identifier "x"] := by simp [tokenAt]
  exact ⟨hname, (read_suffixes gridTree default hname).1⟩

end FieldType

end SchemaLang
