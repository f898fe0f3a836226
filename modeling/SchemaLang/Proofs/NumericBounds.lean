import Mathlib
import SchemaLang.Proofs.Legible

/-!
# The numbers of a schema

A schema has numbers at three places: the bounds of ranges, precisions and the sizes of arrays.
Constants that are worth NaN are refused where they are read, bounds out of order where a range is
made, and sizes that are too large where their literal is read.  None of them comes into a package
in another way, and declaring several fields at once only copies what was checked.
-/

namespace SchemaLang

/-! ### The order of floats -/

section Order

open Float.Model (UnpackedFloat)
open Float.Model.UnpackedFloat (Sign)

/-- A comparison that is made the other way round. -/
theorem compare_swap (a b : UnpackedFloat) :
    UnpackedFloat.compare b a = (UnpackedFloat.compare a b).map Ordering.swap := by
  have hsign (s t : Sign) : compare t s = (compare s t).swap := by
    cases s <;> cases t <;> rfl
  have hscale (m n : Nat) (e f : Int) :
      (compare f e).then (compare n m) = ((compare e f).then (compare m n)).swap := by
    have hexponent : compare f e = (compare e f).swap := Std.OrientedCmp.eq_swap
    have hmantissa : compare n m = (compare m n).swap := Std.OrientedCmp.eq_swap
    rw [Ordering.swap_then, hexponent, hmantissa]
  cases a with
  | notANumber => cases b <;> rfl
  | infinity s =>
      cases b with
      | infinity t => exact congrArg some (hsign s t)
      | notANumber => rfl
      | zero t => cases s <;> rfl
      | finite t n f hn => cases s <;> cases t <;> rfl
  | zero s =>
      cases b with
      | infinity t => cases t <;> rfl
      | notANumber => rfl
      | zero t => rfl
      | finite t n f hn => cases t <;> rfl
  | finite s m e hm =>
      cases b with
      | infinity t => cases s <;> cases t <;> rfl
      | notANumber => cases s <;> rfl
      | zero t => cases s <;> rfl
      | finite t n f hn =>
          -- Only here two numbers are measured, those below zero the other way round.
          cases s with
          | negative =>
              cases t with
              | negative => exact congrArg some (congrArg Ordering.swap (hscale m n e f))
              | positive => rfl
          | positive =>
              cases t with
              | negative => rfl
              | positive => exact congrArg some (hscale m n e f)

/-- Only what is not a number cannot be compared. -/
theorem isNaN_of_compare_eq_none {a b : UnpackedFloat} (h : UnpackedFloat.compare a b = none) :
    a.isNaN ∨ b.isNaN := by
  unfold UnpackedFloat.compare at h
  split at h
  · exact .inl rfl
  · exact .inr rfl
  all_goals exact nomatch h

theorem float_lt_iff (x y : Float) :
    x < y ↔ UnpackedFloat.compare x.toModel.unpack y.toModel.unpack = some .lt := by
  change decide (UnpackedFloat.compare x.toModel.unpack y.toModel.unpack == some .lt) = true ↔ _
  rw [decide_eq_true_iff, beq_iff_eq]

theorem float_le_iff (x y : Float) :
    x ≤ y ↔
      ∃ o, UnpackedFloat.compare x.toModel.unpack y.toModel.unpack = some o ∧ o.isLE := by
  change decide ((UnpackedFloat.compare x.toModel.unpack y.toModel.unpack).any (·.isLE)) = true ↔ _
  rw [decide_eq_true_iff, Option.any_eq_true]

/-- Floats that are numbers are in one order or the other. -/
theorem float_le_of_not_lt {x y : Float} (hx : x.isNaN = false) (hy : y.isNaN = false)
    (h : ¬ y < x) : x ≤ y := by
  rw [float_lt_iff, compare_swap] at h
  rw [float_le_iff]
  match hcompare : UnpackedFloat.compare x.toModel.unpack y.toModel.unpack with
  | none =>
      rcases isNaN_of_compare_eq_none hcompare with hnan | hnan
      · exact absurd hnan (ne_true_of_eq_false hx)
      · exact absurd hnan (ne_true_of_eq_false hy)
  | some .lt => exact ⟨_, rfl, rfl⟩
  | some .eq => exact ⟨_, rfl, rfl⟩
  | some .gt => exact absurd (by rw [hcompare]; rfl) h

end Order

/-! ### Proper numbers -/

/-- Two numbers in order, an infinite one never included. -/
structure Range.Proper (range : Range) : Prop where
  lower_number : range.lower.isNaN = false
  upper_number : range.upper.isNaN = false
  ordered : range.lower ≤ range.upper
  lower_open : range.lower.isInf → range.lowerInclusive = false
  upper_open : range.upper.isInf → range.upperInclusive = false

/-- The range that is made of two numbers is proper. -/
theorem Range.proper_of_make {lower upper : Float} {lowerInclusive upperInclusive : Bool}
    {range : Range} (hlower : lower.isNaN = false) (hupper : upper.isNaN = false)
    (h : make lower lowerInclusive upper upperInclusive = .ok range) : range.Proper := by
  unfold make at h
  split at h
  · cases h
  · rename_i hordered
    split at h
    · cases h
    · rename_i hopen
      cases h
      simp only [Bool.or_eq_true, Bool.and_eq_true, not_or, not_and, Bool.not_eq_true] at hopen
      exact ⟨hlower, hupper, float_le_of_not_lt hlower hupper hordered, hopen.1, hopen.2⟩

/-- An attribute whose numbers are proper. -/
def Attribute.Proper : Attribute → Prop
  | .range values => values.Proper
  | .precision step => step.isNaN = false
  | .exportAs _ | .message | .version _ => True

/-- The sizes of a type that are fixed, the outermost first. -/
def FieldType.fixedSizes : FieldType → List Nat
  | .array element (.fixed size) => size :: element.fixedSizes
  | .array element .unbounded => element.fixedSizes
  | .primitive _ | .named _ => []

/-! ### Everything in a package -/

/-- The attributes of a definition and of its fields. -/
def Definition.attributesWithin : Definition → List Attribute
  | .struct s => s.attributes ++ s.fields.flatMap Field.attributes
  | .enumeration e => e.attributes

def Definition.sizesWithin : Definition → List Nat
  | .struct s => s.fields.flatMap fun field => field.type.fixedSizes
  | .enumeration _ => []

namespace Package

def Item.attributesWithin : Item → List Attribute
  | .imported i => i.attributes
  | .defined d => d.attributesWithin

def Item.sizesWithin : Item → List Nat
  | .imported _ => []
  | .defined d => d.sizesWithin

/-- The attributes of a package, its imports, its definitions and their fields. -/
def attributesWithin (package : Package) : List Attribute :=
  package.attributes ++ (package.imports.flatMap Import.attributes ++
    package.definitions.flatMap Definition.attributesWithin)

/-- The fixed sizes of all arrays in a package. -/
def sizesWithin (package : Package) : List Nat :=
  package.definitions.flatMap Definition.sizesWithin

theorem mem_attributesWithin_foldl_add {a : Attribute} (items : List Item) (package : Package) :
    a ∈ (items.foldl add package).attributesWithin ↔
      a ∈ package.attributesWithin ∨ ∃ item ∈ items, a ∈ item.attributesWithin := by
  induction items generalizing package with
  | nil => simp
  | cons item items ih =>
      have hadd : a ∈ (package.add item).attributesWithin ↔
          a ∈ package.attributesWithin ∨ a ∈ item.attributesWithin := by
        cases item with
        | imported i =>
            simp only [add, addImport, attributesWithin, Item.attributesWithin, List.mem_append,
              List.flatMap_append, List.flatMap_singleton]
            grind
        | defined d =>
            simp only [add, addDefinition, attributesWithin, Item.attributesWithin, List.mem_append,
              List.flatMap_append, List.flatMap_singleton]
            grind
      rw [List.foldl_cons, ih, hadd, List.exists_mem_cons_iff, or_assoc]

theorem mem_sizesWithin_foldl_add {n : Nat} (items : List Item) (package : Package) :
    n ∈ (items.foldl add package).sizesWithin ↔
      n ∈ package.sizesWithin ∨ ∃ item ∈ items, n ∈ item.sizesWithin := by
  induction items generalizing package with
  | nil => simp
  | cons item items ih =>
      have hadd : n ∈ (package.add item).sizesWithin ↔
          n ∈ package.sizesWithin ∨ n ∈ item.sizesWithin := by
        cases item with
        | imported i => simp [add, addImport, sizesWithin, Item.sizesWithin]
        | defined d => simp [add, addDefinition, sizesWithin, Item.sizesWithin]
      rw [List.foldl_cons, ih, hadd, List.exists_mem_cons_iff, or_assoc]

end Package

/-! ### What is read -/

namespace Grammar

theorem yields_proper_entry : entry.Yields Attribute.Proper := by
  intro x hx _
  cases x with
  | message key => trivial
  | exportAs key colon name => trivial
  | precision key colon step => exact hx
  | range key colon values => exact Range.proper_of_make hx.1 hx.2.1 hx.2.2
  | version key colon number => trivial

/-- The sizes that are written around a type are added to its own. -/
theorem mem_fixedSizes_foldl_array {n : Nat} (sizes : List ArraySize) (type : FieldType) :
    n ∈ (sizes.foldl .array type).fixedSizes ↔ .fixed n ∈ sizes ∨ n ∈ type.fixedSizes := by
  induction sizes generalizing type with
  | nil => simp
  | cons size sizes ih =>
      rw [List.foldl_cons, ih]
      cases size with
      | unbounded => simp [FieldType.fixedSizes]
      | fixed m => simp [FieldType.fixedSizes]; tauto

theorem fixedSizes_ofWord (word : String) : (FieldType.ofWord word).fixedSizes = [] := by
  unfold FieldType.ofWord
  split <;> rfl

theorem yields_fitting_size : size.Yields fun s => ∀ n, s = .fixed n → Decimal.FitsSigned n := by
  rintro ⟨number, closing⟩ hx _ n hn
  cases number with
  | none => cases hn
  | some number => cases hn; exact hx

theorem yields_fitting_typed :
    typed.Yields fun type => ∀ n ∈ type.fixedSizes, Decimal.FitsSigned n := by
  intro t ht htokens n hn
  have hsizes := (yields_fitting_size.behind .leftBracket).many t.sizes ht
    (List.forall_mem_cons.mp htokens).2
  rcases (mem_fixedSizes_foldl_array _ _).mp hn with hwritten | hword
  · exact hsizes _ hwritten n rfl
  · rw [fixedSizes_ofWord] at hword
    exact nomatch hword

/-- Every field of a declaration has the attributes and the type that were read for all of them. -/
theorem yields_proper_declaration : declaration.Yields fun l => ∀ field ∈ l,
    (∀ a ∈ field.attributes, a.Proper) ∧
      ∀ n ∈ field.type.fixedSizes, Decimal.FitsSigned n := by
  rintro d ⟨hattributes, htype, -⟩ ht field hfield
  obtain ⟨htattributes, ht⟩ := List.forall_mem_append.mp ht
  obtain ⟨httype, -⟩ := List.forall_mem_append.mp ht
  obtain ⟨named, -, rfl⟩ := List.mem_map.mp hfield
  exact ⟨yields_proper_entry.attributes _ hattributes htattributes,
    yields_fitting_typed _ htype httype⟩

theorem yields_proper_item : item.Yields fun i =>
    (∀ a ∈ i.attributesWithin, a.Proper) ∧ ∀ n ∈ i.sizesWithin, Decimal.FitsSigned n := by
  rintro ⟨decoration, e⟩ ⟨hattributes, he⟩ ht
  obtain ⟨htattributes, ht⟩ := List.forall_mem_append.mp ht
  have hdecorated := yields_proper_entry.attributes decoration hattributes htattributes
  cases e with
  | imported tree => exact ⟨hdecorated, fun _ hnone => nomatch hnone⟩
  | enumeration tree => exact ⟨hdecorated, fun _ hnone => nomatch hnone⟩
  | struct tree =>
      obtain ⟨-, ht⟩ := List.forall_mem_cons.mp ht
      obtain ⟨-, ht⟩ := List.forall_mem_cons.mp ht
      obtain ⟨-, ht⟩ := List.forall_mem_append.mp ht
      have hfields := yields_proper_declaration.braced _ he (List.forall_mem_cons.mp ht).2
      constructor
      · refine fun a ha => (List.mem_append.mp ha).elim (hdecorated a) fun hmem => ?_
        obtain ⟨field, hfield, hmem⟩ := List.mem_flatMap.mp hmem
        obtain ⟨declared, hdeclared, hfield⟩ := List.mem_flatten.mp hfield
        exact (hfields declared hdeclared field hfield).1 a hmem
      · intro n hn
        obtain ⟨field, hfield, hmem⟩ := List.mem_flatMap.mp hn
        obtain ⟨declared, hdeclared, hfield⟩ := List.mem_flatten.mp hfield
        exact (hfields declared hdeclared field hfield).2 n hmem

theorem yields_proper_package : package.Yields fun p =>
    (∀ a ∈ p.attributesWithin, a.Proper) ∧ ∀ n ∈ p.sizesWithin, Decimal.FitsSigned n := by
  rintro p ⟨hattributes, hitems⟩ ht
  obtain ⟨htattributes, ht⟩ := List.forall_mem_append.mp ht
  obtain ⟨-, ht⟩ := List.forall_mem_cons.mp ht
  have hmembers := yields_proper_item.many _ hitems (List.forall_mem_cons.mp ht).2
  constructor
  · intro a ha
    rcases (Package.mem_attributesWithin_foldl_add _ _).mp ha with hown | ⟨i, hi, hmem⟩
    · have hown : a ∈ attributes.meaning p.attributes := by
        simpa [Package.attributesWithin, Package.empty] using hown
      exact yields_proper_entry.attributes _ hattributes htattributes a hown
    · exact (hmembers i hi).1 a hmem
  · intro n hn
    rcases (Package.mem_sizesWithin_foldl_add _ _).mp hn with hown | ⟨i, hi, hmem⟩
    · exact nomatch hown
    · exact (hmembers i hi).2 n hmem

end Grammar

namespace Package

/-- In a package that is parsed, all ranges are proper, all precisions are numbers and all sizes of
arrays fit into 63 bits, wherever they stand. -/
theorem numbers_of_parse {text source : String} {parsed : Package}
    (h : parse text source = .ok parsed) :
    (∀ values, .range values ∈ parsed.attributesWithin → values.Proper) ∧
      (∀ step, .precision step ∈ parsed.attributesWithin → step.isNaN = false) ∧
      ∀ size ∈ parsed.sizesWithin, size < 2 ^ 63 := by
  obtain ⟨tree, htokens, hadmissible, rfl⟩ := parse_eq_ok_iff.mp h
  obtain ⟨hattributes, hsizes⟩ := Grammar.yields_proper_package tree hadmissible
    (htokens ▸ Tokens.oneLine_of_mem_cut)
  exact ⟨fun values => hattributes (.range values), fun step => hattributes (.precision step),
    hsizes⟩

section Clamped

open Grammar

/-- The bounds of a range that has no lower end. -/
def belowZero : Bounds where
  opening := ⟨tokenAt 31 .leftAngle "<", rfl, trivial⟩
  lower := .product (.unary (.negated (wordAt 32 .minus "-" trivial)
    (.operand (.infinity ⟨tokenAt 33 .identifier "inf", by decide, trivial⟩))))
  comma := wordAt 36 .comma "," trivial
  upper := .product (.unary (.operand (.number ⟨tokenAt 38 .integer "0", rfl, by
    simp [tokenAt, Token.HasShape, Lexeme.HasShape, Lexeme.IsDigits, Lexeme.isDigit]⟩)))
  closing := ⟨tokenAt 39 .rightBracket "]", rfl, trivial⟩

/-- Two fields with that range. -/
def clampedPair : Grammar.Declaration where
  attributes := [(wordAt 23 .at "@" trivial, .single (.range
    ⟨tokenAt 24 .identifier "range", by decide, trivial⟩ (wordAt 29 .colon ":" trivial)
    belowZero))]
  type := ⟨wordAt 41 .identifier "float" trivial, []⟩
  first := ⟨tokenAt 47 .identifier "x", by decide, trivial⟩
  others := [(wordAt 48 .comma "," trivial,
    ⟨tokenAt 50 .identifier "y", by decide, trivial⟩)]

/-- A package of these fields. -/
def clamped : PackageTree :=
  oneStruct [clampedPair] 52

theorem admissible_clamped : Grammar.package.Admissible clamped := by
  have hbounds : bounds.Admissible belowZero :=
    ⟨by with_unfolding_all rfl, by with_unfolding_all rfl, by with_unfolding_all rfl⟩
  have hdeclaration : declaration.Admissible clampedPair :=
    ⟨List.forall_mem_singleton.mpr hbounds, Rule.many_admissible_nil _, fun _ =>
      List.forall_mem_singleton.mpr (by with_unfolding_all rfl)⟩
  exact ⟨Rule.many_admissible_nil _, List.forall_mem_singleton.mpr
    ⟨Rule.many_admissible_nil _, List.forall_mem_singleton.mpr hdeclaration⟩⟩

/-- Both fields have a proper range. -/
theorem numbers_of_parse_clamped : ∃ parsed,
    parse "package \"p\" struct S \x7b @range: <-inf, 0] float x, y \x7d" "" = .ok parsed ∧
      parsed.attributesWithin.length = 2 ∧
      (∀ values, .range values ∈ parsed.attributesWithin → values.Proper) ∧
      (∀ step, .precision step ∈ parsed.attributesWithin → step.isNaN = false) ∧
      ∀ size ∈ parsed.sizesWithin, size < 2 ^ 63 := by
  have hparse : parse "package \"p\" struct S \x7b @range: <-inf, 0] float x, y \x7d" "" =
      .ok (Grammar.package.meaning clamped) :=
    parse_eq_ok_iff.mpr ⟨clamped, by with_unfolding_all rfl, admissible_clamped, rfl⟩
  exact ⟨_, hparse, rfl, numbers_of_parse hparse⟩

end Clamped

end Package

end SchemaLang
