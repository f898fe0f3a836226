import Mathlib
import SchemaLang.Json.Schema
import SchemaLang.Literal
import SchemaLang.Proofs.FloatBits
import SchemaLang.Proofs.NumericBounds

/-!
# The bounds of ranges

A range is refused where its bounds are found to be inverted, and a float that is not a number is
found to be in no order at all.  So the bounds of a range that was made are in order exactly if both
are numbers; infinite ones are never included.  What is not a number passes, and everything that is
done with a range shows it.
-/

namespace SchemaLang

/-! ### Floats that are not numbers -/

section Unordered

open Float.Model (UnpackedFloat)

/-- What is not a number cannot be compared. -/
theorem compare_eq_none_of_isNaN {a b : UnpackedFloat} (h : a.isNaN ∨ b.isNaN) :
    UnpackedFloat.compare a b = none := by
  rcases h with ha | hb
  · cases a with
    | notANumber => cases b <;> rfl
    | _ => cases ha
  · cases b with
    | notANumber => cases a <;> rfl
    | _ => cases hb

/-- Where floats are in order, both are numbers. -/
theorem isNaN_eq_false_of_float_le {x y : Float} (h : x ≤ y) :
    x.isNaN = false ∧ y.isNaN = false := by
  obtain ⟨o, hcompare, -⟩ := (float_le_iff x y).mp h
  have hnumbers : ¬ (x.toModel.unpack.isNaN ∨ y.toModel.unpack.isNaN) := by
    intro hnan
    rw [compare_eq_none_of_isNaN hnan] at hcompare
    cases hcompare
  rw [not_or] at hnumbers
  exact ⟨Bool.eq_false_iff.mpr hnumbers.1, Bool.eq_false_iff.mpr hnumbers.2⟩

/-- Floats are in one order at most. -/
theorem not_float_lt_of_le {x y : Float} (h : x ≤ y) : ¬ y < x := by
  intro hlt
  obtain ⟨o, hcompare, hle⟩ := (float_le_iff x y).mp h
  rw [float_lt_iff, compare_swap, hcompare, Option.map_some, Option.some.injEq] at hlt
  cases o with
  | lt => cases hlt
  | eq => cases hlt
  | gt => cases hle

end Unordered

namespace Decimal

/-- What is not a number is not infinite either. -/
theorem isInf_eq_false_of_isNaN {x : Float} (h : x.isNaN = true) : x.isInf = false := by
  rw [← Bool.not_eq_true, isInf_iff]
  exact fun hinf => ((isNaN_iff x).mp h).2 hinf.2

/-- Every style has one text for what is not a number. -/
theorem Style.write_of_isNaN (style : Style) {x : Float} (h : x.isNaN = true) :
    style.write x = style.notANumber := by
  obtain ⟨hscale, hfraction⟩ := (isNaN_iff x).mp h
  rw [← toNat_fraction] at hfraction
  have hnonzero : x.toBits &&& 0xFFFFFFFFFFFFF ≠ 0 := by
    intro hzero
    rw [hzero] at hfraction
    exact hfraction rfl
  rw [write, ofBits, if_pos (not_not.mp hscale), if_pos hnonzero]

end Decimal

/-! ### Ranges that were made -/

namespace Range

/-- What is known of the bounds of a range that was made. -/
structure Made (range : Range) : Prop where
  /-- An infinite bound is exclusive. -/
  lower_open : range.lower.isInf → range.lowerInclusive = false
  upper_open : range.upper.isInf → range.upperInclusive = false
  /-- The bounds are in order exactly if both are numbers. -/
  ordered_iff : range.lower ≤ range.upper ↔ range.lower.isNaN = false ∧ range.upper.isNaN = false

/-- Not to be inverted is to be in order as far as this can be said. -/
theorem not_lt_iff {x y : Float} :
    ¬ y < x ↔ (x ≤ y ↔ x.isNaN = false ∧ y.isNaN = false) := by
  constructor
  · intro h
    exact ⟨isNaN_eq_false_of_float_le, fun hnumbers => float_le_of_not_lt hnumbers.1 hnumbers.2 h⟩
  · intro h hlt
    -- What is below something is in order with it, and then both are numbers.
    obtain ⟨hy, hx⟩ := isNaN_eq_false_of_float_le (x := y) (y := x)
      ((float_le_iff y x).mpr ⟨.lt, (float_lt_iff y x).mp hlt, rfl⟩)
    exact not_float_lt_of_le (h.mpr ⟨hx, hy⟩) hlt

/-- A range is made of given bounds exactly if it has them and they may be bounds. -/
theorem make_eq_ok_iff {lower upper : Float} {lowerInclusive upperInclusive : Bool}
    {range : Range} :
    make lower lowerInclusive upper upperInclusive = .ok range ↔
      range = ⟨lower, upper, lowerInclusive, upperInclusive⟩ ∧ range.Made := by
  have hmade : (⟨lower, upper, lowerInclusive, upperInclusive⟩ : Range).Made ↔
      ¬ upper < lower ∧ (lower.isInf → lowerInclusive = false) ∧
        (upper.isInf → upperInclusive = false) := by
    rw [not_lt_iff]
    exact ⟨fun h => ⟨h.ordered_iff, h.lower_open, h.upper_open⟩, fun h => ⟨h.2.1, h.2.2, h.1⟩⟩
  have hopen : ((lower.isInf && lowerInclusive) || (upper.isInf && upperInclusive)) = false ↔
      (lower.isInf → lowerInclusive = false) ∧ (upper.isInf → upperInclusive = false) := by
    rw [Bool.or_eq_false_iff, Bool.and_eq_false_imp, Bool.and_eq_false_imp]
  constructor
  · intro h
    unfold make at h
    split at h
    · cases h
    next hordered =>
      split at h
      · cases h
      next hinfinite =>
        cases h
        exact ⟨rfl, hmade.mpr ⟨hordered, hopen.mp (Bool.eq_false_iff.mpr hinfinite)⟩⟩
  · rintro ⟨rfl, h⟩
    obtain ⟨hordered, hinfinite⟩ := hmade.mp h
    rw [make, if_neg hordered, hopen.mpr hinfinite]
    rfl

/-- The range attribute is made where the range is. -/
theorem ofBounds_eq_ok_iff {lower upper : Float} {lowerInclusive upperInclusive : Bool}
    {place : Location} {a : Attribute} :
    Attribute.ofBounds lower lowerInclusive upper upperInclusive place = .ok a ↔
      ∃ range, make lower lowerInclusive upper upperInclusive = .ok range ∧ a = .range range := by
  rw [Attribute.ofBounds]
  cases make lower lowerInclusive upper upperInclusive with
  | error reason => simp
  | ok range => simp [eq_comm]

/-- A bound that is not a number is no limit of integers, and it is written as such. -/
theorem isIntegral_of_isNaN {bound : Float} (h : bound.isNaN = true) :
    isIntegral bound = false := by
  rw [isIntegral, Decimal.isInf_eq_false_of_isNaN h, h]
  rfl

theorem boundJson_of_isNaN {bound : Float} (h : bound.isNaN = true) :
    (boundJson bound).compact = "null" := by
  have hchars : Json.compactChars (.real bound) = (Json.number.write bound).toList := rfl
  rw [boundJson, Decimal.isInf_eq_false_of_isNaN h, if_neg Bool.noConfusion, Json.compact, hchars,
    Decimal.Style.write_of_isNaN Json.number h]
  rfl

/-- Which bounds make a range, directly or in an attribute: those that are not found to be inverted,
infinite ones being exclusive, so that the bounds of a range are in order exactly if both are
numbers.  One that is none is shown by whatever is done with the range. -/
theorem bounds_of_made (lower upper : Float) (lowerInclusive upperInclusive : Bool)
    (place : Location) :
    (∀ range, make lower lowerInclusive upper upperInclusive = .ok range ↔
      range = ⟨lower, upper, lowerInclusive, upperInclusive⟩ ∧ range.Made) ∧
    (∀ a, Attribute.ofBounds lower lowerInclusive upper upperInclusive place = .ok a ↔
      ∃ range, make lower lowerInclusive upper upperInclusive = .ok range ∧ a = .range range) ∧
    ∀ bound : Float, bound.isNaN = true → isIntegral bound = false ∧
      Decimal.plain.write bound = "NaN" ∧ (boundJson bound).compact = "null" :=
  ⟨fun _ => make_eq_ok_iff, fun _ => ofBounds_eq_ok_iff, fun _ h =>
    ⟨isIntegral_of_isNaN h, Decimal.plain.write_of_isNaN h, boundJson_of_isNaN h⟩⟩

/-- What is shown of a bound that is not a number. -/
theorem bounds_of_made_nan :
    (0.0 / 0.0 : Float).isNaN = true ∧ isIntegral (0.0 / 0.0) = false ∧
      Decimal.plain.write (0.0 / 0.0) = "NaN" ∧ (boundJson (0.0 / 0.0)).compact = "null" := by
  have hnan : (0.0 / 0.0 : Float).isNaN = true := by decide
  exact ⟨hnan, (bounds_of_made (0.0 / 0.0) 1.0 true true ⟨0, 0, 0, ""⟩).2.2 _ hnan⟩

/-- A range is made of a lower bound that is not a number, and its bounds are not in order. -/
theorem not_ordered_of_lower_nan :
    ∃ range, make (0.0 / 0.0) true 1.0 true = .ok range ∧
      Attribute.ofBounds (0.0 / 0.0) true 1.0 true ⟨0, 0, 0, ""⟩ = .ok (.range range) ∧
      ¬ range.lower ≤ range.upper ∧ range.text = "[NaN, 1]" := by
  have hmake : make (0.0 / 0.0) true 1.0 true = .ok ⟨0.0 / 0.0, 1.0, true, true⟩ := by
    rw [make, if_neg (by decide), if_neg (by decide)]
  exact ⟨_, hmake, ofBounds_eq_ok_iff.mpr ⟨_, hmake, rfl⟩, by decide, by decide +kernel⟩

end Range

end SchemaLang
