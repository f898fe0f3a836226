import Mathlib
import SchemaLang.Decimal.Style

/-!
# The bits of floats

What a writer decides on the bits of a float, said of the float itself.  There is one float that is
not a number and there are two infinite ones; all others are finite, and the bits behind their sign
number them in the order of their absolute values.
-/

namespace SchemaLang.Decimal

open Float.Model (Format)
open Float.Model.UnpackedFloat (unpack unpackExponent unpackMantissa unpackExponent_def
  unpackMantissa_def)

/-- The bits of a float that is a finite number. -/
def IsFinite (bits : UInt64) : Prop :=
  (bits >>> 52) &&& 0x7FF ≠ 0x7FF

instance : DecidablePred IsFinite :=
  fun bits => inferInstanceAs (Decidable ((bits >>> 52) &&& 0x7FF ≠ 0x7FF))

/-- The bits behind the sign, as a number. -/
def rank (bits : UInt64) : Nat :=
  bits.toNat % 2 ^ 63

theorem toNat_scale (bits : UInt64) :
    ((bits >>> 52) &&& 0x7FF).toNat = rank bits / 2 ^ 52 := by
  change (bits.toNat >>> 52) &&& (2 ^ 11 - 1) = bits.toNat % 2 ^ 63 / 2 ^ 52
  rw [Nat.and_two_pow_sub_one_eq_mod, Nat.shiftRight_eq_div_pow]
  omega

theorem toNat_fraction (bits : UInt64) :
    (bits &&& 0xFFFFFFFFFFFFF).toNat = rank bits % 2 ^ 52 := by
  change bits.toNat &&& (2 ^ 52 - 1) = bits.toNat % 2 ^ 63 % 2 ^ 52
  rw [Nat.and_two_pow_sub_one_eq_mod]
  omega

theorem sign_iff (bits : UInt64) : bits >>> 63 = 1 ↔ 2 ^ 63 ≤ bits.toNat := by
  have hbound := bits.toNat_lt
  rw [← UInt64.toNat_inj]
  change bits.toNat >>> 63 = 1 ↔ _
  rw [Nat.shiftRight_eq_div_pow]
  omega

theorem not_isFinite_iff (bits : UInt64) : ¬ IsFinite bits ↔ rank bits / 2 ^ 52 = 2047 := by
  rw [IsFinite, not_not, ← UInt64.toNat_inj, toNat_scale]
  rfl

/-- Bits of one sign are told apart by their rank. -/
theorem eq_of_rank_eq {bits others : UInt64} (hsign : bits >>> 63 = 1 ↔ others >>> 63 = 1)
    (hrank : rank bits = rank others) : bits = others := by
  have hbits := bits.toNat_lt
  have hothers := others.toNat_lt
  rw [sign_iff, sign_iff] at hsign
  unfold rank at hrank
  rw [← UInt64.toNat_inj]
  omega

/-! ### The classes of floats -/

theorem unpackExponent_eq_iff (bits : UInt64) :
    @unpackExponent Format.binary64 bits.toBitVec = -1#11 ↔ ¬ IsFinite bits := by
  rw [not_isFinite_iff, ← toNat_scale, ← BitVec.toNat_inj]
  change (bits.toNat >>> 52) % 2 ^ 11 = 2047 ↔ (bits.toNat >>> 52) &&& (2 ^ 11 - 1) = 2047
  rw [Nat.and_two_pow_sub_one_eq_mod]

theorem unpackMantissa_eq_iff (bits : UInt64) :
    @unpackMantissa Format.binary64 bits.toBitVec = 0#52 ↔ rank bits % 2 ^ 52 = 0 := by
  rw [← toNat_fraction, ← BitVec.toNat_inj]
  change bits.toNat % 2 ^ 52 = 0 ↔ bits.toNat &&& (2 ^ 52 - 1) = 0
  rw [Nat.and_two_pow_sub_one_eq_mod]

theorem isInf_iff (x : Float) :
    x.isInf ↔ ¬ IsFinite x.toBits ∧ rank x.toBits % 2 ^ 52 = 0 := by
  rw [← unpackExponent_eq_iff, ← unpackMantissa_eq_iff]
  change (unpack Format.binary64 x.toBits.toBitVec).isInf ↔ _
  unfold unpack
  dsimp only
  split_ifs <;> simp_all [Float.Model.UnpackedFloat.isInf]

theorem isNaN_iff (x : Float) :
    x.isNaN ↔ ¬ IsFinite x.toBits ∧ rank x.toBits % 2 ^ 52 ≠ 0 := by
  rw [ne_eq, ← unpackExponent_eq_iff, ← unpackMantissa_eq_iff]
  change (unpack Format.binary64 x.toBits.toBitVec).isNaN ↔ _
  unfold unpack
  dsimp only
  split_ifs <;> simp_all [Float.Model.UnpackedFloat.isNaN]

/-- A number is either finite or infinite. -/
theorem isFinite_iff_of_number {x : Float} (h : x.isNaN = false) :
    IsFinite x.toBits ↔ x.isInf = false := by
  rw [← Bool.not_eq_true, isNaN_iff] at h
  rw [← Bool.not_eq_true, isInf_iff]
  tauto

/-- There are two infinite floats, one of each sign. -/
theorem toBits_of_isInf {x : Float} (h : x.isInf = true) :
    x.toBits = 0x7FF0000000000000 ∨ x.toBits = 0xFFF0000000000000 := by
  obtain ⟨hscale, hfraction⟩ := (isInf_iff x).mp h
  have hbound := x.toBits.toNat_lt
  rw [not_isFinite_iff] at hscale
  unfold rank at hscale hfraction
  simp only [← UInt64.toNat_inj, UInt64.reduceToNat]
  omega

end SchemaLang.Decimal
