/-!
# The shortest decimal that identifies a float

A finite float is a magnitude `m * 2 ^ q`.  The reals that round to it form an interval around it,
and of the decimals in that interval `Magnitude.shortest` takes one with the fewest digits, of
those the nearest.  Everything is compared in natural numbers: on the decimal grid of step `10 ^ k`
both the grid points and the quarters of the last binary place become whole multiples of a common
unit.
-/

namespace SchemaLang.Decimal

/-- The decimal number `digits * 10 ^ exponent`. -/
structure Scaled where
  digits : Nat
  exponent : Int
deriving DecidableEq, Repr

/-- Which of two equally near decimals is taken. -/
inductive Tie where
  /-- The one whose last digit is even. -/
  | even
  /-- The larger one. -/
  | up
deriving DecidableEq, Repr

/-- The absolute value `m * 2 ^ q` of a finite float.  Where `narrow` holds the next float below is
half as far away as the next one above. -/
structure Magnitude where
  m : Nat
  q : Int
  narrow : Bool
deriving DecidableEq, Repr

namespace Magnitude

/-- The absolute value held in the bits of a finite float. -/
def ofBits (bits : UInt64) : Magnitude :=
  let scale := ((bits >>> 52) &&& 0x7FF).toNat
  let fraction := (bits &&& 0xFFFFFFFFFFFFF).toNat
  if scale = 0 then ⟨fraction, -1074, false⟩
  else ⟨0x10000000000000 + fraction, (scale : Int) - 1075, fraction = 0 && 1 < scale⟩

/-- A whole number has no binary places behind the point. -/
def isWhole (x : Magnitude) : Bool :=
  0 ≤ x.q || x.m % Nat.pow 2 (-x.q).toNat = 0

/-- The decimal exponent of the leading digit of a non-zero magnitude. -/
def leading (x : Magnitude) : Int :=
  let num := x.m * Nat.pow 2 x.q.toNat
  let den := Nat.pow 2 (-x.q).toNat
  if den ≤ num then ((Nat.toDigits 10 (num / den)).length : Int) - 1
  else -((Nat.toDigits 10 ((den - 1) / num)).length : Int)

/-- What one step of the grid `10 ^ k` and one quarter of the last binary place measure in a unit
that divides both. -/
def measures (x : Magnitude) (k : Int) : Nat × Nat :=
  (Nat.pow 10 k.toNat * Nat.pow 2 (2 - x.q).toNat,
    Nat.pow 2 (x.q - 2).toNat * Nat.pow 10 (-k).toNat)

/-- Whether `d * 10 ^ k` lies among the reals that round to the magnitude.  The ends of that
interval belong to it exactly if `m` is even. -/
def readsBack (x : Magnitude) (k : Int) (d : Nat) : Bool :=
  let step := (x.measures k).1
  let quarter := (x.measures k).2
  let low := (if x.narrow then 4 * x.m - 1 else 4 * x.m - 2) * quarter
  let high := (4 * x.m + 2) * quarter
  if x.m % 2 = 0 then low ≤ d * step && d * step ≤ high
  else low < d * step && d * step < high

/-- The nearest point of the grid `10 ^ k` that reads back, if one of the two neighbours does. -/
def onGrid (x : Magnitude) (tie : Tie) (k : Int) : Option Scaled :=
  let step := (x.measures k).1
  let value := 4 * x.m * (x.measures k).2
  let below := value / step
  let above := below + 1
  match x.readsBack k below, x.readsBack k above with
  | false, false => none
  | true, false => some ⟨below, k⟩
  | false, true => some ⟨above, k⟩
  | true, true =>
      match compare (2 * value) ((below + above) * step), tie with
      | .lt, _ => some ⟨below, k⟩
      | .gt, _ => some ⟨above, k⟩
      | .eq, .up => some ⟨above, k⟩
      | .eq, .even => some ⟨if below % 2 = 0 then below else above, k⟩

/-- The magnitude itself as a decimal. -/
def exact (x : Magnitude) : Scaled :=
  if 0 ≤ x.q then ⟨x.m * Nat.pow 2 x.q.toNat, 0⟩ else ⟨x.m * Nat.pow 5 (-x.q).toNat, x.q⟩

end Magnitude

namespace Scaled

/-- The same number without zeros at the end of its digits. -/
def strip (d : Scaled) : Scaled :=
  if d.digits ≠ 0 ∧ d.digits % 10 = 0 then strip ⟨d.digits / 10, d.exponent + 1⟩ else d
termination_by d.digits
decreasing_by omega

end Scaled

/-- The decimal with the fewest digits that reads back to the magnitude, the nearest of those.
Seventeen digits are tried; the exact value would stand in if none of them read back. -/
def Magnitude.shortest (x : Magnitude) (tie : Tie) : Scaled :=
  if x.m = 0 then ⟨0, 0⟩
  else
    let grids := (List.range 17).map fun (i : Nat) => x.leading - (i : Int)
    ((grids.findSome? (x.onGrid tie)).getD x.exact).strip

end SchemaLang.Decimal
