import SchemaLang.Decimal.Style

/-!
# Ranges of permitted values

An interval of floats whose ends are open or closed each on its own.
-/

namespace SchemaLang

/-- The permitted values of a numeric field. -/
structure Range where
  lower : Float
  upper : Float
  lowerInclusive : Bool
  upperInclusive : Bool
deriving Repr

/-- Why two bounds make no range. -/
inductive RangeError where
  | invertedBounds
  | inclusiveInfinity
deriving DecidableEq, Repr

/-- The explanation a user reads. -/
def RangeError.message : RangeError → String
  | .invertedBounds => "lower bound on range is higher than upper bound"
  | .inclusiveInfinity => "infinity cannot be inclusive in range"

namespace Range

/-- The range between two bounds.  A lower bound above the upper one is refused, and then an
infinite bound that is inclusive. -/
def make (lower : Float) (lowerInclusive : Bool) (upper : Float) (upperInclusive : Bool) :
    Except RangeError Range :=
  if lower > upper then .error .invertedBounds
  else if (lower.isInf && lowerInclusive) || (upper.isInf && upperInclusive) then
    .error .inclusiveInfinity
  else .ok ⟨lower, upper, lowerInclusive, upperInclusive⟩

/-- A bound that limits integers: infinite or a whole number. -/
def isIntegral (bound : Float) : Bool :=
  bound.isInf || (!bound.isNaN && (Decimal.Magnitude.ofBits bound.toBits).isWhole)

/-- Both bounds are infinite or whole numbers. -/
def hasIntegralBounds (range : Range) : Bool :=
  isIntegral range.lower && isIntegral range.upper

/-- The range as messages and outlines write it: brackets at closed ends, angles at open ones. -/
def text (range : Range) : String :=
  (if range.lowerInclusive then "[" else "<") ++ Decimal.plain.write range.lower ++ ", " ++
    Decimal.plain.write range.upper ++ (if range.upperInclusive then "]" else ">")

end Range

end SchemaLang
