import SchemaLang.Decimal.Shortest

/-!
# Writing floats

A `Style` holds the decisions of one way to write floats: how ties between equally near decimals
go, which exponents are written positionally, whether a whole number keeps a point, and the texts
of the values that are no numbers.  `Style.write` is the one writer for all of them.
-/

namespace SchemaLang.Decimal

/-- The decisions of one way to write floats. -/
structure Style where
  /-- Which of two equally near decimals is written. -/
  tie : Tie
  /-- The exponents of the leading digit that are written without an exponent. -/
  positional : Int → Bool
  /-- A whole number is written with a point and a zero behind it. -/
  pointZero : Bool
  notANumber : String
  infinity : String
  negativeInfinity : String

namespace Style

/-- The digits of a number laid out positionally, where the leading digit stands for ten to the
power of `lead`. -/
def layOut (style : Style) (digits : List Char) (lead : Int) : List Char :=
  if lead < 0 then
    '0' :: '.' :: List.replicate (-lead - 1).toNat '0' ++ digits
  else
    let whole := lead.toNat + 1
    if whole < digits.length then digits.take whole ++ '.' :: digits.drop whole
    else
      digits ++ List.replicate (whole - digits.length) '0' ++
        (if style.pointZero then ['.', '0'] else [])

/-- The digits of a number with an exponent of explicit sign. -/
def exponentForm (digits : List Char) (lead : Int) : List Char :=
  let mantissa := match digits with
    | [] => []
    | [d] => [d]
    | d :: more => d :: '.' :: more
  let sign := if lead < 0 then '-' else '+'
  mantissa ++ 'e' :: sign :: Nat.toDigits 10 lead.natAbs

/-- A non-negative decimal in this style. -/
def decimal (style : Style) (d : Scaled) : List Char :=
  let digits := Nat.toDigits 10 d.digits
  let lead := d.exponent + (digits.length : Int) - 1
  if style.positional lead then style.layOut digits lead else exponentForm digits lead

/-- The text of the float whose bits are given. -/
def ofBits (style : Style) (bits : UInt64) : String :=
  let negative := bits >>> 63 = 1
  if (bits >>> 52) &&& 0x7FF = 0x7FF then
    if bits &&& 0xFFFFFFFFFFFFF ≠ 0 then style.notANumber
    else if negative then style.negativeInfinity
    else style.infinity
  else
    let text := style.decimal ((Magnitude.ofBits bits).shortest style.tie)
    String.ofList (if negative then '-' :: text else text)

/-- The text of a float in this style. -/
def write (style : Style) (x : Float) : String :=
  style.ofBits x.toBits

end Style

/-- The style of messages and outlines: never an exponent, no point behind a whole number, and a
tie goes to the larger decimal. -/
def plain : Style where
  tie := .up
  positional := fun _ => true
  pointZero := false
  notANumber := "NaN"
  infinity := "inf"
  negativeInfinity := "-inf"

end SchemaLang.Decimal
