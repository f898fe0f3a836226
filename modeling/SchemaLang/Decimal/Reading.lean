/-!
# Reading numbers

Two readers of whole texts.  `readInt?` reads an integer of 64 signed bits, `readFloat?` the float
nearest to a decimal.  Both refuse blanks, separators and anything behind the number.
-/

namespace SchemaLang.Decimal

/-- ASCII digits only. -/
def isDigit (c : Char) : Bool :=
  '0' ≤ c && c ≤ '9'

/-- The natural number written by a list of digits. -/
def natOf (digits : List Char) : Nat :=
  digits.foldl (fun n c => 10 * n + (c.toNat - '0'.toNat)) 0

/-- The float nearest to `digits * 10 ^ exponent`.  Beyond the reach of floats the power of ten is
not computed: with `n` digits the number is at least `10 ^ (n - 1 + exponent)` and below
`10 ^ (n + exponent)`. -/
def nearest (digits : List Char) (exponent : Int) : Float :=
  let n := natOf digits
  let size := ((Nat.toDigits 10 n).length : Int) + exponent
  if n = 0 then 0.0
  else if 310 < size then Float.ofScientific 1 false 400
  else if size < -330 then 0.0
  else Float.ofScientific n (exponent < 0) exponent.natAbs

/-- The sign in front of a number, true for minus, and the text behind it. -/
def signed : List Char → Bool × List Char
  | '+' :: cs => (false, cs)
  | '-' :: cs => (true, cs)
  | cs => (false, cs)

/-- The least number that is too large for 64 signed bits, `2 ^ 63`. -/
def signedBound : Int := 0x8000000000000000

/-- An integer of 64 signed bits: an optional sign and at least one digit. -/
def readInt? (text : List Char) : Option Int :=
  let (negative, digits) := signed text
  if digits.isEmpty || !digits.all isDigit then none
  else
    let n : Int := if negative then -(natOf digits : Int) else natOf digits
    if -signedBound ≤ n && n < signedBound then some n else none

/-- The exponent at the end of a decimal: nothing, or a mark, an optional sign and at least one
digit. -/
def readExponent? : List Char → Option Int
  | [] => some 0
  | mark :: cs =>
      let (negative, digits) := signed cs
      if (mark = 'e' || mark = 'E') && !digits.isEmpty && digits.all isDigit then
        some (if negative then -(natOf digits : Int) else natOf digits)
      else none

/-- A decimal without sign: digits with a point before, between, behind or without, at least one
digit, and an optional exponent. -/
def readUnsigned? (cs : List Char) : Option Float :=
  let whole := cs.takeWhile isDigit
  let behind := cs.dropWhile isDigit
  let (fraction, rest) := match behind with
    | '.' :: more => (more.takeWhile isDigit, more.dropWhile isDigit)
    | _ => ([], behind)
  if whole.isEmpty && fraction.isEmpty then none
  else
    (readExponent? rest).map fun exponent =>
      nearest (whole ++ fraction) (exponent - fraction.length)

/-- A float: an optional sign before a decimal or one of the words `inf`, `infinity` and `nan` in
letters of any case. -/
def readFloat? (text : List Char) : Option Float :=
  let (negative, body) := signed text
  let word := body.map Char.toLower
  let magnitude :=
    if word = ['i', 'n', 'f'] || word = ['i', 'n', 'f', 'i', 'n', 'i', 't', 'y'] then
      some (1.0 / 0.0)
    else if word = ['n', 'a', 'n'] then some (0.0 / 0.0)
    else readUnsigned? body
  magnitude.map fun x => if negative then -x else x

end SchemaLang.Decimal
