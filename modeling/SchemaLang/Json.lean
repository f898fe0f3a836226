import SchemaLang.Decimal.Style

/-!
# JSON values and their text

A JSON value with its members in order, written compactly or over several lines with two blanks for
each level.  Whole numbers and floats are kept apart, because a float is written with a point or an
exponent even where it is whole.
-/

namespace SchemaLang

/-- A JSON value. -/
inductive Json where
  | null
  | bool (value : Bool)
  | integer (value : Int)
  | real (value : Float)
  | string (value : String)
  | array (items : List Json)
  | object (members : List (String × Json))
deriving Repr, Inhabited

namespace Json

/-- Floats are written positionally from `0.00001` up to below `10 ^ 16`, whole ones with a point,
and with an exponent of explicit sign beyond.  A tie goes to the even digit.  Values that are no
finite numbers become `null`. -/
def number : Decimal.Style where
  tie := .even
  positional := fun lead => -5 ≤ lead && lead < 16
  pointZero := true
  notANumber := "null"
  infinity := "null"
  negativeInfinity := "null"

/-- A character as it stands between the quotes of a string. -/
def escape (c : Char) : List Char :=
  match c with
  | '"' => ['\\', '"']
  | '\\' => ['\\', '\\']
  | '\x08' => ['\\', 'b']
  | '\x0c' => ['\\', 'f']
  | '\n' => ['\\', 'n']
  | '\r' => ['\\', 'r']
  | '\t' => ['\\', 't']
  | c =>
      if c.toNat < 0x20 then
        ['\\', 'u', '0', '0', Nat.digitChar (c.toNat / 16), Nat.digitChar (c.toNat % 16)]
      else [c]

/-- A string in quotes. -/
def quote (s : String) : List Char :=
  '"' :: s.toList.flatMap escape ++ ['"']

/-- The text of a value that holds no other values. -/
def scalar : Json → List Char
  | .null => ['n', 'u', 'l', 'l']
  | .bool true => ['t', 'r', 'u', 'e']
  | .bool false => ['f', 'a', 'l', 's', 'e']
  | .integer n => (toString n).toList
  | .real x => (number.write x).toList
  | .string s => quote s
  | .array _ => []
  | .object _ => []

mutual

/-- The value on one line, without blanks. -/
def compactChars : Json → List Char
  | .array [] => ['[', ']']
  | .array (x :: xs) => '[' :: compactChars x ++ compactItems xs
  | .object [] => ['\x7b', '\x7d']
  | .object ((key, x) :: ms) => '\x7b' :: quote key ++ ':' :: compactChars x ++ compactMembers ms
  | x => scalar x

/-- The further items of an array and its end. -/
def compactItems : List Json → List Char
  | [] => [']']
  | x :: xs => ',' :: compactChars x ++ compactItems xs

/-- The further members of an object and its end. -/
def compactMembers : List (String × Json) → List Char
  | [] => ['\x7d']
  | (key, x) :: ms => ',' :: quote key ++ ':' :: compactChars x ++ compactMembers ms

end

/-- The start of a line at the given level. -/
def newline (level : Nat) : List Char :=
  '\n' :: List.replicate (2 * level) ' '

mutual

/-- The value over several lines, where its first line starts at the given level. -/
def prettyChars (level : Nat) : Json → List Char
  | .array [] => ['[', ']']
  | .array (x :: xs) =>
      '[' :: newline (level + 1) ++ prettyChars (level + 1) x ++ prettyItems level xs
  | .object [] => ['\x7b', '\x7d']
  | .object ((key, x) :: ms) =>
      '\x7b' :: newline (level + 1) ++ quote key ++ ':' :: ' ' :: prettyChars (level + 1) x ++
        prettyMembers level ms
  | x => scalar x

/-- The further items of an array that starts at the given level, and its end. -/
def prettyItems (level : Nat) : List Json → List Char
  | [] => newline level ++ [']']
  | x :: xs => ',' :: newline (level + 1) ++ prettyChars (level + 1) x ++ prettyItems level xs

/-- The further members of an object that starts at the given level, and its end. -/
def prettyMembers (level : Nat) : List (String × Json) → List Char
  | [] => newline level ++ ['\x7d']
  | (key, x) :: ms =>
      ',' :: newline (level + 1) ++ quote key ++ ':' :: ' ' :: prettyChars (level + 1) x ++
        prettyMembers level ms

end

/-- The value as text on one line. -/
def compact (x : Json) : String :=
  String.ofList x.compactChars

/-- The value as text over several lines. -/
def pretty (x : Json) : String :=
  String.ofList (x.prettyChars 0)

end Json

end SchemaLang
