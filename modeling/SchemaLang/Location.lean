/-!
# Places in a source text

A `Position` counts exactly, in natural numbers, and moves one character at a time, so the place
behind a text is a fold over that text.  A `Location` is what tokens, declarations and messages
carry: the same three numbers in 32 bits, with the name of the source they belong to.
-/

namespace SchemaLang

/-- A place in a named source.  Offset and column count bytes; line and column start at one.  The
numbers are 32 bits wide and wrap. -/
structure Location where
  offset : UInt32
  line : UInt32
  column : UInt32
  source : String
deriving DecidableEq, Repr, Inhabited

namespace Location

/-- The place as messages write it, `line:column`, behind the name of the source if it has one. -/
def text (place : Location) : String :=
  let inSource := toString place.line ++ ":" ++ toString place.column
  if place.source.isEmpty then inSource else place.source ++ ":" ++ inSource

end Location

/-- How far a reader has come in a text: bytes passed, current line, current column in bytes. -/
structure Position where
  offset : Nat
  line : Nat
  column : Nat
deriving DecidableEq, Repr

namespace Position

/-- The place before the first character of a text. -/
def start : Position := ⟨0, 1, 1⟩

/-- The place behind one more character.  Only a line feed ends a line. -/
def after (p : Position) (c : Char) : Position :=
  if c = '\n' then ⟨p.offset + c.utf8Size, p.line + 1, 1⟩
  else ⟨p.offset + c.utf8Size, p.line, p.column + c.utf8Size⟩

/-- The place behind a stretch of text. -/
def advance (p : Position) (cs : List Char) : Position :=
  cs.foldl after p

/-- The place as tokens carry it. -/
def toLocation (p : Position) (source : String) : Location :=
  ⟨UInt32.ofNat p.offset, UInt32.ofNat p.line, UInt32.ofNat p.column, source⟩

@[simp] theorem advance_nil (p : Position) : p.advance [] = p := rfl

@[simp] theorem advance_cons (p : Position) (c : Char) (cs : List Char) :
    p.advance (c :: cs) = (p.after c).advance cs := rfl

/-- Walking over two stretches one after the other is walking over both at once. -/
theorem advance_append (p : Position) (cs ds : List Char) :
    p.advance (cs ++ ds) = (p.advance cs).advance ds := by
  simp [advance, List.foldl_append]

end Position

end SchemaLang
