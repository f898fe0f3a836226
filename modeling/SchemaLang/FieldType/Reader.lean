import SchemaLang.Literal
import SchemaLang.TokenReader

/-!
# Reading the types of fields

A type is a word with a pair of brackets behind it for each array around it, the innermost array
first.
-/

namespace SchemaLang.FieldType

open TokenReader

/-- Reads the size of an array behind its opening bracket, and the closing bracket. -/
def readSize : TokenReader ArraySize := do
  let size ← choose fun
    | some .integer => do
        let t ← expect .integer .number
        let size ← ofExcept (Literal.toSize t.literal t.location)
        return .fixed size
    | _ => pure .unbounded
  let _ ← expect .rightBracket .closingBracket
  return size

theorem advances_readSize : Advances readSize := by
  refine (keeps_choose fun kind => ?_).bind_advances fun _ =>
    (advances_expect _ _).bind fun _ => keeps_pure _
  split
  · exact ((advances_expect _ _).bind fun _ => (keeps_ofExcept _).bind fun _ =>
      keeps_pure _).keeps
  · exact keeps_pure _

/-- Reads a type. -/
def read : TokenReader FieldType := do
  let word ← expect .identifier .fieldType
  let sizes ← manyAfter .leftBracket readSize advances_readSize.keeps
  return sizes.foldl .array (ofWord word.literal)

theorem advances_read : Advances read :=
  (advances_expect _ _).bind fun _ => (keeps_manyAfter _ _ _).bind fun _ => keeps_pure _

end SchemaLang.FieldType
