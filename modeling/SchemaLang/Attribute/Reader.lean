import SchemaLang.Expr.Reader

/-!
# Reading attributes

Attributes stand before what they decorate, each behind an `@` or several in braces behind one `@`.
An entry is a key, for all keys but `message` followed by a colon and a value.
-/

namespace SchemaLang

open TokenReader

/-- Reads a string literal without its quotes. -/
def TokenReader.quoted (expected : Expectation) : TokenReader String := do
  let t ← expect .string expected
  ofExcept (Literal.unquote t.literal t.location)

theorem TokenReader.advances_quoted (expected : Expectation) : Advances (quoted expected) :=
  (advances_expect _ _).bind fun _ => keeps_ofExcept _

namespace Attribute

/-- Reads a range: square brackets at closed ends, angles at open ones. -/
def readBounds : TokenReader Attribute := do
  let opening ← take (fun t => t.kind = .leftBracket || t.kind = .leftAngle) .rangeOpening
  let lower ← Expr.constant
  let _ ← expect .comma .comma
  let upper ← Expr.constant
  let closing ← take (fun t => t.kind = .rightBracket || t.kind = .rightAngle) .rangeClosing
  ofExcept (ofBounds lower (opening.kind = .leftBracket) upper (closing.kind = .rightBracket)
    opening.location)

theorem advances_readBounds : Advances readBounds :=
  (advances_take _ _).bind fun _ => (Expr.advances_constant.bind fun _ =>
    ((advances_expect _ _).bind fun _ => (Expr.advances_constant.bind fun _ =>
      ((advances_take _ _).bind fun _ => keeps_ofExcept _).keeps).keeps).keeps).keeps

/-- Reads the precision of a field. -/
def readPrecision : TokenReader Attribute := do
  let place ← here
  let step ← Expr.constant
  ofExcept (ofPrecision step place)

theorem advances_readPrecision : Advances readPrecision :=
  keeps_here.bind_advances fun _ => Expr.advances_constant.bind fun _ => keeps_ofExcept _

/-- Reads the version of a package. -/
def readVersion : TokenReader Attribute := do
  let t ← expect .integer .versionNumber
  let number ← ofExcept (Literal.toInt t.literal t.location)
  return .version number

theorem advances_readVersion : Advances readVersion :=
  (advances_expect _ _).bind fun _ => (keeps_ofExcept _).bind fun _ => keeps_pure _

/-- Reads the name of a declaration in generated code. -/
def readExportAs : TokenReader Attribute := do
  return .exportAs (← quoted .exportedName)

theorem advances_readExportAs : Advances readExportAs :=
  (advances_quoted _).bind fun _ => keeps_pure _

/-- Reads the colon and the value behind the key of an entry. -/
def readValue (value : TokenReader Attribute) : TokenReader Attribute := do
  let _ ← expect .colon .colon
  value

theorem advances_readValue {value : TokenReader Attribute} (hv : Keeps value) :
    Advances (readValue value) :=
  (advances_expect _ _).bind fun _ => hv

/-- Reads what belongs to the key of an entry. -/
def readBehind (key : Token) : TokenReader Attribute :=
  if key.literal = "message" then pure .message
  else if key.literal = "export_as" ∨ key.literal = "exportAs" then readValue readExportAs
  else if key.literal = "precision" then readValue readPrecision
  else if key.literal = "range" then readValue readBounds
  else if key.literal = "version" then readValue readVersion
  else ofExcept (.error (.unknownAttribute key.literal key.location))

theorem keeps_readBehind (key : Token) : Keeps (readBehind key) := by
  unfold readBehind
  split
  · exact keeps_pure _
  split
  · exact (advances_readValue advances_readExportAs.keeps).keeps
  split
  · exact (advances_readValue advances_readPrecision.keeps).keeps
  split
  · exact (advances_readValue advances_readBounds.keeps).keeps
  split
  · exact (advances_readValue advances_readVersion.keeps).keeps
  · exact keeps_ofExcept _

/-- Reads one attribute. -/
def readEntry : TokenReader Attribute := do
  let key ← expect .identifier .attributeName
  readBehind key

theorem advances_readEntry : Advances readEntry :=
  (advances_expect _ _).bind keeps_readBehind

/-- Reads what stands behind an `@`: one attribute, or several in braces. -/
def readGroup : TokenReader (List Attribute) := do
  if ← accept .leftBrace then commaSeparated readEntry advances_readEntry
  else return [← readEntry]

theorem advances_readGroup : Advances readGroup :=
  (keeps_accept _).bind_advances fun braced => by
    cases braced
    · exact advances_readEntry.bind fun _ => keeps_pure _
    · exact advances_commaSeparated _ _

/-- Reads the attributes before a declaration, possibly none. -/
def readAll : TokenReader (List Attribute) := do
  let groups ← manyAfter .at readGroup advances_readGroup.keeps
  return groups.flatten

theorem keeps_readAll : Keeps readAll :=
  (keeps_manyAfter _ _ _).bind fun _ => keeps_pure _

end Attribute

end SchemaLang
