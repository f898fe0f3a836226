import SchemaLang.Attribute
import SchemaLang.Location

/-!
# Errors of reading a source

What can be wrong with the text of one schema source.  Every error carries the place it is about.
-/

namespace SchemaLang

/-- What a reader needed at the place where it stopped. -/
inductive Expectation where
  | packageKeyword
  | packageName
  | importedName
  | declaration
  | typeName
  | parentName
  | enumName
  | enumeralName
  | fieldName
  | fieldType
  | attributeName
  | exportedName
  | versionNumber
  | number
  | endOfExpression
  | colon
  | comma
  | openingBrace
  | closingBracket
  | openingParen
  | closingParen
  | commaOrClosingBrace
  | rangeOpening
  | rangeClosing
deriving DecidableEq, Repr

/-- The words of a message for what was needed. -/
def Expectation.text : Expectation → String
  | .packageKeyword => "`package`"
  | .packageName => "package name string"
  | .importedName => "imported package name string"
  | .declaration => "`use`, `class`, `struct` or `enum`"
  | .typeName => "type name"
  | .parentName => "parent type name"
  | .enumName => "enum name"
  | .enumeralName => "enumeral name"
  | .fieldName => "field name"
  | .fieldType => "type"
  | .attributeName => "attribute name"
  | .exportedName => "exported name string"
  | .versionNumber => "version number"
  | .number => "number"
  | .endOfExpression => "end of expression"
  | .colon => "`:`"
  | .comma => "`,`"
  | .openingBrace => "`\x7b`"
  | .closingBracket => "`]`"
  | .openingParen => "`(`"
  | .closingParen => "`)`"
  | .commaOrClosingBrace => "`,` or `\x7d`"
  | .rangeOpening => "`[` or `<`"
  | .rangeClosing => "`]` or `>`"

/-- What is wrong with a source. -/
inductive SyntaxError where
  /-- Text that is no token of the language. -/
  | invalidToken (literal : String) (place : Location)
  /-- A token, or the end of the source, where something else was needed. -/
  | unexpectedToken (expected : Expectation) (found : Option String) (place : Location)
  /-- A string literal without quotes around it. -/
  | malformedString (literal : String) (place : Location)
  /-- A number literal that is not of the kind needed, or too large. -/
  | invalidNumber (literal : String) (place : Location)
  /-- An attribute that does not exist. -/
  | unknownAttribute (key : String) (place : Location)
  /-- A constant expression without a numeric value. -/
  | notANumber (place : Location)
  /-- Two bounds that make no range. -/
  | invalidRange (reason : RangeError) (place : Location)
  /-- An attribute before several field names that may not decorate several fields. -/
  | inapplicableAttribute (reason : AttributeError) (place : Location)
deriving DecidableEq, Repr

namespace SyntaxError

/-- The place an error is about. -/
def location : SyntaxError → Location
  | .invalidToken _ place => place
  | .unexpectedToken _ _ place => place
  | .malformedString _ place => place
  | .invalidNumber _ place => place
  | .unknownAttribute _ place => place
  | .notANumber place => place
  | .invalidRange _ place => place
  | .inapplicableAttribute _ place => place

/-- What an error says behind the place it is about. -/
def complaint : SyntaxError → String
  | .invalidToken literal _ => "invalid token `" ++ literal ++ "`"
  | .unexpectedToken expected found _ =>
      "expected " ++ expected.text ++ ", found `" ++ found.getD "end of input" ++ "`"
  | .malformedString literal _ => "malformed string literal " ++ literal
  | .invalidNumber literal _ => "invalid number `" ++ literal ++ "`"
  | .unknownAttribute key _ => "unknown attribute `" ++ key ++ "`"
  | .notANumber _ => "expression does not evaluate to a number"
  | .invalidRange reason _ => reason.message
  | .inapplicableAttribute reason _ => reason.message

/-- The message a user reads. -/
def message (e : SyntaxError) : String :=
  e.location.text ++ ": " ++ e.complaint

/-- The message and the reason that lies behind it, if the error has one of its own. -/
def causes (e : SyntaxError) : List String :=
  match e with
  | .invalidRange reason _ => [e.message, reason.message]
  | .inapplicableAttribute reason _ => [e.message, reason.message]
  | _ => [e.message]

end SyntaxError

end SchemaLang
