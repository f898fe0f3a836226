import SchemaLang.Attribute.Reader
import SchemaLang.FieldType.Reader
import SchemaLang.Token.Source

/-!
# Reading packages

The grammar of a schema source, one reader for each of its rules.  `Package.parse` reads a whole
source and `Expr.evaluate` one constant expression.

* a package is `package "name"` followed by imports and definitions;
* an import is `use "name"`;
* a struct is `struct Name : Parent { fields }`, a class the same with `class`, and the parent may
  be left out;
* an enum is `enum Name { names }` with commas between the names;
* a field is `Type name, name` with at least one name.

Attributes may stand before each of them.
-/

namespace SchemaLang

open TokenReader

/-- Reads an identifier without dots. -/
def TokenReader.simpleName (expected : Expectation) : TokenReader Token :=
  take (fun t => t.kind = .identifier && !t.literal.toList.contains '.') expected

theorem TokenReader.advances_simpleName (expected : Expectation) : Advances (simpleName expected) :=
  advances_take _ _

namespace Field

/-- Reads the name of a field with its place. -/
def readName : TokenReader (String × Location) := do
  let t ← simpleName .fieldName
  return (t.literal, t.location)

theorem advances_readName : Advances readName :=
  (advances_simpleName _).bind fun _ => keeps_pure _

/-- Reads one declaration of fields. -/
def readDeclaration : TokenReader (List Field) := do
  let attributes ← Attribute.readAll
  let place ← here
  let type ← FieldType.read
  let first ← readName
  let others ← manyAfter .comma readName advances_readName.keeps
  ofExcept (declare type (first :: others) attributes place)

theorem advances_readDeclaration : Advances readDeclaration :=
  Attribute.keeps_readAll.bind_advances fun _ => keeps_here.bind_advances fun _ =>
    FieldType.advances_read.bind fun _ => (advances_readName.bind fun _ =>
      (keeps_manyAfter _ _ _).bind fun _ => keeps_ofExcept _).keeps

end Field

namespace Struct

/-- Reads the parent behind the name of a struct, if there is one. -/
def readParent : TokenReader (Option String) := do
  if ← accept .colon then
    let t ← expect .identifier .parentName
    return some t.literal
  else return none

theorem keeps_readParent : Keeps readParent :=
  (keeps_accept _).bind fun colon => by
    cases colon
    · exact keeps_pure _
    · exact ((advances_expect _ _).bind fun _ => keeps_pure _).keeps

/-- Reads a struct or class behind its attributes. -/
def read (attributes : List Attribute) : TokenReader Struct := do
  let keyword ← take (fun t => t.kind = .classKeyword || t.kind = .structKeyword) .declaration
  let name ← simpleName .typeName
  let parent ← readParent
  let _ ← expect .leftBrace .openingBrace
  let fields ← untilBrace Field.readDeclaration Field.advances_readDeclaration
  return ⟨name.literal, keyword.kind = .classKeyword, parent, none, fields.flatten, attributes,
    keyword.location⟩

theorem advances_read (attributes : List Attribute) : Advances (read attributes) :=
  (advances_take _ _).bind fun _ => ((advances_simpleName _).bind fun _ =>
    keeps_readParent.bind fun _ => ((advances_expect _ _).bind fun _ =>
      ((advances_untilBrace _ _).bind fun _ => keeps_pure _).keeps).keeps).keeps

end Struct

namespace Enumeration

/-- Reads one name of an enum. -/
def readEnumeral : TokenReader Enumeral := do
  let t ← simpleName .enumeralName
  return ⟨t.literal, t.location⟩

theorem advances_readEnumeral : Advances readEnumeral :=
  (advances_simpleName _).bind fun _ => keeps_pure _

/-- Reads an enum behind its attributes. -/
def read (attributes : List Attribute) : TokenReader Enumeration := do
  let keyword ← expect .enumKeyword .declaration
  let name ← simpleName .enumName
  let _ ← expect .leftBrace .openingBrace
  let enumerals ← commaSeparated readEnumeral advances_readEnumeral
  return ⟨name.literal, enumerals, attributes, keyword.location⟩

theorem advances_read (attributes : List Attribute) : Advances (read attributes) :=
  (advances_expect _ _).bind fun _ => ((advances_simpleName _).bind fun _ =>
    ((advances_expect _ _).bind fun _ =>
      ((advances_commaSeparated _ _).bind fun _ => keeps_pure _).keeps).keeps).keeps

end Enumeration

namespace Import

/-- Reads an import behind its attributes. -/
def read (attributes : List Attribute) : TokenReader Import := do
  let keyword ← expect .useKeyword .declaration
  let name ← quoted .importedName
  return ⟨name, attributes, keyword.location⟩

theorem advances_read (attributes : List Attribute) : Advances (read attributes) :=
  (advances_expect _ _).bind fun _ => ((advances_quoted _).bind fun _ => keeps_pure _).keeps

end Import

namespace Package

/-- What a package holds. -/
inductive Item where
  | imported (declared : Import)
  | defined (declared : Definition)
deriving Repr

/-- The package with one more item behind those it has. -/
def add (package : Package) : Item → Package
  | .imported i => package.addImport i
  | .defined d => package.addDefinition d

/-- Reads the item that the next keyword announces. -/
def readItemBehind (attributes : List Attribute) : TokenReader Item :=
  choose fun
    | some .useKeyword => do return .imported (← Import.read attributes)
    | some .classKeyword => do return .defined (.struct (← Struct.read attributes))
    | some .structKeyword => do return .defined (.struct (← Struct.read attributes))
    | some .enumKeyword => do return .defined (.enumeration (← Enumeration.read attributes))
    | _ => fail .declaration

theorem advances_readItemBehind (attributes : List Attribute) :
    Advances (readItemBehind attributes) := by
  refine advances_choose fun kind => ?_
  split
  · exact (Import.advances_read _).bind fun _ => keeps_pure _
  · exact (Struct.advances_read _).bind fun _ => keeps_pure _
  · exact (Struct.advances_read _).bind fun _ => keeps_pure _
  · exact (Enumeration.advances_read _).bind fun _ => keeps_pure _
  · exact advances_fail _

/-- Reads one item with its attributes. -/
def readItem : TokenReader Item := do
  let attributes ← Attribute.readAll
  readItemBehind attributes

theorem advances_readItem : Advances readItem :=
  Attribute.keeps_readAll.bind_advances advances_readItemBehind

/-- Reads a package up to the end of its source. -/
def read : TokenReader Package := do
  let attributes ← Attribute.readAll
  let keyword ← expect .packageKeyword .packageKeyword
  let name ← quoted .packageName
  let items ← untilEnd readItem advances_readItem
  return items.foldl add (empty name attributes keyword.location)

/-- The package that a list of tokens makes. -/
def ofTokens (ts : Tokens) : Except SyntaxError Package :=
  (read ts.stop ts.list).map Prod.fst

/-- The package that a source text holds, or the first thing that is wrong with it.  The name of
the source goes into every place. -/
def parse (text : String) (source : String) : Except SyntaxError Package :=
  ofTokens (.ofSource text source)

end Package

namespace Expr

/-- The value of a text that holds one constant expression. -/
def evaluate (text : String) : Except SyntaxError Float :=
  let ts := Tokens.ofSource text ""
  match constant ts.stop ts.list with
  | .error e => .error e
  | .ok (x, []) => .ok x
  | .ok (_, t :: rest) => .error (unexpected .endOfExpression ts.stop (t :: rest))

end Expr

end SchemaLang
