import SchemaLang.Json
import SchemaLang.Package

/-!
# Schemas as JSON

The JSON form of packages and of everything they hold.  Members stand in a fixed order, and links
and places are written with the rest.
-/

namespace SchemaLang

namespace Json

/-- The value, or `null` where there is none. -/
def optional {α : Type} (encode : α → Json) : Option α → Json
  | none => .null
  | some a => encode a

/-- An array with one item for each element of a list. -/
def list {α : Type} (encode : α → Json) (items : List α) : Json :=
  .array (items.map encode)

end Json

def Location.json (place : Location) : Json :=
  .object [("offset", .integer place.offset.toNat), ("line", .integer place.line.toNat),
    ("column", .integer place.column.toNat), ("source", .string place.source)]

def DefinitionId.json (id : DefinitionId) : Json :=
  .object [("package", .integer id.package), ("element", .integer id.element)]

def ArraySize.json : ArraySize → Json
  | .unbounded => .string "Unbounded"
  | .fixed size => .object [("Fixed", .integer size)]

def FieldType.json : FieldType → Json
  | .primitive p => .object [("Generic", .string p.name)]
  | .array element size =>
      .object [("Array", .object [("element", element.json), ("size", size.json)])]
  | .named reference =>
      .object [("Named", .object [("name", .string reference.name),
        ("resolved", .optional DefinitionId.json reference.target)])]

/-- JSON has no number for an infinite bound, so it is written in words. -/
def Range.boundJson (bound : Float) : Json :=
  if bound.isInf then .string (Decimal.plain.write bound) else .real bound

def Range.json (range : Range) : Json :=
  .object [("lower_bound", boundJson range.lower), ("upper_bound", boundJson range.upper),
    ("lower_inclusive", .bool range.lowerInclusive),
    ("upper_inclusive", .bool range.upperInclusive)]

def Attribute.json : Attribute → Json
  | .exportAs name => .object [("ExportAs", .string name)]
  | .precision step => .object [("Precision", .real step)]
  | .range values => .object [("Range", values.json)]
  | .message => .string "Message"
  | .version number => .object [("Version", .integer number)]

def Field.json (field : Field) : Json :=
  .object [("ty", field.type.json), ("name", .string field.name),
    ("attributes", .list Attribute.json field.attributes), ("location", field.location.json)]

def Struct.json (struct : Struct) : Json :=
  .object [("name", .string struct.name), ("is_class", .bool struct.isClass),
    ("overrides", .optional .string struct.parentName),
    ("overrides_def", .optional DefinitionId.json struct.parentId),
    ("body", .object [("variables", .list Field.json struct.fields)]),
    ("attributes", .list Attribute.json struct.attributes), ("location", struct.location.json)]

def Enumeral.json (enumeral : Enumeral) : Json :=
  .object [("name", .string enumeral.name), ("location", enumeral.location.json)]

def Enumeration.json (enumeration : Enumeration) : Json :=
  .object [("name", .string enumeration.name),
    ("body", .object [("enumerals", .list Enumeral.json enumeration.enumerals)]),
    ("attributes", .list Attribute.json enumeration.attributes),
    ("location", enumeration.location.json)]

def Definition.json : Definition → Json
  | .struct s => .object [("Struct", s.json)]
  | .enumeration e => .object [("Enum", e.json)]

def Import.json (imported : Import) : Json :=
  .object [("imported_name", .string imported.name),
    ("attributes", .list Attribute.json imported.attributes),
    ("location", imported.location.json)]

def Package.json (package : Package) : Json :=
  .object [("name", .string package.name),
    ("body", .object [("imports", .list Import.json package.imports),
      ("elements", .list Definition.json package.definitions)]),
    ("attributes", .list Attribute.json package.attributes), ("location", package.location.json)]

end SchemaLang
