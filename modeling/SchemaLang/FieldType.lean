/-!
# Types of fields

A field holds a primitive value, a value of a declared type, or an array of either.  A declared
type is written by name; linking a schema adds the declaration that the name stands for, as a
`DefinitionId`.
-/

namespace SchemaLang

/-- A declaration by its place: the index of its package in the package list and its index among
the definitions of that package. -/
structure DefinitionId where
  package : Nat
  element : Nat
deriving DecidableEq, Repr, Inhabited

/-- A type name as it was written, and the declaration it was linked to. -/
structure Reference where
  name : String
  target : Option DefinitionId
deriving DecidableEq, Repr

namespace Reference

/-- A name that is not linked yet. -/
def unlinked (name : String) : Reference := ⟨name, none⟩

/-- A name with a dot is already qualified. -/
def isQualified (reference : Reference) : Bool :=
  reference.name.toList.contains '.'

/-- The qualified name that a reference written in the given package stands for. -/
def qualifiedIn (reference : Reference) (package : String) : String :=
  if reference.isQualified then reference.name else package ++ "." ++ reference.name

/-- The same name, linked to a declaration. -/
def linkTo (reference : Reference) (id : DefinitionId) : Reference :=
  { reference with target := some id }

end Reference

/-- The types that no schema declares. -/
inductive Primitive where
  | integer32
  | integer64
  | short
  | unsigned32
  | unsigned64
  | unsignedShort
  | byte
  | bool
  | string
  | char
  | float
  | double
deriving DecidableEq, Repr

namespace Primitive

/-- The primitive that a keyword names, aliases included. -/
def ofKeyword? : String → Option Primitive
  | "int" => some .integer32
  | "int32" => some .integer32
  | "int64" => some .integer64
  | "long" => some .integer64
  | "short" => some .short
  | "uint" => some .unsigned32
  | "uint32" => some .unsigned32
  | "uint64" => some .unsigned64
  | "ulong" => some .unsigned64
  | "ushort" => some .unsignedShort
  | "byte" => some .byte
  | "bool" => some .bool
  | "string" => some .string
  | "char" => some .char
  | "float" => some .float
  | "double" => some .double
  | _ => none

/-- The name a primitive has in outlines and in JSON. -/
def name : Primitive → String
  | .integer32 => "Integer32"
  | .integer64 => "Integer64"
  | .short => "Short"
  | .unsigned32 => "UnsignedInteger32"
  | .unsigned64 => "UnsignedInteger64"
  | .unsignedShort => "UnsignedShort"
  | .byte => "Byte"
  | .bool => "Bool"
  | .string => "String"
  | .char => "Char"
  | .float => "Float"
  | .double => "Double"

theorem name_inj {p q : Primitive} : p.name = q.name ↔ p = q := by
  cases p <;> cases q <;> simp [name]

/-- Primitives that hold whole numbers. -/
def isInteger : Primitive → Bool
  | .integer32 | .integer64 | .short | .unsigned32 | .unsigned64 | .unsignedShort | .byte => true
  | .bool | .string | .char | .float | .double => false

/-- Primitives that hold floats. -/
def isFloatingPoint : Primitive → Bool
  | .float | .double => true
  | _ => false

end Primitive

/-- How many elements an array holds. -/
inductive ArraySize where
  | unbounded
  | fixed (size : Nat)
deriving DecidableEq, Repr

namespace ArraySize

/-- The size a declaration gives, or no bound. -/
def ofOption : Option Nat → ArraySize
  | none => .unbounded
  | some size => .fixed size

/-- The size as outlines write it. -/
def text : ArraySize → String
  | .unbounded => "∞"
  | .fixed size => toString size

end ArraySize

/-- The type of a field. -/
inductive FieldType where
  | primitive (primitive : Primitive)
  | array (element : FieldType) (size : ArraySize)
  | named (reference : Reference)
deriving DecidableEq, Repr

namespace FieldType

/-- The type a word stands for: a primitive if it is a keyword, otherwise a declared type. -/
def ofWord (word : String) : FieldType :=
  match Primitive.ofKeyword? word with
  | some p => .primitive p
  | none => .named (.unlinked word)

/-- The primitive that a type is; arrays of primitives are none. -/
def primitive? : FieldType → Option Primitive
  | .primitive p => some p
  | _ => none

/-- The type that is left when all arrays around it are taken off. -/
def innermost : FieldType → FieldType
  | .array element _ => element.innermost
  | .primitive p => .primitive p
  | .named reference => .named reference

/-- The same arrays around another innermost type, computed from the present one. -/
def mapInnermost (f : FieldType → FieldType) : FieldType → FieldType
  | .array element size => .array (element.mapInnermost f) size
  | .primitive p => f (.primitive p)
  | .named reference => f (.named reference)

/-- The written type name that a type refers to through any arrays, with its link. -/
def reference? : FieldType → Option Reference
  | .array element _ => element.reference?
  | .primitive _ => none
  | .named reference => some reference

/-- The same type with its reference linked; types without one stay as they are. -/
def linkTo (type : FieldType) (id : DefinitionId) : FieldType :=
  type.mapInnermost fun
    | .named reference => .named (reference.linkTo id)
    | other => other

theorem reference?_innermost (type : FieldType) :
    type.innermost.reference? = type.reference? := by
  induction type with
  | array element size ih => simpa [innermost, reference?] using ih
  | primitive p => rfl
  | named r => rfl

end FieldType

end SchemaLang
