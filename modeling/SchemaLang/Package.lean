import SchemaLang.Attribute
import SchemaLang.Location

/-!
# Packages

The tree that a schema source stands for: a package holds imports and definitions, a definition is
a struct, a class or an enum, and structs and classes hold fields.  A list of packages gives every
definition an address, its `DefinitionId`.
-/

namespace SchemaLang

/-- One field of a struct or class. -/
structure Field where
  type : FieldType
  name : String
  attributes : List Attribute
  location : Location
deriving Repr

/-- A struct, or a class, which differs from a struct only in what it may extend. -/
structure Struct where
  name : String
  isClass : Bool
  /-- The struct or class that this one extends, as it was written. -/
  parentName : Option String
  /-- The declaration that is stored as the parent.  Linking stores one where a name is written;
  what is stored elsewhere stays as it is, and walks to the parent follow it nevertheless. -/
  parentId : Option DefinitionId
  fields : List Field
  attributes : List Attribute
  location : Location
deriving Repr

namespace Struct

/-- The parent clause, if one is written, with what is stored for it. -/
def parent (s : Struct) : Option Reference :=
  s.parentName.map fun name => ⟨name, s.parentId⟩

/-- No parent is stored where none is written.  Nothing that reads or adds a struct makes another
one, and linking keeps it so. -/
def Tidy (s : Struct) : Prop :=
  s.parentName = none → s.parentId = none

theorem parent_eq_none_iff {s : Struct} : s.parent = none ↔ s.parentName = none :=
  Option.map_eq_none_iff

theorem parent_eq_some_iff {s : Struct} {reference : Reference} :
    s.parent = some reference ↔
      s.parentName = some reference.name ∧ s.parentId = reference.target := by
  rw [parent, Option.map_eq_some_iff]
  constructor
  · rintro ⟨name, hname, rfl⟩
    exact ⟨hname, rfl⟩
  · rintro ⟨hname, hid⟩
    exact ⟨reference.name, hname, by rw [hid]⟩

end Struct

/-- One name of an enum. -/
structure Enumeral where
  name : String
  location : Location
deriving DecidableEq, Repr

/-- An enum. -/
structure Enumeration where
  name : String
  enumerals : List Enumeral
  attributes : List Attribute
  location : Location
deriving Repr

/-- A type that a package declares. -/
inductive Definition where
  | struct (declared : Struct)
  | enumeration (declared : Enumeration)
deriving Repr

namespace Definition

def name : Definition → String
  | .struct s => s.name
  | .enumeration e => e.name

def location : Definition → Location
  | .struct s => s.location
  | .enumeration e => e.location

/-- The word a definition starts with, as messages write it. -/
def kind : Definition → String
  | .struct s => if s.isClass then "Class" else "Struct"
  | .enumeration _ => "Enum"

/-- The struct or class that a definition is, if it is one. -/
def struct? : Definition → Option Struct
  | .struct s => some s
  | .enumeration _ => none

end Definition

/-- The mention of another package. -/
structure Import where
  name : String
  attributes : List Attribute
  location : Location
deriving Repr

/-- A package, or the fragment of one that a source holds. -/
structure Package where
  name : String
  imports : List Import
  definitions : List Definition
  attributes : List Attribute
  location : Location
deriving Repr

namespace Package

/-- A package that declares nothing. -/
def empty (name : String) (attributes : List Attribute) (location : Location) : Package :=
  ⟨name, [], [], attributes, location⟩

def addImport (package : Package) (imported : Import) : Package :=
  { package with imports := package.imports ++ [imported] }

def addDefinition (package : Package) (definition : Definition) : Package :=
  { package with definitions := package.definitions ++ [definition] }

/-- The name that a type declared in this package has everywhere. -/
def qualify (package : Package) (typeName : String) : String :=
  package.name ++ "." ++ typeName

/-- A package without definitions, whatever it imports. -/
def isEmpty (package : Package) : Bool :=
  package.definitions.isEmpty

end Package

/-- All structs of the packages are tidy. -/
def Package.Tidy (packages : List Package) : Prop :=
  ∀ package ∈ packages, ∀ s, .struct s ∈ package.definitions → s.Tidy

namespace DefinitionId

/-- The definition at an address in a list of packages. -/
def find? (id : DefinitionId) (packages : List Package) : Option Definition :=
  packages[id.package]?.bind fun package => package.definitions[id.element]?

/-- The struct or class at an address in a list of packages. -/
def struct? (id : DefinitionId) (packages : List Package) : Option Struct :=
  (id.find? packages).bind Definition.struct?

/-- The qualified name of the definition at an address. -/
def qualifiedName? (id : DefinitionId) (packages : List Package) : Option String := do
  let package ← packages[id.package]?
  let definition ← package.definitions[id.element]?
  return package.qualify definition.name

end DefinitionId

end SchemaLang
