import SchemaLang.Package
import SchemaLang.SemanticError

/-!
# The table of declared types

Every definition of a list of packages under its qualified name, and every package under its own.
A table is only built if all these names are distinct.
-/

namespace SchemaLang

/-- The places of packages and definitions by name, in the order they were declared. -/
structure NameTable where
  packages : List (String × Nat)
  types : List (String × DefinitionId)
deriving DecidableEq, Repr

namespace NameTable

/-- The table of no packages. -/
def empty : NameTable := ⟨[], []⟩

/-- The definition with the given qualified name. -/
def get? (table : NameTable) (qualified : String) : Option DefinitionId :=
  table.types.lookup qualified

/-- The index of the package with the given name. -/
def packageIndex? (table : NameTable) (name : String) : Option Nat :=
  table.packages.lookup name

/-- How many definitions there are. -/
def size (table : NameTable) : Nat :=
  table.types.length

/-- The qualified names with their definitions, in ascending order of the names. -/
def sorted (table : NameTable) : List (String × DefinitionId) :=
  table.types.mergeSort fun a b => a.1 ≤ b.1

/-- The definition that a reference written in the given package stands for. -/
def find (table : NameTable) (reference : Reference) (package : String) (place : Location) :
    Except SemanticError DefinitionId :=
  let qualified := reference.qualifiedIn package
  match table.get? qualified with
  | some id => .ok id
  | none => .error (.unknownType qualified place)

/-- Adds a definition of a package; its qualified name must be new. -/
def addDefinition (package : Package) (packageIndex : Nat) (table : NameTable)
    (entry : Definition × Nat) : Except SemanticError NameTable :=
  let qualified := package.qualify entry.1.name
  if (table.get? qualified).isSome then
    .error (.duplicateType entry.1.kind qualified entry.1.location)
  else .ok { table with types := table.types ++ [(qualified, ⟨packageIndex, entry.2⟩)] }

/-- Adds a package with its definitions; its name must be new. -/
def addPackage (table : NameTable) (entry : Package × Nat) : Except SemanticError NameTable :=
  if (table.packageIndex? entry.1.name).isSome then
    .error (.duplicatePackage entry.1.name entry.1.location)
  else
    entry.1.definitions.zipIdx.foldlM (addDefinition entry.1 entry.2)
      { table with packages := table.packages ++ [(entry.1.name, entry.2)] }

/-- The table of a list of packages, or the first name that is declared again. -/
def build (packages : List Package) : Except SemanticError NameTable :=
  packages.zipIdx.foldlM addPackage empty

end NameTable

end SchemaLang
