import SchemaLang.Inheritance

/-!
# Linking

Linking finds the definition behind every written type name and checks what the names alone cannot
show: chains of parents and attributes.  All links are found first, in the order of the sources;
only if nothing is wrong anywhere are they written into the packages.
-/

namespace SchemaLang

/-- A link that was found and waits to be written. -/
inductive Link where
  /-- The type of a field, by the index of the field in the struct that owns it. -/
  | field (owner : DefinitionId) (index : Nat) (target : DefinitionId)
  /-- The parent of a struct. -/
  | parent (owner : DefinitionId) (target : DefinitionId)
deriving DecidableEq, Repr

namespace Link

/-- What links are found against: all packages, their table, and the package and definition that
are looked at. -/
structure Context where
  packages : List Package
  table : NameTable
  package : Package
  owner : DefinitionId

/-- The link of a struct to its parent, if it has one, once the chain upwards is sound. -/
def ofParent (context : Context) (s : Struct) : Except SemanticError (List Link) :=
  match s.parent with
  | none => .ok []
  | some reference => do
      let target ← context.table.find reference context.package.name s.location
      Inheritance.check context.packages context.table s target [context.owner]
        (Inheritance.members s)
      return [.parent context.owner target]

/-- The link of a field to the definition its type names, if it names one. -/
def ofField (context : Context) (entry : Field × Nat) : Except SemanticError (List Link) := do
  let field := entry.1
  let links ← match field.type.reference? with
    | none => pure []
    | some reference => do
        let target ← context.table.find reference context.package.name field.location
        pure [.field context.owner entry.2 target]
  checkAttributes field.attributes (.field field.type) field.location
  return links

/-- The links of a struct: first to its parent, then of its fields in order. -/
def ofStruct (context : Context) (s : Struct) : Except SemanticError (List Link) := do
  let parent ← ofParent context s
  checkAttributes s.attributes .struct s.location
  let fields ← s.fields.zipIdx.mapM (ofField context)
  return parent ++ fields.flatten

/-- The links of a definition. -/
def ofDefinition (context : Context) : Definition → Except SemanticError (List Link)
  | .struct s => ofStruct context s
  | .enumeration e => do
      checkAttributes e.attributes .enumeration e.location
      return []

/-- The links of a package, whose own attributes and imports are checked before its definitions. -/
def ofPackage (packages : List Package) (table : NameTable) (entry : Package × Nat) :
    Except SemanticError (List Link) := do
  let package := entry.1
  checkAttributes package.attributes .package package.location
  package.imports.forM fun imported =>
    checkAttributes imported.attributes .imported imported.location
  let links ← package.definitions.zipIdx.mapM fun (definition, element) =>
    ofDefinition ⟨packages, table, package, ⟨entry.2, element⟩⟩ definition
  return links.flatten

/-- The links of all packages, or the first thing that is wrong with one of them. -/
def collect (packages : List Package) (table : NameTable) : Except SemanticError (List Link) := do
  let links ← packages.zipIdx.mapM (ofPackage packages table)
  return links.flatten

/-- The struct that owns a link. -/
def owner : Link → DefinitionId
  | .field owner _ _ => owner
  | .parent owner _ => owner

/-- The struct with one link written. -/
def writeTo (link : Link) (s : Struct) : Struct :=
  match link with
  | .field _ index target =>
      { s with fields := s.fields.modify index fun field =>
          { field with type := field.type.linkTo target } }
  | .parent _ target =>
      { s with parentId := some target }

/-- The packages with one link written; only the struct that owns it changes. -/
def write (packages : List Package) (link : Link) : List Package :=
  packages.modify link.owner.package fun package =>
    { package with definitions := package.definitions.modify link.owner.element fun
        | .struct s => .struct (link.writeTo s)
        | .enumeration e => .enumeration e }

end Link

namespace Package

/-- The packages with every reference linked against the table. -/
def link (packages : List Package) (table : NameTable) : Except SemanticError (List Package) := do
  let links ← Link.collect packages table
  return links.foldl Link.write packages

end Package

end SchemaLang
