import SchemaLang.Linking

/-!
# Linked packages

A list of packages whose references are linked, together with the table they were linked against.
-/

namespace SchemaLang

/-- Linked packages and their table. -/
structure LinkedPackages where
  packages : List Package
  table : NameTable
deriving Repr

namespace LinkedPackages

/-- No packages, and the table of none. -/
def empty : LinkedPackages := ⟨[], .empty⟩

/-- Finds all types and links every reference to them.  The names of the packages must be
distinct. -/
def ofPackages (packages : List Package) : Except SemanticError LinkedPackages := do
  let table ← NameTable.build packages
  let linked ← Package.link packages table
  return ⟨linked, table⟩

/-- The definition at an address. -/
def definition? (linked : LinkedPackages) (id : DefinitionId) : Option Definition :=
  id.find? linked.packages

/-- The definition with a qualified name. -/
def find? (linked : LinkedPackages) (qualified : String) : Option Definition :=
  (linked.table.get? qualified).bind linked.definition?

/-- The struct that a struct extends. -/
def parentOf? (linked : LinkedPackages) (s : Struct) : Option Struct :=
  s.parentId.bind fun id => id.struct? linked.packages

/-- The structs above a struct, nearest first, up to one that was visited before.  In packages
linked by `ofPackages` no chain comes back, so the walk ends where a struct has no parent. -/
def ancestorsFrom (linked : LinkedPackages) (visited : List DefinitionId) (s : Struct) :
    List Struct :=
  match s.parentId with
  | none => []
  | some id =>
      if _hv : id ∈ visited then []
      else
        match _hp : id.struct? linked.packages with
        | none => []
        | some parent => parent :: ancestorsFrom linked (id :: visited) parent
termination_by DefinitionId.unvisited linked.packages visited
decreasing_by
  exact DefinitionId.unvisited_lt (DefinitionId.mem_all_of_struct? _hp) _hv (by simp [or_comm])

/-- The structs above a struct, nearest first. -/
def ancestors (linked : LinkedPackages) (s : Struct) : List Struct :=
  linked.ancestorsFrom [] s

/-- The fields of a struct followed by those of each struct above it, nearest first. -/
def allFields (linked : LinkedPackages) (s : Struct) : List Field :=
  s.fields ++ (linked.ancestors s).flatMap Struct.fields

end LinkedPackages

end SchemaLang
