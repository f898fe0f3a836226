import SchemaLang.NameTable
import SchemaLang.Traversal

/-!
# A table built on a walk

A table may also be filled by a visitor that counts the definitions it meets.  The walk over each
package sets the number and the name of the package and starts the count anew, and the visitor
takes the number of a definition from the count of that moment.  Count and position never part: the
walk builds the table that `NameTable.build` builds, and it stops with the same error.
-/

namespace SchemaLang

namespace NameTable

/-- The table as far as a walk has filled it, the package that the walk is in, by its number and its
name, and the number of the next definition there. -/
structure Finder where
  table : NameTable
  package : Nat
  packageName : String
  element : Nat

/-- Steps of a walk that fill a table and end with the first name that is declared again. -/
abbrev Filling : Type → Type :=
  StateT Finder (Except SemanticError)

namespace Finder

/-- Enters a package; its name must be new. -/
def enterPackage (package : Package) : Filling Unit := do
  let f ← get
  if (f.table.packageIndex? package.name).isSome then
    throw (.duplicatePackage package.name package.location)
  set { f with
    table := { f.table with packages := f.table.packages ++ [(package.name, f.package)] } }

/-- Enters a definition under the next number; its qualified name must be new. -/
def register (d : Definition) : Filling Unit := do
  let f ← get
  let qualified := f.packageName ++ "." ++ d.name
  if (f.table.get? qualified).isSome then
    throw (.duplicateType d.kind qualified d.location)
  set { f with
    table := { f.table with
      types := f.table.types ++ [(qualified, (⟨f.package, f.element⟩ : DefinitionId))] }
    element := f.element + 1 }

/-- Enters packages and definitions, and stays out of what stands below a definition. -/
def visit : Visitor Filling
  | .package package => do
      enterPackage package
      return true
  | .struct s => do
      register (.struct s)
      return false
  | .enumeration e => do
      register (.enumeration e)
      return false
  | _ => return true

/-- Walks over a package, counting its definitions from zero. -/
def walkPackage (entry : Package × Nat) : Filling Unit := do
  modify fun f => { f with package := entry.2, packageName := entry.1.name, element := 0 }
  entry.1.walk visit

/-- The table of a list of packages, or the first name that is declared again. -/
def build (packages : List Package) : Except SemanticError NameTable := do
  let (_, f) ← (packages.zipIdx.forM walkPackage).run ⟨empty, 0, "", 0⟩
  return f.table

/-! ### What the visitor meets -/

/-- Nothing is entered for attributes. -/
theorem walk_attributes (attributes : List Attribute) :
    attributes.forM (Attribute.walk visit) = pure () :=
  Attribute.forM_walk_eq_pure (fun _ => rfl) attributes

/-- Nothing is entered for imports. -/
theorem walk_imports (imports : List Import) : imports.forM (Import.walk visit) = pure () := by
  induction imports with
  | nil => rfl
  | cons imported imports ih =>
      have hattributes := walk_attributes imported.attributes
      rw [List.forM, ih, Import.walk, Visitor.enter, hattributes]
      rfl

theorem walk_definition (d : Definition) : d.walk visit = register d := by
  cases d <;> simp [Definition.walk, Struct.walk, Enumeration.walk, Visitor.enter, visit]

theorem walk_package (package : Package) :
    package.walk visit =
      enterPackage package >>= fun _ => package.definitions.forM register := by
  have hdefinitions : Definition.walk visit = register := funext walk_definition
  simp [Package.walk, Package.walkBody, Visitor.enter, visit, walk_attributes, walk_imports,
    hdefinitions]

/-! ### What is entered -/

/-- The name that a finder makes of a definition is its qualified name while the finder is in the
package, and the address is the one it has there while the count is right. -/
theorem run_register {package : Package} {f : Finder} (h : f.packageName = package.name)
    (d : Definition) :
    (register d).run f = do
      let table ← addDefinition package f.package f.table (d, f.element)
      return ((), { f with table := table, element := f.element + 1 }) := by
  rw [register, addDefinition, Package.qualify, ← h]
  simp only [StateT.run_bind, StateT.run_get, pure_bind]
  split <;> rfl

/-- Definitions in a row are entered under the numbers of their places in the row. -/
theorem run_registers {package : Package} (definitions : List Definition) {f : Finder}
    (h : f.packageName = package.name) :
    (definitions.forM register).run f = do
      let table ← (definitions.zipIdx f.element).foldlM (addDefinition package f.package) f.table
      return ((), { f with table := table, element := f.element + definitions.length }) := by
  induction definitions generalizing f with
  | nil => rfl
  | cons d definitions ih =>
      rw [List.forM, StateT.run_bind, run_register h, List.zipIdx_cons, List.foldlM_cons,
        bind_assoc, bind_assoc]
      refine bind_congr fun table => ?_
      rw [pure_bind]
      -- The count has moved on by one, as the places have.
      have hrest := ih (f := { f with table := table, element := f.element + 1 }) h
      rw [hrest, List.length_cons, Nat.add_assoc, Nat.add_comm 1]

theorem run_walkPackage (entry : Package × Nat) (f : Finder) :
    (walkPackage entry).run f = do
      let table ← addPackage f.table entry
      return ((), ⟨table, entry.2, entry.1.name, entry.1.definitions.length⟩) := by
  rw [walkPackage, walk_package, addPackage]
  simp only [StateT.run_bind, StateT.run_modify, pure_bind, enterPackage, StateT.run_get]
  split
  · rfl
  · simp only [StateT.run_set, pure_bind]
    rw [@run_registers entry.1 _ _ rfl]
    simp

/-- A visitor that counts builds the same table. -/
theorem build_eq (packages : List Package) : build packages = NameTable.build packages := by
  have hwalk (entries : List (Package × Nat)) (f : Finder) :
      ((entries.forM walkPackage).run f >>= fun r => pure r.2.table) =
        entries.foldlM addPackage f.table := by
    induction entries generalizing f with
    | nil => rfl
    | cons entry entries ih =>
        rw [List.forM, StateT.run_bind, run_walkPackage, List.foldlM_cons, bind_assoc,
          bind_assoc]
        exact bind_congr fun table => by rw [pure_bind]; exact ih _
  exact hwalk packages.zipIdx _

end Finder

end NameTable

end SchemaLang
