import SchemaLang.NameTable

/-!
# Chains of parents

`Inheritance.check` follows the parents of a struct upwards and looks for what no chain may hold: a
parent that is no struct, a change between struct and class, a definition met twice, a field
declared at two levels.  The walk ends because each step meets a definition that was not met
before, and there are only so many; that holds for any table, also one of other packages.
-/

namespace SchemaLang

namespace DefinitionId

/-- The addresses of all definitions of a list of packages. -/
def all (packages : List Package) : List DefinitionId :=
  packages.zipIdx.flatMap fun entry =>
    entry.1.definitions.zipIdx.map fun element => ⟨entry.2, element.2⟩

/-- An address at which there is a definition is one of them. -/
theorem mem_all_of_find? {id : DefinitionId} {packages : List Package} {d : Definition}
    (h : id.find? packages = some d) : id ∈ all packages := by
  obtain ⟨package, hp, hd⟩ := Option.bind_eq_some_iff.mp h
  refine List.mem_flatMap.mpr ⟨(package, id.package), ?_, ?_⟩
  · exact List.mem_zipIdx_iff_getElem?.mpr hp
  · exact List.mem_map.mpr ⟨(d, id.element), List.mem_zipIdx_iff_getElem?.mpr hd, rfl⟩

theorem mem_all_of_struct? {id : DefinitionId} {packages : List Package} {s : Struct}
    (h : id.struct? packages = some s) : id ∈ all packages := by
  obtain ⟨d, hd, _⟩ := Option.bind_eq_some_iff.mp h
  exact mem_all_of_find? hd

/-- How many definitions are not among the visited ones. -/
def unvisited (packages : List Package) (visited : List DefinitionId) : Nat :=
  (all packages).countP fun id => !visited.contains id

/-- A narrower test that fails where the wider one holds counts less. -/
private theorem countP_lt_of_imp {α : Type} {narrow wide : α → Bool} {l : List α}
    (himp : ∀ a, narrow a = true → wide a = true) {x : α} (hx : x ∈ l) (hw : wide x = true)
    (hn : narrow x = false) : l.countP narrow < l.countP wide := by
  induction l with
  | nil => cases hx
  | cons a l ih =>
      have tail := List.countP_mono_left (l := l) (p := narrow) (q := wide) fun b _ => himp b
      rw [List.countP_cons, List.countP_cons]
      rcases List.mem_cons.mp hx with rfl | hx
      · simp [hw, hn]
        omega
      · have := ih hx
        by_cases ha : narrow a = true
        · simp only [ha, himp a ha, if_true]
          omega
        · simp only [ha]
          simp only [Bool.false_eq_true, if_false]
          omega

/-- Visiting one more definition leaves fewer. -/
theorem unvisited_lt {packages : List Package} {visited more : List DefinitionId}
    {id : DefinitionId} (hid : id ∈ all packages) (hnew : id ∉ visited)
    (hmore : ∀ i, i ∈ more ↔ i ∈ visited ∨ i = id) :
    unvisited packages more < unvisited packages visited := by
  refine countP_lt_of_imp ?_ hid ?_ ?_
  · intro i hi
    simp only [Bool.not_eq_true', List.contains_eq_mem, decide_eq_false_iff_not] at hi ⊢
    exact fun hv => hi ((hmore i).mpr (.inl hv))
  · simp [List.contains_eq_mem, hnew]
  · simp [List.contains_eq_mem, (hmore id).mpr (.inr rfl)]

end DefinitionId

namespace Inheritance

/-- The name of the package with the given index, empty if there is none. -/
def packageName (packages : List Package) (index : Nat) : String :=
  (packages[index]?.map Package.name).getD ""

/-- The names of a struct's fields, each with the name of the struct. -/
def members (s : Struct) : List (String × String) :=
  s.fields.map fun field => (field.name, s.name)

/-- The first field of a struct that is among the given members, with the struct that declares it
there. -/
def firstHidden? (parent : Struct) (below : List (String × String)) : Option (String × String) :=
  parent.fields.findSome? fun field =>
    (below.lookup field.name).map fun owner => (field.name, owner)

/-- The error of a chain that comes back to `parent`.  It is placed at the start of the chain. -/
def circular (packages : List Package) (chain : List DefinitionId) (child parent : Struct) :
    SemanticError :=
  let names := (chain.filterMap fun id => id.find? packages).map Definition.name
  let start := (chain.head?.bind fun id => id.find? packages).map Definition.location
  .circularInheritance (names ++ [parent.name]) (start.getD child.location)

/-- Checks that `child` may extend the definition `parentId`, and so on upwards.  The chain holds
the definitions met so far, starting with the one the check is made for, and `below` their fields
with the names of the structs that declare them. -/
def check (packages : List Package) (table : NameTable) (child : Struct) (parentId : DefinitionId)
    (chain : List DefinitionId) (below : List (String × String)) : Except SemanticError Unit :=
  match _hp : parentId.struct? packages with
  | none => .error (.extendsNonStruct child.name child.location)
  | some parent =>
      if child.isClass && !parent.isClass then
        .error (.classExtendsStruct child.name parent.name child.location)
      else if !child.isClass && parent.isClass then
        .error (.structExtendsClass child.name parent.name child.location)
      else if _hc : parentId ∈ chain then
        .error (circular packages chain child parent)
      else
        match firstHidden? parent below with
        | some (member, owner) =>
            .error (.hiddenMember owner parent.name member child.location)
        | none =>
            match parent.parent with
            | none => .ok ()
            | some reference =>
                match table.find reference (packageName packages parentId.package)
                    parent.location with
                | .error e => .error e
                | .ok next =>
                    check packages table parent next (chain ++ [parentId])
                      (members parent ++ below)
termination_by DefinitionId.unvisited packages chain
decreasing_by
  exact DefinitionId.unvisited_lt (DefinitionId.mem_all_of_struct? _hp) _hc (by simp)

end Inheritance

end SchemaLang
