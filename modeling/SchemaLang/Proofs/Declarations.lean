import Mathlib.Data.List.Nodup
import Mathlib.Data.List.Perm.Subperm
import SchemaLang.Inheritance

/-!
# Declarations

All definitions of a list of packages in one list, each with its address and the name of the
package that declares it.  An address leads to one declaration by construction; a qualified name
does so only if no other definition has the same name.
-/

namespace SchemaLang

/-- A definition where it is declared. -/
structure Declaration where
  id : DefinitionId
  package : String
  definition : Definition

/-- The name of the declared type in every package. -/
def Declaration.qualifiedName (d : Declaration) : String :=
  d.package ++ "." ++ d.definition.name

/-- The declaration at an address. -/
def DefinitionId.declaration? (id : DefinitionId) (packages : List Package) :
    Option Declaration :=
  packages[id.package]?.bind fun package =>
    package.definitions[id.element]?.map fun d => ⟨id, package.name, d⟩

namespace Package

/-- The definitions of all packages, in the order of the sources. -/
def declarations (packages : List Package) : List Declaration :=
  packages.zipIdx.flatMap fun entry =>
    entry.1.definitions.zipIdx.map fun element =>
      ⟨⟨entry.2, element.2⟩, entry.1.name, element.1⟩

/-- The qualified names of all definitions, in the order of the sources. -/
def typeNames (packages : List Package) : List String :=
  packages.flatMap fun package => package.definitions.map fun d => package.qualify d.name

/-- The definitions of all packages, each with the name of its package and without an address. -/
def contents (packages : List Package) : List (String × Definition) :=
  packages.flatMap fun package => package.definitions.map fun d => (package.name, d)

/-- Enumerating a list and forgetting the numbers is no change. -/
theorem map_zipIdx_fst {α β : Type} (f : α → β) (l : List α) (n : Nat) :
    (l.zipIdx n).map (fun entry => f entry.1) = l.map f := by
  have h := congrArg (List.map f) (List.zipIdx_map_fst n l)
  rwa [List.map_map] at h

theorem flatMap_zipIdx_fst {α β : Type} (f : α → List β) (l : List α) (n : Nat) :
    (l.zipIdx n).flatMap (fun entry => f entry.1) = l.flatMap f := by
  rw [List.flatMap_def, map_zipIdx_fst, ← List.flatMap_def]

theorem map_declarations_eq_contents (packages : List Package) :
    (declarations packages).map (fun d => (d.package, d.definition)) = contents packages := by
  rw [declarations, contents, List.map_flatMap]
  simp only [List.map_map, Function.comp_def]
  rw [← flatMap_zipIdx_fst _ packages 0]
  congr 1
  funext entry
  exact map_zipIdx_fst (fun d : Definition => (entry.1.name, d)) entry.1.definitions 0

theorem map_contents_eq_typeNames (packages : List Package) :
    (contents packages).map (fun entry => entry.1 ++ "." ++ entry.2.name) =
      typeNames packages := by
  rw [contents, typeNames, List.map_flatMap]
  simp only [List.map_map]
  rfl

theorem map_qualifiedName_declarations (packages : List Package) :
    (declarations packages).map Declaration.qualifiedName = typeNames packages := by
  rw [← map_contents_eq_typeNames, ← map_declarations_eq_contents, List.map_map]
  rfl

/-- What is asked of all definitions by the name of their package is asked of the contents. -/
theorem forall_contents_iff {packages : List Package} {P : String → Definition → Prop} :
    (∀ package ∈ packages, ∀ d ∈ package.definitions, P package.name d) ↔
      ∀ entry ∈ contents packages, P entry.1 entry.2 := by
  simp only [contents, List.forall_mem_flatMap, List.forall_mem_map]

theorem mem_contents_of_mem {packages : List Package} {package : Package}
    (hpackage : package ∈ packages) {d : Definition} (hd : d ∈ package.definitions) :
    (package.name, d) ∈ contents packages :=
  List.mem_flatMap.mpr ⟨package, hpackage, List.mem_map.mpr ⟨d, hd, rfl⟩⟩

theorem mem_contents_iff {packages : List Package} {name : String} {d : Definition} :
    (name, d) ∈ contents packages ↔
      ∃ e ∈ declarations packages, e.package = name ∧ e.definition = d := by
  rw [← map_declarations_eq_contents, List.mem_map]
  simp only [Prod.mk.injEq]

/-- A declaration is listed if it stands at its address. -/
theorem mem_declarations_iff {packages : List Package} {d : Declaration} :
    d ∈ declarations packages ↔ d.id.declaration? packages = some d := by
  constructor
  · intro h
    obtain ⟨⟨package, i⟩, hp, hd⟩ := List.mem_flatMap.mp h
    obtain ⟨⟨definition, j⟩, he, rfl⟩ := List.mem_map.mp hd
    have hpackage : packages[i]? = some package := List.mem_zipIdx_iff_getElem?.mp hp
    have hdefinition : package.definitions[j]? = some definition :=
      List.mem_zipIdx_iff_getElem?.mp he
    simp [DefinitionId.declaration?, hpackage, hdefinition]
  · intro h
    obtain ⟨package, hp, hd⟩ := Option.bind_eq_some_iff.mp h
    obtain ⟨definition, he, hd⟩ := Option.map_eq_some_iff.mp hd
    refine List.mem_flatMap.mpr ⟨(package, d.id.package), List.mem_zipIdx_iff_getElem?.mpr hp, ?_⟩
    exact List.mem_map.mpr ⟨(definition, d.id.element), List.mem_zipIdx_iff_getElem?.mpr he, hd⟩

end Package

namespace DefinitionId

variable {packages : List Package} {id : DefinitionId}

theorem id_of_declaration? {d : Declaration} (h : id.declaration? packages = some d) :
    d.id = id := by
  obtain ⟨package, -, hd⟩ := Option.bind_eq_some_iff.mp h
  obtain ⟨definition, -, rfl⟩ := Option.map_eq_some_iff.mp hd
  rfl

theorem find?_eq (id : DefinitionId) (packages : List Package) :
    id.find? packages = (id.declaration? packages).map Declaration.definition := by
  rw [find?, declaration?]
  cases packages[id.package]? with
  | none => rfl
  | some package =>
      show package.definitions[id.element]? = Option.map _ (Option.map _ _)
      rw [Option.map_map]
      exact Option.map_id'.symm

theorem qualifiedName?_eq (id : DefinitionId) (packages : List Package) :
    id.qualifiedName? packages = (id.declaration? packages).map Declaration.qualifiedName := by
  rw [qualifiedName?, declaration?]
  cases packages[id.package]? with
  | none => rfl
  | some package =>
      show (package.definitions[id.element]?.bind fun d => some (package.qualify d.name)) =
        Option.map _ (Option.map _ _)
      rw [Option.map_map]
      cases package.definitions[id.element]? <;> rfl

theorem struct?_eq_some_iff {s : Struct} :
    id.struct? packages = some s ↔
      ∃ d, id.declaration? packages = some d ∧ d.definition = .struct s := by
  rw [struct?, find?_eq]
  cases id.declaration? packages with
  | none => simp
  | some d => cases hd : d.definition <;> simp [Definition.struct?, hd]

/-- There are as many addresses as definitions. -/
theorem length_all (packages : List Package) :
    (all packages).length = (packages.flatMap Package.definitions).length := by
  rw [all, List.length_flatMap, List.length_flatMap]
  simp only [List.length_map, List.length_zipIdx]
  rw [Package.map_zipIdx_fst fun package : Package => package.definitions.length]

/-- Distinct addresses of structs are no more than all addresses. -/
theorem length_le_of_nodup {ids : List DefinitionId} (hdistinct : ids.Nodup)
    (hstructs : ∀ id ∈ ids, (id.struct? packages).isSome = true) :
    ids.length ≤ (all packages).length := by
  refine (hdistinct.subperm fun id hid => ?_).length_le
  obtain ⟨s, hs⟩ := Option.isSome_iff_exists.mp (hstructs id hid)
  exact mem_all_of_struct? hs

/-- An address has a qualified name if a definition of that name is declared there. -/
theorem qualifiedName?_eq_some_iff {name : String} :
    id.qualifiedName? packages = some name ↔
      ∃ d ∈ Package.declarations packages, d.id = id ∧ d.qualifiedName = name := by
  rw [qualifiedName?_eq, Option.map_eq_some_iff]
  constructor
  · rintro ⟨d, hd, rfl⟩
    have hid := id_of_declaration? hd
    exact ⟨d, Package.mem_declarations_iff.mpr (hid ▸ hd), hid, rfl⟩
  · rintro ⟨d, hd, rfl, rfl⟩
    exact ⟨d, Package.mem_declarations_iff.mp hd, rfl⟩

end DefinitionId

namespace Package

variable {packages : List Package}

/-- The declared names are the names of the addresses. -/
theorem mem_typeNames_iff {name : String} :
    name ∈ typeNames packages ↔ ∃ id : DefinitionId, id.qualifiedName? packages = some name := by
  rw [← map_qualifiedName_declarations, List.mem_map]
  constructor
  · rintro ⟨d, hd, rfl⟩
    exact ⟨d.id, DefinitionId.qualifiedName?_eq_some_iff.mpr ⟨d, hd, rfl, rfl⟩⟩
  · rintro ⟨id, hid⟩
    obtain ⟨d, hd, -, hname⟩ := DefinitionId.qualifiedName?_eq_some_iff.mp hid
    exact ⟨d, hd, hname⟩

/-- Where names are distinct, a name belongs to one address. -/
theorem eq_of_qualifiedName? (hnames : (typeNames packages).Nodup) {a b : DefinitionId}
    {name : String} (ha : a.qualifiedName? packages = some name)
    (hb : b.qualifiedName? packages = some name) : a = b := by
  obtain ⟨d, hd, rfl, hdname⟩ := DefinitionId.qualifiedName?_eq_some_iff.mp ha
  obtain ⟨e, he, rfl, hename⟩ := DefinitionId.qualifiedName?_eq_some_iff.mp hb
  rw [← map_qualifiedName_declarations] at hnames
  rw [List.inj_on_of_nodup_map hnames hd he (hdname.trans hename.symm)]

end Package

end SchemaLang
