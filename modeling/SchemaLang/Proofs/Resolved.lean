import SchemaLang.LinkedPackages
import SchemaLang.Proofs.Declarations

/-!
# Resolved packages

Links are found one by one and written back by index.  `Package.resolved` says what comes of it
without any index: every reference that a table has an entry for leads to that entry, and nothing
else is changed.
-/

namespace SchemaLang

namespace Reference

/-- The reference with its link written, if the table knows the name. -/
def resolved (table : NameTable) (package : String) (reference : Reference) : Reference :=
  (table.get? (reference.qualifiedIn package)).elim reference reference.linkTo

@[simp] theorem name_resolved (table : NameTable) (package : String) (reference : Reference) :
    (reference.resolved table package).name = reference.name := by
  rw [resolved]
  cases table.get? (reference.qualifiedIn package) <;> rfl

@[simp] theorem qualifiedIn_resolved (table : NameTable) (package other : String)
    (reference : Reference) :
    (reference.resolved table package).qualifiedIn other = reference.qualifiedIn other := by
  rw [resolved]
  cases table.get? (reference.qualifiedIn package) <;> rfl

end Reference

namespace Field

/-- What the type of a field stands for in a package, if it names a type the table knows. -/
def meaning? (table : NameTable) (package : String) (field : Field) : Option DefinitionId :=
  field.type.reference?.bind fun reference => table.get? (reference.qualifiedIn package)

/-- The field with its type linked. -/
def resolved (table : NameTable) (package : String) (field : Field) : Field :=
  { field with type := (field.meaning? table package).elim field.type field.type.linkTo }

end Field

/-- Linking a type links its reference. -/
theorem FieldType.reference?_linkTo (type : FieldType) (id : DefinitionId) :
    (type.linkTo id).reference? = type.reference?.map fun reference => reference.linkTo id := by
  induction type with
  | primitive p => rfl
  | array element size ih => exact ih
  | named reference => rfl

/-- The reference of a resolved field is the reference of the field, resolved. -/
theorem Field.reference?_resolved (table : NameTable) (package : String) (field : Field) :
    (field.resolved table package).type.reference? =
      field.type.reference?.map (Reference.resolved table package) := by
  cases hreference : field.type.reference? with
  | none => simp [resolved, meaning?, hreference]
  | some reference =>
      rw [resolved, meaning?, hreference, Option.bind_some, Option.map_some, Reference.resolved]
      cases table.get? (reference.qualifiedIn package) with
      | none => exact hreference
      | some id =>
          show (field.type.linkTo id).reference? = _
          rw [FieldType.reference?_linkTo, hreference]
          rfl

namespace Struct

/-- What the parent clause of a struct stands for in a package. -/
def meaning? (table : NameTable) (package : String) (s : Struct) : Option DefinitionId :=
  s.parent.bind fun reference => table.get? (reference.qualifiedIn package)

/-- The struct with its parent clause linked. -/
def withParent (table : NameTable) (package : String) (s : Struct) : Struct :=
  { s with parentId := (s.meaning? table package).or s.parentId }

/-- The struct with its parent clause and its fields linked. -/
def resolved (table : NameTable) (package : String) (s : Struct) : Struct :=
  { s.withParent table package with fields := s.fields.map (Field.resolved table package) }

/-- The parent clause of a resolved struct is its parent clause, resolved. -/
theorem parent_resolved (table : NameTable) (package : String) (s : Struct) :
    (s.resolved table package).parent = s.parent.map (Reference.resolved table package) := by
  rw [parent, resolved, withParent, meaning?]
  cases hparent : s.parent with
  | none => rw [parent_eq_none_iff.mp hparent]; rfl
  | some reference =>
      obtain ⟨hname, hid⟩ := parent_eq_some_iff.mp hparent
      rw [Option.bind_some, hname, hid, Option.map_some, Option.map_some, Reference.resolved]
      cases table.get? (reference.qualifiedIn package) <;> rfl

/-- A resolved struct carries the address that its parent clause stands for. -/
theorem parentId_resolved {table : NameTable} {package : String} {s : Struct} {id : DefinitionId}
    (h : s.meaning? table package = some id) : (s.resolved table package).parentId = some id := by
  rw [resolved, withParent, h]
  rfl

/-- Without a parent clause, what is stored stays as it is. -/
theorem parentId_resolved_of_none {s : Struct} (h : s.parent = none) (table : NameTable)
    (package : String) : (s.resolved table package).parentId = s.parentId := by
  rw [resolved, withParent, meaning?, h]
  rfl

/-- Where no parent is written or stored, linking stores none. -/
theorem Tidy.parentId_resolved {s : Struct} (h : s.Tidy) (hparent : s.parent = none)
    (table : NameTable) (package : String) : (s.resolved table package).parentId = none := by
  rw [parentId_resolved_of_none hparent, h (parent_eq_none_iff.mp hparent)]

end Struct

/-- The definition with all its references linked. -/
def Definition.resolved (table : NameTable) (package : String) : Definition → Definition
  | .struct s => .struct (s.resolved table package)
  | .enumeration e => .enumeration e

@[simp] theorem Definition.name_resolved (table : NameTable) (package : String)
    (d : Definition) : (d.resolved table package).name = d.name := by
  cases d <;> rfl

/-- The package with all references in it linked. -/
def Package.resolved (table : NameTable) (package : Package) : Package :=
  { package with definitions := package.definitions.map (.resolved table package.name) }

/-- The declaration with all references in it linked. -/
def Declaration.resolved (table : NameTable) (d : Declaration) : Declaration :=
  { d with definition := d.definition.resolved table d.package }

namespace DefinitionId

/-- At every address stands what stood there before, linked. -/
theorem declaration?_resolved (id : DefinitionId) (table : NameTable) (packages : List Package) :
    id.declaration? (packages.map (.resolved table)) =
      (id.declaration? packages).map (.resolved table) := by
  rw [declaration?, declaration?, List.getElem?_map]
  cases packages[id.package]? with
  | none => rfl
  | some package =>
      show Option.map _ (List.map _ _)[id.element]? = Option.map _ (Option.map _ _)
      rw [List.getElem?_map, Option.map_map, Option.map_map]
      rfl

/-- Linking adds and moves no definition. -/
theorem all_resolved (table : NameTable) (packages : List Package) :
    all (packages.map (.resolved table)) = all packages := by
  simp only [all, List.zipIdx_map, List.flatMap_map, Package.resolved, List.map_map,
    Function.comp_def, Prod.map_fst, Prod.map_snd, id_eq]

/-- Linking renames nothing. -/
theorem qualifiedName?_resolved (id : DefinitionId) (table : NameTable)
    (packages : List Package) :
    id.qualifiedName? (packages.map (.resolved table)) = id.qualifiedName? packages := by
  rw [qualifiedName?_eq, qualifiedName?_eq, declaration?_resolved, Option.map_map]
  congr 1
  funext d
  simp [Declaration.qualifiedName, Declaration.resolved]

/-- A struct of resolved packages is a struct of the packages, resolved. -/
theorem struct?_resolved_eq_some_iff {id : DefinitionId} {table : NameTable}
    {packages : List Package} {s : Struct} :
    id.struct? (packages.map (.resolved table)) = some s ↔ ∃ d original,
      id.declaration? packages = some d ∧ d.definition = .struct original ∧
        s = original.resolved table d.package := by
  rw [struct?_eq_some_iff, declaration?_resolved]
  constructor
  · rintro ⟨linked, hlinked, hdef⟩
    obtain ⟨d, hd, rfl⟩ := Option.map_eq_some_iff.mp hlinked
    cases horiginal : d.definition with
    | enumeration e => simp [Declaration.resolved, Definition.resolved, horiginal] at hdef
    | struct original =>
        simp only [Declaration.resolved, Definition.resolved, horiginal,
          Definition.struct.injEq] at hdef
        exact ⟨d, original, hd, horiginal, hdef.symm⟩
  · rintro ⟨d, original, hd, hdef, rfl⟩
    refine ⟨d.resolved table, by rw [hd, Option.map_some], ?_⟩
    simp only [Declaration.resolved, Definition.resolved, hdef]

end DefinitionId

/-- The contents of resolved packages are the contents, resolved. -/
theorem Package.contents_resolved (table : NameTable) (packages : List Package) :
    contents (packages.map (.resolved table)) =
      (contents packages).map fun entry => (entry.1, entry.2.resolved table entry.1) := by
  rw [contents, contents, List.flatMap_map, List.map_flatMap]
  refine List.flatMap_congr fun package _ => ?_
  rw [resolved, List.map_map, List.map_map]
  rfl

/-- Linking leaves the declared names as they are. -/
theorem Package.typeNames_resolved (table : NameTable) (packages : List Package) :
    typeNames (packages.map (.resolved table)) = typeNames packages := by
  rw [← map_contents_eq_typeNames, ← map_contents_eq_typeNames, contents_resolved, List.map_map]
  exact List.map_congr_left fun entry _ => by simp

namespace Link

/-- The link of a field, if there is anything to link. -/
def fieldLinks (table : NameTable) (package : String) (owner : DefinitionId)
    (entry : Field × Nat) : List Link :=
  (entry.1.meaning? table package).toList.map (.field owner entry.2)

/-- The links of a definition, that of the parent first. -/
def definitionLinks (table : NameTable) (package : String) (owner : DefinitionId) :
    Definition → List Link
  | .struct s => (s.meaning? table package).toList.map (.parent owner) ++
      s.fields.zipIdx.flatMap (fieldLinks table package owner)
  | .enumeration _ => []

/-- The links of a package. -/
def packageLinks (table : NameTable) (entry : Package × Nat) : List Link :=
  entry.1.definitions.zipIdx.flatMap fun d =>
    definitionLinks table entry.1.name ⟨entry.2, d.2⟩ d.1

/-! ## Writing links back -/

theorem modify_append_cons {α : Type} (f : α → α) (before after : List α) (a : α) :
    (before ++ a :: after).modify before.length f = before ++ f a :: after := by
  induction before with
  | nil => rfl
  | cons b before ih => simp [ih]

/-- If the updates for each element of a list change that element and nothing else, then all
updates together change every element.  The list may be part of a larger whole. -/
theorem foldl_flatMap_zipIdx {α β σ : Type} {update : σ → β → σ} {updates : α × Nat → List β}
    {f : α → α} (whole : List α → σ)
    (h : ∀ before a after, (updates (a, before.length)).foldl update
      (whole (before ++ a :: after)) = whole (before ++ f a :: after)) (l : List α) :
    (l.zipIdx.flatMap updates).foldl update (whole l) = whole (l.map f) := by
  -- What stands before the current element is updated already; its length is the index.
  suffices hfrom : ∀ before, ((l.zipIdx before.length).flatMap updates).foldl update
      (whole (before ++ l)) = whole (before ++ l.map f) from hfrom []
  induction l with
  | nil => intro before; rfl
  | cons a l ih =>
      intro before
      rw [List.zipIdx_cons, List.flatMap_cons, List.foldl_append, h, List.map_cons]
      have hnext := ih (before ++ [f a])
      rwa [List.length_append, List.length_singleton, List.append_assoc, List.append_assoc,
        List.singleton_append, List.singleton_append] at hnext

/-- The packages around one struct. -/
def around (before after : List Package) (package : Package) (first last : List Definition)
    (s : Struct) : List Package :=
  before ++ { package with definitions := first ++ .struct s :: last } :: after

section

variable {before after : List Package} {package : Package} {first last : List Definition}

/-- A link changes the struct that owns it and nothing around it. -/
theorem write_around {link : Link} (h : link.owner = ⟨before.length, first.length⟩) (s : Struct) :
    write (around before after package first last s) link =
      around before after package first last (link.writeTo s) := by
  rw [write, h, around, modify_append_cons]
  simp only [modify_append_cons]
  rfl

/-- The links of one field link it. -/
theorem foldl_write_fieldLinks (table : NameTable) (name : String) (s : Struct)
    (head tail : List Field) (field : Field) :
    (fieldLinks table name ⟨before.length, first.length⟩ (field, head.length)).foldl write
      (around before after package first last { s with fields := head ++ field :: tail }) =
    around before after package first last
      { s with fields := head ++ field.resolved table name :: tail } := by
  rw [fieldLinks, Field.resolved]
  cases field.meaning? table name with
  | none => rfl
  | some id =>
      show write _ (.field _ head.length id) = _
      rw [write_around rfl, writeTo]
      simp only [modify_append_cons]
      rfl

/-- The links of a struct link its parent clause and all its fields. -/
theorem foldl_write_structLinks (table : NameTable) (name : String) (s : Struct) :
    (definitionLinks table name ⟨before.length, first.length⟩ (.struct s)).foldl write
      (around before after package first last s) =
    around before after package first last (s.resolved table name) := by
  have hparent : ((s.meaning? table name).toList.map
      (Link.parent ⟨before.length, first.length⟩)).foldl write
      (around before after package first last s) =
      around before after package first last (s.withParent table name) := by
    rw [Struct.withParent]
    cases s.meaning? table name with
    | none => rfl
    | some id =>
        show write _ (.parent _ id) = _
        rw [write_around rfl]
        rfl
  rw [definitionLinks, List.foldl_append, hparent]
  exact foldl_flatMap_zipIdx
    (fun fields => around before after package first last
      { s.withParent table name with fields := fields })
    (fun head field tail => foldl_write_fieldLinks table name _ head tail field) s.fields

end

/-- The links of a definition link all its references. -/
theorem foldl_write_definitionLinks (table : NameTable) (before after : List Package)
    (package : Package) (first last : List Definition) (d : Definition) :
    (definitionLinks table package.name ⟨before.length, first.length⟩ d).foldl write
      (before ++ { package with definitions := first ++ d :: last } :: after) =
    before ++ { package with
      definitions := first ++ d.resolved table package.name :: last } :: after := by
  cases d with
  | struct s => exact foldl_write_structLinks table package.name s
  | enumeration e => rfl

/-- The links of a package link all references in it. -/
theorem foldl_write_packageLinks (table : NameTable) (before after : List Package)
    (package : Package) :
    (packageLinks table (package, before.length)).foldl write (before ++ package :: after) =
      before ++ package.resolved table :: after :=
  foldl_flatMap_zipIdx
    (fun definitions => before ++ { package with definitions := definitions } :: after)
    (fun first d last => foldl_write_definitionLinks table before after package first last d)
    package.definitions

/-- Writing the links of all packages links every reference. -/
theorem foldl_write_eq_resolved (table : NameTable) (packages : List Package) :
    (packages.zipIdx.flatMap (packageLinks table)).foldl write packages =
      packages.map (.resolved table) :=
  foldl_flatMap_zipIdx (fun packages => packages)
    (fun before package after => foldl_write_packageLinks table before after package) packages

end Link

end SchemaLang
