import SchemaLang.Proofs.Relinking

/-!
# What linking changes

`LinkedBy` sets a package next to a linked one, part by part: all parts are the same except for
references, and a linked reference carries the address that the table has for the written name.
What linking returns stands in this relation to what it was given, and nothing else does.
-/

namespace SchemaLang

/-! ### The relation -/

/-- The same written name, linked to what the table finds for it. -/
structure Reference.LinkedBy (table : NameTable) (package : String) (place : Location)
    (reference linked : Reference) : Prop where
  name : linked.name = reference.name
  target : ∃ id, table.find reference package place = .ok id ∧ linked.target = some id

/-- The same type, arrays included, around a linked reference if there is one. -/
inductive FieldType.LinkedBy (table : NameTable) (package : String) (place : Location) :
    FieldType → FieldType → Prop
  | primitive (p : Primitive) : LinkedBy table package place (.primitive p) (.primitive p)
  | array {element linked : FieldType} (size : ArraySize)
      (h : LinkedBy table package place element linked) :
      LinkedBy table package place (.array element size) (.array linked size)
  | named {reference linked : Reference} (h : reference.LinkedBy table package place linked) :
      LinkedBy table package place (.named reference) (.named linked)

/-- The same field with its type linked. -/
structure Field.LinkedBy (table : NameTable) (package : String) (field linked : Field) : Prop where
  type : field.type.LinkedBy table package field.location linked.type
  name : linked.name = field.name
  attributes : linked.attributes = field.attributes
  location : linked.location = field.location

/-- The same struct with its parent clause linked, if it has one, and its fields in turn.  What is
stored without a clause stays as it is. -/
structure Struct.LinkedBy (table : NameTable) (package : String) (s linked : Struct) : Prop where
  name : linked.name = s.name
  isClass : linked.isClass = s.isClass
  parent : Option.Rel (Reference.LinkedBy table package s.location) s.parent linked.parent
  unnamed : s.parentName = none → linked.parentId = s.parentId
  fields : List.Forall₂ (Field.LinkedBy table package) s.fields linked.fields
  attributes : linked.attributes = s.attributes
  location : linked.location = s.location

/-- The same definition; an enum stays as it is. -/
inductive Definition.LinkedBy (table : NameTable) (package : String) :
    Definition → Definition → Prop
  | struct {s linked : Struct} (h : s.LinkedBy table package linked) :
      LinkedBy table package (.struct s) (.struct linked)
  | enumeration (e : Enumeration) : LinkedBy table package (.enumeration e) (.enumeration e)

/-- The same package with its definitions linked in turn. -/
structure Package.LinkedBy (table : NameTable) (package linked : Package) : Prop where
  name : linked.name = package.name
  imports : linked.imports = package.imports
  definitions : List.Forall₂ (Definition.LinkedBy table package.name) package.definitions
    linked.definitions
  attributes : linked.attributes = package.attributes
  location : linked.location = package.location

/-! ### What stands in the relation -/

attribute [ext] Reference Field Struct Package

/-- A relation that is a function on the elements of a list is one on the list. -/
theorem forall₂_iff_eq_map {α β : Type} {R : α → β → Prop} {f : α → β} {l : List α}
    (h : ∀ a ∈ l, ∀ b, R a b ↔ b = f a) {others : List β} :
    List.Forall₂ R l others ↔ others = l.map f := by
  induction l generalizing others with
  | nil => exact List.forall₂_nil_left_iff
  | cons a l ih =>
      cases others with
      | nil => simp
      | cons b others =>
          rw [List.forall₂_cons, h a List.mem_cons_self,
            ih fun a' ha' => h a' (List.mem_cons_of_mem a ha'), List.map_cons, List.cons.injEq]

/-- The same of what may be missing. -/
theorem optionRel_iff_eq_map {α β : Type} {R : α → β → Prop} {f : α → β} {o : Option α}
    (h : ∀ a, o = some a → ∀ b, R a b ↔ b = f a) {other : Option β} :
    Option.Rel R o other ↔ other = o.map f := by
  cases o with
  | none => cases other <;> simp
  | some a =>
      cases other with
      | none => simp
      | some b => rw [Option.rel_some_some, h a rfl, Option.map_some, Option.some.injEq]

section

variable {table : NameTable} {package : String}

theorem Reference.linkedBy_iff {place : Location} {reference other : Reference}
    {id : DefinitionId} (h : table.get? (reference.qualifiedIn package) = some id) :
    reference.LinkedBy table package place other ↔ other = reference.linkTo id := by
  constructor
  · rintro ⟨hname, found, hfind, htarget⟩
    rw [NameTable.find_eq_ok_iff, h] at hfind
    cases hfind
    exact Reference.ext hname htarget
  · rintro rfl
    exact ⟨rfl, id, NameTable.find_eq_ok_iff.mpr h, rfl⟩

namespace FieldType

variable {place : Location} {type other : FieldType}

theorem linkedBy_array_iff {size : ArraySize} :
    (array type size).LinkedBy table package place other ↔
      ∃ linked, type.LinkedBy table package place linked ∧ other = .array linked size := by
  constructor
  · intro hother
    cases hother with
    | array _ helement => exact ⟨_, helement, rfl⟩
  · rintro ⟨linked, helement, rfl⟩
    exact .array size helement

/-- A type that names nothing stays as it is. -/
theorem linkedBy_iff_of_none (h : type.reference? = none) :
    type.LinkedBy table package place other ↔ other = type := by
  induction type generalizing other with
  | array element size ih => simp only [linkedBy_array_iff, ih h, exists_eq_left]
  | named reference => cases h
  | primitive p =>
      constructor
      · rintro ⟨⟩
        rfl
      · rintro rfl
        exact .primitive p

/-- A type that names another is linked beneath its arrays. -/
theorem linkedBy_iff_of_some {reference : Reference} (h : type.reference? = some reference)
    {id : DefinitionId} (hid : table.get? (reference.qualifiedIn package) = some id) :
    type.LinkedBy table package place other ↔ other = type.linkTo id := by
  induction type generalizing other with
  | array element size ih =>
      simp only [linkedBy_array_iff, ih h, exists_eq_left]
      rfl
  | primitive p => cases h
  | named written =>
      cases h
      constructor
      · intro hother
        cases hother with
        | named hlinked => exact congrArg named ((Reference.linkedBy_iff hid).mp hlinked)
      · rintro rfl
        exact .named ((Reference.linkedBy_iff hid).mpr rfl)

end FieldType

theorem Field.linkedBy_iff {field other : Field}
    (h : ∀ reference, field.type.reference? = some reference →
      (table.get? (reference.qualifiedIn package)).isSome = true) :
    field.LinkedBy table package other ↔ other = field.resolved table package := by
  have htype (type : FieldType) : field.type.LinkedBy table package field.location type ↔
      type = (field.resolved table package).type := by
    rw [resolved, meaning?]
    cases hreference : field.type.reference? with
    | none => exact FieldType.linkedBy_iff_of_none hreference
    | some reference =>
        obtain ⟨id, hid⟩ := Option.isSome_iff_exists.mp (h reference hreference)
        rw [Option.bind_some, hid]
        exact FieldType.linkedBy_iff_of_some hreference hid
  constructor
  · rintro ⟨hlinked, hname, hattributes, hlocation⟩
    exact Field.ext ((htype _).mp hlinked) hname hattributes hlocation
  · rintro rfl
    exact ⟨(htype _).mpr rfl, rfl, rfl, rfl⟩

/-- A struct is determined by its parent clause, what it stores without one, and the rest. -/
theorem Struct.ext_parent {s other : Struct} (hname : s.name = other.name)
    (hclass : s.isClass = other.isClass) (hparent : s.parent = other.parent)
    (hunnamed : other.parentName = none → s.parentId = other.parentId)
    (hfields : s.fields = other.fields) (hattributes : s.attributes = other.attributes)
    (hlocation : s.location = other.location) : s = other := by
  cases hother : other.parent with
  | none =>
      have hnone := parent_eq_none_iff.mp hother
      rw [hother] at hparent
      exact Struct.ext hname hclass ((parent_eq_none_iff.mp hparent).trans hnone.symm)
        (hunnamed hnone) hfields hattributes hlocation
  | some reference =>
      rw [hother] at hparent
      obtain ⟨hwritten, hstored⟩ := parent_eq_some_iff.mp hparent
      obtain ⟨hwritten', hstored'⟩ := parent_eq_some_iff.mp hother
      exact Struct.ext hname hclass (hwritten.trans hwritten'.symm) (hstored.trans hstored'.symm)
        hfields hattributes hlocation

theorem Struct.linkedBy_iff {s other : Struct}
    (hparent : ∀ reference, s.parent = some reference →
      (table.get? (reference.qualifiedIn package)).isSome = true)
    (hfields : ∀ field ∈ s.fields, ∀ reference, field.type.reference? = some reference →
      (table.get? (reference.qualifiedIn package)).isSome = true) :
    s.LinkedBy table package other ↔ other = s.resolved table package := by
  have hclause (reference : Reference) (hreference : s.parent = some reference)
      (linked : Reference) : reference.LinkedBy table package s.location linked ↔
        linked = reference.resolved table package := by
    obtain ⟨id, hid⟩ := Option.isSome_iff_exists.mp (hparent reference hreference)
    rw [Reference.resolved, hid]
    exact Reference.linkedBy_iff hid
  have hfield (field : Field) (hmem : field ∈ s.fields) (linked : Field) :
      field.LinkedBy table package linked ↔ linked = field.resolved table package :=
    Field.linkedBy_iff (hfields field hmem)
  have hunnamed (hnone : s.parentName = none) :
      (s.resolved table package).parentId = s.parentId :=
    parentId_resolved_of_none (parent_eq_none_iff.mpr hnone) table package
  constructor
  · rintro ⟨hname, hclass, hrel, hstored, hlist, hattributes, hlocation⟩
    rw [optionRel_iff_eq_map hclause, ← parent_resolved] at hrel
    rw [forall₂_iff_eq_map hfield] at hlist
    exact Struct.ext_parent hname hclass hrel
      (fun hnone => (hstored hnone).trans (hunnamed hnone).symm) hlist hattributes hlocation
  · rintro rfl
    exact ⟨rfl, rfl, (optionRel_iff_eq_map hclause).mpr (parent_resolved table package s),
      hunnamed, (forall₂_iff_eq_map hfield).mpr rfl, rfl, rfl⟩

theorem Definition.linkedBy_iff {d other : Definition}
    (h : ∀ reference ∈ d.references,
      (table.get? (reference.qualifiedIn package)).isSome = true) :
    d.LinkedBy table package other ↔ other = d.resolved table package := by
  cases d with
  | enumeration e =>
      constructor
      · rintro ⟨⟩
        rfl
      · rintro rfl
        exact .enumeration e
  | struct s =>
      obtain ⟨hparent, hfields⟩ := Package.forall_references_struct_iff.mp h
      constructor
      · intro hother
        cases hother with
        | struct hlinked =>
            exact congrArg Definition.struct ((Struct.linkedBy_iff hparent hfields).mp hlinked)
      · rintro rfl
        exact .struct ((Struct.linkedBy_iff hparent hfields).mpr rfl)

theorem Package.linkedBy_iff {package other : Package}
    (h : ∀ d ∈ package.definitions, ∀ reference ∈ d.references,
      (table.get? (reference.qualifiedIn package.name)).isSome = true) :
    package.LinkedBy table other ↔ other = package.resolved table := by
  have hdefinition (d : Definition) (hd : d ∈ package.definitions) (linked : Definition) :
      d.LinkedBy table package.name linked ↔ linked = d.resolved table package.name :=
    Definition.linkedBy_iff (h d hd)
  constructor
  · rintro ⟨hname, himports, hlist, hattributes, hlocation⟩
    rw [forall₂_iff_eq_map hdefinition] at hlist
    exact Package.ext hname himports hlist hattributes hlocation
  · rintro rfl
    exact ⟨rfl, rfl, (forall₂_iff_eq_map hdefinition).mpr rfl, rfl, rfl⟩

end

namespace Package

/-- Linking changes links and nothing else, and each link that it writes is what the table finds:
the result is the one list of packages that stands in this relation to what was linked. -/
theorem linkedBy_iff_eq_of_link {packages linked : List Package} {table : NameTable}
    (h : link packages table = .ok linked) (others : List Package) :
    List.Forall₂ (LinkedBy table) packages others ↔ others = linked := by
  obtain ⟨hpasses, rfl⟩ := (succeedsIff_link packages table).of_eq_ok h
  have hpackages (package : Package) (hpackage : package ∈ packages) (other : Package) :
      package.LinkedBy table other ↔ other = package.resolved table :=
    linkedBy_iff fun _ hd => references_of_passes hpasses hpackage hd
  exact forall₂_iff_eq_map hpackages

/-- Three generations are linked anew where their links are of another time: what comes of it stands
in the relation to the packages with the old links. -/
theorem linkedBy_stale :
    link stale (.listing LinkedPackages.threeGenerations) =
        .ok (LinkedPackages.resolved LinkedPackages.threeGenerations).packages ∧
      List.Forall₂ (LinkedBy (.listing LinkedPackages.threeGenerations)) stale
        (LinkedPackages.resolved LinkedPackages.threeGenerations).packages := by
  have h : link stale (.listing LinkedPackages.threeGenerations) =
      .ok (LinkedPackages.resolved LinkedPackages.threeGenerations).packages := by
    rw [sameButLinks_stale.link_eq]
    cbv
  exact ⟨h, (linkedBy_iff_eq_of_link h _).mpr rfl⟩

end Package

end SchemaLang
