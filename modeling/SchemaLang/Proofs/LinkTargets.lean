import SchemaLang.Proofs.Ancestors

/-!
# Where links lead

A link is found while a counter stands at some package, definition and field, and it is written
later to the place that the counters gave.  In linked packages every reference nevertheless leads to
the definition whose name is written in it, and no stored address leads nowhere.
-/

namespace SchemaLang

namespace Reference

/-- The reference leads to a definition of the written name, which belongs to the package around it
unless there is a dot in it. -/
def LinkedAsWritten (packages : List Package) (package : String) (reference : Reference) : Prop :=
  ∃ id, reference.target = some id ∧ id.qualifiedName? packages = some
    (if '.' ∈ reference.name.toList then reference.name else package ++ "." ++ reference.name)

theorem qualifiedIn_eq (reference : Reference) (package : String) :
    reference.qualifiedIn package =
      if '.' ∈ reference.name.toList then reference.name else package ++ "." ++ reference.name := by
  simp only [qualifiedIn, isQualified, List.contains_iff_mem]

end Reference

namespace FieldType

theorem reference?_of_innermost {type : FieldType} {reference : Reference}
    (h : type.innermost = .named reference) : type.reference? = some reference := by
  rw [← reference?_innermost, h]
  rfl

theorem reference?_of_primitive {type : FieldType} {p : Primitive}
    (h : type.innermost = .primitive p) : type.reference? = none := by
  rw [← reference?_innermost, h]
  rfl

end FieldType

/-! ## References of resolved packages -/

variable {table : NameTable} {name : String} {packages : List Package}

/-- Resolving a definition resolves each of its references. -/
theorem Definition.references_resolved (d : Definition) :
    (d.resolved table name).references = d.references.map (Reference.resolved table name) := by
  cases d with
  | enumeration e => rfl
  | struct s =>
      show (s.resolved table name).parent.toList ++
        (s.fields.map (Field.resolved table name)).filterMap _ = List.map _ (_ ++ _)
      rw [Struct.parent_resolved, List.map_append, List.filterMap_map, List.map_filterMap]
      congr 1
      · cases s.parent <;> rfl
      · exact List.filterMap_congr fun field _ => field.reference?_resolved table name

/-- In acceptable packages every reference becomes one that leads where it was written to. -/
theorem Reference.linkedAsWritten_resolved (h : Package.Acceptable packages) {d : Definition}
    (hd : (name, d) ∈ Package.contents packages) {reference : Reference}
    (hreference : reference ∈ d.references) :
    (reference.resolved (.listing packages) name).LinkedAsWritten
      (LinkedPackages.resolved packages).packages name := by
  have hdeclared := (Package.forall_contents_iff (P := fun name d => ∀ reference ∈ d.references,
    reference.qualifiedIn name ∈ Package.typeNames packages)).mp h.qualifiedIn_mem
  obtain ⟨id, hname⟩ := Package.mem_typeNames_iff.mp (hdeclared _ hd reference hreference)
  have hget := (NameTable.get?_listing_eq_some_iff h.typeNames).mpr hname
  refine ⟨id, by rw [resolved, hget]; rfl, ?_⟩
  rwa [name_resolved, ← qualifiedIn_eq, DefinitionId.qualifiedName?_resolved]

/-- In acceptable packages a parent clause stands for a struct. -/
theorem Struct.exists_parent (h : Package.Acceptable packages) {s : Struct}
    (hs : (name, .struct s) ∈ Package.contents packages) {reference : Reference}
    (hparent : s.parent = some reference) :
    ∃ id parent, s.meaning? (.listing packages) name = some id ∧
      id.struct? packages = some parent := by
  obtain ⟨d, hd, rfl, hdef⟩ := Package.mem_contents_iff.mp hs
  have hdecl := Package.mem_declarations_iff.mp hd
  have howner := DefinitionId.struct?_eq_some_iff.mpr ⟨d, hdecl, hdef⟩
  obtain ⟨rest, hline⟩ := LinkedPackages.exists_soundLine h howner
  cases rest with
  | nil =>
      have hroot := Inheritance.soundLine_singleton_iff.mp hline
      simp [howner, hparent] at hroot
  | cons id rest =>
      have hup := (LinkedPackages.extendsThrough_iff hdecl hdef).mp
        (List.isChain_cons_cons.mp hline.linked).1
      obtain ⟨isClass, halike⟩ := hline.alike
      obtain ⟨parent, hstruct, -⟩ := Option.map_eq_some_iff.mp
        (halike id (List.mem_cons_of_mem d.id List.mem_cons_self))
      exact ⟨id, parent, hup, hstruct⟩

/-- Every address that is kept in a definition, with or without a name. -/
def Definition.storedIds : Definition → List DefinitionId
  | .struct s => s.parentId.toList ++
      s.fields.filterMap fun field => field.type.reference?.bind Reference.target
  | .enumeration _ => []

/-- In a tidy struct an address is kept for a name only. -/
theorem Definition.mem_storedIds {s : Struct} (h : s.Tidy) {id : DefinitionId}
    (hid : id ∈ (struct s).storedIds) :
    ∃ reference ∈ (struct s).references, reference.target = some id := by
  rcases List.mem_append.mp hid with hparent | hfields
  · have hstored := Option.mem_toList.mp hparent
    cases hname : s.parentName with
    | none => rw [h hname] at hstored; cases hstored
    | some name =>
        refine ⟨⟨name, s.parentId⟩, mem_references_of_parent ?_, hstored⟩
        exact Struct.parent_eq_some_iff.mpr ⟨hname, rfl⟩
  · obtain ⟨field, hfield, hstored⟩ := List.mem_filterMap.mp hfields
    obtain ⟨reference, hreference, htarget⟩ := Option.bind_eq_some_iff.mp hstored
    exact ⟨reference, mem_references_of_field hfield hreference, htarget⟩

/-- Linking keeps packages tidy. -/
theorem Package.Tidy.resolved (h : Tidy packages) (table : NameTable) :
    Tidy (packages.map (Package.resolved table)) := by
  intro package hpackage s hs hname
  obtain ⟨written, hwritten, rfl⟩ := List.mem_map.mp hpackage
  obtain ⟨d, hd, hresolved⟩ := List.mem_map.mp hs
  cases d with
  | enumeration e => cases hresolved
  | struct original =>
      cases hresolved
      exact (h written hwritten original hd).parentId_resolved
        (Struct.parent_eq_none_iff.mpr hname) table written.name

namespace LinkedPackages

/-- The type names written in packages, definition by definition. -/
def writtenNames (packages : List Package) : List (String × List (List String)) :=
  packages.map fun package =>
    (package.name, package.definitions.map fun d => d.references.map Reference.name)

/-- Every address that is kept in linked packages or in their table. -/
def storedIds (linked : LinkedPackages) : List DefinitionId :=
  linked.table.types.map Prod.snd ++ linked.packages.flatMap fun package =>
    package.definitions.flatMap Definition.storedIds

/-- Links point at what was written. -/
structure LinksAsWritten (packages : List Package) (linked : LinkedPackages) : Prop where
  /-- Linking leaves the written names alone. -/
  names : writtenNames linked.packages = writtenNames packages
  /-- The type of a field leads to the definition it names. -/
  fields : ∀ package ∈ linked.packages, ∀ s, .struct s ∈ package.definitions →
    ∀ field ∈ s.fields, ∀ reference, field.type.innermost = .named reference →
      reference.LinkedAsWritten linked.packages package.name
  /-- A type that names nothing carries no address. -/
  primitives : ∀ package ∈ linked.packages, ∀ s, .struct s ∈ package.definitions →
    ∀ field ∈ s.fields, ∀ p, field.type.innermost = .primitive p →
      field.type.reference?.bind Reference.target = none
  /-- A struct carries the address of a parent exactly if a parent is written. -/
  parentIds : ∀ package ∈ linked.packages, ∀ s, .struct s ∈ package.definitions →
    s.parentId.isSome = s.parentName.isSome
  /-- The parent clause leads to the definition it names, which is a struct. -/
  parents : ∀ package ∈ linked.packages, ∀ s, .struct s ∈ package.definitions →
    ∀ reference, s.parent = some reference →
      reference.LinkedAsWritten linked.packages package.name ∧
      (linked.parentOf? s).isSome = true
  /-- There is a definition at every stored address. -/
  stored : ∀ id ∈ linked.storedIds, (linked.definition? id).isSome = true

theorem writtenNames_resolved :
    writtenNames (packages.map (Package.resolved table)) = writtenNames packages := by
  rw [writtenNames, List.map_map]
  refine List.map_congr_left fun package _ => ?_
  simp [Package.resolved, Definition.references_resolved, Function.comp_def]

/-- Every reference in the linked form of acceptable packages leads where it was written to. -/
theorem linkedAsWritten_of_mem (h : Package.Acceptable packages) {d : Definition}
    (hd : (name, d) ∈ Package.contents (resolved packages).packages) {reference : Reference}
    (hreference : reference ∈ d.references) :
    reference.LinkedAsWritten (resolved packages).packages name := by
  rw [Package.contents_resolved] at hd
  obtain ⟨⟨package, written⟩, hwritten, heq⟩ := List.mem_map.mp hd
  obtain ⟨rfl, rfl⟩ := Prod.mk.inj heq
  rw [Definition.references_resolved] at hreference
  obtain ⟨unlinked, hunlinked, rfl⟩ := List.mem_map.mp hreference
  exact Reference.linkedAsWritten_resolved h hwritten hunlinked

/-- A struct in the linked form of acceptable packages has a parent if its parent is written. -/
theorem parentOf?_isSome_of_mem (h : Package.Acceptable packages) {s : Struct}
    (hs : (name, .struct s) ∈ Package.contents (resolved packages).packages)
    {reference : Reference} (hparent : s.parent = some reference) :
    ((resolved packages).parentOf? s).isSome = true := by
  rw [Package.contents_resolved] at hs
  obtain ⟨⟨package, written⟩, hwritten, heq⟩ := List.mem_map.mp hs
  obtain ⟨rfl, hresolved⟩ := Prod.mk.inj heq
  cases written with
  | enumeration e => cases hresolved
  | struct unlinked =>
      have hs := Definition.struct.inj hresolved
      subst hs
      rw [Struct.parent_resolved] at hparent
      obtain ⟨before, hbefore, -⟩ := Option.map_eq_some_iff.mp hparent
      obtain ⟨id, parent, hmeaning, hstruct⟩ := Struct.exists_parent h hwritten hbefore
      obtain ⟨linkedParent, hlinked, -⟩ := exists_struct?_resolved
        (Option.map_eq_some_iff.mpr ⟨parent, hstruct, rfl⟩) (.listing packages)
      rw [parentOf?_eq_some (Struct.parentId_resolved hmeaning) hlinked]
      rfl

/-- What has a name is a definition. -/
theorem definition?_isSome_of_qualifiedName? {linked : LinkedPackages} {id : DefinitionId}
    (h : id.qualifiedName? linked.packages = some name) :
    (linked.definition? id).isSome = true := by
  rw [DefinitionId.qualifiedName?_eq, Option.map_eq_some_iff] at h
  obtain ⟨d, hd, -⟩ := h
  rw [definition?, DefinitionId.find?_eq, hd]
  rfl

/-- In packages that were tidy when they were linked, the links point at what was written. -/
theorem links_as_written {packages : List Package} {linked : LinkedPackages}
    (htidy : Package.Tidy packages) (h : ofPackages packages = .ok linked) :
    LinksAsWritten packages linked := by
  obtain ⟨hacceptable, rfl⟩ := (succeedsIff_ofPackages_acceptable packages).of_eq_ok h
  have hreferences {package : Package} (hpackage : package ∈ (resolved packages).packages)
      {s : Struct} (hs : .struct s ∈ package.definitions) {reference : Reference}
      (hreference : reference ∈ (Definition.struct s).references) :
      reference.LinkedAsWritten (resolved packages).packages package.name :=
    linkedAsWritten_of_mem hacceptable (Package.mem_contents_of_mem hpackage hs) hreference
  constructor
  case names => exact writtenNames_resolved
  case fields =>
    intro package hpackage s hs field hfield reference hinnermost
    exact hreferences hpackage hs
      (Definition.mem_references_of_field hfield (FieldType.reference?_of_innermost hinnermost))
  case primitives =>
    intro package _ s _ field _ p hinnermost
    rw [FieldType.reference?_of_primitive hinnermost]
    rfl
  case parentIds =>
    intro package hpackage s hs
    cases hname : s.parentName with
    | none => rw [htidy.resolved _ package hpackage s hs hname]; rfl
    | some name =>
        have hparent : s.parent = some ⟨name, s.parentId⟩ :=
          Struct.parent_eq_some_iff.mpr ⟨hname, rfl⟩
        obtain ⟨id, htarget, -⟩ :=
          hreferences hpackage hs (Definition.mem_references_of_parent hparent)
        exact Option.isSome_of_eq_some htarget
  case parents =>
    intro package hpackage s hs reference hparent
    exact ⟨hreferences hpackage hs (Definition.mem_references_of_parent hparent),
      parentOf?_isSome_of_mem hacceptable (Package.mem_contents_of_mem hpackage hs) hparent⟩
  case stored =>
    intro id hid
    rcases List.mem_append.mp hid with htable | hreference
    · -- The table leads to declarations, and linking moves none of them.
      obtain ⟨entry, hentry, rfl⟩ := List.mem_map.mp htable
      obtain ⟨d, hd, rfl⟩ := List.mem_map.mp hentry
      have hname : d.id.qualifiedName? (resolved packages).packages = some d.qualifiedName := by
        rw [DefinitionId.qualifiedName?_resolved]
        exact DefinitionId.qualifiedName?_eq_some_iff.mpr ⟨d, hd, rfl, rfl⟩
      exact definition?_isSome_of_qualifiedName? hname
    · obtain ⟨package, hpackage, hin⟩ := List.mem_flatMap.mp hreference
      obtain ⟨d, hd, hmem⟩ := List.mem_flatMap.mp hin
      obtain ⟨reference, href, htarget⟩ : ∃ reference ∈ d.references,
          reference.target = some id := by
        cases d with
        | enumeration e => cases hmem
        | struct s => exact Definition.mem_storedIds (htidy.resolved _ package hpackage s hd) hmem
      obtain ⟨target, hleads, hname⟩ :=
        linkedAsWritten_of_mem hacceptable (Package.mem_contents_of_mem hpackage hd) href
      rw [htarget, Option.some.injEq] at hleads
      subst hleads
      exact definition?_isSome_of_qualifiedName? hname

/-- In the example of three generations all links, bare and dotted, point at what was written. -/
theorem links_as_written_three_generations :
    ∃ linked, ofPackages threeGenerations = .ok linked ∧
      LinksAsWritten threeGenerations linked :=
  ⟨_, ofPackages_threeGenerations,
    links_as_written tidy_threeGenerations ofPackages_threeGenerations⟩

end LinkedPackages

end SchemaLang
