import SchemaLang.Proofs.Lineage
import SchemaLang.Proofs.Linking

/-!
# Which packages can be linked

`Package.Acceptable` says of a list of packages, without table, links or order of checks, that
nothing is wrong with it.  Linking succeeds exactly for such lists.
-/

namespace SchemaLang

namespace Definition

/-- Every attribute of a definition and of its fields may decorate what it stands before. -/
def AttributesApply : Definition → Prop
  | .struct s => Attribute.AllApply s.attributes .struct ∧
      ∀ field ∈ s.fields, Attribute.AllApply field.attributes (.field field.type)
  | .enumeration e => Attribute.AllApply e.attributes .enumeration

/-- The type names written in a definition: that of the parent and those of the fields. -/
def references : Definition → List Reference
  | .struct s => s.parent.toList ++ s.fields.filterMap fun field => field.type.reference?
  | .enumeration _ => []

theorem mem_references_of_parent {s : Struct} {reference : Reference}
    (hparent : s.parent = some reference) : reference ∈ (struct s).references := by
  refine List.mem_append_left _ ?_
  rw [hparent]
  exact List.mem_singleton_self reference

theorem mem_references_of_field {s : Struct} {field : Field} (hfield : field ∈ s.fields)
    {reference : Reference} (hreference : field.type.reference? = some reference) :
    reference ∈ (struct s).references :=
  List.mem_append_right _ (List.mem_filterMap.mpr ⟨field, hfield, hreference⟩)

end Definition

namespace Package

/-- Every attribute in a package may decorate what it stands before. -/
def AttributesApply (package : Package) : Prop :=
  Attribute.AllApply package.attributes .package ∧
  (∀ imported ∈ package.imports, Attribute.AllApply imported.attributes .imported) ∧
  ∀ d ∈ package.definitions, d.AttributesApply

/-- Nothing is wrong with the packages. -/
structure Acceptable (packages : List Package) : Prop where
  packageNames : (packages.map Package.name).Nodup
  typeNames : (typeNames packages).Nodup
  attributes : ∀ package ∈ packages, package.AttributesApply
  /-- Every type name that is written stands for one that is declared. -/
  references : ∀ package ∈ packages, ∀ d ∈ package.definitions, ∀ reference ∈ d.references,
    ∃ name, reference.StandsFor package.name name ∧ name ∈ Package.typeNames packages
  /-- Above every struct with a parent stands a sound line. -/
  lineages : ∀ (id : DefinitionId) (s : Struct), id.struct? packages = some s →
    s.parent.isSome = true → ∃ line, line.head? = some id ∧
      Inheritance.SoundLine packages (Inheritance.Extends packages) line

variable {packages : List Package}

/-- The same for the qualified name. -/
theorem Acceptable.qualifiedIn_mem (h : Acceptable packages) :
    ∀ package ∈ packages, ∀ d ∈ package.definitions, ∀ reference ∈ d.references,
      reference.qualifiedIn package.name ∈ Package.typeNames packages :=
  fun package hpackage d hd reference hreference =>
    Reference.exists_standsFor_iff.mp (h.references package hpackage d hd reference hreference)

/-! ## From packages to declarations -/

/-- What holds of all definitions of all packages holds of all declarations. -/
theorem forall_declarations_iff {P : String → DefinitionId → Definition → Prop} :
    (∀ entry ∈ packages.zipIdx, ∀ d ∈ entry.1.definitions.zipIdx,
      P entry.1.name ⟨entry.2, d.2⟩ d.1) ↔
      ∀ d ∈ declarations packages, P d.package d.id d.definition := by
  simp only [declarations, List.forall_mem_flatMap, List.forall_mem_map]

/-- The same where addresses do not matter. -/
theorem forall_definitions_iff {P : String → Definition → Prop} :
    (∀ package ∈ packages, ∀ d ∈ package.definitions, P package.name d) ↔
      ∀ d ∈ declarations packages, P d.package d.definition := by
  rw [forall_contents_iff, ← map_declarations_eq_contents, List.forall_mem_map]

/-- Above every struct with a parent stands a sound line: the same by declarations. -/
def HasLineage (packages : List Package) (d : Declaration) : Prop :=
  ∀ s, d.definition = .struct s → s.parent.isSome = true → ∃ line, line.head? = some d.id ∧
    Inheritance.SoundLine packages (Inheritance.Extends packages) line

theorem forall_hasLineage_iff :
    (∀ d ∈ declarations packages, HasLineage packages d) ↔
      ∀ (id : DefinitionId) (s : Struct), id.struct? packages = some s →
        s.parent.isSome = true → ∃ line, line.head? = some id ∧
          Inheritance.SoundLine packages (Inheritance.Extends packages) line := by
  constructor
  · intro h id s hs
    obtain ⟨d, hd, hdef⟩ := DefinitionId.struct?_eq_some_iff.mp hs
    have hid := DefinitionId.id_of_declaration? hd
    subst hid
    exact h d (mem_declarations_iff.mpr hd) s hdef
  · intro h d hd s hdef
    exact h d.id s (DefinitionId.struct?_eq_some_iff.mpr ⟨d, mem_declarations_iff.mp hd, hdef⟩)

/-! ## What passes is acceptable -/

/-- The parent clause of a struct passes if it names a declared type and a sound line starts with
the struct. -/
theorem parent_passes_iff (hnames : (Package.typeNames packages).Nodup) {d : Declaration}
    (hd : d ∈ declarations packages) {s : Struct} (hdef : d.definition = .struct s) :
    (∀ reference, s.parent = some reference → ∃ target,
      (NameTable.listing packages).get? (reference.qualifiedIn d.package) = some target ∧
      Inheritance.check packages (.listing packages) s target [d.id] (Inheritance.members s) =
        .ok ()) ↔
      (∀ reference, s.parent = some reference →
        reference.qualifiedIn d.package ∈ Package.typeNames packages) ∧
      HasLineage packages d := by
  have hdecl := mem_declarations_iff.mp hd
  have howner := DefinitionId.struct?_eq_some_iff.mpr ⟨d, hdecl, hdef⟩
  have hup {reference : Reference} {target : DefinitionId} (hparent : s.parent = some reference) :
      Inheritance.ExtendsThrough packages (.listing packages) d.id target ↔
        (NameTable.listing packages).get? (reference.qualifiedIn d.package) = some target :=
    Inheritance.leadsUp_iff hdecl hdef hparent
  rw [HasLineage, ← Inheritance.extendsThrough_listing hnames]
  constructor
  · intro h
    refine ⟨fun reference hparent => ?_, fun other hother hsome => ?_⟩
    · obtain ⟨target, hget, -⟩ := h reference hparent
      exact NameTable.get?_listing_isSome_iff.mp (Option.isSome_of_eq_some hget)
    · rw [hdef] at hother
      cases hother
      obtain ⟨reference, hparent⟩ := Option.isSome_iff_exists.mp hsome
      obtain ⟨target, hget, hcheck⟩ := h reference hparent
      have hlink := (hup hparent).mpr hget
      obtain ⟨rest, hline⟩ := (Inheritance.check_eq_ok_iff howner hlink).mp hcheck
      exact ⟨_, rfl, hline⟩
  · rintro ⟨-, hlineage⟩ reference hparent
    obtain ⟨line, hhead, hline⟩ := hlineage s hdef (Option.isSome_of_eq_some hparent)
    obtain ⟨rest, rfl⟩ := List.head?_eq_some_iff.mp hhead
    cases rest with
    | nil =>
        -- A line of one struct ends without a parent.
        have hroot := Inheritance.soundLine_singleton_iff.mp hline
        simp [howner, hparent] at hroot
    | cons target rest =>
        have hlink := (List.isChain_cons_cons.mp hline.linked).1
        exact ⟨target, (hup hparent).mp hlink,
          (Inheritance.check_eq_ok_iff howner hlink).mpr ⟨rest, hline⟩⟩

/-- A field passes if its type is declared and its attributes apply. -/
theorem field_passes_iff {name : String} {field : Field} :
    field.Passes (.listing packages) name ↔
      (∀ reference, field.type.reference? = some reference →
        reference.qualifiedIn name ∈ Package.typeNames packages) ∧
      Attribute.AllApply field.attributes (.field field.type) := by
  simp only [Field.Passes, NameTable.get?_listing_isSome_iff]

theorem forall_references_struct_iff {s : Struct} {P : Reference → Prop} :
    (∀ reference ∈ (Definition.struct s).references, P reference) ↔
      (∀ reference, s.parent = some reference → P reference) ∧
      ∀ field ∈ s.fields, ∀ reference, field.type.reference? = some reference → P reference := by
  constructor
  · intro h
    exact ⟨fun reference hparent => h reference (Definition.mem_references_of_parent hparent),
      fun field hfield reference hreference =>
        h reference (Definition.mem_references_of_field hfield hreference)⟩
  · rintro ⟨hparent, hfields⟩ reference hreference
    rcases List.mem_append.mp hreference with hmem | hmem
    · exact hparent reference (Option.mem_toList.mp hmem)
    · obtain ⟨field, hfield, hwritten⟩ := List.mem_filterMap.mp hmem
      exact hfields field hfield reference hwritten

/-- A definition passes if its attributes apply, the names in it are declared and a sound line
starts with it. -/
theorem definition_passes_iff (hnames : (Package.typeNames packages).Nodup) {d : Declaration}
    (hd : d ∈ declarations packages) :
    d.definition.Passes packages (.listing packages) d.package d.id ↔
      d.definition.AttributesApply ∧
      (∀ reference ∈ d.definition.references,
        reference.qualifiedIn d.package ∈ Package.typeNames packages) ∧
      HasLineage packages d := by
  cases hdef : d.definition with
  | enumeration e =>
      have hnone : HasLineage packages d := fun s hs => by rw [hdef] at hs; cases hs
      simp [Definition.Passes, Definition.AttributesApply, Definition.references, hnone]
  | struct s =>
      rw [Definition.Passes, Struct.Passes, parent_passes_iff hnames hd hdef,
        forall_references_struct_iff, Definition.AttributesApply]
      simp only [field_passes_iff]
      constructor
      · rintro ⟨⟨hparent, hline⟩, hattributes, hfields⟩
        exact ⟨⟨hattributes, fun field hfield => (hfields field hfield).2⟩,
          ⟨hparent, fun field hfield => (hfields field hfield).1⟩, hline⟩
      · rintro ⟨⟨hattributes, hfields⟩, ⟨hparent, htypes⟩, hline⟩
        exact ⟨⟨hparent, hline⟩, hattributes, fun field hfield =>
          ⟨htypes field hfield, hfields field hfield⟩⟩

/-- All packages pass against the table of what they declare if, names being distinct, nothing else
is wrong with them. -/
theorem passes_iff_acceptable (hpackages : (packages.map Package.name).Nodup)
    (hnames : (Package.typeNames packages).Nodup) :
    (∀ entry ∈ packages.zipIdx, Passes packages (.listing packages) entry) ↔
      Acceptable packages := by
  have hdefinitions :
      (∀ entry ∈ packages.zipIdx, ∀ d ∈ entry.1.definitions.zipIdx,
        d.1.Passes packages (.listing packages) entry.1.name ⟨entry.2, d.2⟩) ↔
      ∀ d ∈ declarations packages, d.definition.AttributesApply ∧
        (∀ reference ∈ d.definition.references,
          reference.qualifiedIn d.package ∈ Package.typeNames packages) ∧
        HasLineage packages d := by
    rw [forall_declarations_iff (P := fun name id d =>
      d.Passes packages (.listing packages) name id)]
    exact forall₂_congr fun d hd => definition_passes_iff hnames hd
  have hattributes : (∀ package ∈ packages, ∀ d ∈ package.definitions, d.AttributesApply) ↔
      ∀ d ∈ declarations packages, d.definition.AttributesApply :=
    forall_definitions_iff (P := fun _ d => d.AttributesApply)
  have hreferences : (∀ package ∈ packages, ∀ d ∈ package.definitions,
        ∀ reference ∈ d.references, ∃ name,
          reference.StandsFor package.name name ∧ name ∈ Package.typeNames packages) ↔
      ∀ d ∈ declarations packages, ∀ reference ∈ d.definition.references,
        reference.qualifiedIn d.package ∈ Package.typeNames packages := by
    simp only [Reference.exists_standsFor_iff]
    exact forall_definitions_iff (P := fun name d => ∀ reference ∈ d.references,
      reference.qualifiedIn name ∈ Package.typeNames packages)
  constructor
  · intro h
    have hdecls := hdefinitions.mp fun entry hentry => (h entry hentry).2.2
    -- Attributes of packages are checked by index, those of definitions by declaration.
    refine ⟨hpackages, hnames, ?_, hreferences.mpr fun d hd => (hdecls d hd).2.1,
      forall_hasLineage_iff.mp fun d hd => (hdecls d hd).2.2⟩
    intro package hpackage
    obtain ⟨hown, himports⟩ := (forall_mem_zipIdx_fst fun package : Package =>
      Attribute.AllApply package.attributes .package ∧ ∀ imported ∈ package.imports,
        Attribute.AllApply imported.attributes .imported).mp
      (fun entry hentry => ⟨(h entry hentry).1, (h entry hentry).2.1⟩) package hpackage
    exact ⟨hown, himports, hattributes.mpr (fun d hd => (hdecls d hd).1) package hpackage⟩
  · intro h entry hentry
    have hpackage := h.attributes entry.1 (List.fst_mem_of_mem_zipIdx hentry)
    refine ⟨hpackage.1, hpackage.2.1, hdefinitions.mpr (fun d hd => ?_) entry hentry⟩
    exact ⟨hattributes.mp (fun package hpackage => (h.attributes package hpackage).2.2) d hd,
      hreferences.mp h.references d hd, forall_hasLineage_iff.mpr h.lineages d hd⟩

end Package

namespace LinkedPackages

/-- Packages are linked exactly if nothing is wrong with them, each reference to what the listing of
all declarations has for it. -/
theorem succeedsIff_ofPackages_acceptable (packages : List Package) :
    SucceedsIff (ofPackages packages) (Package.Acceptable packages)
      (resolved packages) := by
  refine (succeedsIff_ofPackages packages).congr ?_ fun _ => rfl
  constructor
  · rintro ⟨⟨hpackages, hnames⟩, hpasses⟩
    exact (Package.passes_iff_acceptable hpackages hnames).mp hpasses
  · intro h
    exact ⟨⟨h.packageNames, h.typeNames⟩,
      (Package.passes_iff_acceptable h.packageNames h.typeNames).mpr h⟩

/-- Linking succeeds exactly if nothing is wrong with the packages. -/
theorem ofPackages_succeeds_iff (packages : List Package) :
    (∃ linked, ofPackages packages = .ok linked) ↔ Package.Acceptable packages :=
  (succeedsIff_ofPackages_acceptable packages).exists_iff

end LinkedPackages

end SchemaLang
