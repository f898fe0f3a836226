import SchemaLang.Schema
import SchemaLang.Proofs.Merge
import SchemaLang.Proofs.Rearrangement
import SchemaLang.Proofs.Validation

/-!
# Compilation

Compilation merges, links and validates.  Only linking decides whether it succeeds.  The order of
the fragments and of the definitions in them has an effect on every address, but neither on success
nor on what the links mean by name.
-/

namespace SchemaLang

namespace Package

/-- The package with its definitions in another order. -/
def Shuffled (package other : Package) : Prop :=
  ∃ definitions, package.definitions.Perm definitions ∧
    other = { package with definitions := definitions }

/-- The packages in another order, and the definitions in each of them, too. -/
def Reordered (packages others : List Package) : Prop :=
  ∃ middle, List.Forall₂ Shuffled packages middle ∧ middle.Perm others

variable {packages others : List Package}

/-- The packages from the last to the first, and each of them so. -/
def backwards (packages : List Package) : List Package :=
  (packages.map fun package =>
    { package with definitions := package.definitions.reverse }).reverse

theorem reordered_backwards (packages : List Package) :
    Reordered packages (backwards packages) := by
  refine ⟨_, ?_, (List.reverse_perm _).symm⟩
  rw [List.forall₂_map_right_iff, List.forall₂_same]
  exact fun package _ => ⟨_, (List.reverse_perm _).symm, rfl⟩

theorem Reordered.contents_perm (h : Reordered packages others) :
    (contents packages).Perm (contents others) := by
  obtain ⟨middle, hshuffled, hperm⟩ := h
  -- First each package is shuffled in its place, then the packages change places.
  refine List.Perm.trans ?_ (hperm.flatMap_right _)
  clear hperm
  induction hshuffled with
  | nil => rfl
  | @cons package other packages middle hfirst _ ih =>
      obtain ⟨definitions, hdefinitions, rfl⟩ := hfirst
      exact (hdefinitions.map fun d => (package.name, d)).append ih

theorem Shuffled.attributesApply_iff {package other : Package} (h : Shuffled package other) :
    package.AttributesApply ↔ other.AttributesApply := by
  obtain ⟨definitions, hdefinitions, rfl⟩ := h
  simp only [AttributesApply, hdefinitions.mem_iff]

theorem Reordered.attributesApply_iff (h : Reordered packages others) :
    (∀ package ∈ packages, package.AttributesApply) ↔
      ∀ package ∈ others, package.AttributesApply := by
  obtain ⟨middle, hshuffled, hperm⟩ := h
  simp only [← hperm.mem_iff]
  clear hperm
  induction hshuffled with
  | nil => rfl
  | cons hfirst _ ih =>
      rw [List.forall_mem_cons, List.forall_mem_cons, hfirst.attributesApply_iff, ih]

/-- Merging joins the definitions of fragments and drops none. -/
theorem contents_merge_perm (fragments : List Package) :
    (contents (merge fragments)).Perm (contents fragments) := by
  refine flatMap_merge_perm (fun package fragment hname => ?_) fragments
  rw [append, List.map_append, hname]

theorem contents_merge_perm_of_reordered (h : Reordered packages others) :
    (contents (merge packages)).Perm (contents (merge others)) :=
  (contents_merge_perm packages).trans (h.contents_perm.trans (contents_merge_perm others).symm)

/-- Whether merged packages are acceptable does not depend on the order of the fragments. -/
theorem acceptable_merge_iff_of_reordered (h : Reordered packages others) :
    Acceptable (merge packages) ↔ Acceptable (merge others) := by
  have hsame := contents_merge_perm_of_reordered h
  have hattributes : (∀ package ∈ merge packages, package.AttributesApply) ↔
      ∀ package ∈ merge others, package.AttributesApply := by
    rw [forall_mem_merge_iff attributesApply_append, forall_mem_merge_iff attributesApply_append,
      h.attributesApply_iff]
  constructor
  · intro hacceptable
    exact hacceptable.of_contents_perm hsame (nodup_map_name_merge others)
      (hattributes.mp hacceptable.attributes)
  · intro hacceptable
    exact hacceptable.of_contents_perm hsame.symm (nodup_map_name_merge packages)
      (hattributes.mpr hacceptable.attributes)

end Package

namespace Schema

open Package

/-- The schema that acceptable packages make. -/
def resolved (packages : List Package) : Schema :=
  ⟨.resolved packages, Package.warnings packages⟩

/-- Compilation succeeds exactly if nothing is wrong with the merged packages.  Validation never
fails after linking. -/
theorem succeedsIff_compile (fragments : List Package) :
    SucceedsIff (compile fragments) (Acceptable (merge fragments))
      (resolved (merge fragments)) := by
  have hlink := (LinkedPackages.succeedsIff_ofPackages_acceptable (merge fragments)).mapError
    CompileError.analysis
  have hvalidate := (succeedsIff_validate
    (LinkedPackages.resolved (merge fragments)).packages).mapError CompileError.validation
  refine (hlink.bind fun _ => hvalidate.map fun _ => _).congr ?_ fun _ => ?_
  · exact and_iff_left_of_imp fun h => h.valid_resolved _
  · rw [warnings_resolved]
    rfl

/-- The struct or class with a qualified name. -/
def structNamed? (schema : Schema) (name : String) : Option Struct :=
  (schema.linked.find? name).bind Definition.struct?

/-- Two references in two schemas lead to definitions of one qualified name. -/
def SameTarget (a b : Schema) (reference other : Reference) : Prop :=
  ∃ id otherId name, reference.target = some id ∧ id.qualifiedName? a.packages = some name ∧
    other.target = some otherId ∧ otherId.qualifiedName? b.packages = some name

/-- Two structs in two schemas have the same parent and the same fields, and all their references
lead to definitions of the same names. -/
structure SameLinks (a b : Schema) (s other : Struct) : Prop where
  parent : Option.Rel (SameTarget a b) s.parent other.parent
  fields : List.Forall₂ (fun field otherField => field.name = otherField.name ∧
    Option.Rel (SameTarget a b) field.type.reference? otherField.type.reference?)
    s.fields other.fields

/-- Two schemas declare the same types, and structs of one name have the same links. -/
structure Agree (a b : Schema) : Prop where
  typeNames : ∀ name, name ∈ Package.typeNames a.packages ↔ name ∈ Package.typeNames b.packages
  structs : ∀ name, Option.Rel (SameLinks a b) (a.structNamed? name) (b.structNamed? name)

variable {packages others : List Package}

theorem structNamed?_resolved_eq_some_iff (hnames : (typeNames packages).Nodup) {name : String}
    {s : Struct} :
    (resolved packages).structNamed? name = some s ↔ ∃ d ∈ declarations packages,
      d.qualifiedName = name ∧ ∃ original, d.definition = .struct original ∧
        s = original.resolved (.listing packages) d.package := by
  rw [structNamed?, LinkedPackages.find?, Option.bind_assoc]
  show ((NameTable.listing packages).get? name).bind (fun id : DefinitionId =>
    id.struct? (LinkedPackages.resolved packages).packages) = some s ↔ _
  rw [Option.bind_eq_some_iff]
  constructor
  · rintro ⟨id, hget, hs⟩
    obtain ⟨d, original, hd, hdef, rfl⟩ := DefinitionId.struct?_resolved_eq_some_iff.mp hs
    have hname := (NameTable.get?_listing_eq_some_iff hnames).mp hget
    rw [DefinitionId.qualifiedName?_eq, hd, Option.map_some, Option.some.injEq] at hname
    have hid := DefinitionId.id_of_declaration? hd
    subst hid
    exact ⟨d, mem_declarations_iff.mpr hd, hname, original, hdef, rfl⟩
  · rintro ⟨d, hd, hname, original, hdef, rfl⟩
    refine ⟨d.id, (NameTable.get?_listing_eq_some_iff hnames).mpr
      (DefinitionId.qualifiedName?_eq_some_iff.mpr ⟨d, hd, rfl, hname⟩), ?_⟩
    exact DefinitionId.struct?_resolved_eq_some_iff.mpr
      ⟨d, original, mem_declarations_iff.mp hd, hdef, rfl⟩

/-- A reference in a definition that both lists of packages have leads to the same name in both. -/
theorem sameTarget_resolved (hpackages : Acceptable packages) (hothers : Acceptable others)
    {name : String} {d : Definition} (hhere : (name, d) ∈ contents packages)
    (hthere : (name, d) ∈ contents others) {reference : Reference}
    (hreference : reference ∈ d.references) :
    SameTarget (resolved packages) (resolved others)
      (reference.resolved (.listing packages) name)
      (reference.resolved (.listing others) name) := by
  obtain ⟨id, htarget, hname⟩ := Reference.linkedAsWritten_resolved hpackages hhere hreference
  obtain ⟨otherId, hotherTarget, hotherName⟩ :=
    Reference.linkedAsWritten_resolved hothers hthere hreference
  rw [Reference.name_resolved] at hname hotherName
  exact ⟨id, otherId, _, htarget, hname, hotherTarget, hotherName⟩

/-- A struct that both lists of packages have gets the same links in both. -/
theorem sameLinks_resolved (hpackages : Acceptable packages) (hothers : Acceptable others)
    {name : String} {s : Struct} (hhere : (name, .struct s) ∈ contents packages)
    (hthere : (name, .struct s) ∈ contents others) :
    SameLinks (resolved packages) (resolved others) (s.resolved (.listing packages) name)
      (s.resolved (.listing others) name) := by
  have hrel (reference? : Option Reference)
      (hmem : ∀ reference, reference? = some reference →
        reference ∈ (Definition.struct s).references) :
      Option.Rel (SameTarget (resolved packages) (resolved others))
        (reference?.map (Reference.resolved (.listing packages) name))
        (reference?.map (Reference.resolved (.listing others) name)) := by
    cases reference? with
    | none => exact .none
    | some reference =>
        exact .some (sameTarget_resolved hpackages hothers hhere hthere (hmem reference rfl))
  constructor
  case parent =>
    rw [Struct.parent_resolved, Struct.parent_resolved]
    exact hrel s.parent fun reference hparent => Definition.mem_references_of_parent hparent
  case fields =>
    show List.Forall₂ _ (s.fields.map _) (s.fields.map _)
    rw [List.forall₂_map_left_iff, List.forall₂_map_right_iff, List.forall₂_same]
    refine fun field hfield => ⟨rfl, ?_⟩
    rw [Field.reference?_resolved, Field.reference?_resolved]
    exact hrel field.type.reference? fun reference hreference =>
      Definition.mem_references_of_field hfield hreference

/-- Wherever one schema has a struct, the other has one of the same links. -/
theorem exists_sameLinks (hpackages : Acceptable packages) (hothers : Acceptable others)
    (hsame : (contents packages).Perm (contents others)) {name : String} {s : Struct}
    (hs : (resolved packages).structNamed? name = some s) :
    ∃ other, (resolved others).structNamed? name = some other ∧
      SameLinks (resolved packages) (resolved others) s other := by
  obtain ⟨d, hd, hname, original, hdef, rfl⟩ :=
    (structNamed?_resolved_eq_some_iff hpackages.typeNames).mp hs
  have hhere : (d.package, .struct original) ∈ contents packages :=
    mem_contents_iff.mpr ⟨d, hd, rfl, hdef⟩
  have hthere := hsame.mem_iff.mp hhere
  obtain ⟨e, he, hpackage, hdefinition⟩ := mem_contents_iff.mp hthere
  refine ⟨original.resolved (.listing others) d.package,
    (structNamed?_resolved_eq_some_iff hothers.typeNames).mpr
      ⟨e, he, ?_, original, hdefinition, by rw [hpackage]⟩,
    sameLinks_resolved hpackages hothers hhere hthere⟩
  rw [← hname, Declaration.qualifiedName, Declaration.qualifiedName, hpackage, hdefinition, hdef]

/-- The schemas of packages with the same contents agree. -/
theorem agree_resolved (hpackages : Acceptable packages) (hothers : Acceptable others)
    (hsame : (contents packages).Perm (contents others)) :
    Agree (resolved packages) (resolved others) := by
  constructor
  case typeNames =>
    intro name
    show name ∈ Package.typeNames (packages.map _) ↔ name ∈ Package.typeNames (others.map _)
    rw [typeNames_resolved, typeNames_resolved, (typeNames_perm hsame).mem_iff]
  case structs =>
    intro name
    cases hhere : (resolved packages).structNamed? name with
    | some s =>
        obtain ⟨other, hother, hlinks⟩ := exists_sameLinks hpackages hothers hsame hhere
        rw [hother]
        exact .some hlinks
    | none =>
        cases hthere : (resolved others).structNamed? name with
        | none => exact .none
        | some other =>
            -- The struct would be missing here only if it were missing there.
            obtain ⟨s, hs, -⟩ := exists_sameLinks hothers hpackages hsame.symm hthere
            rw [hhere] at hs
            cases hs

/-- Neither the order of the fragments nor that of the definitions in them has an effect on whether
compilation succeeds, or on what the links of the schema mean by name. -/
theorem compile_order_independent {fragments others : List Package}
    (h : Reordered fragments others) :
    ((∃ a, compile fragments = .ok a) ↔ ∃ b, compile others = .ok b) ∧
      ∀ a b, compile fragments = .ok a → compile others = .ok b → Agree a b := by
  constructor
  · rw [(succeedsIff_compile fragments).exists_iff, (succeedsIff_compile others).exists_iff]
    exact acceptable_merge_iff_of_reordered h
  · intro a b ha hb
    obtain ⟨hfragments, rfl⟩ := (succeedsIff_compile fragments).of_eq_ok ha
    obtain ⟨hothers, rfl⟩ := (succeedsIff_compile others).of_eq_ok hb
    exact agree_resolved hfragments hothers (contents_merge_perm_of_reordered h)

/-- The example of three generations with a second fragment of its first package behind the other
package. -/
def scattered : List Package :=
  let place : Location := ⟨0, 1, 1, ""⟩
  LinkedPackages.threeGenerations ++
    [⟨"a", [], [.struct ⟨"D", true, some "B", none, [], [], place⟩], [], place⟩]

theorem compile_scattered :
    compile scattered = .ok (resolved (merge scattered)) := by
  cbv

theorem compile_backwards_scattered :
    compile (backwards scattered) = .ok (resolved (merge (backwards scattered))) := by
  cbv

/-- The scattered fragments, read from the last definition to the first, make an agreeing schema. -/
theorem compile_order_independent_backwards :
    ∃ a b, compile scattered = .ok a ∧ compile (backwards scattered) = .ok b ∧ Agree a b :=
  ⟨_, _, compile_scattered, compile_backwards_scattered,
    (compile_order_independent (reordered_backwards scattered)).2 _ _ compile_scattered
      compile_backwards_scattered⟩

end Schema

end SchemaLang
