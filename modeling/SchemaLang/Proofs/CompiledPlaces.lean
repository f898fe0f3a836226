import Mathlib
import SchemaLang.Proofs.Compilation
import SchemaLang.Proofs.Reformatting

/-!
# Places in compiled packages

Places are carried along by compilation and never looked at.  Packages with other places are merged
and linked as the packages themselves, and nothing is wrong with them that is not wrong with those.
-/

namespace SchemaLang

variable {φ : Location → Location}

/-! ### Declarations -/

@[simp] theorem Definition.name_displace (d : Definition) : (d.displace φ).name = d.name := by
  cases d <;> rfl

theorem Definition.references_displace (d : Definition) :
    (d.displace φ).references = d.references := by
  cases d with
  | enumeration e => rfl
  | struct s =>
      show s.parent.toList ++ (s.fields.map (Field.displace φ)).filterMap _ = _
      rw [List.filterMap_map]
      rfl

theorem Definition.attributesApply_displace (d : Definition) :
    (d.displace φ).AttributesApply ↔ d.AttributesApply := by
  cases d with
  | enumeration e => exact Iff.rfl
  | struct s => exact and_congr_right' List.forall_mem_map

/-- The same definition with its places moved. -/
def Declaration.displace (φ : Location → Location) (d : Declaration) : Declaration :=
  { d with definition := d.definition.displace φ }

@[simp] theorem Declaration.qualifiedName_displace (d : Declaration) :
    (d.displace φ).qualifiedName = d.qualifiedName := by
  simp [qualifiedName, displace]

namespace DefinitionId

theorem declaration?_displace (id : DefinitionId) (packages : List Package) :
    id.declaration? (packages.map (Package.displace φ)) =
      (id.declaration? packages).map (Declaration.displace φ) := by
  rw [declaration?, declaration?, List.getElem?_map]
  cases packages[id.package]? with
  | none => rfl
  | some package =>
      show Option.map _ (List.map _ _)[id.element]? = Option.map _ (Option.map _ _)
      rw [List.getElem?_map, Option.map_map, Option.map_map]
      rfl

theorem struct?_displace (id : DefinitionId) (packages : List Package) :
    id.struct? (packages.map (Package.displace φ)) =
      (id.struct? packages).map (Struct.displace φ) := by
  rw [struct?, struct?, find?_eq, find?_eq, declaration?_displace]
  cases id.declaration? packages with
  | none => rfl
  | some d => cases hdef : d.definition <;> simp [Declaration.displace, Definition.displace,
      Definition.struct?, hdef]

theorem qualifiedName?_displace (id : DefinitionId) (packages : List Package) :
    id.qualifiedName? (packages.map (Package.displace φ)) = id.qualifiedName? packages := by
  rw [qualifiedName?_eq, qualifiedName?_eq, declaration?_displace, Option.map_map]
  congr 1
  funext d
  exact d.qualifiedName_displace

end DefinitionId

namespace Package

variable {packages : List Package}

theorem declarations_displace (packages : List Package) :
    declarations (packages.map (displace φ)) =
      (declarations packages).map (Declaration.displace φ) := by
  simp only [declarations, List.zipIdx_map, List.flatMap_map, List.map_flatMap, List.map_map]
  refine List.flatMap_congr fun entry _ => ?_
  show (entry.1.definitions.map (Definition.displace φ)).zipIdx.map _ = _
  rw [List.zipIdx_map, List.map_map]
  rfl

theorem typeNames_displace (packages : List Package) :
    typeNames (packages.map (displace φ)) = typeNames packages := by
  rw [← map_qualifiedName_declarations, ← map_qualifiedName_declarations, declarations_displace,
    List.map_map]
  exact List.map_congr_left fun d _ => d.qualifiedName_displace

theorem map_name_displace (packages : List Package) :
    (packages.map (displace φ)).map name = packages.map name := by
  rw [List.map_map]
  rfl

theorem attributesApply_displace (package : Package) :
    (package.displace φ).AttributesApply ↔ package.AttributesApply := by
  refine and_congr_right' (and_congr List.forall_mem_map ?_)
  rw [show (package.displace φ).definitions = package.definitions.map (Definition.displace φ) from
    rfl, List.forall_mem_map]
  exact forall₂_congr fun d _ => d.attributesApply_displace

end Package

/-! ### Lines of parents -/

namespace Inheritance

variable {packages : List Package}

theorem leadsUp_displace {means : String → DefinitionId → Prop} {child parent : DefinitionId} :
    LeadsUp (packages.map (Package.displace φ)) means child parent ↔
      LeadsUp packages means child parent := by
  constructor
  · rintro ⟨moved, s, reference, hmoved, hdef, hparent, hmeans⟩
    rw [DefinitionId.declaration?_displace] at hmoved
    obtain ⟨d, hd, rfl⟩ := Option.map_eq_some_iff.mp hmoved
    cases horiginal : d.definition with
    | enumeration e => simp [Declaration.displace, Definition.displace, horiginal] at hdef
    | struct original =>
        simp only [Declaration.displace, Definition.displace, horiginal,
          Definition.struct.injEq] at hdef
        subst hdef
        exact ⟨d, original, reference, hd, horiginal, hparent, hmeans⟩
  · rintro ⟨d, s, reference, hd, hdef, hparent, hmeans⟩
    refine ⟨d.displace φ, s.displace φ, reference, ?_, ?_, hparent, hmeans⟩
    · rw [DefinitionId.declaration?_displace, hd, Option.map_some]
    · simp [Declaration.displace, Definition.displace, hdef]

theorem extends_displace :
    Extends (packages.map (Package.displace φ)) = Extends packages := by
  funext child parent
  simp only [Extends, leadsUp_displace, DefinitionId.qualifiedName?_displace]

/-- What a line is asked for stands in the structs, apart from their places. -/
theorem soundLine_displace {up : DefinitionId → DefinitionId → Prop} {line : List DefinitionId} :
    SoundLine (packages.map (Package.displace φ)) up line ↔ SoundLine packages up line := by
  have hclass (id : DefinitionId) : ((id.struct? packages).map (Struct.displace φ)).map
      Struct.isClass = (id.struct? packages).map Struct.isClass := by
    rw [Option.map_map]
    rfl
  have hparent (id : DefinitionId) : ((id.struct? packages).map (Struct.displace φ)).map
      Struct.parent = (id.struct? packages).map Struct.parent := by
    rw [Option.map_map]
    rfl
  have hmembers (id : DefinitionId) :
      memberNames (packages.map (Package.displace φ)) id = memberNames packages id := by
    rw [memberNames, memberNames, DefinitionId.struct?_displace, Option.map_map]
    congr 2
    funext s
    exact List.map_map
  constructor
  · rintro ⟨hlinked, halike, hdistinct, hrooted, hunhidden⟩
    simp only [DefinitionId.struct?_displace, hclass, hparent, hmembers] at *
    exact ⟨hlinked, halike, hdistinct, hrooted, hunhidden⟩
  · rintro ⟨hlinked, halike, hdistinct, hrooted, hunhidden⟩
    constructor <;> simpa only [DefinitionId.struct?_displace, hclass, hparent, hmembers]

end Inheritance

/-! ### Compilation -/

namespace Package

variable {packages : List Package}

/-- Nothing is wrong with packages because of their places. -/
theorem acceptable_displace :
    Acceptable (packages.map (displace φ)) ↔ Acceptable packages := by
  have hattributes : (∀ package ∈ packages.map (displace φ), package.AttributesApply) ↔
      ∀ package ∈ packages, package.AttributesApply := by
    rw [List.forall_mem_map]
    exact forall₂_congr fun package _ => package.attributesApply_displace
  have hreferences (names : List String) :
      (∀ package ∈ packages.map (displace φ), ∀ d ∈ package.definitions, ∀ reference ∈ d.references,
        ∃ name, reference.StandsFor package.name name ∧ name ∈ names) ↔
      ∀ package ∈ packages, ∀ d ∈ package.definitions, ∀ reference ∈ d.references,
        ∃ name, reference.StandsFor package.name name ∧ name ∈ names := by
    rw [List.forall_mem_map]
    refine forall₂_congr fun package _ => ?_
    show (∀ d ∈ package.definitions.map (Definition.displace φ), _) ↔ _
    rw [List.forall_mem_map]
    exact forall₂_congr fun d _ => by rw [d.references_displace]; rfl
  have hlineages :
      (∀ (id : DefinitionId) (s : Struct), id.struct? (packages.map (displace φ)) = some s →
        s.parent.isSome = true → ∃ line, line.head? = some id ∧
          Inheritance.SoundLine (packages.map (displace φ))
            (Inheritance.Extends (packages.map (displace φ))) line) ↔
      ∀ (id : DefinitionId) (s : Struct), id.struct? packages = some s →
        s.parent.isSome = true → ∃ line, line.head? = some id ∧
          Inheritance.SoundLine packages (Inheritance.Extends packages) line := by
    simp only [Inheritance.extends_displace, Inheritance.soundLine_displace,
      DefinitionId.struct?_displace, Option.map_eq_some_iff]
    refine forall_congr' fun id => ⟨fun h s hs => h (s.displace φ) ⟨s, hs, rfl⟩, ?_⟩
    rintro h _ ⟨s, hs, rfl⟩
    exact h s hs
  constructor
  · rintro ⟨hpackages, htypes, happly, hdeclared, hlines⟩
    rw [map_name_displace] at hpackages
    rw [typeNames_displace] at htypes hdeclared
    exact ⟨hpackages, htypes, hattributes.mp happly, (hreferences _).mp hdeclared,
      hlineages.mp hlines⟩
  · rintro ⟨hpackages, htypes, happly, hdeclared, hlines⟩
    rw [← map_name_displace (φ := φ)] at hpackages
    rw [← typeNames_displace (φ := φ)] at htypes hdeclared
    exact ⟨hpackages, htypes, hattributes.mpr happly, (hreferences _).mpr hdeclared,
      hlineages.mpr hlines⟩

theorem append_displace (package fragment : Package) :
    (package.displace φ).append (fragment.displace φ) = (package.append fragment).displace φ := by
  simp [append, displace]

theorem absorb_displace (packages : List Package) (fragment : Package) :
    absorb (packages.map (displace φ)) (fragment.displace φ) =
      (absorb packages fragment).map (displace φ) := by
  induction packages with
  | nil => rfl
  | cons package packages ih =>
      rw [List.map_cons, absorb, absorb, ih, append_displace]
      show (if package.name = fragment.name then _ else _) = _
      split <;> rfl

theorem merge_displace (fragments : List Package) :
    merge (fragments.map (displace φ)) = (merge fragments).map (displace φ) := by
  induction fragments using merge_induction with
  | nil => rfl
  | step fragments fragment packages ih =>
      rw [List.map_append, List.map_singleton, ← absorb_displace, ← ih]
      exact List.foldl_append

theorem resolved_displace (table : NameTable) (package : Package) :
    (package.displace φ).resolved table = (package.resolved table).displace φ := by
  have hfield (field : Field) : (field.displace φ).resolved table package.name =
      (field.resolved table package.name).displace φ := rfl
  have hdefinition (d : Definition) : (d.displace φ).resolved table package.name =
      (d.resolved table package.name).displace φ := by
    cases d with
    | enumeration e => rfl
    | struct s =>
        show Definition.struct ((s.displace φ).resolved table package.name) =
          .struct ((s.resolved table package.name).displace φ)
        simp only [Struct.resolved, Struct.displace, List.map_map, Function.comp_def, hfield]
        rfl
  simp only [resolved, displace, List.map_map, Function.comp_def, hdefinition]

theorem listing_displace (packages : List Package) :
    NameTable.listing (packages.map (displace φ)) = NameTable.listing packages := by
  unfold NameTable.listing
  rw [declarations_displace, List.zipIdx_map, List.map_map, List.map_map]
  simp only [Function.comp_def, Declaration.qualifiedName_displace]
  rfl

end Package

namespace Schema

theorem packages_resolved_displace (packages : List Package) :
    (resolved (packages.map (Package.displace φ))).packages =
      (resolved packages).packages.map (Package.displace φ) := by
  show (packages.map _).map (Package.resolved (.listing _)) =
    (packages.map (Package.resolved (.listing _))).map _
  rw [Package.listing_displace, List.map_map, List.map_map]
  exact List.map_congr_left fun package _ => package.resolved_displace _

variable {fragments others : List Package}

/-- Whether packages make a schema does not depend on their places. -/
theorem exists_compile_iff_of_displace_eq
    (h : fragments.map (Package.displace φ) = others.map (Package.displace φ)) :
    (∃ schema, compile fragments = .ok schema) ↔ ∃ schema, compile others = .ok schema := by
  rw [(succeedsIff_compile fragments).exists_iff, (succeedsIff_compile others).exists_iff,
    ← Package.acceptable_displace (φ := φ), ← Package.merge_displace, h, Package.merge_displace,
    Package.acceptable_displace]

/-- Packages that differ in their places make schemas that differ in theirs. -/
theorem packages_displace_eq (h : fragments.map (Package.displace φ) =
    others.map (Package.displace φ)) {a b : Schema} (ha : compile fragments = .ok a)
    (hb : compile others = .ok b) :
    a.packages.map (Package.displace φ) = b.packages.map (Package.displace φ) := by
  obtain ⟨-, rfl⟩ := (succeedsIff_compile fragments).of_eq_ok ha
  obtain ⟨-, rfl⟩ := (succeedsIff_compile others).of_eq_ok hb
  rw [← packages_resolved_displace, ← packages_resolved_displace, ← Package.merge_displace, h,
    Package.merge_displace]

end Schema

end SchemaLang
