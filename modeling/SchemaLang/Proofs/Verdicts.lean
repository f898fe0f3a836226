import SchemaLang.Proofs.Compilation
import SchemaLang.Proofs.Failure

/-!
# What linking and validation say of the same packages

Validation is a second check by names alone.  What it accepts, linking accepts up to the lines of
parents, which names do not show.  What linking accepts, validation accepts, and so the validation
of a compilation never fails; all it has to say is that nothing is declared.
-/

namespace SchemaLang

namespace Package

variable {packages : List Package}

/-- Acceptable packages are valid. -/
theorem Acceptable.valid (h : Acceptable packages) : Valid packages :=
  ⟨h.attributes, h.typeNames, h.references⟩

/-- Valid packages of distinct names are acceptable if a sound line stands above every struct. -/
theorem Valid.acceptable (h : Valid packages) (hnames : (packages.map name).Nodup)
    (hlineages : ∀ (id : DefinitionId) (s : Struct), id.struct? packages = some s →
      s.parent.isSome = true → ∃ line, line.head? = some id ∧
        Inheritance.SoundLine packages (Inheritance.Extends packages) line) :
    Acceptable packages :=
  ⟨hnames, h.typeNames, h.attributes, h.references, hlineages⟩

/-- An error that tells something of valid packages is about parents. -/
theorem Valid.aboutParents (h : Valid packages) {e : SemanticError}
    (he : e.Tells packages (.listing packages)) : e.AboutParents := by
  cases e with
  | unknownType name place =>
      obtain ⟨package, hpackage, d, hd, reference, hreference, rfl, hget⟩ := he
      have hdeclared := h.references package hpackage d hd reference hreference
      have hfound := NameTable.get?_listing_isSome_iff.mpr
        (Reference.exists_standsFor_iff.mp hdeclared)
      rw [hget] at hfound
      cases hfound
  | inapplicableAttribute reason place =>
      obtain ⟨package, hpackage, hnot⟩ := he
      exact (hnot (h.attributes package hpackage)).elim
  | _ => exact he

end Package

namespace LinkedPackages

open Package

/-- Linking valid packages of distinct names fails only for a line of parents. -/
theorem failsOnly_ofPackages_of_valid {packages : List Package}
    (hnames : (packages.map Package.name).Nodup) (hvalid : Valid packages) :
    FailsOnly (ofPackages packages) SemanticError.AboutParents := by
  have hbuild := (NameTable.succeedsIff_build packages (.listing packages)).mpr
    ⟨⟨hnames, hvalid.typeNames⟩, rfl⟩
  rw [ofPackages, hbuild]
  exact (((Link.failsOnly_collect _ packages).imp fun e he => hvalid.aboutParents he).bind
    fun _ _ => .ok _).bind fun _ _ => .ok _

/-- Linking packages of distinct names does not fail for the name of a package. -/
theorem failsOnly_ofPackages_of_nodup {packages : List Package}
    (hnames : (packages.map Package.name).Nodup) :
    FailsOnly (ofPackages packages) fun e => ¬ e.AboutPackageNames :=
  (NameTable.failsOnly_build hnames).bind fun table _ =>
    (((Link.failsOnly_collect table packages).imp fun _ he => he.not_aboutPackageNames).bind
      fun _ _ => .ok _).bind fun _ _ => .ok _

/-- Packages of distinct names that pass validation are linked or fail for a line of parents, and
without parents validation and linking pass the same packages. -/
theorem validate_agrees {packages : List Package} (hnames : (packages.map Package.name).Nodup) :
    ((∃ warnings, validate packages = .ok warnings) →
      (∃ linked, ofPackages packages = .ok linked) ∨
        ∃ e, ofPackages packages = .error e ∧ e.AboutParents) ∧
    ((∀ package ∈ packages, ∀ s, .struct s ∈ package.definitions → s.parent = none) →
      ((∃ warnings, validate packages = .ok warnings) ↔
        ∃ linked, ofPackages packages = .ok linked)) := by
  rw [(succeedsIff_validate packages).exists_iff]
  constructor
  · intro hvalid
    cases hrun : ofPackages packages with
    | ok linked => exact .inl ⟨linked, rfl⟩
    | error e => exact .inr ⟨e, rfl, failsOnly_ofPackages_of_valid hnames hvalid e hrun⟩
  · intro hparents
    rw [(succeedsIff_ofPackages_acceptable packages).exists_iff]
    refine ⟨fun hvalid => hvalid.acceptable hnames ?_, fun h => h.valid⟩
    intro id s hs hsome
    -- No struct has a parent, so that there is no line to ask for.
    obtain ⟨package, hpackage, hmem, -⟩ := DefinitionId.exists_package_of_struct? hs
    rw [hparents package hpackage s hmem] at hsome
    cases hsome

/-- A class and one that extends it and declares a field of the same name. -/
def hiddenField : List Package :=
  let place : Location := ⟨0, 1, 1, ""⟩
  let x : Field := ⟨.primitive .float, "x", [], place⟩
  [⟨"a", [], [.struct ⟨"A", true, none, none, [x], [], place⟩], [], place⟩,
    ⟨"b", [], [.struct ⟨"B", true, some "a.A", none, [x], [], place⟩], [], place⟩]

/-- A hidden field passes validation and is what linking fails for. -/
theorem validate_agrees_hidden_field :
    validate hiddenField = .ok [] ∧ ∃ e, ofPackages hiddenField = .error e ∧ e.AboutParents := by
  have hvalidate : validate hiddenField = .ok [] := by cbv
  refine ⟨hvalidate, ?_⟩
  have hfails : ofPackages hiddenField = .error (.hiddenMember "B" "A" "x" ⟨0, 1, 1, ""⟩) := by cbv
  rcases (validate_agrees (by decide)).1 ⟨[], hvalidate⟩ with ⟨linked, hlinked⟩ | herror
  · rw [hfails] at hlinked
    cases hlinked
  · exact herror

end LinkedPackages

namespace Schema

open Package

/-- A compilation that fails does so in linking. -/
theorem failsOnly_compile (fragments : List Package) :
    FailsOnly (compile fragments) fun e => ∃ cause, e = .analysis cause ∧
      LinkedPackages.ofPackages (merge fragments) = .error cause := by
  intro e he
  cases hlink : LinkedPackages.ofPackages (merge fragments) with
  | error cause =>
      rw [compile, hlink] at he
      cases he
      exact ⟨cause, rfl, rfl⟩
  | ok linked =>
      -- What is linked is acceptable, and then the whole compilation succeeds.
      have h := ((LinkedPackages.succeedsIff_ofPackages_acceptable _).of_eq_ok hlink).1
      rw [((succeedsIff_compile fragments) _).mpr ⟨h, rfl⟩] at he
      cases he

/-- Merged packages declare something if one of the fragments does. -/
theorem typeNames_merge_eq_nil_iff (fragments : List Package) :
    typeNames (merge fragments) = [] ↔ ∀ fragment ∈ fragments, fragment.definitions = [] := by
  have hempty (package : Package) :
      (package.definitions.map fun d => package.qualify d.name) = [] ↔
        package.definitions = [] := List.map_eq_nil_iff
  rw [typeNames, List.flatMap_eq_nil_iff]
  simp only [hempty]
  exact forall_mem_merge_iff (fun package fragment => List.append_eq_nil_iff) fragments

/-- What comes of a compilation.  Validation never fails behind linking, merging leaves no two
packages of one name, and there is a warning only if nothing is declared. -/
theorem compile_outcomes (fragments : List Package) :
    (∀ packages linked, LinkedPackages.ofPackages packages = .ok linked →
      ∃ warnings, validate linked.packages = .ok warnings) ∧
    (∀ e, compile fragments ≠ .error (.validation e)) ∧
    (∀ name place, compile fragments ≠ .error (.analysis (.duplicatePackage name place))) ∧
    ∀ schema, compile fragments = .ok schema →
      ((∃ fragment ∈ fragments, fragment.definitions ≠ []) → schema.warnings = []) ∧
      ((∀ fragment ∈ fragments, fragment.definitions = []) →
        schema.warnings = [.nothingDeclared (((merge fragments).getLast?.map name).getD "")]) := by
  refine ⟨fun packages linked hlink => ?_, fun e he => ?_, fun name place he => ?_,
    fun schema hschema => ?_⟩
  · obtain ⟨h, rfl⟩ := (LinkedPackages.succeedsIff_ofPackages_acceptable packages).of_eq_ok hlink
    exact (succeedsIff_validate _).exists_iff.mpr (h.valid_resolved _)
  · obtain ⟨cause, hcause, -⟩ := failsOnly_compile fragments _ he
    cases hcause
  · obtain ⟨cause, hcause, hlink⟩ := failsOnly_compile fragments _ he
    cases hcause
    exact LinkedPackages.failsOnly_ofPackages_of_nodup (nodup_map_name_merge fragments) _ hlink
      trivial
  · obtain ⟨-, rfl⟩ := (succeedsIff_compile fragments).of_eq_ok hschema
    simp only [resolved, Package.warnings, typeNames_merge_eq_nil_iff]
    constructor
    · rintro ⟨fragment, hfragment, hdeclares⟩
      exact if_neg fun hnone => hdeclares (hnone fragment hfragment)
    · intro hnone
      exact if_pos hnone

/-- Two fragments of one package and a package of another name, without any definition. -/
def bare : List Package :=
  let place : Location := ⟨0, 1, 1, ""⟩
  [.empty "a" [] place, .empty "b" [.version 1] place, .empty "a" [] place]

/-- Where nothing is declared, the last of the merged packages is named. -/
theorem compile_outcomes_bare :
    ∃ schema, compile bare = .ok schema ∧ schema.warnings = [.nothingDeclared "b"] := by
  have hcompile : compile bare = .ok (resolved (merge bare)) := by cbv
  exact ⟨_, hcompile, ((compile_outcomes bare).2.2.2 _ hcompile).2 (by decide)⟩

end Schema

end SchemaLang
