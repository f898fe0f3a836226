import SchemaLang.Proofs.DottedNames
import SchemaLang.Proofs.Legible
import SchemaLang.Proofs.ValidationWalk

/-!
# Validation package by package

Validation of one package alone is stricter than validation of many, for it knows no names of other
packages.  What passes alone also passes in company: packages of distinct names that declare simple
names have no qualified name in common, whatever dots are in the names of the packages.
-/

namespace SchemaLang

namespace Package

/-- Packages that come from sources declare simple names only. -/
theorem FromSources.declaresSimple {package : Package} (h : FromSources package) :
    package.DeclaresSimple := by
  induction h with
  | parsed h => exact declaresSimple_of_parse h
  | merged _ hmem ih => exact declaresSimple_merge ih _ hmem
  | @linked packages linked _ table hlink _ hmem ih =>
      obtain ⟨-, rfl⟩ := (succeedsIff_link packages table).of_eq_ok hlink
      obtain ⟨package, hpackage, rfl⟩ := List.mem_map.mp hmem
      refine List.forall_mem_map.mpr fun d hd => ?_
      rw [Definition.name_resolved]
      exact ih package hpackage d hd

variable {packages others : List Package}

/-- More packages declare more names. -/
theorem typeNames_subset (h : packages ⊆ others) : typeNames packages ⊆ typeNames others := by
  intro qualified hqualified
  obtain ⟨package, hpackage, hname⟩ := List.mem_flatMap.mp hqualified
  exact List.mem_flatMap.mpr ⟨package, h hpackage, hname⟩

/-- A package that is valid alone declares no name twice. -/
theorem Valid.not_redeclares {package : Package} (h : Valid [package])
    (hsimple : package.DeclaresSimple) : ¬ package.Redeclares := by
  have hname : ([package].map name).Nodup := List.nodup_singleton package.name
  exact (nodup_typeNames_iff hname (List.forall_mem_singleton.mpr hsimple)).mp h.typeNames package
    List.mem_cons_self

/-- Packages of distinct names that are valid one by one are valid together. -/
theorem valid_of_forall_valid (hnames : (packages.map name).Nodup)
    (hsimple : ∀ package ∈ packages, package.DeclaresSimple)
    (h : ∀ package ∈ packages, Valid [package]) : Valid packages where
  attributes package hpackage := (h package hpackage).attributes package List.mem_cons_self
  typeNames := (nodup_typeNames_iff hnames hsimple).mpr fun package hpackage =>
    (h package hpackage).not_redeclares (hsimple package hpackage)
  references package hpackage d hd reference hreference := by
    obtain ⟨name, hstands, hname⟩ :=
      (h package hpackage).references package List.mem_cons_self d hd reference hreference
    have hsubset := List.cons_subset.mpr ⟨hpackage, List.nil_subset packages⟩
    exact ⟨name, hstands, typeNames_subset hsubset hname⟩

/-- Packages of distinct names that pass validation one by one pass it together, in any order and
also on one walk over all of them, with a warning only if nothing is declared. -/
theorem validate_of_forall_validate (hsources : ∀ package ∈ packages, FromSources package)
    (hnames : (packages.map name).Nodup)
    (h : ∀ package ∈ packages, ∃ warnings, validate [package] = .ok warnings)
    (hperm : packages.Perm others) :
    Validator.validate others = validate others ∧ validate others = .ok (warnings others) := by
  refine ⟨Validator.validate_eq others, (succeedsIff_validate others _).mpr ⟨?_, rfl⟩⟩
  have hmem {package : Package} (hpackage : package ∈ others) : package ∈ packages :=
    hperm.mem_iff.mpr hpackage
  have hothers : (others.map name).Nodup := (hperm.map name).nodup_iff.mp hnames
  refine valid_of_forall_valid hothers (fun package hpackage => ?_) fun package hpackage => ?_
  · exact (hsources package (hmem hpackage)).declaresSimple
  · exact (succeedsIff_validate [package]).exists_iff.mp (h package (hmem hpackage))

/-- Two packages, one named by a word and the other by that word and one of its types, pass together
in the other order. -/
theorem validate_of_forall_validate_nested : ∃ a b,
    parse "package \"a\" struct b \x7b b[] more \x7d" "" = .ok a ∧
      parse "package \"a.b\" enum C \x7b \x7d struct b \x7b C c \x7d" "" = .ok b ∧
      validate [b, a] = .ok [] := by
  let place (offset column : UInt32) : Location := ⟨offset, 1, column, ""⟩
  let a : Package := ⟨"a", [], [.struct ⟨"b", false, none, none,
    [⟨.array (.named (.unlinked "b")) .unbounded, "more", [], place 27 28⟩], [], place 12 13⟩],
    [], place 0 1⟩
  let b : Package := ⟨"a.b", [], [.enumeration ⟨"C", [], [], place 14 15⟩,
    .struct ⟨"b", false, none, none,
      [⟨.named (.unlinked "C"), "c", [], place 38 39⟩], [], place 25 26⟩], [], place 0 1⟩
  have ha : parse "package \"a\" struct b \x7b b[] more \x7d" "" = .ok a := by
    with_unfolding_all rfl
  have hb : parse "package \"a.b\" enum C \x7b \x7d struct b \x7b C c \x7d" "" = .ok b := by
    with_unfolding_all rfl
  have hsources : ∀ package ∈ [a, b], FromSources package := by
    simpa using And.intro (FromSources.parsed ha) (FromSources.parsed hb)
  have halone : ∀ package ∈ [a, b], ∃ warnings, validate [package] = .ok warnings := by
    simpa using And.intro ⟨[], by cbv⟩ ⟨[], by cbv⟩
  exact ⟨a, b, ha, hb,
    (validate_of_forall_validate hsources (by decide) halone (.swap b a [])).2⟩

end Package

end SchemaLang
