import SchemaLang.Proofs.Ancestors
import SchemaLang.Proofs.Parsing

/-!
# Names of fields along a line of parents

Linking turns down a field that is declared at two levels of a line of parents.  It does not compare
the fields of one struct with each other: the names of all fields are distinct exactly if they are
distinct in the struct and in each of those above it.
-/

namespace SchemaLang

/-- Linking renames no field. -/
theorem Inheritance.memberNames_resolved (table : NameTable) (packages : List Package)
    (id : DefinitionId) :
    memberNames (packages.map (Package.resolved table)) id = memberNames packages id := by
  cases hs : id.struct? (packages.map (Package.resolved table)) with
  | some s =>
      obtain ⟨d, original, hd, hdef, rfl⟩ := DefinitionId.struct?_resolved_eq_some_iff.mp hs
      rw [memberNames_of_struct? hs,
        memberNames_of_struct? (DefinitionId.struct?_eq_some_iff.mpr ⟨d, hd, hdef⟩)]
      exact List.map_map
  | none =>
      have hnone : id.struct? packages = none := by
        cases horiginal : id.struct? packages with
        | none => rfl
        | some original =>
            obtain ⟨s, hlinked, -⟩ := LinkedPackages.exists_struct?_resolved
              (Option.map_eq_some_iff.mpr ⟨original, horiginal, rfl⟩) table
            rw [hs] at hlinked
            cases hlinked
      rw [memberNames, memberNames, hs, hnone]

/-- The structs that are read from a source are tidy. -/
theorem Grammar.tidy_item (x : Attributes × Element) {s : Struct}
    (h : item.meaning x = .defined (.struct s)) : s.Tidy := by
  obtain ⟨decoration, e⟩ := x
  cases e with
  | imported tree => cases h
  | enumeration tree => cases h
  | struct tree =>
      cases h
      exact fun _ => rfl

/-- A package stays tidy if what is added to it is no struct or a tidy one. -/
theorem Package.Tidy.add {package : Package} (h : Tidy [package]) {added : Item}
    (hadded : ∀ s, added = .defined (.struct s) → s.Tidy) : Tidy [package.add added] := by
  have hpackage := List.forall_mem_singleton.mp h
  refine List.forall_mem_singleton.mpr fun s hs => ?_
  cases added with
  | imported i => exact hpackage s hs
  | defined d =>
      rcases List.mem_append.mp hs with hold | hnew
      · exact hpackage s hold
      · cases List.mem_singleton.mp hnew
        exact hadded s rfl

/-- Packages that are read from sources are tidy. -/
theorem Package.tidy_of_parse {packages : List Package}
    (h : ∀ package ∈ packages, ∃ text source, parse text source = .ok package) :
    Tidy packages := by
  intro package hpackage
  obtain ⟨text, source, hparse⟩ := h package hpackage
  obtain ⟨tree, -, -, rfl⟩ := parse_eq_ok_iff.mp hparse
  suffices htidy : Tidy [Grammar.package.meaning tree] from List.forall_mem_singleton.mp htidy
  -- The package is empty at first, and one item after another is added.
  refine List.foldlRecOn (motive := fun package : Package => Tidy [package]) _ _ ?_ ?_
  · exact List.forall_mem_singleton.mpr fun s hs => nomatch hs
  · intro package hpackage added hadded
    obtain ⟨x, -, rfl⟩ := List.mem_map.mp hadded
    exact hpackage.add fun s => Grammar.tidy_item x

namespace LinkedPackages

open Inheritance

variable {packages : List Package} {linked : LinkedPackages}

theorem map_name_fieldsAt (linked : LinkedPackages) (id : DefinitionId) :
    (linked.fieldsAt id).map Field.name = memberNames linked.packages id := by
  rw [fieldsAt, memberNames]
  cases id.struct? linked.packages <;> rfl

/-- In packages that were tidy when they were linked, the names of all fields of a struct are
distinct exactly if no struct on its line repeats a name among its own fields. -/
theorem nodup_allFields_iff (htidy : Package.Tidy packages) (h : ofPackages packages = .ok linked)
    {id : DefinitionId} {s : Struct} (hs : id.struct? linked.packages = some s) :
    ((linked.allFields s).map Field.name).Nodup ↔
      ∀ level ∈ s :: linked.ancestors s, (level.fields.map Field.name).Nodup := by
  obtain ⟨hacceptable, rfl⟩ := (succeedsIff_ofPackages_acceptable packages).of_eq_ok h
  obtain ⟨d, original, hd, hdef, -⟩ := DefinitionId.struct?_resolved_eq_some_iff.mp hs
  obtain ⟨above, hline⟩ :=
    exists_soundLine hacceptable (DefinitionId.struct?_eq_some_iff.mpr ⟨d, hd, hdef⟩)
  have hascends := ascends_of_soundLine htidy hline hs
  have hdistinct := (List.nodup_cons.mp hline.distinct).2
  -- The fields are those along the line, and no two levels of it share a name.
  have hfields : (resolved packages).allFields s =
      (id :: above).flatMap (resolved packages).fieldsAt := by
    rw [hascends.allFields_eq hdistinct, List.flatMap_cons, fieldsAt, hs]
    rfl
  have hlevels : s :: (resolved packages).ancestors s =
      (id :: above).filterMap fun a => a.struct? (resolved packages).packages := by
    rw [hascends.ancestors_eq hdistinct, List.filterMap_cons, hs]
  have hunhidden : (id :: above).Pairwise (Function.onFun List.Disjoint
      fun a => ((resolved packages).fieldsAt a).map Field.name) := by
    refine hline.unhidden.imp fun {a b} hab => ?_
    rwa [Function.onFun, map_name_fieldsAt, map_name_fieldsAt, memberNames_resolved,
      memberNames_resolved]
  rw [hfields, hlevels, List.map_flatMap, List.nodup_flatMap, and_iff_left hunhidden]
  simp only [List.mem_filterMap]
  constructor
  · rintro hnodup level ⟨a, ha, hlevel⟩
    have hnames := hnodup a ha
    rwa [map_name_fieldsAt, memberNames_of_struct? hlevel] at hnames
  · intro hnodup a ha
    rw [map_name_fieldsAt]
    cases hlevel : a.struct? (resolved packages).packages with
    | none => rw [memberNames, hlevel]; exact List.nodup_nil
    | some level =>
        rw [memberNames_of_struct? hlevel]
        exact hnodup level ⟨a, ha, hlevel⟩

/-- A package with a class that adds a field to those of another one. -/
def addedField : Package :=
  ⟨"p", [], [.struct ⟨"A", true, none, none,
      [⟨.primitive .integer32, "x", [], ⟨26, 1, 27, ""⟩⟩], [], ⟨12, 1, 13, ""⟩⟩,
    .struct ⟨"B", true, some "A", none,
      [⟨.primitive .integer32, "y", [], ⟨48, 1, 49, ""⟩⟩], [], ⟨30, 1, 31, ""⟩⟩], [], ⟨0, 1, 1, ""⟩⟩

/-- The class is read from a source, and the names on its line are distinct. -/
theorem nodup_allFields_added_field :
    ∃ linked s,
      Package.parse "package \"p\" class A \x7b int x \x7d class B : A \x7b int y \x7d" "" =
        .ok addedField ∧
      ofPackages [addedField] = .ok linked ∧
      (⟨0, 1⟩ : DefinitionId).struct? linked.packages = some s ∧
      ((linked.allFields s).map Field.name).Nodup := by
  have hparse : Package.parse
      "package \"p\" class A \x7b int x \x7d class B : A \x7b int y \x7d" "" =
      .ok addedField := by with_unfolding_all rfl
  have hlink : ofPackages [addedField] = .ok (resolved [addedField]) := by cbv
  have htidy : Package.Tidy [addedField] :=
    Package.tidy_of_parse (List.forall_mem_singleton.mpr ⟨_, _, hparse⟩)
  have hline : ((⟨0, 1⟩ : DefinitionId).struct? (resolved [addedField]).packages).map
      (fun s => (s :: (resolved [addedField]).ancestors s).map fun level =>
        level.fields.map Field.name) = some [["y"], ["x"]] := by cbv
  obtain ⟨s, hs, hlevels⟩ := Option.map_eq_some_iff.mp hline
  have hnames : ∀ names ∈ [["y"], ["x"]], names.Nodup := by decide
  rw [← hlevels] at hnames
  exact ⟨_, s, hparse, hlink, hs,
    (nodup_allFields_iff htidy hlink hs).mpr fun level hlevel =>
      hnames _ (List.mem_map_of_mem hlevel)⟩

/-- A package with a struct that declares two fields of one name. -/
def repeatedField : Package :=
  ⟨"p", [], [.struct ⟨"S", false, none, none,
    [⟨.primitive .integer32, "x", [], ⟨27, 1, 28, ""⟩⟩,
      ⟨.primitive .integer32, "x", [], ⟨33, 1, 34, ""⟩⟩], [], ⟨12, 1, 13, ""⟩⟩], [], ⟨0, 1, 1, ""⟩⟩

/-- A struct with two fields of one name can be read and linked. -/
theorem not_nodup_allFields_repeated_field :
    ∃ linked s, Package.parse "package \"p\" struct S \x7b int x int x \x7d" "" =
        .ok repeatedField ∧
      ofPackages [repeatedField] = .ok linked ∧
      (⟨0, 0⟩ : DefinitionId).struct? linked.packages = some s ∧
      ¬ ((linked.allFields s).map Field.name).Nodup := by
  have hfields : ((⟨0, 0⟩ : DefinitionId).struct? (resolved [repeatedField]).packages).map
      (fun s => ((resolved [repeatedField]).allFields s).map Field.name) = some ["x", "x"] := by
    cbv
  obtain ⟨s, hs, hnames⟩ := Option.map_eq_some_iff.mp hfields
  refine ⟨_, s, by with_unfolding_all rfl, by cbv, hs, ?_⟩
  rw [hnames]
  decide

end LinkedPackages

end SchemaLang
