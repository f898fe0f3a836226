import SchemaLang.Schema
import SchemaLang.Proofs.MergeIndex

/-!
# How merging groups fragments

Merged packages can be told from two things that are read off the fragments: which names occur, in
the order in which they first occur, and what the fragments of each name hold together.  Both go
along with joining lists of fragments, and so merging some of them beforehand changes nothing.
-/

namespace SchemaLang

namespace Package

/-- What the fragments of one name make together: their contents one after another, at the place of
the first of them. -/
def gathered (fragments : List Package) (name : String) : Option Package :=
  let own := fragments.filter fun fragment => fragment.name = name
  own.head?.map fun first =>
    ⟨name, own.flatMap imports, own.flatMap definitions, own.flatMap attributes, first.location⟩

theorem gathered_singleton (fragment : Package) :
    gathered [fragment] fragment.name = some fragment := by
  simp [gathered]

theorem gathered_eq_none_iff {fragments : List Package} {name : String} :
    gathered fragments name = none ↔ name ∉ fragments.map Package.name := by
  simp [gathered]

theorem gathered_append (fragments others : List Package) (name : String) :
    gathered (fragments ++ others) name =
      Option.merge append (gathered fragments name) (gathered others name) := by
  unfold gathered
  rw [List.filter_append]
  generalize fragments.filter _ = own
  generalize others.filter _ = further
  cases own <;> cases further <;> simp [Option.merge, append]

/-- A fragment of another name adds nothing. -/
theorem gathered_append_of_ne {fragment : Package} {name : String} (h : name ≠ fragment.name)
    (fragments : List Package) :
    gathered (fragments ++ [fragment]) name = gathered fragments name := by
  have hnone : gathered [fragment] name = none := gathered_eq_none_iff.mpr (by simpa using h)
  rw [gathered_append, hnone]
  cases gathered fragments name <;> rfl

/-! ### Merged packages -/

theorem merge_append_singleton (fragments : List Package) (fragment : Package) :
    merge (fragments ++ [fragment]) = absorb (merge fragments) fragment := by
  rw [merge, List.foldl_append]
  rfl

theorem eraseDups_append_singleton (names : List String) (name : String) :
    (names ++ [name]).eraseDups =
      if name ∈ names then names.eraseDups else names.eraseDups ++ [name] := by
  rw [List.eraseDups_append, List.removeAll, List.filter_singleton]
  by_cases hmem : name ∈ names <;> simp [hmem, List.eraseDups_cons]

/-- The names of merged packages stand in the order in which they first occur. -/
theorem map_name_merge (fragments : List Package) :
    (merge fragments).map name = (fragments.map name).eraseDups := by
  induction fragments using List.reverseRecOn with
  | nil => rfl
  | append_singleton fragments fragment ih =>
      rw [merge_append_singleton, map_name_absorb, ih, List.map_append, List.map_singleton,
        eraseDups_append_singleton]
      simp only [List.mem_eraseDups]

/-- An absorbed fragment is appended to the package of its name or becomes a package. -/
theorem of_mem_absorb {packages : List Package} {fragment package : Package}
    (hnames : (packages.map name).Nodup) (h : package ∈ absorb packages fragment) :
    (package ∈ packages ∧ package.name ≠ fragment.name) ∨
      (∃ first ∈ packages, first.name = fragment.name ∧ package = first.append fragment) ∨
      (package = fragment ∧ fragment.name ∉ packages.map name) := by
  induction packages with
  | nil =>
      rw [absorb, List.mem_singleton] at h
      exact .inr (.inr ⟨h, List.not_mem_nil⟩)
  | cons first packages ih =>
      rw [List.map_cons, List.nodup_cons] at hnames
      by_cases hname : first.name = fragment.name
      · rw [absorb, if_pos hname, List.mem_cons] at h
        rcases h with rfl | h
        · exact .inr (.inl ⟨first, List.mem_cons_self, hname, rfl⟩)
        · -- No further package has the name.
          refine .inl ⟨List.mem_cons_of_mem _ h, fun hsame => hnames.1 ?_⟩
          exact hname ▸ hsame ▸ List.mem_map_of_mem h
      · rw [absorb, if_neg hname, List.mem_cons] at h
        rcases h with rfl | h
        · exact .inl ⟨List.mem_cons_self, hname⟩
        rcases ih hnames.2 h with ⟨hmem, hne⟩ | ⟨found, hmem, hsame, rfl⟩ | ⟨rfl, hnew⟩
        · exact .inl ⟨List.mem_cons_of_mem _ hmem, hne⟩
        · exact .inr (.inl ⟨found, List.mem_cons_of_mem _ hmem, hsame, rfl⟩)
        · exact .inr (.inr ⟨rfl, List.not_mem_cons_of_ne_of_not_mem (Ne.symm hname) hnew⟩)

/-- Each merged package is what the fragments of its name gather. -/
theorem gathered_name_of_mem_merge {fragments : List Package} :
    ∀ package ∈ merge fragments, gathered fragments package.name = some package := by
  induction fragments using List.reverseRecOn with
  | nil => exact fun package h => nomatch h
  | append_singleton fragments fragment ih =>
      intro package h
      rw [merge_append_singleton] at h
      obtain ⟨hmem, hne⟩ | ⟨first, hmem, hsame, rfl⟩ | ⟨rfl, hnew⟩ :=
        of_mem_absorb (nodup_map_name_merge fragments) h
      · rw [gathered_append_of_ne hne, ih package hmem]
      · rw [show (first.append fragment).name = fragment.name from hsame, gathered_append,
          gathered_singleton, ← hsame, ih first hmem]
        rfl
      · rw [map_name_merge, List.mem_eraseDups] at hnew
        rw [gathered_append, gathered_eq_none_iff.mpr hnew, gathered_singleton]
        rfl

/-- Packages that are found by their names are listed by their names. -/
theorem map_some_eq {packages : List Package} {find : String → Option Package}
    (h : ∀ package ∈ packages, find package.name = some package) :
    packages.map some = (packages.map name).map find := by
  rw [List.map_map]
  exact List.map_congr_left fun package hmem => (h package hmem).symm

/-- Merging, with an index or without one, gives one package for each name, in the order in which
the names first occur, and each of them is what the fragments of its name gather. -/
theorem map_some_merge (fragments : List Package) :
    IndexedPackages.merge fragments = merge fragments ∧
      (merge fragments).map some = (fragments.map name).eraseDups.map (gathered fragments) := by
  rw [← map_name_merge]
  exact ⟨IndexedPackages.merge_eq fragments, map_some_eq gathered_name_of_mem_merge⟩

/-! ### Merging beforehand -/

theorem absorb_of_not_mem {packages : List Package} {fragment : Package}
    (h : fragment.name ∉ packages.map name) :
    absorb packages fragment = packages ++ [fragment] := by
  induction packages with
  | nil => rfl
  | cons package packages ih =>
      rw [List.map_cons, List.mem_cons, not_or] at h
      rw [absorb, if_neg (Ne.symm h.1), ih h.2]
      rfl

/-- Packages of distinct names are merged already. -/
theorem merge_eq_self {packages : List Package} (h : (packages.map name).Nodup) :
    merge packages = packages := by
  induction packages using List.reverseRecOn with
  | nil => rfl
  | append_singleton packages package ih =>
      rw [List.map_append, List.map_singleton, List.nodup_append_comm, List.singleton_append,
        List.nodup_cons] at h
      rw [merge_append_singleton, ih h.2, absorb_of_not_mem h.1]

/-- Fragments that are merged gather what they gathered before. -/
theorem gathered_merge (fragments : List Package) (name : String) :
    gathered (merge fragments) name = gathered fragments name := by
  have hself := merge_eq_self (nodup_map_name_merge fragments)
  have hnames : name ∈ (merge fragments).map Package.name ↔ name ∈ fragments.map Package.name := by
    rw [map_name_merge, List.mem_eraseDups]
  by_cases hmem : name ∈ (merge fragments).map Package.name
  · obtain ⟨package, hpackage, rfl⟩ := List.mem_map.mp hmem
    rw [gathered_name_of_mem_merge package hpackage]
    exact gathered_name_of_mem_merge package (hself.symm ▸ hpackage)
  · rw [gathered_eq_none_iff.mpr hmem, gathered_eq_none_iff.mpr (mt hnames.mpr hmem)]

/-- Lists of fragments whose names first occur in the same order and gather the same are merged to
the same packages. -/
theorem merge_congr {fragments others : List Package}
    (hnames : (fragments.map name).eraseDups = (others.map name).eraseDups)
    (hgathered : ∀ name, gathered fragments name = gathered others name) :
    merge fragments = merge others := by
  refine (List.map_inj_right fun _ _ => Option.some.inj).mp ?_
  rw [map_some_eq gathered_name_of_mem_merge, map_some_eq gathered_name_of_mem_merge,
    map_name_merge, map_name_merge, hnames]
  exact List.map_congr_left fun name _ => hgathered name

/-- Repeated names may be left out behind others beforehand. -/
theorem eraseDups_append_eraseDups (names others : List String) :
    (names ++ others.eraseDups).eraseDups = (names ++ others).eraseDups := by
  induction others using List.reverseRecOn with
  | nil => rfl
  | append_singleton others name ih =>
      rw [← List.append_assoc, eraseDups_append_singleton (names ++ others),
        eraseDups_append_singleton others]
      by_cases hmem : name ∈ others
      · rw [if_pos hmem, if_pos (List.mem_append_right _ hmem), ih]
      · rw [if_neg hmem, ← List.append_assoc, eraseDups_append_singleton, ih]
        simp only [List.mem_append, List.mem_eraseDups]

/-- Merging fragments that come behind others changes nothing. -/
theorem merge_append_merge (xs ys : List Package) : merge (xs ++ merge ys) = merge (xs ++ ys) := by
  refine merge_congr ?_ fun name => ?_
  · rw [List.map_append, List.map_append, map_name_merge, eraseDups_append_eraseDups]
  · rw [gathered_append, gathered_append, gathered_merge]

/-- Merging a stretch of the fragments beforehand changes nothing. -/
theorem merge_stretch (xs ys zs : List Package) :
    merge (xs ++ merge ys ++ zs) = merge (xs ++ ys ++ zs) := by
  have hfront : merge (xs ++ merge ys) = merge (xs ++ ys) := merge_append_merge xs ys
  unfold merge at hfront ⊢
  rw [List.foldl_append, hfront, ← List.foldl_append]

end Package

/-- Wherever fragments are cut, either part may be merged before the whole; so merging any stretch
of the fragments beforehand never changes what they are compiled to. -/
theorem Package.merge_compositional (xs ys zs : List Package) :
    merge (merge xs ++ ys) = merge (xs ++ ys) ∧ merge (xs ++ merge ys) = merge (xs ++ ys) ∧
      merge (merge xs) = merge xs ∧
      Schema.compile (xs ++ merge ys ++ zs) = Schema.compile (xs ++ ys ++ zs) := by
  refine ⟨merge_stretch [] xs ys, merge_append_merge xs ys, merge_append_merge [] xs, ?_⟩
  unfold Schema.compile
  rw [merge_stretch]

end SchemaLang
