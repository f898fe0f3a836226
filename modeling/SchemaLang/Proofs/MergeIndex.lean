import SchemaLang.Proofs.Merge

/-!
# Merging with an index

Merging need not search the packages for the name of each fragment.  An index may tell where a name
stands in an array that only grows at its end, since the place of a package never changes.  The
packages are those that `Package.merge` makes.
-/

namespace SchemaLang

/-- Packages that are being merged, and the place of each of them by its name. -/
structure IndexedPackages where
  packages : Array Package
  places : Std.HashMap String Nat

namespace IndexedPackages

/-- Appends a fragment to the package that stands at the place of its name, or at the end. -/
def add (indexed : IndexedPackages) (fragment : Package) : IndexedPackages :=
  match indexed.places[fragment.name]? with
  | some place =>
      { indexed with packages := indexed.packages.modify place fun p => p.append fragment }
  | none =>
      ⟨indexed.packages.push fragment,
        indexed.places.insert fragment.name indexed.packages.size⟩

/-- The packages that fragments make, added one after another. -/
def merge (fragments : List Package) : List Package :=
  (fragments.foldl add ⟨#[], ∅⟩).packages.toList

/-! ### What the index knows -/

/-- The index has the place of every name, and no others. -/
def Located (indexed : IndexedPackages) : Prop :=
  ∀ name, indexed.places[name]? = (indexed.packages.toList.map Package.name).idxOf? name

/-- A fragment is absorbed at the place of its name. -/
theorem absorb_eq (packages : List Package) (fragment : Package) :
    Package.absorb packages fragment =
      match (packages.map Package.name).idxOf? fragment.name with
      | some place => packages.modify place fun p => p.append fragment
      | none => packages ++ [fragment] := by
  induction packages with
  | nil => rfl
  | cons package packages ih =>
      rw [Package.absorb, List.map_cons, List.idxOf?_cons]
      by_cases hname : package.name = fragment.name
      · rw [if_pos hname, if_pos (beq_iff_eq.mpr hname)]
        rfl
      · rw [if_neg hname, if_neg (mt beq_iff_eq.mp hname), ih]
        cases (packages.map Package.name).idxOf? fragment.name <;> rfl

/-- A new name at the end is found there, and all others where they were. -/
theorem idxOf?_append_singleton {names : List String} {added : String} (hnew : added ∉ names)
    (name : String) :
    (names ++ [added]).idxOf? name =
      if added == name then some names.length else names.idxOf? name := by
  have happend : (names ++ [added]).idxOf? name =
      (names.idxOf? name).or (([added].idxOf? name).map (· + names.length)) :=
    List.findIdx?_append
  rw [happend, List.idxOf?_cons]
  by_cases hname : added = name
  · subst hname
    rw [List.idxOf?_eq_none_iff.mpr hnew]
    simp
  · have hbeq : (added == name) = false := beq_false_of_ne hname
    simp [hbeq]

variable {indexed : IndexedPackages}

/-- One more fragment is absorbed, and the index is right again. -/
theorem Located.add (h : indexed.Located) (fragment : Package) :
    (indexed.add fragment).packages.toList =
        Package.absorb indexed.packages.toList fragment ∧
      (indexed.add fragment).Located := by
  have hplace := h fragment.name
  have hnames := Package.map_name_absorb indexed.packages.toList fragment
  have habsorb := absorb_eq indexed.packages.toList fragment
  rw [IndexedPackages.add]
  cases hfound : indexed.places[fragment.name]? with
  | some place =>
      rw [hfound] at hplace
      rw [← hplace] at habsorb
      have hmem : fragment.name ∈ indexed.packages.toList.map Package.name := by
        by_contra hnew
        rw [List.idxOf?_eq_none_iff.mpr hnew] at hplace
        cases hplace
      have hpackages : (indexed.packages.modify place fun p => p.append fragment).toList =
          Package.absorb indexed.packages.toList fragment :=
        Array.toList_modify.trans habsorb.symm
      refine ⟨hpackages, fun name => ?_⟩
      -- The package keeps its name, so that all places stay as they are.
      rw [hpackages, hnames, if_pos hmem]
      exact h name
  | none =>
      rw [hfound] at hplace
      rw [← hplace] at habsorb
      have hnew := List.idxOf?_eq_none_iff.mp hplace.symm
      have hpackages : (indexed.packages.push fragment).toList =
          Package.absorb indexed.packages.toList fragment :=
        Array.toList_push.trans habsorb.symm
      refine ⟨hpackages, fun name => ?_⟩
      rw [hpackages, hnames, if_neg hnew, idxOf?_append_singleton hnew, ← h name,
        Std.HashMap.getElem?_insert, List.length_map, Array.length_toList]

/-- With an index the same packages are merged. -/
theorem merge_eq (fragments : List Package) : merge fragments = Package.merge fragments := by
  suffices hfrom : ∀ indexed : IndexedPackages, indexed.Located →
      (fragments.foldl IndexedPackages.add indexed).packages.toList =
        fragments.foldl Package.absorb indexed.packages.toList from
    hfrom ⟨#[], ∅⟩ fun _ => Std.HashMap.getElem?_empty
  induction fragments with
  | nil => exact fun _ _ => rfl
  | cons fragment fragments ih =>
      intro indexed h
      obtain ⟨hpackages, hlocated⟩ := h.add fragment
      rw [List.foldl_cons, List.foldl_cons, ih _ hlocated, hpackages]

end IndexedPackages

end SchemaLang
