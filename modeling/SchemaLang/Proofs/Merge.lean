import SchemaLang.Merge
import SchemaLang.Proofs.Acceptance

/-!
# What merging keeps

Merging leaves one package of each name.  It moves fragments next to each other and joins them, and
what can be said of a package piece by piece is said of the merged packages as it was of the
fragments.
-/

namespace SchemaLang.Package

/-- Absorbing a fragment adds its name if it is new. -/
theorem map_name_absorb (packages : List Package) (fragment : Package) :
    (absorb packages fragment).map name =
      if fragment.name ∈ packages.map name then packages.map name
      else packages.map name ++ [fragment.name] := by
  induction packages with
  | nil => rfl
  | cons package packages ih =>
      rw [absorb]
      by_cases hname : package.name = fragment.name
      · -- The fragment is appended, which leaves the name of the package.
        rw [if_pos hname, if_pos (by simp [hname])]
        rfl
      · rw [if_neg hname, List.map_cons, ih, List.map_cons]
        by_cases hmem : fragment.name ∈ packages.map name
        · rw [if_pos hmem, if_pos (List.mem_cons_of_mem _ hmem)]
        · rw [if_neg hmem, if_neg (List.not_mem_cons_of_ne_of_not_mem (Ne.symm hname) hmem)]
          rfl

/-- What holds of every package after each fragment that is absorbed holds after merging. -/
theorem merge_induction {motive : List Package → List Package → Prop} (nil : motive [] [])
    (step : ∀ fragments fragment packages, motive fragments packages →
      motive (fragments ++ [fragment]) (absorb packages fragment))
    (fragments : List Package) : motive fragments (merge fragments) := by
  induction fragments using List.reverseRecOn with
  | nil => exact nil
  | append_singleton fragments fragment ih =>
      rw [merge, List.foldl_append]
      exact step fragments fragment _ ih

/-- Merged packages have distinct names. -/
theorem nodup_map_name_merge (fragments : List Package) :
    ((merge fragments).map name).Nodup := by
  induction fragments using merge_induction with
  | nil => exact List.nodup_nil
  | step fragments fragment packages ih =>
      rw [map_name_absorb]
      by_cases hmem : fragment.name ∈ packages.map name
      · rwa [if_pos hmem]
      · rw [if_neg hmem]
        exact NameTable.nodup_append_singleton ih hmem

/-- What holds of two fragments joined if it holds of both holds of merged packages if it holds of
all fragments. -/
theorem forall_mem_merge_iff {P : Package → Prop}
    (happend : ∀ package fragment, P (append package fragment) ↔ P package ∧ P fragment)
    (fragments : List Package) :
    (∀ package ∈ merge fragments, P package) ↔ ∀ fragment ∈ fragments, P fragment := by
  have habsorb (packages : List Package) (fragment : Package) :
      (∀ package ∈ absorb packages fragment, P package) ↔
        (∀ package ∈ packages, P package) ∧ P fragment := by
    induction packages with
    | nil => simp [absorb]
    | cons package packages ih =>
        rw [absorb]
        by_cases hname : package.name = fragment.name
        · rw [if_pos hname, List.forall_mem_cons, List.forall_mem_cons, happend]
          tauto
        · rw [if_neg hname, List.forall_mem_cons, List.forall_mem_cons, ih, and_assoc]
  induction fragments using merge_induction with
  | nil => rfl
  | step fragments fragment packages ih =>
      rw [habsorb, List.forall_mem_append, List.forall_mem_singleton]
      exact and_congr_left' ih

/-- What is listed of two fragments joined as of one after the other is listed of merged packages as
of all fragments, though in another order. -/
theorem flatMap_merge_perm {α : Type} {pieces : Package → List α}
    (happend : ∀ package fragment, package.name = fragment.name →
      pieces (append package fragment) = pieces package ++ pieces fragment)
    (fragments : List Package) :
    ((merge fragments).flatMap pieces).Perm (fragments.flatMap pieces) := by
  have habsorb (packages : List Package) (fragment : Package) :
      ((absorb packages fragment).flatMap pieces).Perm
        (packages.flatMap pieces ++ pieces fragment) := by
    induction packages with
    | nil => simp [absorb]
    | cons package packages ih =>
        rw [absorb]
        by_cases hname : package.name = fragment.name
        · rw [if_pos hname, List.flatMap_cons, List.flatMap_cons, happend package fragment hname,
            List.append_assoc, List.append_assoc]
          -- The pieces of the fragment pass those of the packages that follow.
          exact List.perm_append_comm.append_left _
        · rw [if_neg hname, List.flatMap_cons, List.flatMap_cons, List.append_assoc]
          exact ih.append_left _
  induction fragments using merge_induction with
  | nil => rfl
  | step fragments fragment packages ih =>
      rw [List.flatMap_append, List.flatMap_singleton]
      exact (habsorb packages fragment).trans (ih.append_right _)

theorem attributesApply_append (package fragment : Package) :
    (append package fragment).AttributesApply ↔
      package.AttributesApply ∧ fragment.AttributesApply := by
  simp only [AttributesApply, append, Attribute.AllApply, List.forall_mem_append]
  tauto

end SchemaLang.Package
