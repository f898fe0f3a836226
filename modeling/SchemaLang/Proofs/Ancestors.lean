import Mathlib
import SchemaLang.Proofs.Acceptance

/-!
# The structs above a struct

In linked packages the parent of a struct is found by the address stored in it.  Nothing in that
address keeps a walk from coming back to where it was; what does is that linking only succeeds for
sound lines of names, and that the stored addresses lead along the same lines.
-/

namespace SchemaLang

namespace LinkedPackages

/-- The struct that is reached by a number of steps to the parent. -/
def ancestorAt? (linked : LinkedPackages) (s : Struct) : Nat → Option Struct
  | 0 => some s
  | n + 1 => (linked.parentOf? s).bind fun parent => linked.ancestorAt? parent n

/-- Gathers fields in rounds: as long as the current struct has a parent, the fields of the parent
are added and the parent is the next one.  No round looks at what was visited.  There is no result
if the rounds do not suffice. -/
def gatherFields (linked : LinkedPackages) : Nat → Struct → List Field → Option (List Field)
  | 0, _, _ => none
  | rounds + 1, current, fields =>
      match linked.parentOf? current with
      | none => some fields
      | some parent => linked.gatherFields rounds parent (fields ++ parent.fields)

/-- The fields declared at an address of linked packages. -/
def fieldsAt (linked : LinkedPackages) (id : DefinitionId) : List Field :=
  ((id.struct? linked.packages).map Struct.fields).getD []

/-- The addresses stored in a struct and in those above it, up to a struct without a parent. -/
inductive Ascends (linked : LinkedPackages) : Struct → List DefinitionId → Prop where
  | root {s} (hparent : linked.parentOf? s = none) : Ascends linked s []
  | up {s id parent rest} (htarget : s.parentId = some id)
      (hstruct : id.struct? linked.packages = some parent) (hrest : Ascends linked parent rest) :
      Ascends linked s (id :: rest)

variable {linked : LinkedPackages} {s : Struct} {above : List DefinitionId}

theorem parentOf?_eq_some {id : DefinitionId} {parent : Struct}
    (htarget : s.parentId = some id)
    (hstruct : id.struct? linked.packages = some parent) : linked.parentOf? s = some parent := by
  rw [parentOf?, htarget, Option.bind_some, hstruct]

/-- A walk upwards meets the structs at the stored addresses, one after another. -/
theorem Ascends.ancestorAt?_succ (h : Ascends linked s above) (n : Nat) :
    linked.ancestorAt? s (n + 1) = above[n]?.bind fun id => id.struct? linked.packages := by
  induction h generalizing n with
  | root hparent => simp [ancestorAt?, hparent]
  | up htarget hstruct _ ih =>
      rw [ancestorAt?, parentOf?_eq_some htarget hstruct, Option.bind_some]
      cases n with
      | zero => rw [ancestorAt?, List.getElem?_cons_zero, Option.bind_some, hstruct]
      | succ n => rw [ih, List.getElem?_cons_succ]

/-- The rounds suffice if there is one more of them than stored addresses. -/
theorem Ascends.gatherFields_eq (h : Ascends linked s above) {rounds : Nat}
    (hrounds : above.length < rounds) (fields : List Field) :
    linked.gatherFields rounds s fields = some (fields ++ above.flatMap linked.fieldsAt) := by
  induction h generalizing rounds fields with
  | root hparent =>
      obtain ⟨rounds, rfl⟩ := Nat.exists_eq_succ_of_ne_zero (Nat.ne_of_gt hrounds)
      simp [gatherFields, hparent]
  | up htarget hstruct _ ih =>
      obtain ⟨rounds, rfl⟩ := Nat.exists_eq_succ_of_ne_zero (Nat.ne_zero_of_lt hrounds)
      rw [List.length_cons] at hrounds
      rw [gatherFields, parentOf?_eq_some htarget hstruct]
      -- One round is used up for one address.
      show linked.gatherFields rounds _ _ = _
      rw [ih (by omega), List.flatMap_cons, fieldsAt, hstruct, List.append_assoc]
      rfl

theorem ancestorsFrom_of_root (hparent : linked.parentOf? s = none)
    (visited : List DefinitionId) : linked.ancestorsFrom visited s = [] := by
  rw [ancestorsFrom]
  split
  · rfl
  next id htarget =>
    rw [parentOf?, htarget, Option.bind_some] at hparent
    split
    · rfl
    · split
      · rfl
      next parent hstruct =>
        rw [hparent] at hstruct
        cases hstruct

theorem ancestorsFrom_of_up {id : DefinitionId} {parent : Struct} {visited : List DefinitionId}
    (htarget : s.parentId = some id)
    (hstruct : id.struct? linked.packages = some parent) (hvisited : id ∉ visited) :
    linked.ancestorsFrom visited s = parent :: linked.ancestorsFrom (id :: visited) parent := by
  rw [ancestorsFrom]
  split
  next hnone => rw [htarget] at hnone; cases hnone
  next other hother =>
    rw [htarget, Option.some.injEq] at hother
    subst hother
    rw [dif_neg hvisited]
    split
    next hnone => rw [hstruct] at hnone; cases hnone
    next found hfound =>
      rw [hstruct, Option.some.injEq] at hfound
      rw [hfound]

/-- Where no address is met twice, remembering the visited ones changes nothing. -/
theorem Ascends.ancestorsFrom_eq (h : Ascends linked s above) (hdistinct : above.Nodup)
    {visited : List DefinitionId} (hvisited : ∀ id ∈ above, id ∉ visited) :
    linked.ancestorsFrom visited s = above.filterMap fun id => id.struct? linked.packages := by
  induction h generalizing visited with
  | root hparent => rw [ancestorsFrom_of_root hparent]; rfl
  | @up s id parent rest htarget hstruct _ ih =>
      -- What is visited stays apart from what is ahead.
      rw [List.nodup_cons] at hdistinct
      have hnew := hvisited id List.mem_cons_self
      have hrest : ∀ other ∈ rest, other ∉ id :: visited := by
        intro other hother hmem
        rcases List.mem_cons.mp hmem with rfl | hmem
        · exact hdistinct.1 hother
        · exact hvisited other (List.mem_cons_of_mem id hother) hmem
      rw [ancestorsFrom_of_up htarget hstruct hnew, ih hdistinct.2 hrest, List.filterMap_cons,
        hstruct]

/-- The structs above a struct are those at the stored addresses. -/
theorem Ascends.ancestors_eq (h : Ascends linked s above) (hdistinct : above.Nodup) :
    linked.ancestors s = above.filterMap fun id => id.struct? linked.packages :=
  h.ancestorsFrom_eq hdistinct fun _ _ => List.not_mem_nil

/-- The fields of a struct are followed by those at the stored addresses. -/
theorem Ascends.allFields_eq (h : Ascends linked s above) (hdistinct : above.Nodup) :
    linked.allFields s = s.fields ++ above.flatMap linked.fieldsAt := by
  rw [allFields, h.ancestors_eq hdistinct, List.filterMap_eq_flatMap_toList, List.flatMap_assoc]
  congr 1
  refine List.flatMap_congr fun id _ => ?_
  rw [fieldsAt]
  cases id.struct? linked.packages <;> simp

/-! ## Stored addresses and written names -/

/-- A parent clause leads through a table to what it stands for. -/
theorem extendsThrough_iff {packages : List Package} {table : NameTable}
    {child parent : DefinitionId} {d : Declaration} (hd : child.declaration? packages = some d)
    (hdef : d.definition = .struct s) :
    Inheritance.ExtendsThrough packages table child parent ↔
      s.meaning? table d.package = some parent := by
  rw [Struct.meaning?, Option.bind_eq_some_iff]
  constructor
  · intro h
    obtain ⟨d', s', reference, hd', hdef', hparent, hget⟩ := h
    rw [hd, Option.some.injEq] at hd'
    subst hd'
    rw [hdef, Definition.struct.injEq] at hdef'
    exact ⟨reference, hdef' ▸ hparent, Reference.exists_standsFor_iff.mp hget⟩
  · rintro ⟨reference, hparent, hget⟩
    exact ⟨d, s, reference, hd, hdef, hparent, Reference.exists_standsFor_iff.mpr hget⟩

variable {packages : List Package} {table : NameTable}

/-- In tidy packages a tidy struct stands at every address that has a struct. -/
theorem tidy_of_struct? (h : Package.Tidy packages) {id : DefinitionId}
    (hs : id.struct? packages = some s) : s.Tidy := by
  obtain ⟨definition, hfind, hstruct⟩ := Option.bind_eq_some_iff.mp hs
  obtain ⟨package, hpackage, hdefinition⟩ := Option.bind_eq_some_iff.mp hfind
  cases definition with
  | enumeration e => cases hstruct
  | struct found =>
      cases hstruct
      exact h package (List.mem_of_getElem? hpackage) s (List.mem_of_getElem? hdefinition)

/-- A definition that holds a struct still holds one when it is resolved. -/
theorem exists_struct?_resolved {id : DefinitionId} {isClass : Bool}
    (h : (id.struct? packages).map Struct.isClass = some isClass) (table : NameTable) :
    ∃ s, id.struct? (packages.map (Package.resolved table)) = some s ∧ s.isClass = isClass := by
  obtain ⟨original, horiginal, rfl⟩ := Option.map_eq_some_iff.mp h
  obtain ⟨d, hd, hdef⟩ := DefinitionId.struct?_eq_some_iff.mp horiginal
  exact ⟨_, DefinitionId.struct?_resolved_eq_some_iff.mpr ⟨d, original, hd, hdef, rfl⟩, rfl⟩

/-- Along a sound line of names the stored addresses lead to the same definitions. -/
theorem ascends_of_soundLine (htidy : Package.Tidy packages) {id : DefinitionId}
    {rest : List DefinitionId}
    (hline : Inheritance.SoundLine packages (Inheritance.ExtendsThrough packages table)
      (id :: rest))
    (hs : id.struct? (packages.map (Package.resolved table)) = some s) :
    Ascends ⟨packages.map (Package.resolved table), table⟩ s rest := by
  obtain ⟨d, original, hd, hdef, rfl⟩ := DefinitionId.struct?_resolved_eq_some_iff.mp hs
  have howner := DefinitionId.struct?_eq_some_iff.mpr ⟨d, hd, hdef⟩
  induction rest generalizing id d original with
  | nil =>
      have hroot := Inheritance.soundLine_singleton_iff.mp hline
      rw [howner, Option.map_some, Option.some.injEq] at hroot
      refine .root ?_
      rw [parentOf?, (tidy_of_struct? htidy howner).parentId_resolved hroot]
      rfl
  | cons next rest ih =>
      -- The clause means the next of the line, and this is the address that is stored for it.
      obtain ⟨hup, htail, habove⟩ := (Inheritance.soundLine_cons_cons_iff howner).mp hline
      have hmeaning := (extendsThrough_iff hd hdef).mp hup
      obtain ⟨parent, hparent, -⟩ :=
        exists_struct?_resolved (habove next List.mem_cons_self).1 table
      obtain ⟨e, above, he, hedef, rfl⟩ := DefinitionId.struct?_resolved_eq_some_iff.mp hparent
      exact .up (Struct.parentId_resolved hmeaning) hparent
        (ih htail e above he hedef hparent (DefinitionId.struct?_eq_some_iff.mpr ⟨e, he, hedef⟩))

/-- In acceptable packages a sound line through the listing starts with every struct. -/
theorem exists_soundLine (h : Package.Acceptable packages) {id : DefinitionId} {s : Struct}
    (hs : id.struct? packages = some s) :
    ∃ rest, Inheritance.SoundLine packages
      (Inheritance.ExtendsThrough packages (.listing packages)) (id :: rest) := by
  rw [Inheritance.extendsThrough_listing h.typeNames]
  cases hparent : s.parent with
  | none => exact ⟨[], Inheritance.soundLine_singleton_iff.mpr (by simp [hs, hparent])⟩
  | some reference =>
      obtain ⟨line, hhead, hline⟩ := h.lineages id s hs (Option.isSome_of_eq_some hparent)
      obtain ⟨rest, rfl⟩ := List.head?_eq_some_iff.mp hhead
      exact ⟨rest, hline⟩

/-- No line is longer than there are definitions. -/
theorem length_le_of_soundLine {up : DefinitionId → DefinitionId → Prop}
    {line : List DefinitionId} (hline : Inheritance.SoundLine packages up line) :
    line.length ≤ (DefinitionId.all packages).length := by
  obtain ⟨isClass, halike⟩ := hline.alike
  refine DefinitionId.length_le_of_nodup hline.distinct fun id hid => ?_
  obtain ⟨s, hs, -⟩ := Option.map_eq_some_iff.mp (halike id hid)
  exact Option.isSome_of_eq_some hs

/-- Whatever struct a walk starts from, it comes to an end without meeting an address twice. -/
theorem exists_ascends (h : Package.Acceptable packages) (htidy : Package.Tidy packages)
    (s : Struct) :
    ∃ above, Ascends (resolved packages) s above ∧ above.Nodup ∧
      above.length ≤ (DefinitionId.all packages).length := by
  cases hparent : (resolved packages).parentOf? s with
  | none => exact ⟨[], .root hparent, List.nodup_nil, Nat.zero_le _⟩
  | some parent =>
      -- The struct may be from anywhere, but its parent stands in the packages.
      obtain ⟨id, htarget, hstruct⟩ := Option.bind_eq_some_iff.mp hparent
      obtain ⟨d, original, hd, hdef, -⟩ := DefinitionId.struct?_resolved_eq_some_iff.mp hstruct
      obtain ⟨rest, hline⟩ :=
        exists_soundLine h (DefinitionId.struct?_eq_some_iff.mpr ⟨d, hd, hdef⟩)
      have hrest := ascends_of_soundLine htidy hline hstruct
      exact ⟨id :: rest, .up htarget hstruct hrest, hline.distinct, length_le_of_soundLine hline⟩

/-- What linking guarantees of the parents in linked packages. -/
structure ParentsWellFounded (packages : List Package) (linked : LinkedPackages) : Prop where
  /-- From any struct, in the packages or not, walking to the parent ends within one step more than
  there are definitions. -/
  walkEnds : ∀ s : Struct, ∃ n ≤ (DefinitionId.all linked.packages).length + 1,
    linked.ancestorAt? s n = none
  /-- As many rounds gather all fields. -/
  roundsSuffice : ∀ s : Struct,
    linked.gatherFields ((DefinitionId.all linked.packages).length + 1) s s.fields =
      some (linked.allFields s)
  /-- From a struct of the packages the walk goes along the sound line of parent clauses that leads
  through the table, and all fields are those along this line. -/
  lines : ∀ (id : DefinitionId) (s : Struct), id.struct? linked.packages = some s →
    ∃ above, Inheritance.SoundLine packages (Inheritance.ExtendsThrough packages linked.table)
        (id :: above) ∧
      (∀ n, linked.ancestorAt? s n = (id :: above)[n]?.bind fun a => a.struct? linked.packages) ∧
      (∀ a ∈ above, (a.struct? linked.packages).map Struct.isClass = some s.isClass) ∧
      linked.allFields s = s.fields ++ above.flatMap linked.fieldsAt

/-- Parents in packages that were tidy when they were linked are well founded. -/
theorem parents_well_founded {packages : List Package} {linked : LinkedPackages}
    (htidy : Package.Tidy packages) (h : ofPackages packages = .ok linked) :
    ParentsWellFounded packages linked := by
  obtain ⟨hacceptable, rfl⟩ := (succeedsIff_ofPackages_acceptable packages).of_eq_ok h
  constructor
  case walkEnds =>
    intro s
    rw [DefinitionId.all_resolved]
    obtain ⟨above, hascends, -, hlength⟩ := exists_ascends hacceptable htidy s
    refine ⟨above.length + 1, by omega, ?_⟩
    rw [hascends.ancestorAt?_succ, List.getElem?_eq_none (Nat.le_refl _), Option.bind_none]
  case roundsSuffice =>
    intro s
    rw [DefinitionId.all_resolved]
    obtain ⟨above, hascends, hdistinct, hlength⟩ := exists_ascends hacceptable htidy s
    rw [hascends.gatherFields_eq (by omega), hascends.allFields_eq hdistinct]
  case lines =>
    intro id s hs
    obtain ⟨d, original, hd, hdef, hresolved⟩ := DefinitionId.struct?_resolved_eq_some_iff.mp hs
    have howner := DefinitionId.struct?_eq_some_iff.mpr ⟨d, hd, hdef⟩
    obtain ⟨above, hline⟩ := exists_soundLine hacceptable howner
    have hascends := ascends_of_soundLine htidy hline hs
    refine ⟨above, hline, fun n => ?_, fun a ha => ?_,
      hascends.allFields_eq (List.nodup_cons.mp hline.distinct).2⟩
    · cases n with
      | zero => exact hs.symm
      | succ n => exact hascends.ancestorAt?_succ n
    · obtain ⟨isClass, halike⟩ := hline.alike
      have hkind := halike id List.mem_cons_self
      rw [howner, Option.map_some, Option.some.injEq] at hkind
      obtain ⟨t, ht, htkind⟩ :=
        exists_struct?_resolved (halike a (List.mem_cons_of_mem id ha)) (.listing packages)
      rw [ht, Option.map_some, htkind, ← hkind, hresolved]
      rfl

/-- Two packages with a class, a class that extends it, and a class of the other package that
extends the second.  One of their fields is an array of a declared type. -/
def threeGenerations : List Package :=
  let place : Location := ⟨0, 1, 1, ""⟩
  [⟨"a", [], [
      .struct ⟨"A", true, none, none,
        [⟨.array (.named (.unlinked "S")) .unbounded, "x", [], place⟩], [], place⟩,
      .struct ⟨"B", true, some "A", none, [⟨.primitive .float, "y", [], place⟩], [], place⟩,
      .struct ⟨"S", false, none, none, [], [], place⟩], [], place⟩,
    ⟨"b", [], [
      .struct ⟨"C", true, some "a.B", none,
        [⟨.named (.unlinked "a.S"), "z", [], place⟩], [.message], place⟩], [.version 2], place⟩]

/-- The example of three generations can be linked. -/
theorem ofPackages_threeGenerations :
    ofPackages threeGenerations = .ok (resolved threeGenerations) := by
  cbv

theorem tidy_threeGenerations : Package.Tidy threeGenerations := by
  simp [Package.Tidy, threeGenerations, Struct.Tidy]

/-- Three generations in two packages, met by their names and found by their addresses. -/
theorem parents_well_founded_three_generations :
    ∃ linked, ofPackages threeGenerations = .ok linked ∧
      ParentsWellFounded threeGenerations linked :=
  ⟨_, ofPackages_threeGenerations,
    parents_well_founded tidy_threeGenerations ofPackages_threeGenerations⟩

end LinkedPackages

end SchemaLang
