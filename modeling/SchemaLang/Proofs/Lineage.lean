import Mathlib.Data.List.Chain
import SchemaLang.Proofs.NameTable

/-!
# Lines of parents

A line starts at some definition and goes on to the parent of each one it has met, up to a struct
without a parent.  `SoundLine` says what a line must be like.  The check made from below meets the
definitions of such a line one after another, and it passes exactly if the line is sound.
-/

namespace SchemaLang

namespace Reference

/-- What a name stands for that is written in the given package: a name with a dot for itself, and
one without for the name in this package. -/
inductive StandsFor (reference : Reference) (package : String) : String → Prop
  | everywhere (hdot : '.' ∈ reference.name.toList) :
      StandsFor reference package reference.name
  | inside (hdot : '.' ∉ reference.name.toList) :
      StandsFor reference package (package ++ "." ++ reference.name)

theorem standsFor_iff {reference : Reference} {package name : String} :
    reference.StandsFor package name ↔ name = reference.qualifiedIn package := by
  simp only [qualifiedIn, isQualified, List.contains_iff_mem]
  constructor
  · rintro (hdot | hdot)
    · rw [if_pos hdot]
    · rw [if_neg hdot]
  · rintro rfl
    split
    case isTrue hdot => exact .everywhere hdot
    case isFalse hdot => exact .inside hdot

/-- There is one name that a reference stands for. -/
theorem exists_standsFor_iff {reference : Reference} {package : String} {P : String → Prop} :
    (∃ name, reference.StandsFor package name ∧ P name) ↔ P (reference.qualifiedIn package) := by
  simp only [standsFor_iff, exists_eq_left]

end Reference

namespace Inheritance

/-- The parent clause of a struct stands for another definition, where `means` tells which
definition a qualified name stands for. -/
def LeadsUp (packages : List Package) (means : String → DefinitionId → Prop)
    (child parent : DefinitionId) : Prop :=
  ∃ d s reference, child.declaration? packages = some d ∧ d.definition = .struct s ∧
    s.parent = some reference ∧ ∃ name, reference.StandsFor d.package name ∧ means name parent

/-- The parent clause of a struct names a declared type. -/
def Extends (packages : List Package) : DefinitionId → DefinitionId → Prop :=
  LeadsUp packages fun name id => id.qualifiedName? packages = some name

/-- The parent clause of a struct names an entry of a table. -/
def ExtendsThrough (packages : List Package) (table : NameTable) :
    DefinitionId → DefinitionId → Prop :=
  LeadsUp packages fun name id => table.get? name = some id

/-- The names of the fields declared at an address. -/
def memberNames (packages : List Package) (id : DefinitionId) : List String :=
  ((id.struct? packages).map fun s => s.fields.map Field.name).getD []

/-- What is demanded of a line of definitions that goes up from its first one. -/
structure SoundLine (packages : List Package) (up : DefinitionId → DefinitionId → Prop)
    (line : List DefinitionId) : Prop where
  /-- Behind each definition comes the one it extends. -/
  linked : line.IsChain up
  /-- All are structs or all are classes. -/
  alike : ∃ isClass, ∀ id ∈ line, (id.struct? packages).map Struct.isClass = some isClass
  /-- None is met twice. -/
  distinct : line.Nodup
  /-- The last one has no parent. -/
  rooted : ∀ id ∈ line.getLast?, (id.struct? packages).map Struct.parent = some none
  /-- No field name is declared at two levels. -/
  unhidden : line.Pairwise fun a b =>
    List.Disjoint (memberNames packages a) (memberNames packages b)

variable {packages : List Package} {table : NameTable} {up : DefinitionId → DefinitionId → Prop}

/-- A parent clause leads to what its qualified name stands for. -/
theorem leadsUp_iff {means : String → DefinitionId → Prop} {child parent : DefinitionId}
    {d : Declaration} {s : Struct} {reference : Reference}
    (hd : child.declaration? packages = some d) (hdef : d.definition = .struct s)
    (hparent : s.parent = some reference) :
    LeadsUp packages means child parent ↔ means (reference.qualifiedIn d.package) parent := by
  rw [← Reference.exists_standsFor_iff (P := fun name => means name parent)]
  constructor
  · rintro ⟨d', s', reference', hd', hdef', hparent', hmeans⟩
    rw [hd, Option.some.injEq] at hd'
    subst hd'
    rw [hdef, Definition.struct.injEq] at hdef'
    subst hdef'
    rw [hparent, Option.some.injEq] at hparent'
    rwa [hparent']
  · intro hmeans
    exact ⟨d, s, reference, hd, hdef, hparent, hmeans⟩

/-- Where names are distinct, the table leads up as the names do. -/
theorem extendsThrough_listing (hnames : (Package.typeNames packages).Nodup) :
    ExtendsThrough packages (.listing packages) = Extends packages := by
  have hmeans : (fun name id => (NameTable.listing packages).get? name = some id) =
      fun name (id : DefinitionId) => id.qualifiedName? packages = some name := by
    funext name id
    exact propext (NameTable.get?_listing_eq_some_iff hnames)
  rw [ExtendsThrough, hmeans, Extends]

/-! ## The climb of a check -/

/-- The definitions a passing check meets, where `met` were met before and `names` are the field
names below. -/
inductive Climb (packages : List Package) (up : DefinitionId → DefinitionId → Prop)
    (isClass : Bool) : List DefinitionId → List String → List DefinitionId → Prop where
  /-- The check ends at a struct without a parent. -/
  | top {met names id s} (hstruct : id.struct? packages = some s) (hkind : s.isClass = isClass)
      (hmet : id ∉ met) (hnames : List.Disjoint (s.fields.map Field.name) names)
      (hparent : s.parent = none) : Climb packages up isClass met names [id]
  /-- The check goes on with the parent. -/
  | step {met names id s next rest} (hstruct : id.struct? packages = some s)
      (hkind : s.isClass = isClass) (hmet : id ∉ met)
      (hnames : List.Disjoint (s.fields.map Field.name) names) (hup : up id next)
      (hrest : Climb packages up isClass (met ++ [id]) (s.fields.map Field.name ++ names)
        (next :: rest)) : Climb packages up isClass met names (id :: next :: rest)

theorem packageName_of_declaration? {id : DefinitionId} {d : Declaration}
    (h : id.declaration? packages = some d) : packageName packages id.package = d.package := by
  obtain ⟨package, hp, hd⟩ := Option.bind_eq_some_iff.mp h
  obtain ⟨definition, -, rfl⟩ := Option.map_eq_some_iff.mp hd
  simp [packageName, hp]

/-- Nothing is hidden if no field name of the parent is declared below. -/
theorem firstHidden?_eq_none_iff {parent : Struct} {below : List (String × String)} :
    firstHidden? parent below = none ↔
      List.Disjoint (parent.fields.map Field.name) (below.map Prod.fst) := by
  rw [firstHidden?, List.findSome?_eq_none_iff]
  have hone (field : Field) :
      ((below.lookup field.name).map fun owner => (field.name, owner)) = none ↔
        field.name ∉ below.map Prod.fst := by
    rw [Option.map_eq_none_iff, ← NameTable.lookup_isSome_iff_mem, Option.not_isSome_iff_eq_none]
  constructor
  · intro h name hfield hbelow
    obtain ⟨field, hmem, rfl⟩ := List.mem_map.mp hfield
    exact (hone field).mp (h field hmem) hbelow
  · intro h field hmem
    exact (hone field).mpr (h (List.mem_map_of_mem hmem))

/-- What one round of the check demands and where it goes on. -/
theorem check_eq_ok_iff_round {child : Struct} {id : DefinitionId} {chain : List DefinitionId}
    {below : List (String × String)} :
    check packages table child id chain below = .ok () ↔
      ∃ s, id.struct? packages = some s ∧ s.isClass = child.isClass ∧ id ∉ chain ∧
        List.Disjoint (s.fields.map Field.name) (below.map Prod.fst) ∧
        ∀ reference, s.parent = some reference → ∃ next,
          table.get? (reference.qualifiedIn (packageName packages id.package)) = some next ∧
          check packages table s next (chain ++ [id]) (members s ++ below) = .ok () := by
  rw [check]
  split
  next hstruct => simp [hstruct]
  next s hstruct =>
    simp only [hstruct, Option.some.injEq, exists_eq_left']
    rw [← firstHidden?_eq_none_iff]
    by_cases hkind : s.isClass = child.isClass
    · have hup : (child.isClass && !s.isClass) = false := by simp [hkind]
      have hdown : (!child.isClass && s.isClass) = false := by simp [hkind]
      rw [hup, hdown, if_neg Bool.false_ne_true, if_neg Bool.false_ne_true]
      by_cases hmet : id ∈ chain
      · simp [hmet]
      · rw [dif_neg hmet]
        cases hhidden : firstHidden? s below with
        | some hidden => simp
        | none =>
            cases hparent : s.parent with
            | none => simp [hkind, hmet]
            | some reference =>
                cases hget : table.get?
                    (reference.qualifiedIn (packageName packages id.package)) with
                | none => simp [NameTable.find, hget]
                | some next => simp [NameTable.find, hget, hkind, hmet]
    · -- Of the two tests for a change of kind one fails.
      cases hchild : child.isClass <;> cases hparent : s.isClass <;> rw [hchild, hparent] at hkind
      · exact absurd rfl hkind
      · simp
      · simp
      · exact absurd rfl hkind

theorem map_fst_members (s : Struct) :
    (members s).map Prod.fst = s.fields.map Field.name := by
  rw [members, List.map_map]
  rfl

/-- A check that passes climbs up a line. -/
theorem exists_climb_of_check {child : Struct} {id : DefinitionId} {chain : List DefinitionId}
    {below : List (String × String)} (h : check packages table child id chain below = .ok ()) :
    ∃ rest, Climb packages (ExtendsThrough packages table) child.isClass chain
      (below.map Prod.fst) (id :: rest) := by
  -- Each round meets a definition that was not met before.
  induction hleft : DefinitionId.unvisited packages chain using Nat.strong_induction_on
    generalizing child id chain below with
  | _ left ih =>
      obtain ⟨s, hstruct, hkind, hmet, hnames, hnext⟩ := check_eq_ok_iff_round.mp h
      cases hparent : s.parent with
      | none => exact ⟨[], .top hstruct hkind hmet hnames hparent⟩
      | some reference =>
          obtain ⟨next, hget, hcheck⟩ := hnext reference hparent
          have hless : DefinitionId.unvisited packages (chain ++ [id]) < left := by
            rw [← hleft]
            exact DefinitionId.unvisited_lt (DefinitionId.mem_all_of_struct? hstruct) hmet (by simp)
          obtain ⟨rest, hrest⟩ := ih _ hless hcheck rfl
          obtain ⟨d, hd, hdef⟩ := DefinitionId.struct?_eq_some_iff.mp hstruct
          rw [packageName_of_declaration? hd] at hget
          rw [List.map_append, map_fst_members, hkind] at hrest
          exact ⟨next :: rest, .step hstruct hkind hmet hnames
            ((leadsUp_iff hd hdef hparent).mpr hget) hrest⟩

/-- Where there is a line to climb, the check passes. -/
theorem check_of_climb {isClass : Bool} {chain line : List DefinitionId} {names : List String}
    (h : Climb packages (ExtendsThrough packages table) isClass chain names line) :
    ∀ {child : Struct} {below : List (String × String)} {id : DefinitionId},
      child.isClass = isClass → below.map Prod.fst = names → line.head? = some id →
        check packages table child id chain below = .ok () := by
  induction h with
  | top hstruct hkind hmet hnames hparent =>
      rintro child below id rfl rfl hid
      cases hid
      refine check_eq_ok_iff_round.mpr ⟨_, hstruct, hkind, hmet, hnames, ?_⟩
      intro reference hreference
      rw [hparent] at hreference
      cases hreference
  | step hstruct hkind hmet hnames hup _ ih =>
      -- The next round has this struct for its child, which is of the same kind.
      rintro child below id rfl rfl hid
      cases hid
      refine check_eq_ok_iff_round.mpr ⟨_, hstruct, hkind, hmet, hnames, ?_⟩
      obtain ⟨d, hd, hdef⟩ := DefinitionId.struct?_eq_some_iff.mp hstruct
      intro reference hparent
      rw [packageName_of_declaration? hd]
      exact ⟨_, (leadsUp_iff hd hdef hparent).mp hup,
        ih hkind (by rw [List.map_append, map_fst_members]) rfl⟩

/-! ## Climbs and sound lines -/

theorem memberNames_of_struct? {id : DefinitionId} {s : Struct}
    (h : id.struct? packages = some s) : memberNames packages id = s.fields.map Field.name := by
  simp [memberNames, h]

/-- A sound line grows at its lower end by a struct of the same kind that is not on it and shares
no field name with it. -/
theorem soundLine_cons_cons_iff {id next : DefinitionId} {rest : List DefinitionId} {s : Struct}
    (hstruct : id.struct? packages = some s) :
    SoundLine packages up (id :: next :: rest) ↔
      up id next ∧ SoundLine packages up (next :: rest) ∧ ∀ other ∈ next :: rest,
        (other.struct? packages).map Struct.isClass = some s.isClass ∧ other ≠ id ∧
          List.Disjoint (memberNames packages id) (memberNames packages other) := by
  constructor
  · rintro ⟨hlinked, ⟨isClass, halike⟩, hdistinct, hrooted, hunhidden⟩
    rw [List.isChain_cons_cons] at hlinked
    rw [List.nodup_cons] at hdistinct
    rw [List.getLast?_cons_cons] at hrooted
    rw [List.pairwise_cons] at hunhidden
    have hkind := halike id List.mem_cons_self
    rw [hstruct, Option.map_some, Option.some.injEq] at hkind
    have habove : ∀ other ∈ next :: rest,
        (other.struct? packages).map Struct.isClass = some isClass :=
      fun other hother => halike other (List.mem_cons_of_mem id hother)
    refine ⟨hlinked.1, ⟨hlinked.2, ⟨isClass, habove⟩, hdistinct.2, hrooted, hunhidden.2⟩, ?_⟩
    intro other hother
    refine ⟨hkind ▸ habove other hother, ?_, hunhidden.1 other hother⟩
    rintro rfl
    exact hdistinct.1 hother
  · rintro ⟨hup, hline, habove⟩
    refine ⟨List.isChain_cons_cons.mpr ⟨hup, hline.linked⟩, ⟨s.isClass, ?_⟩,
      List.nodup_cons.mpr ⟨fun hid => (habove id hid).2.1 rfl, hline.distinct⟩, ?_,
      List.pairwise_cons.mpr ⟨fun other hother => (habove other hother).2.2, hline.unhidden⟩⟩
    · intro other hother
      rcases List.mem_cons.mp hother with rfl | hother
      · rw [hstruct, Option.map_some]
      · exact (habove other hother).1
    · rw [List.getLast?_cons_cons]
      exact hline.rooted

theorem soundLine_singleton_iff {id : DefinitionId} :
    SoundLine packages up [id] ↔ (id.struct? packages).map Struct.parent = some none := by
  constructor
  · intro h
    exact h.rooted id rfl
  · intro h
    obtain ⟨s, hstruct, -⟩ := Option.map_eq_some_iff.mp h
    refine ⟨List.isChain_singleton id, ⟨s.isClass, ?_⟩, List.nodup_singleton id, ?_,
      List.pairwise_singleton _ id⟩
    · simp [hstruct]
    · intro other hother
      cases hother
      exact h

/-- A definition of the given kind that was not met and shares no field name with what is below. -/
def Passable (packages : List Package) (isClass : Bool) (met : List DefinitionId)
    (names : List String) (id : DefinitionId) : Prop :=
  (id.struct? packages).map Struct.isClass = some isClass ∧ id ∉ met ∧
    List.Disjoint (memberNames packages id) names

theorem passable_of_struct? {isClass : Bool} {met : List DefinitionId} {names : List String}
    {id : DefinitionId} {s : Struct} (hstruct : id.struct? packages = some s)
    (hkind : s.isClass = isClass) (hmet : id ∉ met)
    (hnames : List.Disjoint (s.fields.map Field.name) names) :
    Passable packages isClass met names id :=
  ⟨by rw [hstruct, Option.map_some, hkind], hmet, by rwa [memberNames_of_struct? hstruct]⟩

/-- Passing one more definition leaves out this one and those that share a name with it. -/
theorem passable_append_iff {isClass : Bool} {met : List DefinitionId} {names : List String}
    {id below : DefinitionId} :
    Passable packages isClass (met ++ [below]) (memberNames packages below ++ names) id ↔
      Passable packages isClass met names id ∧ id ≠ below ∧
        List.Disjoint (memberNames packages below) (memberNames packages id) := by
  rw [Passable, Passable, List.mem_append, not_or, List.mem_singleton,
    List.disjoint_append_right, List.disjoint_comm]
  tauto

/-- A climb visits a sound line of passable definitions. -/
theorem Climb.soundLine {isClass : Bool} {met line : List DefinitionId} {names : List String}
    (h : Climb packages up isClass met names line) :
    SoundLine packages up line ∧ ∀ id ∈ line, Passable packages isClass met names id := by
  induction h with
  | top hstruct hkind hmet hnames hparent =>
      refine ⟨soundLine_singleton_iff.mpr (by simp [hstruct, hparent]), fun other hother => ?_⟩
      cases List.mem_singleton.mp hother
      exact passable_of_struct? hstruct hkind hmet hnames
  | step hstruct hkind hmet hnames hup _ ih =>
      obtain ⟨hline, habove⟩ := ih
      rw [← memberNames_of_struct? hstruct] at habove
      -- Above, this definition counts as met and its names as below.
      have hsplit := fun other hother => passable_append_iff.mp (habove other hother)
      refine ⟨(soundLine_cons_cons_iff hstruct).mpr ⟨hup, hline, fun other hother => ?_⟩,
        List.forall_mem_cons.mpr ⟨passable_of_struct? hstruct hkind hmet hnames,
          fun other hother => (hsplit other hother).1⟩⟩
      exact ⟨hkind ▸ (hsplit other hother).1.1, (hsplit other hother).2⟩

/-- A sound line of passable definitions can be climbed. -/
theorem climb_of_soundLine {isClass : Bool} {met rest : List DefinitionId} {names : List String}
    {id : DefinitionId} (hline : SoundLine packages up (id :: rest))
    (hpassable : ∀ other ∈ id :: rest, Passable packages isClass met names other) :
    Climb packages up isClass met names (id :: rest) := by
  induction rest generalizing id met names with
  | nil =>
      obtain ⟨hkind, hmet, hnames⟩ := hpassable id List.mem_cons_self
      obtain ⟨s, hstruct, hkind⟩ := Option.map_eq_some_iff.mp hkind
      rw [memberNames_of_struct? hstruct] at hnames
      have hroot := soundLine_singleton_iff.mp hline
      rw [hstruct, Option.map_some, Option.some.injEq] at hroot
      exact .top hstruct hkind hmet hnames hroot
  | cons next rest ih =>
      obtain ⟨⟨hkind, hmet, hnames⟩, habove⟩ := List.forall_mem_cons.mp hpassable
      obtain ⟨s, hstruct, hkind⟩ := Option.map_eq_some_iff.mp hkind
      obtain ⟨hup, htail, hfree⟩ := (soundLine_cons_cons_iff hstruct).mp hline
      have hclimb := ih htail fun other hother =>
        passable_append_iff.mpr ⟨habove other hother, (hfree other hother).2⟩
      rw [memberNames_of_struct? hstruct] at hnames hclimb
      exact .step hstruct hkind hmet hnames hup hclimb

/-- The check made for a struct passes exactly if a sound line starts with the struct and the
definition its parent clause leads to. -/
theorem check_eq_ok_iff {owner target : DefinitionId} {s : Struct}
    (howner : owner.struct? packages = some s) (hup : ExtendsThrough packages table owner target) :
    check packages table s target [owner] (members s) = .ok () ↔
      ∃ rest, SoundLine packages (ExtendsThrough packages table) (owner :: target :: rest) := by
  have hclimb (rest : List DefinitionId) :
      Climb packages (ExtendsThrough packages table) s.isClass [owner]
        ((members s).map Prod.fst) (target :: rest) ↔
      SoundLine packages (ExtendsThrough packages table) (owner :: target :: rest) := by
    have hpassable (other : DefinitionId) :
        Passable packages s.isClass [owner] ((members s).map Prod.fst) other ↔
          (other.struct? packages).map Struct.isClass = some s.isClass ∧ other ≠ owner ∧
            List.Disjoint (memberNames packages owner) (memberNames packages other) := by
      rw [Passable, List.mem_singleton, map_fst_members, ← memberNames_of_struct? howner,
        List.disjoint_comm]
    rw [soundLine_cons_cons_iff howner]
    constructor
    · intro h
      obtain ⟨hline, habove⟩ := h.soundLine
      exact ⟨hup, hline, fun other hother => (hpassable other).mp (habove other hother)⟩
    · rintro ⟨-, hline, habove⟩
      exact climb_of_soundLine hline fun other hother => (hpassable other).mpr (habove other hother)
  constructor
  · intro h
    obtain ⟨rest, hrest⟩ := exists_climb_of_check h
    exact ⟨rest, (hclimb rest).mp hrest⟩
  · rintro ⟨rest, hline⟩
    exact check_of_climb ((hclimb rest).mpr hline) rfl rfl rfl

end Inheritance

end SchemaLang
