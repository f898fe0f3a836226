import Mathlib
import SchemaLang.Proofs.Lineage

/-!
# The walk along parents

`Inheritance.check` calls itself for one definition after another on its way up.  A call is told by
its arguments, and `Call.round` says what it does: it has an answer, or it makes the next call.
Whatever table the parent clauses are looked up in, the definitions a call has behind it start with
the struct that the walk is made for and lie on a line on which none is met twice.  So there are
never more calls inside one another than there are definitions.
-/

namespace SchemaLang

namespace Inheritance

/-- A call of the check, by its arguments. -/
structure Call where
  child : Struct
  parentId : DefinitionId
  chain : List DefinitionId
  below : List (String × String)

/-- What a call does: it answers, or it leaves the answer to another call. -/
inductive Round where
  | answers (result : Except SemanticError Unit)
  | calls (next : Call)

namespace Call

/-- The call that is made for a struct where it is declared. -/
def start (owner : DefinitionId) (s : Struct) (target : DefinitionId) : Call :=
  ⟨s, target, [owner], members s⟩

section

variable (packages : List Package) (table : NameTable)

/-- What the check says to a call. -/
def answer (call : Call) : Except SemanticError Unit :=
  check packages table call.child call.parentId call.chain call.below

/-- What the check does in a call, up to the next one. -/
def round (call : Call) : Round :=
  match call.parentId.struct? packages with
  | none => .answers (.error (.extendsNonStruct call.child.name call.child.location))
  | some parent =>
      if call.child.isClass && !parent.isClass then
        .answers (.error (.classExtendsStruct call.child.name parent.name call.child.location))
      else if !call.child.isClass && parent.isClass then
        .answers (.error (.structExtendsClass call.child.name parent.name call.child.location))
      else if call.parentId ∈ call.chain then
        .answers (.error (circular packages call.chain call.child parent))
      else
        match firstHidden? parent call.below with
        | some (member, owner) =>
            .answers (.error (.hiddenMember owner parent.name member call.child.location))
        | none =>
            match parent.parent with
            | none => .answers (.ok ())
            | some reference =>
                match table.find reference (packageName packages call.parentId.package)
                    parent.location with
                | .error e => .answers (.error e)
                | .ok next =>
                    .calls ⟨parent, next, call.chain ++ [call.parentId],
                      members parent ++ call.below⟩

/-- The answer to a call, if no more calls are made inside one another than allowed. -/
def answerWithin : Nat → Call → Option (Except SemanticError Unit)
  | 0, _ => none
  | depth + 1, call =>
      match call.round packages table with
      | .answers result => some result
      | .calls next => answerWithin depth next

/-- Calls that are made inside one another, the outermost first. -/
def Nested (calls : List Call) : Prop :=
  calls.IsChain fun call next => call.round packages table = .calls next

end

variable {packages : List Package} {table : NameTable} {call next : Call}

/-- The answer of the check is that of its round, or of the call which the round makes. -/
theorem answer_eq (call : Call) :
    call.answer packages table =
      match call.round packages table with
      | .answers result => result
      | .calls next => next.answer packages table := by
  rw [answer, check, round]
  split
  next hstruct => rw [hstruct]
  next parent hstruct =>
    simp only [hstruct]
    split
    · rfl
    split
    · rfl
    split
    · rfl
    cases firstHidden? parent call.below with
    | some hidden => rfl
    | none =>
        cases parent.parent with
        | none => rfl
        | some reference =>
            cases hfind : table.find reference (packageName packages call.parentId.package)
                parent.location with
            | error e => simp only [hfind]
            | ok target =>
                simp only [hfind]
                rfl

/-! ### What a call meets -/

/-- What a call does, with what it has met that makes it do so. -/
inductive Does (packages : List Package) (table : NameTable) (call : Call) : Round → Prop where
  /-- The parent clause leads to no struct. -/
  | nonStruct (hstruct : call.parentId.struct? packages = none) : Does packages table call
      (.answers (.error (.extendsNonStruct call.child.name call.child.location)))
  | classExtendsStruct {parent} (hstruct : call.parentId.struct? packages = some parent)
      (hkind : call.child.isClass = true ∧ parent.isClass = false) : Does packages table call
      (.answers (.error (.classExtendsStruct call.child.name parent.name call.child.location)))
  | structExtendsClass {parent} (hstruct : call.parentId.struct? packages = some parent)
      (hkind : call.child.isClass = false ∧ parent.isClass = true) : Does packages table call
      (.answers (.error (.structExtendsClass call.child.name parent.name call.child.location)))
  /-- The parent was met before. -/
  | circular {parent e} (hstruct : call.parentId.struct? packages = some parent)
      (hkind : parent.isClass = call.child.isClass) (hmet : call.parentId ∈ call.chain)
      (he : e = circular packages call.chain call.child parent) : Does packages table call
      (.answers (.error e))
  /-- A field of the parent is declared below. -/
  | hidden {parent member owner} (hstruct : call.parentId.struct? packages = some parent)
      (hkind : parent.isClass = call.child.isClass) (hnew : call.parentId ∉ call.chain)
      (hhidden : firstHidden? parent call.below = some (member, owner)) : Does packages table call
      (.answers (.error (.hiddenMember owner parent.name member call.child.location)))
  /-- The parent has no parent. -/
  | top {parent} (hstruct : call.parentId.struct? packages = some parent)
      (hkind : parent.isClass = call.child.isClass) (hnew : call.parentId ∉ call.chain)
      (hhidden : firstHidden? parent call.below = none) (hparent : parent.parent = none) :
      Does packages table call (.answers (.ok ()))
  /-- The parent clause of the parent is not found. -/
  | unknown {parent reference} (hstruct : call.parentId.struct? packages = some parent)
      (hparent : parent.parent = some reference)
      (hget : table.get? (reference.qualifiedIn (packageName packages call.parentId.package)) =
        none) : Does packages table call
      (.answers (.error (.unknownType
        (reference.qualifiedIn (packageName packages call.parentId.package)) parent.location)))
  /-- Nothing is wrong with the parent, and the next call is about its own parent. -/
  | up {parent reference target} (hstruct : call.parentId.struct? packages = some parent)
      (hkind : parent.isClass = call.child.isClass) (hnew : call.parentId ∉ call.chain)
      (hhidden : firstHidden? parent call.below = none) (hparent : parent.parent = some reference)
      (hget : table.get? (reference.qualifiedIn (packageName packages call.parentId.package)) =
        some target) : Does packages table call
      (.calls ⟨parent, target, call.chain ++ [call.parentId], members parent ++ call.below⟩)

theorem does_round (call : Call) : call.Does packages table (call.round packages table) := by
  rw [round]
  split
  next hstruct => exact .nonStruct hstruct
  next parent hstruct =>
    split
    next hkind => exact .classExtendsStruct hstruct (by simpa using hkind)
    next hup =>
      split
      next hkind => exact .structExtendsClass hstruct (by simpa using hkind)
      next hdown =>
        have hkind : parent.isClass = call.child.isClass := by
          cases hchild : call.child.isClass <;> cases hparent : parent.isClass <;> simp_all
        split
        next hmet => exact .circular hstruct hkind hmet rfl
        next hnew =>
          split
          next hhidden => exact .hidden hstruct hkind hnew hhidden
          next hhidden =>
            split
            next hparent => exact .top hstruct hkind hnew hhidden hparent
            next reference hparent =>
              rw [NameTable.find]
              cases hget : table.get?
                  (reference.qualifiedIn (packageName packages call.parentId.package)) with
              | none => exact .unknown hstruct hparent hget
              | some target => exact .up hstruct hkind hnew hhidden hparent hget

/-! ### The line behind a call -/

/-- What is known of every call in the walk from `owner`: the definitions behind it lie on a line
that starts there, and their fields are those below. -/
structure Climbs (packages : List Package) (table : NameTable) (owner : DefinitionId)
    (call : Call) : Prop where
  starts : call.chain.head? = some owner
  /-- The last definition is the child, whose parent clause the call is about. -/
  reaches : ∃ id, call.chain.getLast? = some id ∧ id.struct? packages = some call.child ∧
    ExtendsThrough packages table id call.parentId
  linked : call.chain.IsChain (ExtendsThrough packages table)
  alike : ∀ id ∈ call.chain, (id.struct? packages).map Struct.isClass = some call.child.isClass
  distinct : call.chain.Nodup
  unhidden : call.chain.Pairwise fun a b =>
    List.Disjoint (memberNames packages a) (memberNames packages b)
  below : ∀ entry, entry ∈ call.below ↔
    ∃ id ∈ call.chain, ∃ s, id.struct? packages = some s ∧ entry ∈ members s

/-- The walk starts on the line that is the struct alone. -/
theorem climbs_start {owner target : DefinitionId} {s : Struct}
    (hs : owner.struct? packages = some s) (hup : ExtendsThrough packages table owner target) :
    (start owner s target).Climbs packages table owner where
  starts := rfl
  reaches := ⟨owner, rfl, hs, hup⟩
  linked := List.isChain_singleton owner
  alike := List.forall_mem_singleton.mpr (by rw [hs]; rfl)
  distinct := List.nodup_singleton owner
  unhidden := List.pairwise_singleton _ owner
  below entry := by simp [start, hs]

namespace Climbs

variable {owner : DefinitionId}

/-- The definition that a call is about stands behind the last one on the line. -/
theorem linked_concat (h : call.Climbs packages table owner) :
    (call.chain ++ [call.parentId]).IsChain (ExtendsThrough packages table) := by
  obtain ⟨last, hlast, -, hup⟩ := h.reaches
  refine List.isChain_append.mpr ⟨h.linked, List.isChain_singleton _, ?_⟩
  rintro id hid other ⟨⟩
  rw [hlast] at hid
  cases hid
  exact hup

/-- A call leads on to a call on a line that is longer by the parent. -/
theorem step (h : call.Climbs packages table owner)
    (hround : call.round packages table = .calls next) : next.Climbs packages table owner := by
  have hdoes : call.Does packages table _ := does_round call
  rw [hround] at hdoes
  cases hdoes with
  | @up parent reference target hstruct hkind hnew hhidden hparent hget =>
      obtain ⟨d, hd, hdef⟩ := DefinitionId.struct?_eq_some_iff.mp hstruct
      rw [packageName_of_declaration? hd] at hget
      constructor
      case starts => rw [List.head?_append, h.starts]; rfl
      case reaches =>
        exact ⟨call.parentId, List.getLast?_concat, hstruct, d, parent, reference, hd, hdef,
          hparent, Reference.exists_standsFor_iff.mpr hget⟩
      case linked => exact h.linked_concat
      case alike =>
        refine List.forall_mem_append.mpr ⟨fun id hid => ?_, List.forall_mem_singleton.mpr ?_⟩
        · rw [hkind]
          exact h.alike id hid
        · rw [hstruct]
          rfl
      case distinct =>
        rw [← List.concat_eq_append]
        exact h.distinct.concat hnew
      case unhidden =>
        refine List.pairwise_append.mpr ⟨h.unhidden, List.pairwise_singleton _ _, ?_⟩
        rintro id hid other hother
        cases List.mem_singleton.mp hother
        -- What is declared at the lower levels is below.
        intro name hname hmember
        rw [memberNames_of_struct? hstruct] at hmember
        obtain ⟨s, hs, -⟩ := Option.map_eq_some_iff.mp (h.alike id hid)
        rw [memberNames_of_struct? hs, ← map_fst_members] at hname
        obtain ⟨entry, hentry, rfl⟩ := List.mem_map.mp hname
        exact firstHidden?_eq_none_iff.mp hhidden hmember
          (List.mem_map_of_mem ((h.below entry).mpr ⟨id, hid, s, hs, hentry⟩))
      case below =>
        intro entry
        rw [List.mem_append, h.below, or_comm]
        simp only [List.mem_append, List.mem_singleton, or_and_right, exists_or, exists_eq_left,
          hstruct, Option.some.injEq, exists_eq_left']

/-- Every call that is made inside another is one of the same walk. -/
theorem nested (h : call.Climbs packages table owner) {calls : List Call}
    (hnested : Nested packages table (call :: calls)) :
    ∀ inner ∈ call :: calls, inner.Climbs packages table owner := by
  induction calls generalizing call with
  | nil => exact List.forall_mem_singleton.mpr h
  | cons next calls ih =>
      obtain ⟨hround, hrest⟩ := List.isChain_cons_cons.mp hnested
      exact List.forall_mem_cons.mpr ⟨h, ih (h.step hround) hrest⟩

/-- Every definition behind a call holds a struct. -/
theorem isSome_struct? (h : call.Climbs packages table owner) {id : DefinitionId}
    (hid : id ∈ call.chain) : (id.struct? packages).isSome = true := by
  obtain ⟨s, hs, -⟩ := Option.map_eq_some_iff.mp (h.alike id hid)
  exact Option.isSome_of_eq_some hs

/-- There are at most as many definitions behind a call as there are at all. -/
theorem length_chain_le (h : call.Climbs packages table owner) :
    call.chain.length ≤ (packages.flatMap Package.definitions).length := by
  rw [← DefinitionId.length_all]
  exact DefinitionId.length_le_of_nodup h.distinct fun id => h.isSome_struct?

end Climbs

/-- The next call has one definition more behind it. -/
theorem length_chain_of_calls (h : call.round packages table = .calls next) :
    next.chain.length = call.chain.length + 1 := by
  have hdoes : call.Does packages table _ := does_round call
  rw [h] at hdoes
  cases hdoes with
  | up => exact List.length_append

/-- Each of the calls inside one another has one definition more behind it. -/
theorem length_chain_of_nested {calls : List Call}
    (hnested : Nested packages table (call :: calls)) :
    ∃ last ∈ call :: calls, last.chain.length = call.chain.length + calls.length := by
  induction calls generalizing call with
  | nil => exact ⟨call, List.mem_singleton_self call, rfl⟩
  | cons next calls ih =>
      obtain ⟨hround, hrest⟩ := List.isChain_cons_cons.mp hnested
      obtain ⟨last, hlast, hlength⟩ := ih hrest
      refine ⟨last, List.mem_cons_of_mem call hlast, ?_⟩
      rw [hlength, length_chain_of_calls hround, List.length_cons]
      omega

/-- As many calls inside one another are enough as there are definitions left. -/
theorem Climbs.answerWithin_eq {owner : DefinitionId} (h : call.Climbs packages table owner)
    {depth : Nat}
    (hdepth : (packages.flatMap Package.definitions).length < call.chain.length + depth) :
    answerWithin packages table depth call = some (call.answer packages table) := by
  induction depth generalizing call with
  | zero => exact absurd h.length_chain_le (Nat.not_le.mpr hdepth)
  | succ depth ih =>
      rw [answerWithin, answer_eq]
      cases hround : call.round packages table with
      | answers result => rfl
      | calls next =>
          refine ih (h.step hround) ?_
          rw [length_chain_of_calls hround]
          omega

end Call

/-! ### Walks end -/

/-- What is known of the walk that is made for a struct. -/
structure WalkEnds (packages : List Package) (table : NameTable) (owner : DefinitionId)
    (s : Struct) (target : DefinitionId) : Prop where
  /-- Every call is answered by its round, or as the call that its round makes. -/
  rounds : ∀ call : Call, call.answer packages table =
    match call.round packages table with
    | .answers result => result
    | .calls next => next.answer packages table
  /-- The definitions behind each call are distinct structs, of which the one that the walk is made
  for is the first. -/
  chains : ∀ calls : List Call, Call.Nested packages table (.start owner s target :: calls) →
    ∀ call ∈ Call.start owner s target :: calls, call.chain.Nodup ∧
      call.chain.head? = some owner ∧ ∀ id ∈ call.chain, (id.struct? packages).isSome = true
  /-- There are no more calls inside one another than definitions. -/
  depth : ∀ calls : List Call, Call.Nested packages table (.start owner s target :: calls) →
    (Call.start owner s target :: calls).length ≤ (packages.flatMap Package.definitions).length
  /-- With so many calls the answer is found. -/
  answered : Call.answerWithin packages table (packages.flatMap Package.definitions).length
    (.start owner s target) =
      some (check packages table s target [owner] (members s))

/-- The parent clause of a declared struct leads to what the table has for it. -/
theorem extendsThrough_of_find {packages : List Package} {table : NameTable} {owner : DefinitionId}
    {package : Package} {s : Struct} {reference : Reference} {target : DefinitionId}
    (hpackage : packages[owner.package]? = some package)
    (hs : package.definitions[owner.element]? = some (.struct s))
    (hparent : s.parent = some reference)
    (htarget : table.find reference package.name s.location = .ok target) :
    owner.struct? packages = some s ∧ ExtendsThrough packages table owner target := by
  have hd : owner.declaration? packages = some ⟨owner, package.name, .struct s⟩ := by
    rw [DefinitionId.declaration?, hpackage, Option.bind_some, hs, Option.map_some]
  exact ⟨DefinitionId.struct?_eq_some_iff.mpr ⟨_, hd, rfl⟩, _, s, reference, hd, rfl, hparent,
    Reference.exists_standsFor_iff.mpr (NameTable.find_eq_ok_iff.mp htarget)⟩

/-- The walk that linking makes for a struct with a parent ends, whatever the table has for the
names that are met. -/
theorem walk_ends {packages : List Package} {table : NameTable} {owner : DefinitionId}
    {package : Package} {s : Struct} {reference : Reference} {target : DefinitionId}
    (hpackage : packages[owner.package]? = some package)
    (hs : package.definitions[owner.element]? = some (.struct s))
    (hparent : s.parent = some reference)
    (htarget : table.find reference package.name s.location = .ok target) :
    WalkEnds packages table owner s target := by
  obtain ⟨howner, hup⟩ := extendsThrough_of_find hpackage hs hparent htarget
  have hstart := Call.climbs_start howner hup
  constructor
  case rounds => exact Call.answer_eq
  case chains =>
    intro calls hnested call hcall
    have h := hstart.nested hnested call hcall
    exact ⟨h.distinct, h.starts, fun id => h.isSome_struct?⟩
  case depth =>
    intro calls hnested
    obtain ⟨last, hlast, hlength⟩ := Call.length_chain_of_nested hnested
    have hbound := (hstart.nested hnested last hlast).length_chain_le
    rw [hlength] at hbound
    rw [List.length_cons, Nat.add_comm]
    exact hbound
  case answered => exact hstart.answerWithin_eq (Nat.lt_add_of_pos_left Nat.one_pos)

/-- A package of three classes, the last two of which extend each other. -/
def ring : Package :=
  let place : Location := ⟨0, 1, 1, ""⟩
  let extending (name parent : String) : Definition :=
    .struct ⟨name, true, some parent, none, [], [], place⟩
  ⟨"p", [], [extending "A" "B", extending "B" "C", extending "C" "B"], [], place⟩

/-- The same package with an enum before the classes. -/
def displacedRing : Package :=
  { ring with definitions := .enumeration ⟨"E", [], [], ⟨0, 1, 1, ""⟩⟩ :: ring.definitions }

/-- In the table of the longer package the parent of the first class is the third one, and the walk
comes back to it. -/
theorem walk_ends_displaced : ∃ s,
    ring.definitions[0]? = some (.struct s) ∧
      WalkEnds [ring] (.listing [displacedRing]) ⟨0, 0⟩ s ⟨0, 2⟩ ∧
      check [ring] (.listing [displacedRing]) s ⟨0, 2⟩ [⟨0, 0⟩] (members s) =
        .error (.circularInheritance ["A", "C", "C"] ⟨0, 1, 1, ""⟩) := by
  have hring : [ring][0]? = some ring := rfl
  refine ⟨_, rfl, walk_ends hring rfl rfl ?_, ?_⟩
  · cbv
  · cbv

end Inheritance

end SchemaLang
