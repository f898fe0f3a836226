import SchemaLang.Package.Reader
import SchemaLang.Proofs.Failure
import SchemaLang.Proofs.ParentWalk
import SchemaLang.Proofs.Redeclaration

/-!
# Errors about parents

An error about parents is the answer of some call of a walk that linking makes.  What is known of
the calls of a walk therefore tells what stands behind such an error.  A circular inheritance is a
cycle of parent clauses of the packages; a hidden member is declared at both ends of a line of them.
-/

namespace SchemaLang

theorem DefinitionId.find?_of_struct? {packages : List Package} {id : DefinitionId} {s : Struct}
    (h : id.struct? packages = some s) : id.find? packages = some (.struct s) := by
  obtain ⟨d, hd, hdef⟩ := struct?_eq_some_iff.mp h
  rw [find?_eq, hd, Option.map_some, hdef]

namespace Inheritance

variable {packages : List Package} {table : NameTable}

/-! ### Where errors come from -/

/-- The error is the answer of a call in the walk that is made for some struct. -/
def MetOnWalk (packages : List Package) (table : NameTable) (e : SemanticError) : Prop :=
  ∃ owner, ∃ call : Call, call.Climbs packages table owner ∧
    call.Does packages table (.answers (.error e))

/-- Of the calls that are made inside one another the last one meets the error. -/
theorem metOnWalk_of_answerWithin {owner : DefinitionId} {call : Call} {depth : Nat}
    {e : SemanticError} (h : call.Climbs packages table owner)
    (hanswer : call.answerWithin packages table depth = some (.error e)) :
    MetOnWalk packages table e := by
  induction depth generalizing call with
  | zero => cases hanswer
  | succ depth ih =>
      rw [Call.answerWithin] at hanswer
      have hdoes : call.Does packages table _ := Call.does_round call
      cases hround : call.round packages table with
      | answers result =>
          rw [hround] at hanswer hdoes
          cases hanswer
          exact ⟨owner, call, h, hdoes⟩
      | calls next =>
          rw [hround] at hanswer
          exact ih (h.step hround) hanswer

/-- The check of a struct fails where a call of its walk does. -/
theorem failsOnly_check_metOnWalk {owner target : DefinitionId} {s : Struct}
    (hs : owner.struct? packages = some s) (hup : ExtendsThrough packages table owner target) :
    FailsOnly (check packages table s target [owner] (members s)) (MetOnWalk packages table) := by
  intro e he
  have hstart := Call.climbs_start hs hup
  have hanswer := hstart.answerWithin_eq (Nat.lt_add_of_pos_left Nat.one_pos)
  refine metOnWalk_of_answerWithin hstart (hanswer.trans ?_)
  exact congrArg some he

end Inheritance

namespace Link

/-- An error about parents that ends the search for links is met on a walk. -/
theorem failsOnly_collect_metOnWalk (packages : List Package) (table : NameTable) :
    FailsOnly (collect packages table) fun e =>
      e.AboutParents → Inheritance.MetOnWalk packages table e := by
  apply failsOnly_collect_of
  case hattributes =>
    intro _ _ attributes target place _
    refine (failsOnly_checkAttributes attributes target place).imp ?_
    rintro e ⟨⟨reason, rfl⟩, -⟩ habout
    exact habout.elim
  case hfind =>
    intro package _ _ _ reference _ place
    refine (table.failsOnly_find reference package.name place).imp ?_
    rintro e ⟨rfl, -⟩ habout
    exact habout.elim
  case hcheck =>
    intro owner package s reference target hpackage hs hparent htarget
    obtain ⟨howner, hup⟩ := Inheritance.extendsThrough_of_find hpackage hs hparent htarget
    exact (Inheritance.failsOnly_check_metOnWalk howner hup).imp fun e he _ => he

end Link

namespace NameTable

/-- No table fails for a line of parents. -/
theorem failsOnly_build_aboutParents (packages : List Package) :
    FailsOnly (build packages) fun e => ¬ e.AboutParents := by
  intro e he
  obtain ⟨_, item, _, _, _, _, rfl⟩ := build_eq_error_iff.mp he
  cases item <;> exact id

end NameTable

namespace LinkedPackages

/-- Packages that cannot be linked for their lines of parents have distinct names, and the error is
met on a walk through the table of these names. -/
theorem failsOnly_ofPackages_metOnWalk (packages : List Package) :
    FailsOnly (ofPackages packages) fun e => e.AboutParents →
      (Package.typeNames packages).Nodup ∧
        Inheritance.MetOnWalk packages (.listing packages) e := by
  refine FailsOnly.bind (fun e he habout => ?_) fun table htable => ?_
  · exact absurd habout (NameTable.failsOnly_build_aboutParents packages e he)
  · obtain ⟨⟨-, htypes⟩, rfl⟩ := (NameTable.succeedsIff_build packages).of_eq_ok htable
    have hcollect := (Link.failsOnly_collect_metOnWalk packages (.listing packages)).imp
      fun e he (habout : e.AboutParents) => And.intro htypes (he habout)
    exact (hcollect.bind fun _ _ => .ok _).bind fun _ _ => .ok _

end LinkedPackages

/-! ### Cycles -/

namespace Inheritance

variable {packages : List Package}

/-- What an error about a circular inheritance tells: from the first definition of the line each
parent clause leads to the next one, and that of the last one to `back`, which is on the line. -/
structure Cycle (packages : List Package) (names : List String) (place : Location)
    (line : List DefinitionId) (back : DefinitionId) : Prop where
  linked : (line ++ [back]).IsChain (Extends packages)
  closes : back ∈ line
  distinct : line.Nodup
  /-- All are structs or all are classes. -/
  alike : ∃ isClass, ∀ id ∈ line ++ [back],
    (id.struct? packages).map Struct.isClass = some isClass
  /-- No field name is declared at two levels. -/
  unhidden : line.Pairwise fun a b =>
    List.Disjoint (memberNames packages a) (memberNames packages b)
  named : (line ++ [back]).map (fun id => (id.struct? packages).map Struct.name) = names.map some
  /-- The error is placed at the first definition. -/
  placed : (line.head?.bind fun id => id.struct? packages).map Struct.location = some place

/-- The definitions of structs have the names of the structs. -/
theorem map_name_filterMap_find? {ids : List DefinitionId}
    (h : ∀ id ∈ ids, (id.struct? packages).isSome = true) :
    ids.map (fun id => (id.struct? packages).map Struct.name) =
      ((ids.filterMap fun id => id.find? packages).map Definition.name).map some := by
  induction ids with
  | nil => rfl
  | cons id ids ih =>
      obtain ⟨hid, hids⟩ := List.forall_mem_cons.mp h
      obtain ⟨s, hs⟩ := Option.isSome_iff_exists.mp hid
      have hfind := DefinitionId.find?_of_struct? hs
      simp only [List.map_cons, List.filterMap_cons, hs, hfind, Option.map_some, Definition.name,
        ih hids]

/-- A walk that comes back has gone round a cycle. -/
theorem cycle_of_met {owner : DefinitionId} {call : Call} {parent : Struct} {names : List String}
    {place : Location} (hnames : (Package.typeNames packages).Nodup)
    (h : call.Climbs packages (.listing packages) owner)
    (hstruct : call.parentId.struct? packages = some parent) (hmet : call.parentId ∈ call.chain)
    (he : .circularInheritance names place = circular packages call.chain call.child parent) :
    Cycle packages names place call.chain call.parentId := by
  rw [circular, SemanticError.circularInheritance.injEq] at he
  obtain ⟨hchain, hplace⟩ := he
  constructor
  case linked => exact extendsThrough_listing hnames ▸ h.linked_concat
  case closes => exact hmet
  case distinct => exact h.distinct
  case alike =>
    refine ⟨call.child.isClass, List.forall_mem_append.mpr ⟨h.alike, ?_⟩⟩
    exact List.forall_mem_singleton.mpr (h.alike _ hmet)
  case unhidden => exact h.unhidden
  case named =>
    rw [hchain, List.map_append, List.map_append,
      map_name_filterMap_find? fun id hid => h.isSome_struct? hid]
    simp [hstruct]
  case placed =>
    obtain ⟨s, hs⟩ := Option.isSome_iff_exists.mp
      (h.isSome_struct? (List.mem_of_mem_head? h.starts))
    rw [h.starts, Option.bind_some, DefinitionId.find?_of_struct? hs] at hplace
    rw [h.starts, Option.bind_some, hs, hplace]
    rfl

/-! ### Hidden members -/

/-- What an error about a hidden member tells: a line of parent clauses leads from a struct that
declares the field to `top`, which declares it too. -/
structure HidesMember (packages : List Package) (name parent member : String) (place : Location)
    (line : List DefinitionId) (top : DefinitionId) : Prop where
  linked : (line ++ [top]).IsChain (Extends packages)
  distinct : (line ++ [top]).Nodup
  /-- The field is declared where the line starts. -/
  hides : ∃ s, (line.head?.bind fun id => id.struct? packages) = some s ∧ s.name = name ∧
    member ∈ s.fields.map Field.name
  hidden : ∃ s, top.struct? packages = some s ∧ s.name = parent ∧
    member ∈ s.fields.map Field.name
  /-- On the line no field name is declared at two levels. -/
  unhidden : line.Pairwise fun a b =>
    List.Disjoint (memberNames packages a) (memberNames packages b)
  /-- The error is placed at the struct whose own parent clause leads to the top. -/
  placed : (line.getLast?.bind fun id => id.struct? packages).map Struct.location = some place

/-- A hidden field is one of the parent and stands below with the struct that declares it. -/
theorem mem_of_firstHidden? {parent : Struct} {below : List (String × String)}
    {member owner : String} (h : firstHidden? parent below = some (member, owner)) :
    member ∈ parent.fields.map Field.name ∧ (member, owner) ∈ below := by
  obtain ⟨field, hfield, hfound⟩ := List.exists_of_findSome?_eq_some h
  obtain ⟨name, hlookup, heq⟩ := Option.map_eq_some_iff.mp hfound
  cases heq
  obtain ⟨before, after, rfl, -⟩ := List.lookup_eq_some_iff.mp hlookup
  exact ⟨List.mem_map_of_mem hfield, List.mem_append_right before List.mem_cons_self⟩

/-- A walk that meets a hidden field has come up a line from the struct that declares it again. -/
theorem exists_hidesMember_of_met {owner : DefinitionId} {call : Call} {parent : Struct}
    {member name : String} (hnames : (Package.typeNames packages).Nodup)
    (h : call.Climbs packages (.listing packages) owner)
    (hstruct : call.parentId.struct? packages = some parent) (hnew : call.parentId ∉ call.chain)
    (hhidden : firstHidden? parent call.below = some (member, name)) :
    ∃ line, HidesMember packages name parent.name member call.child.location line
      call.parentId := by
  obtain ⟨hmember, hbelow⟩ := mem_of_firstHidden? hhidden
  obtain ⟨id, hid, s, hs, hentry⟩ := (h.below _).mp hbelow
  obtain ⟨field, hfield, heq⟩ := List.mem_map.mp hentry
  cases heq
  -- The line is the part of the way from the struct that declares the field.
  obtain ⟨before, after, hchain⟩ := List.append_of_mem hid
  refine ⟨id :: after, ?_⟩
  constructor
  case linked =>
    have hlinked := extendsThrough_listing hnames ▸ h.linked_concat
    rw [hchain, List.append_assoc] at hlinked
    exact hlinked.right_of_append
  case distinct =>
    have hdistinct := h.distinct.concat hnew
    rw [List.concat_eq_append, hchain, List.append_assoc] at hdistinct
    exact hdistinct.of_append_right
  case hides => exact ⟨s, hs, rfl, List.mem_map_of_mem hfield⟩
  case hidden => exact ⟨parent, hstruct, rfl, hmember⟩
  case unhidden =>
    have hunhidden := h.unhidden
    rw [hchain] at hunhidden
    exact (List.pairwise_append.mp hunhidden).2.1
  case placed =>
    obtain ⟨last, hlast, hchild, -⟩ := h.reaches
    rw [hchain, List.getLast?_append_cons] at hlast
    rw [hlast, Option.bind_some, hchild]
    rfl

end Inheritance

namespace LinkedPackages

open Inheritance

variable {packages : List Package}

/-- A circular inheritance is a cycle of the packages.  The error is placed at the struct that the
walk was made for, and it names the definitions from there to the cycle and once round it. -/
theorem exists_cycle_of_error {names : List String} {place : Location}
    (h : ofPackages packages = .error (.circularInheritance names place)) :
    ∃ line back, Cycle packages names place line back := by
  obtain ⟨hnames, owner, call, hclimbs, hdoes⟩ :=
    failsOnly_ofPackages_metOnWalk packages _ h trivial
  cases hdoes with
  | circular hstruct _ hmet he => exact ⟨_, _, cycle_of_met hnames hclimbs hstruct hmet he⟩

/-- A class extends one of the same name in another package, and that one and the class behind it
extend each other. -/
def crossing : List Package :=
  let extending (name parent : String) (place : Location) : Definition :=
    .struct ⟨name, true, some parent, none, [], [], place⟩
  [⟨"p", [], [extending "A" "q.A" ⟨12, 2, 1, ""⟩], [], ⟨0, 1, 1, ""⟩⟩,
    ⟨"q", [], [extending "A" "B" ⟨12, 2, 1, ""⟩, extending "B" "A" ⟨27, 3, 1, ""⟩], [],
      ⟨0, 1, 1, ""⟩⟩]

/-- The name that is met first and last is that of two classes, and only the second is on the cycle
itself. -/
theorem exists_cycle_crossing :
    ofPackages crossing =
        .error (.circularInheritance ["A", "A", "B", "A"] ⟨12, 2, 1, ""⟩) ∧
      ∃ line back, Cycle crossing ["A", "A", "B", "A"] ⟨12, 2, 1, ""⟩ line back := by
  have herror : ofPackages crossing =
      .error (.circularInheritance ["A", "A", "B", "A"] ⟨12, 2, 1, ""⟩) := by cbv
  exact ⟨herror, exists_cycle_of_error herror⟩

/-- A hidden member is declared by the struct that the error names and by one above it.  The error
is placed at the struct on the line between them that extends the upper one. -/
theorem exists_hidesMember_of_error {name parent member : String} {place : Location}
    (h : ofPackages packages = .error (.hiddenMember name parent member place)) :
    ∃ line top, HidesMember packages name parent member place line top := by
  obtain ⟨hnames, owner, call, hclimbs, hdoes⟩ :=
    failsOnly_ofPackages_metOnWalk packages _ h trivial
  cases hdoes with
  | circular _ _ _ he => cases he
  | hidden hstruct _ hnew hhidden =>
      obtain ⟨line, hline⟩ := exists_hidesMember_of_met hnames hclimbs hstruct hnew hhidden
      exact ⟨line, _, hline⟩

/-- A package of three classes, of which the last declares a field of the first. -/
def hiddenTwoAbove : Package :=
  let declaring (name : String) (parent : Option String) (field : String)
      (fieldPlace place : Location) : Definition :=
    .struct ⟨name, true, parent, none, [⟨.primitive .integer32, field, [], fieldPlace⟩], [], place⟩
  ⟨"p", [], [declaring "Base" none "id" ⟨29, 2, 18, ""⟩ ⟨12, 2, 1, ""⟩,
    declaring "Middle" (some "Base") "level" ⟨60, 3, 27, ""⟩ ⟨34, 3, 1, ""⟩,
    declaring "Leaf" (some "Middle") "id" ⟨94, 4, 27, ""⟩ ⟨68, 4, 1, ""⟩], [], ⟨0, 1, 1, ""⟩⟩

theorem ofPackages_hiddenTwoAbove :
    ofPackages [hiddenTwoAbove] = .error (.hiddenMember "Leaf" "Base" "id" ⟨34, 3, 1, ""⟩) := by
  cbv

/-- The last class and the first one are the ends of a line. -/
theorem exists_hidesMember_two_above :
    ofPackages [hiddenTwoAbove] = .error (.hiddenMember "Leaf" "Base" "id" ⟨34, 3, 1, ""⟩) ∧
      ∃ line top, HidesMember [hiddenTwoAbove] "Leaf" "Base" "id" ⟨34, 3, 1, ""⟩ line top :=
  ⟨ofPackages_hiddenTwoAbove, exists_hidesMember_of_error ofPackages_hiddenTwoAbove⟩

/-- The error says that the last class declares the field, and it is placed at another one. -/
theorem not_placed_at_hiding_two_above : ∃ place,
    Package.parse ("package \"p\"\nclass Base \x7b int id \x7d\n" ++
        "class Middle : Base \x7b int level \x7d\nclass Leaf : Middle \x7b int id \x7d") "" =
      .ok hiddenTwoAbove ∧
    ofPackages [hiddenTwoAbove] = .error (.hiddenMember "Leaf" "Base" "id" place) ∧
    ¬ ∃ (id : DefinitionId) (s : Struct), id.struct? [hiddenTwoAbove] = some s ∧
      s.name = "Leaf" ∧ s.location = place := by
  refine ⟨_, by with_unfolding_all rfl, ofPackages_hiddenTwoAbove, ?_⟩
  rintro ⟨id, s, hs, hname, hplace⟩
  obtain ⟨package, hpackage, hmem, -⟩ := DefinitionId.exists_package_of_struct? hs
  cases List.mem_singleton.mp hpackage
  have hplaces : ∀ d ∈ hiddenTwoAbove.definitions, d.name = "Leaf" → d.location.line = 4 := by
    decide
  have hline := hplaces _ hmem hname
  rw [Definition.location, hplace] at hline
  cases hline

end LinkedPackages

end SchemaLang
