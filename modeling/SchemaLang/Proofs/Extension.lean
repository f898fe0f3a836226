import SchemaLang.Proofs.Failure
import SchemaLang.Proofs.LinkTargets

/-!
# More packages behind others

Addresses count packages and definitions from the front, so packages that come behind others move
none of them.  What can be linked by itself is therefore linked in the same way in front of whatever
else comes behind it: no name that has a meaning gets another one, and no walk along parent clauses
leads out of the packages it starts in.  A struct that stores a parent without naming one is another
matter, since nothing checks what is stored.
-/

namespace SchemaLang

/-! ### Addresses and names -/

/-- Further packages leave what stands at an address. -/
theorem DefinitionId.declaration?_append {id : DefinitionId} {packages : List Package}
    {d : Declaration} (hd : id.declaration? packages = some d) (others : List Package) :
    id.declaration? (packages ++ others) = some d := by
  obtain ⟨package, hpackage, helement⟩ := Option.bind_eq_some_iff.mp hd
  obtain ⟨hindex, -⟩ := List.getElem?_eq_some_iff.mp hpackage
  rw [declaration?, List.getElem?_append_left hindex, hpackage]
  exact helement

theorem DefinitionId.struct?_append {id : DefinitionId} {packages : List Package} {s : Struct}
    (hs : id.struct? packages = some s) (others : List Package) :
    id.struct? (packages ++ others) = some s := by
  obtain ⟨d, hd, hdef⟩ := struct?_eq_some_iff.mp hs
  exact struct?_eq_some_iff.mpr ⟨d, declaration?_append hd others, hdef⟩

/-- Further packages leave the entries of a table. -/
theorem NameTable.get?_listing_append {packages others : List Package} {name : String}
    {id : DefinitionId} (hnames : (Package.typeNames (packages ++ others)).Nodup)
    (hget : (listing packages).get? name = some id) :
    (listing (packages ++ others)).get? name = some id := by
  have hown : (Package.typeNames packages).Nodup := by
    rw [Package.typeNames, List.flatMap_append] at hnames
    exact hnames.of_append_left
  rw [get?_listing_eq_some_iff hnames]
  rw [get?_listing_eq_some_iff hown] at hget
  rw [DefinitionId.qualifiedName?_eq, Option.map_eq_some_iff] at hget ⊢
  obtain ⟨d, hd, hname⟩ := hget
  exact ⟨d, DefinitionId.declaration?_append hd others, hname⟩

/-! ### References that mean the same -/

section

variable {table other : NameTable} {name : String}

/-- Two tables that agree on the names in a definition resolve it in the same way. -/
theorem Definition.resolved_congr {d : Definition} (h : ∀ reference ∈ d.references,
      table.get? (reference.qualifiedIn name) = other.get? (reference.qualifiedIn name)) :
    d.resolved table name = d.resolved other name := by
  cases d with
  | enumeration e => rfl
  | struct s =>
      have hparent : s.meaning? table name = s.meaning? other name := by
        rw [Struct.meaning?, Struct.meaning?]
        cases hclause : s.parent with
        | none => rfl
        | some reference => exact h reference (mem_references_of_parent hclause)
      have hfields : s.fields.map (Field.resolved table name) =
          s.fields.map (Field.resolved other name) := by
        refine List.map_congr_left fun field hfield => ?_
        rw [Field.resolved, Field.resolved, Field.meaning?, Field.meaning?]
        cases hreference : field.type.reference? with
        | none => rfl
        | some reference =>
            rw [Option.bind_some, Option.bind_some,
              h reference (mem_references_of_field hfield hreference)]
      rw [Definition.resolved, Definition.resolved, Struct.resolved, Struct.resolved,
        Struct.withParent, Struct.withParent, hparent, hfields]

end

/-- In acceptable packages every name means what it means in front of further packages. -/
theorem Package.resolved_append {packages others : List Package} (h : Acceptable packages)
    (hnames : (Package.typeNames (packages ++ others)).Nodup) :
    packages.map (Package.resolved (.listing (packages ++ others))) =
      packages.map (Package.resolved (.listing packages)) := by
  refine List.map_congr_left fun package hpackage => ?_
  rw [resolved, resolved]
  congr 1
  refine List.map_congr_left fun d hd => Definition.resolved_congr fun reference hreference => ?_
  -- A name that is declared has an entry, and the further packages leave it.
  have hdeclared := h.qualifiedIn_mem package hpackage d hd reference hreference
  obtain ⟨id, hget⟩ := Option.isSome_iff_exists.mp (NameTable.get?_listing_isSome_iff.mpr hdeclared)
  rw [hget, NameTable.get?_listing_append hnames hget]

namespace LinkedPackages

/-! ### Walks to parents -/

/-- Structs are met at the addresses on the way up. -/
theorem Ascends.exists_struct? {linked : LinkedPackages} {s : Struct} {above : List DefinitionId}
    (h : Ascends linked s above) :
    ∀ id ∈ above, ∃ parent, id.struct? linked.packages = some parent := by
  induction h with
  | root hparent => exact fun id hid => nomatch hid
  | up htarget hstruct hrest ih => exact List.forall_mem_cons.mpr ⟨⟨_, hstruct⟩, ih⟩

variable {packages : List Package} {linked : LinkedPackages}

/-- A struct of acceptable and tidy packages that has no parent there has none stored. -/
theorem parentId_eq_none_of_root (h : Package.Acceptable packages) (htidy : Package.Tidy packages)
    {id : DefinitionId} {s : Struct} (hs : id.struct? (resolved packages).packages = some s)
    (hroot : (resolved packages).parentOf? s = none) : s.parentId = none := by
  obtain ⟨package, hpackage, hmem, -⟩ := DefinitionId.exists_package_of_struct? hs
  cases hparent : s.parent with
  | none => exact htidy.resolved _ package hpackage s hmem (Struct.parent_eq_none_iff.mp hparent)
  | some reference =>
      have hsome := parentOf?_isSome_of_mem h (Package.mem_contents_of_mem hpackage hmem) hparent
      rw [hroot] at hsome
      cases hsome

/-- A walk up from a struct of acceptable packages is the same wherever their structs stand at the
same addresses. -/
theorem Ascends.of_resolved (h : Package.Acceptable packages) (htidy : Package.Tidy packages)
    (hsame : ∀ (id : DefinitionId) (s : Struct), id.struct? (resolved packages).packages = some s →
      id.struct? linked.packages = some s)
    {s : Struct} {above : List DefinitionId} (hascends : Ascends (resolved packages) s above)
    {id : DefinitionId} (hs : id.struct? (resolved packages).packages = some s) :
    Ascends linked s above := by
  induction hascends generalizing id with
  | root hroot =>
      apply Ascends.root
      rw [parentOf?, parentId_eq_none_of_root h htidy hs hroot]
      rfl
  | up htarget hstruct _ ih => exact .up htarget (hsame _ _ hstruct) (ih hstruct)

/-- So are then all fields. -/
theorem allFields_of_resolved (h : Package.Acceptable packages) (htidy : Package.Tidy packages)
    (hsame : ∀ (id : DefinitionId) (s : Struct), id.struct? (resolved packages).packages = some s →
      id.struct? linked.packages = some s)
    {id : DefinitionId} {s : Struct} (hs : id.struct? (resolved packages).packages = some s) :
    linked.allFields s = (resolved packages).allFields s := by
  obtain ⟨above, hascends, hdistinct, -⟩ := exists_ascends h htidy s
  have hother := hascends.of_resolved h htidy hsame hs
  rw [hascends.allFields_eq hdistinct, hother.allFields_eq hdistinct]
  congr 1
  refine List.flatMap_congr fun a ha => ?_
  obtain ⟨parent, hparent⟩ := hascends.exists_struct? a ha
  rw [fieldsAt, fieldsAt, hparent, hsame a parent hparent]

/-! ### Stability -/

/-- What was linked first is found again in what was linked later: as many packages in front with
all their links, and the entries of the table. -/
structure KeptIn (first second : LinkedPackages) : Prop where
  packages : second.packages.take first.packages.length = first.packages
  entries : ∀ name id, first.table.get? name = some id → second.table.get? name = some id

/-- Every struct that was linked first has the same fields, its own and those of its ancestors, in
what was linked later. -/
def SameFields (first second : LinkedPackages) : Prop :=
  ∀ (id : DefinitionId) (s : Struct), id.struct? first.packages = some s →
    second.allFields s = first.allFields s

/-- Packages that are linked by themselves and in front of others are linked in the same way.  If
they are tidy, their structs have the same fields. -/
theorem keptIn_of_append {packages others : List Package} {first second : LinkedPackages}
    (hfirst : ofPackages packages = .ok first)
    (hsecond : ofPackages (packages ++ others) = .ok second) :
    first.packages.length = packages.length ∧ first.KeptIn second ∧
      (Package.Tidy packages → first.SameFields second) := by
  obtain ⟨hown, rfl⟩ := (succeedsIff_ofPackages_acceptable packages).of_eq_ok hfirst
  obtain ⟨hall, rfl⟩ := (succeedsIff_ofPackages_acceptable (packages ++ others)).of_eq_ok hsecond
  have hpackages : (resolved (packages ++ others)).packages = (resolved packages).packages ++
      others.map (Package.resolved (.listing (packages ++ others))) := by
    show List.map _ (packages ++ others) = _
    rw [List.map_append, Package.resolved_append hown hall.typeNames]
  refine ⟨List.length_map _, ⟨?_, fun name id hget => ?_⟩, fun htidy id s hs => ?_⟩
  · rw [hpackages, List.take_left]
  · exact NameTable.get?_listing_append hall.typeNames hget
  · refine allFields_of_resolved hown htidy (fun id s hs => ?_) hs
    rw [hpackages]
    exact DefinitionId.struct?_append hs _

/-- The first package of three generations is linked by itself as it is in front of the second, and
its structs have the same fields. -/
theorem keptIn_of_append_three_generations : ∃ first second,
    ofPackages (threeGenerations.take 1) = .ok first ∧
      ofPackages (threeGenerations.take 1 ++ threeGenerations.drop 1) = .ok second ∧
      first.packages.length = 1 ∧ first.KeptIn second ∧ first.SameFields second := by
  have hfirst : ofPackages (threeGenerations.take 1) =
      .ok (resolved (threeGenerations.take 1)) := by cbv
  have htidy : Package.Tidy (threeGenerations.take 1) := fun package hpackage =>
    tidy_threeGenerations package (List.mem_of_mem_take hpackage)
  obtain ⟨hlength, hkept, hfields⟩ := keptIn_of_append hfirst ofPackages_threeGenerations
  exact ⟨_, _, hfirst, ofPackages_threeGenerations, hlength, hkept, hfields htidy⟩

/-- A package with a struct that extends nothing and stores the first address of a second package
nevertheless. -/
def stray : Package :=
  let place : Location := ⟨0, 1, 1, ""⟩
  ⟨"p", [], [.struct ⟨"A", false, none, some ⟨1, 0⟩, [], [], place⟩], [], place⟩

/-- A package with one struct of one field. -/
def boxed : Package :=
  let place : Location := ⟨0, 1, 1, ""⟩
  ⟨"q", [], [.struct ⟨"B", false, none, none,
    [⟨.primitive .integer32, "x", [], place⟩], [], place⟩], [], place⟩

/-- By itself the struct of the stray address has no fields.  In front of the other package it has
the field of the struct that comes to stand there. -/
theorem not_sameFields_stray : ∃ first second,
    ofPackages [stray] = .ok first ∧ ofPackages ([stray] ++ [boxed]) = .ok second ∧
      ¬ first.SameFields second := by
  have hfirst : ofPackages [stray] = .ok (resolved [stray]) := by cbv
  have hsecond : ofPackages ([stray] ++ [boxed]) = .ok (resolved ([stray] ++ [boxed])) := by cbv
  refine ⟨_, _, hfirst, hsecond, fun hsame => ?_⟩
  have hown : ((⟨0, 0⟩ : DefinitionId).struct? (resolved [stray]).packages).map (fun s =>
      (((resolved [stray]).allFields s).map Field.name,
        ((resolved ([stray] ++ [boxed])).allFields s).map Field.name)) = some ([], ["x"]) := by cbv
  obtain ⟨s, hs, hfields⟩ := Option.map_eq_some_iff.mp hown
  rw [hsame ⟨0, 0⟩ s hs, Prod.mk.injEq] at hfields
  cases hfields.1.symm.trans hfields.2

end LinkedPackages

end SchemaLang
