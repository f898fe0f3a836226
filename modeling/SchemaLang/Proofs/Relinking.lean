import SchemaLang.Proofs.Compilation
import SchemaLang.Proofs.Grouping

/-!
# Linking once more

Packages that were linked before carry the addresses of that time, which may belong to another list
of packages.  Linking looks at written names only and writes every address anew, so old addresses
have no effect on it: `unlinked` takes all of them away, and neither the checks nor their errors nor
the linked packages change.
-/

namespace SchemaLang

/-! ### Packages without links -/

/-- The same type with its reference linked to nothing. -/
def FieldType.unlinked (type : FieldType) : FieldType :=
  type.mapInnermost fun
    | .named reference => .named (.unlinked reference.name)
    | other => other

def Field.unlinked (field : Field) : Field :=
  { field with type := field.type.unlinked }

/-- The struct with no link in it.  What is stored without a parent clause is no link. -/
def Struct.unlinked (s : Struct) : Struct :=
  { s with
    parentId := s.parentName.elim s.parentId fun _ => none
    fields := s.fields.map Field.unlinked }

def Definition.unlinked : Definition → Definition
  | .struct s => .struct s.unlinked
  | .enumeration e => .enumeration e

/-- The package with no link in it. -/
def Package.unlinked (package : Package) : Package :=
  { package with definitions := package.definitions.map Definition.unlinked }

/-- Two lists of packages differ in their links only. -/
def Package.SameButLinks (packages others : List Package) : Prop :=
  packages.map unlinked = others.map unlinked

/-! ### What links do not matter to -/

namespace FieldType

theorem reference?_unlinked (type : FieldType) :
    type.unlinked.reference? = type.reference?.map fun reference => .unlinked reference.name := by
  induction type with
  | primitive p => rfl
  | array element size ih => exact ih
  | named reference => rfl

theorem linkTo_unlinked (type : FieldType) (id : DefinitionId) :
    type.unlinked.linkTo id = type.linkTo id := by
  induction type with
  | primitive p => rfl
  | array element size ih => exact congrArg (FieldType.array · size) ih
  | named reference => rfl

theorem unlinked_linkTo (type : FieldType) (id : DefinitionId) :
    (type.linkTo id).unlinked = type.unlinked := by
  induction type with
  | primitive p => rfl
  | array element size ih => exact congrArg (FieldType.array · size) ih
  | named reference => rfl

/-- A type that names nothing has no link. -/
theorem unlinked_of_reference?_eq_none {type : FieldType} (h : type.reference? = none) :
    type.unlinked = type := by
  induction type with
  | primitive p => rfl
  | array element size ih => exact congrArg (FieldType.array · size) (ih h)
  | named reference => cases h

end FieldType

/-- The qualified name of a reference is that of its written name. -/
theorem NameTable.find_unlinked (table : NameTable) (reference : Reference) (package : String)
    (place : Location) :
    table.find (.unlinked reference.name) package place = table.find reference package place := rfl

theorem checkAttributes_unlinked (attributes : List Attribute) (type : FieldType)
    (place : Location) :
    checkAttributes attributes (.field type.unlinked) place =
      checkAttributes attributes (.field type) place := by
  have happlicable (a : Attribute) :
      a.applicable (.field type.unlinked) = a.applicable (.field type) := by
    cases a <;> cases type <;> rfl
  rw [checkAttributes, checkAttributes, Attribute.allApplicable, Attribute.allApplicable,
    funext happlicable]

@[simp] theorem Struct.name_unlinked (s : Struct) : s.unlinked.name = s.name := rfl

@[simp] theorem Struct.isClass_unlinked (s : Struct) : s.unlinked.isClass = s.isClass := rfl

@[simp] theorem Struct.location_unlinked (s : Struct) : s.unlinked.location = s.location := rfl

theorem Struct.parent_unlinked (s : Struct) :
    s.unlinked.parent = s.parent.map fun reference => .unlinked reference.name := by
  rw [parent, parent, unlinked]
  cases s.parentName <;> rfl

theorem Struct.meaning?_unlinked (table : NameTable) (package : String) (s : Struct) :
    s.unlinked.meaning? table package = s.meaning? table package := by
  rw [meaning?, meaning?, parent_unlinked, Option.bind_map]
  rfl

@[simp] theorem Definition.name_unlinked (d : Definition) : d.unlinked.name = d.name := by
  cases d <;> rfl

@[simp] theorem Definition.location_unlinked (d : Definition) :
    d.unlinked.location = d.location := by
  cases d <;> rfl

@[simp] theorem Definition.kind_unlinked (d : Definition) : d.unlinked.kind = d.kind := by
  cases d <;> rfl

namespace DefinitionId

theorem find?_unlinked (id : DefinitionId) (packages : List Package) :
    id.find? (packages.map Package.unlinked) = (id.find? packages).map Definition.unlinked := by
  rw [find?, find?, List.getElem?_map]
  cases packages[id.package]? with
  | none => rfl
  | some package => exact List.getElem?_map

theorem struct?_unlinked (id : DefinitionId) (packages : List Package) :
    id.struct? (packages.map Package.unlinked) = (id.struct? packages).map Struct.unlinked := by
  rw [struct?, struct?, find?_unlinked]
  cases id.find? packages with
  | none => rfl
  | some d => cases d <;> rfl

end DefinitionId

namespace Inheritance

variable {packages : List Package} {table : NameTable}

theorem packageName_unlinked (packages : List Package) (index : Nat) :
    packageName (packages.map Package.unlinked) index = packageName packages index := by
  rw [packageName, packageName, List.getElem?_map, Option.map_map]
  rfl

theorem members_unlinked (s : Struct) : members s.unlinked = members s := by
  rw [members, Struct.unlinked, List.map_map]
  rfl

theorem firstHidden?_unlinked (parent : Struct) (below : List (String × String)) :
    firstHidden? parent.unlinked below = firstHidden? parent below := by
  rw [firstHidden?, Struct.unlinked, List.findSome?_map]
  rfl

theorem circular_unlinked (packages : List Package) (chain : List DefinitionId)
    (child parent : Struct) :
    circular (packages.map Package.unlinked) chain child.unlinked parent.unlinked =
      circular packages chain child parent := by
  have hnames : (chain.filterMap fun id => id.find? (packages.map Package.unlinked)).map
      Definition.name = (chain.filterMap fun id => id.find? packages).map Definition.name := by
    simp only [DefinitionId.find?_unlinked, List.map_filterMap, Option.map_map,
      Function.comp_def, Definition.name_unlinked]
  have hstart : (chain.head?.bind fun id => id.find? (packages.map Package.unlinked)).map
      Definition.location = (chain.head?.bind fun id => id.find? packages).map
        Definition.location := by
    simp only [DefinitionId.find?_unlinked, Option.map_bind, Option.map_map,
      Function.comp_def, Definition.location_unlinked]
  rw [circular, hnames, hstart]
  rfl

/-- One round of the check, without what makes it end. -/
theorem check_eq_round (child : Struct) (id : DefinitionId) (chain : List DefinitionId)
    (below : List (String × String)) :
    check packages table child id chain below =
      match id.struct? packages with
      | none => .error (.extendsNonStruct child.name child.location)
      | some parent =>
          if child.isClass && !parent.isClass then
            .error (.classExtendsStruct child.name parent.name child.location)
          else if !child.isClass && parent.isClass then
            .error (.structExtendsClass child.name parent.name child.location)
          else if id ∈ chain then .error (circular packages chain child parent)
          else
            match firstHidden? parent below with
            | some (member, owner) => .error (.hiddenMember owner parent.name member child.location)
            | none =>
                match parent.parent with
                | none => .ok ()
                | some reference =>
                    match table.find reference (packageName packages id.package)
                        parent.location with
                    | .error e => .error e
                    | .ok next => check packages table parent next (chain ++ [id])
                        (members parent ++ below) := by
  rw [check]
  split
  next hs => rw [hs]
  next s hs =>
    rw [hs]
    rfl

/-- A check of a line of parents goes by names from one struct to the next. -/
theorem check_unlinked (child : Struct) (id : DefinitionId) (chain : List DefinitionId)
    (below : List (String × String)) :
    check (packages.map Package.unlinked) table child.unlinked id chain below =
      check packages table child id chain below := by
  rw [check_eq_round, DefinitionId.struct?_unlinked]
  fun_induction check packages table child id chain below with
  | case1 child id chain below hs => simp [hs]
  | case2 child id chain below s hs hclass => simp [hs, hclass]
  | case3 child id chain below s hs hclass hstruct => simp [hs, hclass, hstruct]
  | case4 child id chain below s hs hclass hstruct hmet =>
      simp [hs, hclass, hstruct, hmet, circular_unlinked]
  | case5 child id chain below s hs hclass hstruct hmet member owner hhidden =>
      simp [hs, hclass, hstruct, hmet, firstHidden?_unlinked, hhidden]
  | case6 child id chain below s hs hclass hstruct hmet hhidden hparent =>
      simp [hs, hclass, hstruct, hmet, firstHidden?_unlinked, hhidden, Struct.parent_unlinked,
        hparent]
  | case7 child id chain below s hs hclass hstruct hmet hhidden reference hparent e he =>
      simp [hs, hclass, hstruct, hmet, firstHidden?_unlinked, hhidden, Struct.parent_unlinked,
        hparent, NameTable.find_unlinked, packageName_unlinked, he]
  | case8 child id chain below s hs hclass hstruct hmet hhidden reference hparent next hnext ih =>
      -- The next round starts from this struct, again without its links.
      rw [← DefinitionId.struct?_unlinked, ← check_eq_round] at ih
      simp [hs, hclass, hstruct, hmet, firstHidden?_unlinked, hhidden, Struct.parent_unlinked,
        hparent, NameTable.find_unlinked, packageName_unlinked, hnext, members_unlinked, ih]

end Inheritance

/-! ### Linking without old links -/

namespace Link

variable (context : Context)

/-- The context without old links in its packages. -/
def Context.unlinked (context : Context) : Context :=
  { context with
    packages := context.packages.map Package.unlinked
    package := context.package.unlinked }

theorem ofField_unlinked (entry : Field × Nat) :
    ofField context.unlinked (entry.1.unlinked, entry.2) = ofField context entry := by
  have hattributes : checkAttributes entry.1.unlinked.attributes (.field entry.1.unlinked.type)
      entry.1.unlinked.location = checkAttributes entry.1.attributes (.field entry.1.type)
        entry.1.location := checkAttributes_unlinked ..
  have hreference : entry.1.unlinked.type.reference? =
      entry.1.type.reference?.map fun reference => .unlinked reference.name :=
    entry.1.type.reference?_unlinked
  rw [ofField, ofField, hattributes, hreference]
  cases entry.1.type.reference? <;> rfl

theorem ofParent_unlinked (s : Struct) :
    ofParent context.unlinked s.unlinked = ofParent context s := by
  rw [ofParent, ofParent, Struct.parent_unlinked]
  cases s.parent with
  | none => rfl
  | some reference =>
      simp only [Option.map_some, NameTable.find_unlinked, Inheritance.members_unlinked,
        Context.unlinked, Inheritance.check_unlinked]
      rfl

theorem ofDefinition_unlinked (d : Definition) :
    ofDefinition context.unlinked d.unlinked = ofDefinition context d := by
  cases d with
  | enumeration e => rfl
  | struct s =>
      have hfields : s.unlinked.fields.zipIdx.mapM (ofField context.unlinked) =
          s.fields.zipIdx.mapM (ofField context) := by
        rw [Struct.unlinked, List.zipIdx_map, List.mapM_map]
        exact congrArg (List.mapM · _) (funext fun entry => ofField_unlinked context entry)
      show ofStruct _ s.unlinked = ofStruct _ s
      rw [ofStruct, ofStruct, ofParent_unlinked, hfields]
      rfl

theorem ofPackage_unlinked (packages : List Package) (table : NameTable)
    (entry : Package × Nat) :
    ofPackage (packages.map Package.unlinked) table (entry.1.unlinked, entry.2) =
      ofPackage packages table entry := by
  have hdefinitions : (entry.1.unlinked.definitions.zipIdx.mapM fun (d : Definition × Nat) =>
        ofDefinition ⟨packages.map Package.unlinked, table, entry.1.unlinked, ⟨entry.2, d.2⟩⟩ d.1) =
      entry.1.definitions.zipIdx.mapM fun (d : Definition × Nat) =>
        ofDefinition ⟨packages, table, entry.1, ⟨entry.2, d.2⟩⟩ d.1 := by
    rw [Package.unlinked, List.zipIdx_map, List.mapM_map]
    exact congrArg (List.mapM · _) (funext fun d =>
      ofDefinition_unlinked ⟨packages, table, entry.1, ⟨entry.2, d.2⟩⟩ d.1)
  rw [ofPackage, ofPackage]
  simp only [hdefinitions]
  rfl

/-- Old links have no effect on which links are found, nor on the error if one is not found. -/
theorem collect_unlinked (packages : List Package) (table : NameTable) :
    collect (packages.map Package.unlinked) table = collect packages table := by
  have hlinks : (packages.zipIdx.mapM fun (entry : Package × Nat) =>
        ofPackage (packages.map Package.unlinked) table (entry.1.unlinked, entry.2)) =
      packages.zipIdx.mapM (ofPackage packages table) :=
    congrArg (List.mapM · _) (funext fun entry => ofPackage_unlinked packages table entry)
  rw [collect, collect, List.zipIdx_map, List.mapM_map]
  exact congrArg (fun links => links >>= fun links => pure links.flatten) hlinks

end Link

/-! ### Links written anew -/

section

variable {table : NameTable} {name : String}

/-- A link that is written anew leaves nothing of the old one. -/
theorem Field.resolved_unlinked {field : Field} (h : ∀ reference,
      field.type.reference? = some reference →
        (table.get? (reference.qualifiedIn name)).isSome = true) :
    field.unlinked.resolved table name = field.resolved table name := by
  have hreference : field.unlinked.type.reference? =
      field.type.reference?.map fun reference => .unlinked reference.name :=
    field.type.reference?_unlinked
  rw [resolved, resolved, meaning?, meaning?, hreference]
  cases hwritten : field.type.reference? with
  | none =>
      show (⟨field.type.unlinked, _, _, _⟩ : Field) = field
      rw [FieldType.unlinked_of_reference?_eq_none hwritten]
      rfl
  | some reference =>
      obtain ⟨id, hid⟩ := Option.isSome_iff_exists.mp (h reference hwritten)
      have hmeaning : table.get? ((Reference.unlinked reference.name).qualifiedIn name) =
        some id := hid
      rw [Option.map_some, Option.bind_some, Option.bind_some, hmeaning, hid]
      show (⟨field.type.unlinked.linkTo id, _, _, _⟩ : Field) = ⟨field.type.linkTo id, _, _, _⟩
      rw [FieldType.linkTo_unlinked]
      rfl

theorem Struct.parentId_withParent_unlinked {s : Struct} (h : ∀ reference,
      s.parent = some reference → (table.get? (reference.qualifiedIn name)).isSome = true) :
    (s.unlinked.withParent table name).parentId = (s.withParent table name).parentId := by
  rw [withParent, withParent, meaning?_unlinked, meaning?, unlinked]
  cases hclause : s.parent with
  | none => rw [parent_eq_none_iff.mp hclause]; rfl
  | some reference =>
      obtain ⟨id, hid⟩ := Option.isSome_iff_exists.mp (h reference hclause)
      rw [Option.bind_some, hid]
      rfl

/-- Unlinking forgets exactly the address that linking writes. -/
theorem Struct.parentId_unlinked_resolved (s : Struct) :
    (s.resolved table name).unlinked.parentId = s.unlinked.parentId := by
  rw [unlinked, unlinked, resolved, withParent]
  cases hname : s.parentName with
  | none =>
      rw [meaning?, parent_eq_none_iff.mpr hname]
      rfl
  | some parent => rfl

/-- Where every reference has an entry, it makes no difference what was linked before. -/
theorem Definition.resolved_unlinked {d : Definition} (h : ∀ reference ∈ d.references,
      (table.get? (reference.qualifiedIn name)).isSome = true) :
    d.unlinked.resolved table name = d.resolved table name := by
  cases d with
  | enumeration e => rfl
  | struct s =>
      obtain ⟨hparent, htypes⟩ := Package.forall_references_struct_iff.mp h
      have hfields : s.unlinked.fields.map (Field.resolved table name) =
          s.fields.map (Field.resolved table name) := by
        rw [Struct.unlinked, List.map_map]
        exact List.map_congr_left fun field hfield => Field.resolved_unlinked (htypes field hfield)
      show Definition.struct ⟨_, _, _, (s.unlinked.withParent table name).parentId,
        s.unlinked.fields.map (Field.resolved table name), _, _⟩ = _
      rw [Struct.parentId_withParent_unlinked hparent, hfields]
      rfl

/-- Unlinking takes away the links of any table. -/
theorem Definition.unlinked_resolved (d : Definition) :
    (d.resolved table name).unlinked = d.unlinked := by
  cases d with
  | enumeration e => rfl
  | struct s =>
      have hfields : (s.resolved table name).fields.map Field.unlinked =
          s.fields.map Field.unlinked := by
        rw [Struct.resolved, List.map_map]
        refine List.map_congr_left fun field _ => ?_
        rw [Function.comp_apply, Field.unlinked, Field.resolved]
        cases field.meaning? table name with
        | none => rfl
        | some id =>
            show (⟨(field.type.linkTo id).unlinked, _, _, _⟩ : Field) = _
            rw [FieldType.unlinked_linkTo]
            rfl
      show Definition.struct ⟨_, _, _, (s.resolved table name).unlinked.parentId,
        (s.resolved table name).fields.map Field.unlinked, _, _⟩ = _
      rw [s.parentId_unlinked_resolved, hfields]
      rfl

end

namespace Package

variable {packages others : List Package} {table : NameTable}

/-- Packages that pass have an entry in the table for every reference. -/
theorem references_of_passes (h : ∀ entry ∈ packages.zipIdx, Passes packages table entry)
    {package : Package} (hpackage : package ∈ packages) {d : Definition}
    (hd : d ∈ package.definitions) : ∀ reference ∈ d.references,
      (table.get? (reference.qualifiedIn package.name)).isSome = true := by
  obtain ⟨i, hi⟩ := List.getElem?_of_mem hpackage
  obtain ⟨j, hj⟩ := List.getElem?_of_mem hd
  have hpasses := (h (package, i) (List.mem_zipIdx_iff_getElem?.mpr hi)).2.2 (d, j)
    (List.mem_zipIdx_iff_getElem?.mpr hj)
  cases d with
  | enumeration e => exact fun reference hreference => nomatch hreference
  | struct s =>
      obtain ⟨hparent, -, hfields⟩ := hpasses
      refine forall_references_struct_iff.mpr ⟨fun reference hclause => ?_, fun field hfield =>
        (hfields field hfield).1⟩
      obtain ⟨target, hget, -⟩ := hparent reference hclause
      exact Option.isSome_of_eq_some hget

theorem resolved_unlinked (h : ∀ entry ∈ packages.zipIdx, Passes packages table entry) :
    (packages.map unlinked).map (resolved table) = packages.map (resolved table) := by
  rw [List.map_map]
  refine List.map_congr_left fun package hpackage => ?_
  rw [Function.comp_apply, resolved, resolved, unlinked, List.map_map]
  congr 1
  exact List.map_congr_left fun d hd =>
    Definition.resolved_unlinked (references_of_passes h hpackage hd)

/-- Linked packages differ from what they were only in their links. -/
theorem sameButLinks_resolved (packages : List Package) (table : NameTable) :
    SameButLinks packages (packages.map (resolved table)) := by
  rw [SameButLinks, List.map_map]
  refine List.map_congr_left fun package _ => ?_
  rw [Function.comp_apply, unlinked, unlinked, resolved, List.map_map]
  congr 1
  exact (List.map_congr_left fun d _ => d.unlinked_resolved).symm

/-- Taking the links away first makes no difference. -/
theorem link_unlinked (packages : List Package) (table : NameTable) :
    link (packages.map unlinked) table = link packages table := by
  have hcollect := Link.collect_unlinked packages table
  cases hlinks : Link.collect packages table with
  | error e => rw [link, link, hcollect, hlinks]; rfl
  | ok links =>
      -- The same links are found, so the packages without links pass, too.
      rw [hlinks] at hcollect
      obtain ⟨hpasses, -⟩ := (Link.succeedsIff_collect packages table).of_eq_ok hlinks
      obtain ⟨hunlinked, -⟩ := (Link.succeedsIff_collect _ table).of_eq_ok hcollect
      have hlink := (succeedsIff_link packages table _).mpr ⟨hpasses, rfl⟩
      rw [hlink, (succeedsIff_link _ table _).mpr ⟨hunlinked, rfl⟩, resolved_unlinked hpasses]

/-- Packages that differ in their links only are linked in the same way. -/
theorem SameButLinks.link_eq (h : SameButLinks packages others) (table : NameTable) :
    link others table = link packages table := by
  rw [← link_unlinked, ← h, link_unlinked]

end Package

namespace NameTable

theorem addDefinition_unlinked (package : Package) (index : Nat) (table : NameTable)
    (d : Definition × Nat) :
    addDefinition package.unlinked index table (d.1.unlinked, d.2) =
      addDefinition package index table d := by
  rw [addDefinition, addDefinition, Definition.name_unlinked, Definition.kind_unlinked,
    Definition.location_unlinked]
  rfl

theorem addPackage_unlinked (table : NameTable) (entry : Package × Nat) :
    addPackage table (entry.1.unlinked, entry.2) = addPackage table entry := by
  have hdefinitions (start : NameTable) :
      entry.1.unlinked.definitions.zipIdx.foldlM (addDefinition entry.1.unlinked entry.2) start =
        entry.1.definitions.zipIdx.foldlM (addDefinition entry.1 entry.2) start := by
    rw [Package.unlinked, List.zipIdx_map, List.foldlM_map]
    exact congrArg (List.foldlM · start entry.1.definitions.zipIdx)
      (funext fun table => funext fun d => addDefinition_unlinked entry.1 entry.2 table d)
  rw [addPackage, addPackage, hdefinitions]
  rfl

/-- Names alone make the table. -/
theorem build_unlinked (packages : List Package) :
    build (packages.map Package.unlinked) = build packages := by
  rw [build, build, List.zipIdx_map, List.foldlM_map]
  exact congrArg (List.foldlM · empty packages.zipIdx)
    (funext fun table => funext fun entry => addPackage_unlinked table entry)

end NameTable

namespace Package

variable {packages others : List Package}

theorem SameButLinks.ofPackages_eq (h : SameButLinks packages others) :
    LinkedPackages.ofPackages others = LinkedPackages.ofPackages packages := by
  have htable : NameTable.build others = NameTable.build packages := by
    rw [← NameTable.build_unlinked, ← h, NameTable.build_unlinked]
  rw [LinkedPackages.ofPackages, LinkedPackages.ofPackages, htable]
  simp only [h.link_eq]

end Package

/-- The packages of a schema make the schema once more. -/
theorem Schema.compile_packages {fragments : List Package} {schema : Schema}
    (h : compile fragments = .ok schema) : compile schema.packages = .ok schema := by
  obtain ⟨-, rfl⟩ := (succeedsIff_compile fragments).of_eq_ok h
  have hsame := Package.sameButLinks_resolved (Package.merge fragments)
    (.listing (Package.merge fragments))
  have hmerged : Package.merge (resolved (Package.merge fragments)).packages =
      (Package.merge fragments).map (Package.resolved (.listing (Package.merge fragments))) := by
    refine Package.merge_eq_self ?_
    show (((Package.merge fragments).map _).map Package.name).Nodup
    rw [List.map_map]
    exact Package.nodup_map_name_merge fragments
  rw [compile, hmerged, hsame.ofPackages_eq]
  exact h

namespace Package

/-- Linking ignores old links, whatever they lead to: lists that differ in their links only have the
same result, so that linked packages are linked to what they are, and a schema is compiled from its
own packages once more. -/
theorem link_ignores_links :
    (∀ packages others table, SameButLinks packages others →
      link others table = link packages table) ∧
    (∀ packages linked table, link packages table = .ok linked →
      link linked table = .ok linked) ∧
    ∀ fragments schema, Schema.compile fragments = .ok schema →
      Schema.compile schema.packages = .ok schema := by
  refine ⟨fun packages others table h => h.link_eq table, fun packages linked table h => ?_,
    fun fragments schema h => Schema.compile_packages h⟩
  -- What was linked differs from what it was linked from only in the links.
  obtain ⟨-, rfl⟩ := (succeedsIff_link packages table).of_eq_ok h
  rw [(sameButLinks_resolved packages table).link_eq, h]

/-- Three generations with the links they had when their packages stood in the other order. -/
def stale : List Package :=
  let backwards := LinkedPackages.threeGenerations.reverse
  (backwards.map (resolved (.listing backwards))).reverse

theorem sameButLinks_stale : SameButLinks LinkedPackages.threeGenerations stale := by
  cbv

/-- In the other order the parent of the second class had another address, and the link to it is
written over. -/
theorem link_ignores_links_stale :
    ((⟨0, 1⟩ : DefinitionId).struct? stale).bind Struct.parentId = some ⟨1, 0⟩ ∧
      ∃ linked, link stale (.listing LinkedPackages.threeGenerations) = .ok linked ∧
      link linked (.listing LinkedPackages.threeGenerations) = .ok linked ∧
      Schema.compile (Schema.resolved (merge Schema.scattered)).packages =
        .ok (Schema.resolved (merge Schema.scattered)) := by
  have hlink : link LinkedPackages.threeGenerations (.listing LinkedPackages.threeGenerations) =
    .ok (LinkedPackages.resolved LinkedPackages.threeGenerations).packages := by cbv
  obtain ⟨hstale, hagain, hcompile⟩ := link_ignores_links
  exact ⟨by cbv, _, (hstale _ _ _ sameButLinks_stale).trans hlink, hagain _ _ _ hlink,
    hcompile _ _ Schema.compile_scattered⟩

end Package

end SchemaLang
