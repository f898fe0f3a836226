import Mathlib
import SchemaLang.Proofs.Linking
import SchemaLang.Proofs.LinkSearch

/-!
# Writing links by address

A link says where it is written by numbers alone.  `Link.write?` fails where these numbers lead to
nothing that can hold a link.  This never happens with links that were found in the packages:
writing keeps the shape of what it writes to, so a link fits whatever was written before it.
-/

namespace SchemaLang

namespace FieldType

/-- The type with its reference linked, unless it refers to nothing. -/
def linkTo? (id : DefinitionId) : FieldType → Option FieldType
  | .array element size => (element.linkTo? id).map fun linked => .array linked size
  | .primitive _ => none
  | .named reference => some (.named (reference.linkTo id))

theorem innermost_eq_named_iff {type : FieldType} {reference : Reference} :
    type.innermost = .named reference ↔ type.reference? = some reference := by
  induction type with
  | array element size ih => exact ih
  | primitive p => simp [innermost, reference?]
  | named r => simp [innermost, reference?]

theorem linkTo?_eq (type : FieldType) (id : DefinitionId) :
    type.linkTo? id = type.reference?.map fun _ => type.linkTo id := by
  induction type with
  | array element size ih =>
      rw [linkTo?, ih, Option.map_map]
      rfl
  | primitive p => rfl
  | named reference => rfl

end FieldType

namespace Link

/-- The struct holds what the link is written into: a field whose type is a declared type beneath
all arrays, or a parent clause. -/
def FitsStruct (s : Struct) : Link → Prop
  | .field _ index _ => ∃ field reference, s.fields[index]? = some field ∧
      field.type.innermost = .named reference
  | .parent _ _ => s.parentName.isSome = true

/-- The owner of the link is a struct of the packages that holds what the link is written into. -/
def FitsIn (packages : List Package) (link : Link) : Prop :=
  ∃ s, link.owner.struct? packages = some s ∧ link.FitsStruct s

/-- The struct with one link written, if it fits. -/
def writeTo? (link : Link) (s : Struct) : Option Struct :=
  match link with
  | .field _ index target => do
      let field ← s.fields[index]?
      let type ← field.type.linkTo? target
      return { s with fields := s.fields.set index { field with type := type } }
  | .parent _ target => do
      let _ ← s.parentName
      return { s with parentId := some target }

/-- The packages with one link written, if it fits. -/
def write? (packages : List Package) (link : Link) : Option (List Package) := do
  let package ← packages[link.owner.package]?
  let definition ← package.definitions[link.owner.element]?
  let s ← definition.struct?
  let written ← link.writeTo? s
  return packages.set link.owner.package { package with
    definitions := package.definitions.set link.owner.element (.struct written) }

theorem modify_eq_set_of_getElem? {α : Type} {l : List α} {i : Nat} {a : α} (f : α → α)
    (h : l[i]? = some a) : l.modify i f = l.set i (f a) := by
  rw [List.modify_eq_set_getElem?, h]
  rfl

/-- A link that fits is written, and one that does not is not. -/
theorem writeTo?_eq_some_iff {link : Link} {s written : Struct} :
    link.writeTo? s = some written ↔ link.FitsStruct s ∧ written = link.writeTo s := by
  cases link with
  | parent owner target =>
      rw [writeTo?, FitsStruct, writeTo]
      cases s.parentName with
      | none => simp
      | some name => simp [eq_comm]
  | field owner index target =>
      rw [writeTo?, FitsStruct, writeTo]
      cases hfield : s.fields[index]? with
      | none => simp
      | some field =>
          rw [modify_eq_set_of_getElem? _ hfield]
          simp only [FieldType.linkTo?_eq, FieldType.innermost_eq_named_iff]
          cases hreference : field.type.reference? with
          | none => simp [hreference]
          | some reference => simp [hreference, eq_comm]

theorem write?_eq_some_iff {packages written : List Package} {link : Link} :
    write? packages link = some written ↔ link.FitsIn packages ∧ written = write packages link := by
  rw [write?, FitsIn, DefinitionId.struct?, DefinitionId.find?, write]
  cases hpackage : packages[link.owner.package]? with
  | none => simp
  | some package =>
      rw [modify_eq_set_of_getElem? _ hpackage]
      cases hdefinition : package.definitions[link.owner.element]? with
      | none => simp [hdefinition]
      | some d =>
          rw [modify_eq_set_of_getElem? _ hdefinition]
          cases d with
          | enumeration e => simp [hdefinition, Definition.struct?]
          | struct s =>
              have hstruct (t : Struct) : link.writeTo? s = some t ↔ _ := writeTo?_eq_some_iff
              simp only [hdefinition, Definition.struct?, Option.bind_eq_bind, Option.bind_some,
                Option.bind_eq_some_iff, hstruct, Option.pure_def, Option.some.injEq]
              simp [eq_comm]

/-- Only the struct that owns a link is changed by writing it. -/
theorem struct?_write (packages : List Package) (link : Link) (id : DefinitionId) :
    id.struct? (write packages link) =
      (id.struct? packages).map fun s => if link.owner = id then link.writeTo s else s := by
  rw [DefinitionId.struct?, DefinitionId.struct?, DefinitionId.find?, DefinitionId.find?, write,
    List.getElem?_modify]
  cases packages[id.package]? with
  | none => rfl
  | some package =>
      by_cases hpackage : link.owner.package = id.package
      · simp only [hpackage, if_pos, Option.map_eq_map, Option.map_some, Option.bind_some,
          List.getElem?_modify]
        cases package.definitions[id.element]? with
        | none => rfl
        | some d =>
            by_cases helement : link.owner.element = id.element
            · have hid : link.owner = id := congrArg₂ DefinitionId.mk hpackage helement
              cases d <;> simp [hid, Definition.struct?]
            · have hid : link.owner ≠ id := fun h => helement (congrArg DefinitionId.element h)
              cases d <;> simp [helement, hid, Definition.struct?]
      · have hid : link.owner ≠ id := fun h => hpackage (congrArg DefinitionId.package h)
        simp [hpackage, hid]

/-- Writing a link into a struct adds and removes nothing that a link is written into. -/
theorem fitsStruct_writeTo {link other : Link} {s : Struct} :
    other.FitsStruct (link.writeTo s) ↔ other.FitsStruct s := by
  cases link with
  | parent owner target => cases other <;> simp [FitsStruct, writeTo]
  | field owner index target =>
      cases other with
      | parent _ _ => exact Iff.rfl
      | field _ i _ =>
          simp only [FitsStruct, writeTo, List.getElem?_modify, FieldType.innermost_eq_named_iff]
          cases s.fields[i]? with
          | none => simp
          | some field => by_cases hindex : index = i <;> simp [hindex, FieldType.reference?_linkTo]

/-- Writing a link leaves room for every other. -/
theorem fitsIn_write {packages : List Package} {link other : Link} :
    other.FitsIn (write packages link) ↔ other.FitsIn packages := by
  rw [FitsIn, FitsIn, struct?_write]
  cases other.owner.struct? packages with
  | none => simp
  | some s =>
      by_cases howner : link.owner = other.owner
      · simp [howner, fitsStruct_writeTo]
      · simp [howner]

theorem fitsIn_foldl_write {packages : List Package} {earlier : List Link} {link : Link} :
    link.FitsIn (earlier.foldl write packages) ↔ link.FitsIn packages := by
  induction earlier generalizing packages with
  | nil => exact Iff.rfl
  | cons first earlier ih => rw [List.foldl_cons, ih, fitsIn_write]

/-- Links that fit are written one after another. -/
theorem foldlM_write?_eq_some {packages : List Package} {links : List Link}
    (h : ∀ link ∈ links, link.FitsIn packages) :
    links.foldlM write? packages = some (links.foldl write packages) := by
  induction links generalizing packages with
  | nil => rfl
  | cons link links ih =>
      have hfirst := write?_eq_some_iff.mpr ⟨h link List.mem_cons_self, rfl⟩
      rw [List.foldlM_cons, hfirst, List.foldl_cons]
      exact ih fun later hlater => fitsIn_write.mpr (h later (List.mem_cons_of_mem link hlater))

/-- What a definition is linked by fits where the definition stands. -/
theorem fitsIn_of_mem_definitionLinks {packages : List Package} {table : NameTable} {name : String}
    {owner : DefinitionId} {d : Definition} {link : Link} (hd : owner.find? packages = some d)
    (h : link ∈ definitionLinks table name owner d) : link.FitsIn packages := by
  cases d with
  | enumeration e => cases h
  | struct s =>
      have hs : owner.struct? packages = some s := by
        rw [DefinitionId.struct?, hd]
        rfl
      rw [definitionLinks, List.mem_append] at h
      obtain hparent | hfield := h
      · obtain ⟨id, hid, rfl⟩ := List.mem_map.mp hparent
        obtain ⟨reference, hreference, -⟩ := Option.bind_eq_some_iff.mp (Option.mem_toList.mp hid)
        exact ⟨s, hs, Option.isSome_of_eq_some (Struct.parent_eq_some_iff.mp hreference).1⟩
      · obtain ⟨⟨field, index⟩, hentry, hlink⟩ := List.mem_flatMap.mp hfield
        obtain ⟨id, hid, rfl⟩ := List.mem_map.mp hlink
        obtain ⟨reference, hreference, -⟩ := Option.bind_eq_some_iff.mp (Option.mem_toList.mp hid)
        exact ⟨s, hs, field, reference, List.mem_zipIdx_iff_getElem?.mp hentry,
          FieldType.innermost_eq_named_iff.mpr hreference⟩

/-- Links fit in the packages they were found in. -/
theorem fitsIn_of_mem_collect {packages : List Package} {table : NameTable} {links : List Link}
    (h : collect packages table = .ok links) {link : Link} (hlink : link ∈ links) :
    link.FitsIn packages := by
  obtain ⟨-, rfl⟩ := (succeedsIff_collect packages table).of_eq_ok h
  obtain ⟨⟨package, i⟩, hpackage, hlink⟩ := List.mem_flatMap.mp hlink
  obtain ⟨⟨d, j⟩, hd, hlink⟩ := List.mem_flatMap.mp hlink
  refine fitsIn_of_mem_definitionLinks ?_ hlink
  rw [DefinitionId.find?, List.mem_zipIdx_iff_getElem?.mp hpackage]
  exact List.mem_zipIdx_iff_getElem?.mp hd

/-- Links that were found can be written, in any order and any number of times: whichever of them
were written before, each still fits.  Writing them in the order they were found links the
packages. -/
theorem links_fit {packages : List Package} {table : NameTable} {links : List Link}
    (h : collect packages table = .ok links) :
    Search.links packages table = .ok links ∧
      (∀ earlier ⊆ links, ∃ current, earlier.foldlM write? packages = some current ∧
        ∀ link ∈ links, link.FitsIn current) ∧
      ∃ linked, links.foldlM write? packages = some linked ∧
        Package.link packages table = .ok linked := by
  -- Every link fits before anything is written, and no write changes what fits.
  have hfits (link : Link) (hlink : link ∈ links) := fitsIn_of_mem_collect h hlink
  refine ⟨by rw [Search.links_eq_collect, h], fun earlier hearlier => ?_, ?_⟩
  · exact ⟨_, foldlM_write?_eq_some fun link hlink => hfits link (hearlier hlink),
      fun link hlink => fitsIn_foldl_write.mpr (hfits link hlink)⟩
  · exact ⟨_, foldlM_write?_eq_some hfits, by rw [Package.link, h]; rfl⟩

/-- A package with a struct that extends another and has a field of labels in arrays. -/
def shelf : Package :=
  let place : Location := ⟨0, 1, 1, ""⟩
  let labels : FieldType := .array (.array (.named (.unlinked "Label")) (.fixed 2)) .unbounded
  ⟨"p", [], [
    .struct ⟨"Box", false, some "Base", none,
      [⟨.primitive .bool, "open", [], place⟩, ⟨labels, "labels", [], place⟩], [], place⟩,
    .struct ⟨"Base", false, none, none, [], [], place⟩,
    .struct ⟨"Lid", false, none, none, [], [], place⟩,
    .enumeration ⟨"Label", [], [], place⟩], [], place⟩

/-- The same package with one more enum before all others. -/
def longerShelf : Package :=
  { shelf with definitions := .enumeration ⟨"Kind", [], [], ⟨0, 1, 1, ""⟩⟩ :: shelf.definitions }

/-- Against the table of the longer package the field is linked to a place where nothing stands; the
links are written all the same. -/
theorem links_fit_longerShelf :
    collect [shelf] (.listing [longerShelf]) =
        .ok [.parent ⟨0, 0⟩ ⟨0, 2⟩, .field ⟨0, 0⟩ 1 ⟨0, 4⟩] ∧
      ∃ linked,
        [.parent ⟨0, 0⟩ ⟨0, 2⟩, .field ⟨0, 0⟩ 1 ⟨0, 4⟩].foldlM write? [shelf] = some linked ∧
        Package.link [shelf] (.listing [longerShelf]) = .ok linked := by
  have h : collect [shelf] (.listing [longerShelf]) =
      .ok [.parent ⟨0, 0⟩ ⟨0, 2⟩, .field ⟨0, 0⟩ 1 ⟨0, 4⟩] := by cbv
  exact ⟨h, (links_fit h).2.2⟩

end Link

end SchemaLang
