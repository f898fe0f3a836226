import SchemaLang.Proofs.Acceptance

/-!
# Packages in another order

An address depends on where packages and definitions stand, a qualified name does not.
`DefinitionId.relocate` follows the names from one list of packages into another with the same
contents, and takes sound lines to sound lines.  Nothing that makes packages acceptable depends on
their order.
-/

namespace SchemaLang

namespace Package

variable {packages others : List Package}

/-- The declared names do not depend on the order. -/
theorem typeNames_perm (hsame : (contents packages).Perm (contents others)) :
    (typeNames packages).Perm (typeNames others) := by
  rw [← map_contents_eq_typeNames, ← map_contents_eq_typeNames]
  exact hsame.map _

end Package

open Package

namespace DefinitionId

/-- The address in other packages of what has the same name there. -/
def relocate (packages others : List Package) (id : DefinitionId) : DefinitionId :=
  ((id.qualifiedName? packages).bind (NameTable.listing others).get?).getD id

variable {packages others : List Package} {id : DefinitionId}

/-- In packages of the same contents the same stands at the new address. -/
theorem declaration?_relocate (hsame : (contents packages).Perm (contents others))
    (hnames : (typeNames others).Nodup) {d : Declaration}
    (hd : id.declaration? packages = some d) :
    (id.relocate packages others).declaration? others =
      some { d with id := id.relocate packages others } := by
  -- The other packages declare the same under the same name, and their listing leads there.
  have hlisted : d ∈ declarations packages :=
    mem_declarations_iff.mpr ((id_of_declaration? hd).symm ▸ hd)
  obtain ⟨e, he, hpackage, hdefinition⟩ := mem_contents_iff.mp
    (hsame.mem_iff.mp (mem_contents_iff.mpr ⟨d, hlisted, rfl, rfl⟩))
  have hname : e.qualifiedName = d.qualifiedName := by
    rw [Declaration.qualifiedName, hpackage, hdefinition, Declaration.qualifiedName]
  have hget : (NameTable.listing others).get? d.qualifiedName = some e.id :=
    (NameTable.get?_listing_eq_some_iff hnames).mpr
      (qualifiedName?_eq_some_iff.mpr ⟨e, he, rfl, hname⟩)
  have hid : id.relocate packages others = e.id := by
    rw [relocate, qualifiedName?_eq, hd, Option.map_some, Option.bind_some, hget, Option.getD_some]
  rw [hid, mem_declarations_iff.mp he, ← hpackage, ← hdefinition]

theorem qualifiedName?_relocate (hsame : (contents packages).Perm (contents others))
    (hnames : (typeNames others).Nodup) {name : String}
    (hname : id.qualifiedName? packages = some name) :
    (id.relocate packages others).qualifiedName? others = some name := by
  rw [qualifiedName?_eq, Option.map_eq_some_iff] at hname ⊢
  obtain ⟨d, hd, rfl⟩ := hname
  exact ⟨_, declaration?_relocate hsame hnames hd, rfl⟩

theorem struct?_relocate (hsame : (contents packages).Perm (contents others))
    (hnames : (typeNames others).Nodup) {s : Struct} (hs : id.struct? packages = some s) :
    (id.relocate packages others).struct? others = some s := by
  obtain ⟨d, hd, hdef⟩ := struct?_eq_some_iff.mp hs
  exact struct?_eq_some_iff.mpr ⟨_, declaration?_relocate hsame hnames hd, hdef⟩

/-- What stands somewhere in packages has a name. -/
theorem exists_qualifiedName? {s : Struct} (hs : id.struct? packages = some s) :
    ∃ name, id.qualifiedName? packages = some name := by
  obtain ⟨d, hd, -⟩ := struct?_eq_some_iff.mp hs
  exact ⟨d.qualifiedName, by rw [qualifiedName?_eq, hd, Option.map_some]⟩

/-- Going to the other packages and coming back leads to the same address. -/
theorem relocate_relocate (hsame : (contents packages).Perm (contents others))
    (hnames : (typeNames packages).Nodup) {s : Struct} (hs : id.struct? packages = some s) :
    (id.relocate packages others).relocate others packages = id := by
  obtain ⟨name, hname⟩ := exists_qualifiedName? hs
  have hothers := (typeNames_perm hsame).nodup_iff.mp hnames
  have hthere := qualifiedName?_relocate hsame hothers hname
  exact eq_of_qualifiedName? hnames (qualifiedName?_relocate hsame.symm hnames hthere) hname

end DefinitionId

namespace Inheritance

variable {packages others : List Package}

theorem Extends.relocate (hsame : (contents packages).Perm (contents others))
    (hnames : (typeNames others).Nodup) {child parent : DefinitionId}
    (h : Extends packages child parent) :
    Extends others (child.relocate packages others) (parent.relocate packages others) := by
  obtain ⟨d, s, reference, hd, hdef, hparent, name, hstands, hname⟩ := h
  exact ⟨_, s, reference, DefinitionId.declaration?_relocate hsame hnames hd, hdef, hparent, name,
    hstands, DefinitionId.qualifiedName?_relocate hsame hnames hname⟩

/-- A sound line is one in packages of the same contents, too. -/
theorem SoundLine.relocate (hsame : (contents packages).Perm (contents others))
    (hnames : (typeNames packages).Nodup) {line : List DefinitionId}
    (h : SoundLine packages (Extends packages) line) :
    SoundLine others (Extends others) (line.map (DefinitionId.relocate packages others)) := by
  have hothers := (typeNames_perm hsame).nodup_iff.mp hnames
  obtain ⟨isClass, halike⟩ := h.alike
  have hstruct : ∀ id ∈ line, ∃ s, id.struct? packages = some s ∧
      (id.relocate packages others).struct? others = some s := by
    intro id hid
    obtain ⟨s, hs, -⟩ := Option.map_eq_some_iff.mp (halike id hid)
    exact ⟨s, hs, DefinitionId.struct?_relocate hsame hothers hs⟩
  constructor
  case linked =>
    rw [List.isChain_map]
    exact h.linked.imp fun _ _ hup => hup.relocate hsame hothers
  case alike =>
    refine ⟨isClass, List.forall_mem_map.mpr fun id hid => ?_⟩
    obtain ⟨s, hs, hthere⟩ := hstruct id hid
    rw [hthere, ← hs]
    exact halike id hid
  case distinct =>
    -- Whatever comes to one address comes from one, for it can be sent back.
    refine h.distinct.map_on fun a ha b hb hab => ?_
    obtain ⟨s, hs, -⟩ := hstruct a ha
    obtain ⟨t, ht, -⟩ := hstruct b hb
    rw [← DefinitionId.relocate_relocate hsame hnames hs, hab,
      DefinitionId.relocate_relocate hsame hnames ht]
  case rooted =>
    rw [List.getLast?_map]
    intro id hid
    obtain ⟨last, hlast, rfl⟩ := Option.map_eq_some_iff.mp hid
    obtain ⟨s, hs, hthere⟩ := hstruct last (List.mem_of_getLast? hlast)
    rw [hthere, ← hs]
    exact h.rooted last hlast
  case unhidden =>
    rw [List.pairwise_map]
    refine h.unhidden.imp_of_mem fun {a b} ha hb hdisjoint => ?_
    obtain ⟨s, hs, hsthere⟩ := hstruct a ha
    obtain ⟨t, ht, htthere⟩ := hstruct b hb
    rw [memberNames, memberNames, hsthere, htthere, ← hs, ← ht]
    exact hdisjoint

end Inheritance

/-- Packages are acceptable if packages of the same contents are, and the packages themselves have
distinct names and attributes that apply. -/
theorem Package.Acceptable.of_contents_perm {packages others : List Package}
    (h : Acceptable packages) (hsame : (contents packages).Perm (contents others))
    (hpackages : (others.map Package.name).Nodup)
    (hattributes : ∀ package ∈ others, package.AttributesApply) : Acceptable others := by
  have hnames := typeNames_perm hsame
  refine ⟨hpackages, hnames.nodup_iff.mp h.typeNames, hattributes, ?references, ?lineages⟩
  case references =>
    have hreferences := h.qualifiedIn_mem
    simp only [Reference.exists_standsFor_iff]
    rw [forall_contents_iff (P := fun name d => ∀ reference ∈ d.references,
      reference.qualifiedIn name ∈ Package.typeNames packages)] at hreferences
    rw [forall_contents_iff (P := fun name d => ∀ reference ∈ d.references,
      reference.qualifiedIn name ∈ Package.typeNames others)]
    intro entry hentry reference hreference
    exact hnames.mem_iff.mp (hreferences entry (hsame.mem_iff.mpr hentry) reference hreference)
  case lineages =>
    intro id s hs hparent
    have hthere := DefinitionId.struct?_relocate hsame.symm h.typeNames hs
    -- The line of the struct is found at its old address and sent to the new one.
    obtain ⟨line, hhead, hline⟩ := h.lineages _ s hthere hparent
    refine ⟨line.map (DefinitionId.relocate packages others), ?_,
      hline.relocate hsame h.typeNames⟩
    rw [List.head?_map, hhead, Option.map_some,
      DefinitionId.relocate_relocate hsame.symm (hnames.nodup_iff.mp h.typeNames) hs]

end SchemaLang
