import SchemaLang.Proofs.Grouping
import SchemaLang.Proofs.Parsing
import SchemaLang.Proofs.Redeclaration
import SchemaLang.Proofs.Shows

/-!
# Dotted names of packages

The name of a package may have dots in it, the name of a definition may not.  So the last dot of a
qualified name stands between the two, and no two packages declare one qualified name, nor does a
name without a dot ever lead into another package than the one it is written for.
-/

namespace SchemaLang

/-- A name without dots. -/
def IsSimple (name : String) : Prop :=
  '.' ∉ name.toList

instance (name : String) : Decidable (IsSimple name) :=
  inferInstanceAs (Decidable ('.' ∉ name.toList))

/-- A qualified name is taken apart at its last dot. -/
theorem IsSimple.qualified_inj {package other name word : String} (hname : IsSimple name)
    (hword : IsSimple word) (h : package ++ "." ++ name = other ++ "." ++ word) :
    package = other ∧ name = word := by
  -- From behind, the dot is the first character that is no part of the simple name.
  have hbehind : name.toList.reverse ++ '.' :: package.toList.reverse =
      word.toList.reverse ++ '.' :: other.toList.reverse := by
    have hreverse := congrArg (fun s : String => s.toList.reverse) h
    simpa using hreverse
  obtain ⟨hsame, hfront⟩ := append_inj_of_class (p := fun c => c ≠ '.')
    (by simpa using fun c hc => ne_of_mem_of_not_mem hc hname)
    (by simpa using fun c hc => ne_of_mem_of_not_mem hc hword) (by simp) (by simp) hbehind
  exact ⟨String.toList_inj.mp (List.reverse_inj.mp (List.cons.inj hfront).2),
    String.toList_inj.mp (List.reverse_inj.mp hsame)⟩

/-- A reference by a simple name means a type of the package it is written in. -/
theorem Reference.qualifiedIn_of_isSimple {reference : Reference} (h : IsSimple reference.name)
    (package : String) : reference.qualifiedIn package = package ++ "." ++ reference.name := by
  have hbare : reference.isQualified = false := by
    simpa [isQualified, IsSimple] using h
  rw [qualifiedIn, hbare]
  rfl

namespace Package

/-- All definitions have names without dots. -/
def DeclaresSimple (package : Package) : Prop :=
  ∀ d ∈ package.definitions, IsSimple d.name

/-- Two definitions have the same name. -/
def Redeclares (package : Package) : Prop :=
  ∃ first later, [first, later].Sublist package.definitions ∧ first.name = later.name

/-! ### What is parsed -/

theorem isSimple_item (x : Grammar.Attributes × Grammar.Element) {d : Definition}
    (h : Grammar.item.meaning x = .defined d) : IsSimple d.name := by
  obtain ⟨decoration, e⟩ := x
  cases e with
  | imported tree => cases h
  | struct tree =>
      cases h
      exact (Grammar.kind_name tree.name).2
  | enumeration tree =>
      cases h
      exact (Grammar.kind_name tree.name).2

/-- The definitions that are read from a source have simple names. -/
theorem declaresSimple_of_parse {text source : String} {package : Package}
    (h : parse text source = .ok package) : package.DeclaresSimple := by
  obtain ⟨tree, -, -, rfl⟩ := parse_eq_ok_iff.mp h
  refine List.foldlRecOn (motive := DeclaresSimple) _ _ (fun d hd => nomatch hd) ?_
  intro package hpackage item hitem
  obtain ⟨x, -, rfl⟩ := List.mem_map.mp hitem
  cases hmeaning : Grammar.item.meaning x with
  | imported i => exact hpackage
  | defined d =>
      exact List.forall_mem_append.mpr ⟨hpackage,
        List.forall_mem_singleton.mpr (isSimple_item x hmeaning)⟩

theorem declaresSimple_merge {fragments : List Package}
    (h : ∀ fragment ∈ fragments, fragment.DeclaresSimple) :
    ∀ package ∈ merge fragments, package.DeclaresSimple :=
  (forall_mem_merge_iff (fun package fragment => by
    rw [DeclaresSimple, append, List.forall_mem_append]
    rfl) fragments).mpr h

/-! ### Distinct names -/

/-- Packages of distinct names have no qualified name in common. -/
theorem nodup_typeNames_iff {packages : List Package} (hnames : (packages.map name).Nodup)
    (hsimple : ∀ package ∈ packages, package.DeclaresSimple) :
    (typeNames packages).Nodup ↔ ∀ package ∈ packages, ¬ package.Redeclares := by
  have hapart : packages.Pairwise (Function.onFun List.Disjoint fun package : Package =>
      package.definitions.map fun d => package.qualify d.name) := by
    refine (List.pairwise_map.mp hnames).imp_of_mem fun {a b} ha hb hne => ?_
    intro qualified hina hinb
    obtain ⟨d, hd, rfl⟩ := List.mem_map.mp hina
    obtain ⟨e, he, hsame⟩ := List.mem_map.mp hinb
    exact hne ((hsimple a ha d hd).qualified_inj (hsimple b hb e he) hsame.symm).1
  rw [typeNames, List.nodup_flatMap, and_iff_left hapart]
  refine forall₂_congr fun package hpackage => ?_
  rw [List.Nodup, List.pairwise_map, List.pairwise_iff_forall_sublist]
  constructor
  · rintro h ⟨first, later, hsub, hsame⟩
    exact h hsub (congrArg package.qualify hsame)
  · intro h first later hsub hsame
    have hmem (d : Definition) (hd : d ∈ [first, later]) :=
      hsimple package hpackage d (hsub.subset hd)
    exact h ⟨first, later, hsub,
      ((hmem first (by simp)).qualified_inj (hmem later (by simp)) hsame).2⟩

end Package

namespace NameTable

/-! ### Tables of merged packages -/

/-- The definition that an item is, if it belongs to the named package. -/
def Item.own? (name : String) : Item → Option Definition
  | .package _ _ => none
  | .definition p d _ => if p.name = name then some d else none

/-- The definitions among the items of one name, in the order of the sources. -/
theorem filterMap_own?_items (packages : List Package) (name : String) :
    (items packages).filterMap (Item.own? name) =
      (packages.filter fun package => package.name = name).flatMap Package.definitions := by
  have hentry (entry : Package × Nat) : (Item.package entry.1 entry.2 ::
      entry.1.definitions.zipIdx.map fun d => Item.definition entry.1 d.1 ⟨entry.2, d.2⟩).filterMap
        (Item.own? name) = if entry.1.name = name then entry.1.definitions else [] := by
    rw [List.filterMap_cons_none rfl, List.filterMap_map]
    by_cases hname : entry.1.name = name <;> simp [Item.own?, Function.comp_def, hname]
  rw [items, List.filterMap_flatMap, List.flatMap_congr fun entry _ => hentry entry,
    Package.flatMap_zipIdx_fst fun package : Package =>
      if package.name = name then package.definitions else []]
  induction packages with
  | nil => rfl
  | cons package packages ih =>
      by_cases hname : package.name = name <;> simp [hname, ih]

theorem filterMap_packagePlace?_items (packages : List Package) :
    (items packages).filterMap Item.packagePlace? =
      packages.zipIdx.map fun entry => (entry.1.name, entry.2) := by
  rw [items, List.filterMap_flatMap, List.map_eq_flatMap]
  refine List.flatMap_congr fun entry _ => ?_
  have hplace : Item.packagePlace? (.package entry.1 entry.2) = some (entry.1.name, entry.2) := rfl
  rw [List.filterMap_cons_some hplace, List.filterMap_map, List.filterMap_eq_nil_iff.mpr]
  exact fun d _ => rfl

theorem mem_items {packages : List Package} {item : Item} (h : item ∈ items packages) :
    ∃ package ∈ packages, (∃ index, item = .package package index) ∨
      ∃ d ∈ package.definitions, ∃ id, item = .definition package d id := by
  obtain ⟨entry, hentry, hitem⟩ := List.mem_flatMap.mp h
  refine ⟨entry.1, List.fst_mem_of_mem_zipIdx hentry, ?_⟩
  rcases List.mem_cons.mp hitem with rfl | hitem
  · exact .inl ⟨entry.2, rfl⟩
  · obtain ⟨d, hd, rfl⟩ := List.mem_map.mp hitem
    exact .inr ⟨d.1, List.fst_mem_of_mem_zipIdx hd, _, rfl⟩

section Merged

variable {fragments : List Package}

/-- The definitions of a merged package are all there are under its name. -/
theorem flatMap_definitions_merge {package : Package} (h : package ∈ Package.merge fragments) :
    ((Package.merge fragments).filter fun other => other.name = package.name).flatMap
      Package.definitions = package.definitions := by
  have hgathered := Package.gathered_name_of_mem_merge package h
  rw [← Package.gathered_merge, Package.gathered, Option.map_eq_some_iff] at hgathered
  obtain ⟨first, -, hpackage⟩ := hgathered
  exact congrArg Package.definitions hpackage

/-- No two items are packages of one name. -/
theorem not_sublist_packages {p q : Package} {index later : Nat} (hname : p.name = q.name) :
    ¬ [Item.package p index, Item.package q later].Sublist (items (Package.merge fragments)) := by
  intro h
  have hplaces := (h.filterMap Item.packagePlace?).map Prod.fst
  rw [filterMap_packagePlace?_items, List.map_map] at hplaces
  have hnames : [p.name, q.name].Sublist ((Package.merge fragments).map Package.name) :=
    Package.map_zipIdx_fst Package.name (Package.merge fragments) 0 ▸ hplaces
  exact List.pairwise_iff_forall_sublist.mp (Package.nodup_map_name_merge fragments) hnames hname

variable (hsimple : ∀ package ∈ Package.merge fragments, package.DeclaresSimple)

include hsimple

/-- If merged packages make no table, two definitions of one package are to blame. -/
theorem exists_redeclared {e : SemanticError}
    (h : build (Package.merge fragments) = .error e) :
    ∃ package ∈ Package.merge fragments, ∃ first later,
      [first, later].Sublist package.definitions ∧ first.name = later.name ∧
        e = .duplicateType later.kind (package.qualify later.name) later.location := by
  obtain ⟨before, item, after, hitems, -, hold, rfl⟩ := build_eq_error_iff.mp h
  obtain ⟨other, hother, hkey⟩ := List.mem_map.mp hold
  have hsub : [other, item].Sublist (items (Package.merge fragments)) := by
    rw [hitems]
    exact (List.singleton_sublist.mpr hother).append (List.singleton_sublist.mpr List.mem_cons_self)
  have hmem : other ∈ _ := hsub.subset (by simp)
  obtain ⟨p, hp, ⟨index, rfl⟩ | ⟨first, hfirst, id, rfl⟩⟩ := mem_items hmem
  all_goals
    obtain ⟨q, hq, ⟨index', rfl⟩ | ⟨later, hlater, id', rfl⟩⟩ :=
      mem_items (hsub.subset (by simp : item ∈ _))
  · exact absurd hsub (not_sublist_packages (Sum.inl.inj hkey))
  · cases hkey
  · cases hkey
  · -- The qualified names are the same, so both parts of them are.
    obtain ⟨hname, hsame⟩ := (hsimple p hp first hfirst).qualified_inj
      (hsimple q hq later hlater) (Sum.inr.inj hkey)
    refine ⟨q, hq, first, later, ?_, hsame, rfl⟩
    have hown := hsub.filterMap (Item.own? q.name)
    rw [filterMap_own?_items, flatMap_definitions_merge hq] at hown
    simpa [Item.own?, hname] using hown

/-- A simple name is found in the package it is written for. -/
theorem package_of_find {table : NameTable} (h : build (Package.merge fragments) = .ok table)
    {reference : Reference} (hreference : IsSimple reference.name) {package : String}
    {place : Location} {id : DefinitionId} (hfind : table.find reference package place = .ok id) :
    (Package.merge fragments)[id.package]?.map Package.name = some package := by
  obtain ⟨⟨-, hnames⟩, rfl⟩ := (succeedsIff_build _).of_eq_ok h
  rw [find_eq_ok_iff, get?_listing_eq_some_iff hnames,
    Reference.qualifiedIn_of_isSimple hreference, DefinitionId.qualifiedName?_eq,
    Option.map_eq_some_iff] at hfind
  obtain ⟨d, hd, hname⟩ := hfind
  obtain ⟨p, hp, hdefinition⟩ := Option.bind_eq_some_iff.mp hd
  obtain ⟨definition, hstands, rfl⟩ := Option.map_eq_some_iff.mp hdefinition
  have hdeclared := hsimple p (List.mem_of_getElem? hp) definition (List.mem_of_getElem? hstands)
  rw [hp]
  exact congrArg some (hdeclared.qualified_inj hreference hname).1

end Merged

/-- Whatever dots there are in the names of packages, a table of merged sources is missing exactly
if one package has two definitions of one name, which are then to blame, and a simple name leads
into the package it is written for. -/
theorem build_without_capture {fragments : List Package}
    (h : ∀ fragment ∈ fragments, ∃ text source, Package.parse text source = .ok fragment) :
    ((∃ e, build (Package.merge fragments) = .error e) ↔
      ∃ package ∈ Package.merge fragments, package.Redeclares) ∧
    (∀ e, build (Package.merge fragments) = .error e →
      ∃ package ∈ Package.merge fragments, ∃ first later,
        [first, later].Sublist package.definitions ∧ first.name = later.name ∧
          e = .duplicateType later.kind (package.qualify later.name) later.location) ∧
    ∀ table, build (Package.merge fragments) = .ok table → ∀ reference : Reference,
      IsSimple reference.name → ∀ package ∈ (Package.merge fragments).map Package.name,
        ∀ place id, table.find reference package place = .ok id →
          (Package.merge fragments)[id.package]?.map Package.name = some package := by
  have hsimple := Package.declaresSimple_merge fun fragment hfragment =>
    have ⟨_, _, hparse⟩ := h fragment hfragment
    Package.declaresSimple_of_parse hparse
  have hnames := Package.nodup_map_name_merge fragments
  refine ⟨⟨?_, ?_⟩, fun e he => exists_redeclared hsimple he,
    fun table htable reference hreference package _ place id hfind =>
      package_of_find hsimple htable hreference hfind⟩
  · rintro ⟨e, he⟩
    obtain ⟨package, hpackage, first, later, hsub, hsame, -⟩ := exists_redeclared hsimple he
    exact ⟨package, hpackage, first, later, hsub, hsame⟩
  · rintro ⟨package, hpackage, hredeclares⟩
    cases hbuild : build (Package.merge fragments) with
    | error e => exact ⟨e, rfl⟩
    | ok table =>
        obtain ⟨⟨-, htypes⟩, -⟩ := (succeedsIff_build _).of_eq_ok hbuild
        exact absurd hredeclares
          ((Package.nodup_typeNames_iff hnames hsimple).mp htypes package hpackage)

/-- Two packages, one named by a word and the other by a word with a dot, declare the same name. -/
theorem build_without_capture_prefix : ∃ a b table,
    Package.parse "package \"a\" struct b \x7b \x7d struct C \x7b \x7d" "" = .ok a ∧
      Package.parse "package \"a.b\" struct C \x7b C c \x7d" "" = .ok b ∧
      build (Package.merge [a, b]) = .ok table ∧
      table.find (.unlinked "C") "a.b" default = .ok ⟨1, 0⟩ ∧
      (Package.merge [a, b])[1]?.map Package.name = some "a.b" := by
  let place (offset column : UInt32) : Location := ⟨offset, 1, column, ""⟩
  let a : Package := ⟨"a", [], [.struct ⟨"b", false, none, none, [], [], place 12 13⟩,
    .struct ⟨"C", false, none, none, [], [], place 25 26⟩], [], place 0 1⟩
  let b : Package := ⟨"a.b", [], [.struct ⟨"C", false, none, none,
    [⟨.named (.unlinked "C"), "c", [], place 27 28⟩], [], place 14 15⟩], [], place 0 1⟩
  have ha : Package.parse "package \"a\" struct b \x7b \x7d struct C \x7b \x7d" "" = .ok a := by
    with_unfolding_all rfl
  have hb : Package.parse "package \"a.b\" struct C \x7b C c \x7d" "" = .ok b := by
    with_unfolding_all rfl
  have hparsed : ∀ fragment ∈ [a, b], ∃ text source,
      Package.parse text source = .ok fragment := by
    simpa using And.intro ⟨_, _, ha⟩ ⟨_, _, hb⟩
  have hbuild : build (Package.merge [a, b]) = .ok (listing (Package.merge [a, b])) := by cbv
  have hfind : (listing (Package.merge [a, b])).find (.unlinked "C") "a.b" default =
      .ok ⟨1, 0⟩ := by cbv
  exact ⟨a, b, _, ha, hb, hbuild, hfind, (build_without_capture hparsed).2.2 _ hbuild
    (.unlinked "C") (by decide) "a.b" (by decide) default _ hfind⟩

end NameTable

end SchemaLang
