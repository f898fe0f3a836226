import Mathlib
import SchemaLang.Proofs.NameTable
import SchemaLang.Proofs.TableWalk

/-!
# Tables and declarations

A table and the declarations it was built from tell the same: every qualified name leads to the
address of its declaration and back.  Where a name is declared again there is no table, and the
error is about the first item, in the order of the sources, whose name was taken before.
-/

namespace SchemaLang

/-! ### Loops that stop -/

/-- A loop that carries a state stops with an error exactly if one of its rounds does, all rounds
before it having passed. -/
theorem foldlM_eq_error_iff {ε α β : Type} {f : β → α → Except ε β} {l : List α} {b : β} {e : ε} :
    l.foldlM f b = .error e ↔ ∃ before a after c, l = before ++ a :: after ∧
      before.foldlM f b = .ok c ∧ f c a = .error e := by
  constructor
  · intro h
    induction l generalizing b with
    | nil => cases h
    | cons a l ih =>
        rw [List.foldlM_cons] at h
        cases hround : f b a with
        | error e' =>
            rw [hround] at h
            cases h
            exact ⟨[], a, l, b, rfl, rfl, hround⟩
        | ok next =>
            rw [hround] at h
            obtain ⟨before, x, after, c, rfl, hbefore, hx⟩ := ih h
            refine ⟨a :: before, x, after, c, rfl, ?_, hx⟩
            rw [List.foldlM_cons, hround]
            exact hbefore
  · rintro ⟨before, a, after, c, rfl, hbefore, ha⟩
    rw [List.foldlM_append, hbefore]
    show (a :: after).foldlM f c = .error e
    rw [List.foldlM_cons, ha]
    rfl

/-- A loop over the pieces of each element is a loop over all pieces. -/
theorem foldlM_flatMap {ε α β γ : Type} (f : β → γ → Except ε β) (pieces : α → List γ)
    (l : List α) (b : β) :
    (l.flatMap pieces).foldlM f b = l.foldlM (fun c a => (pieces a).foldlM f c) b := by
  induction l generalizing b with
  | nil => rfl
  | cons a l ih =>
      rw [List.flatMap_cons, List.foldlM_append, List.foldlM_cons]
      exact congrArg _ (funext fun c => ih c)

namespace NameTable

/-! ### Items of a table -/

/-- What a table takes up, one after another: packages, and behind each its definitions. -/
inductive Item where
  | package (p : Package) (index : Nat)
  | definition (p : Package) (d : Definition) (id : DefinitionId)

namespace Item

/-- The name that no other item may have.  Packages and types do not share their names. -/
def key : Item → String ⊕ String
  | .package p _ => .inl p.name
  | .definition p d _ => .inr (p.qualify d.name)

/-- The error of an item whose name was taken before. -/
def redeclared : Item → SemanticError
  | .package p _ => .duplicatePackage p.name p.location
  | .definition p d _ => .duplicateType d.kind (p.qualify d.name) d.location

/-- The entry that a package makes in the table of packages. -/
def packagePlace? : Item → Option (String × Nat)
  | .package p index => some (p.name, index)
  | .definition _ _ _ => none

/-- The entry that a definition makes in the table of types. -/
def typePlace? : Item → Option (String × DefinitionId)
  | .package _ _ => none
  | .definition p d id => some (p.qualify d.name, id)

end Item

/-- The items of packages, in the order of the sources. -/
def items (packages : List Package) : List Item :=
  packages.zipIdx.flatMap fun entry => .package entry.1 entry.2 ::
    entry.1.definitions.zipIdx.map fun d => .definition entry.1 d.1 ⟨entry.2, d.2⟩

/-- Takes up one item; its name must be new. -/
def enter (table : NameTable) : Item → Except SemanticError NameTable
  | .package p index =>
      if (table.packageIndex? p.name).isSome then .error (.duplicatePackage p.name p.location)
      else .ok { table with packages := table.packages ++ [(p.name, index)] }
  | .definition p d id => addDefinition p id.package table (d, id.element)

/-- The table of the given items. -/
def ofItems (items : List Item) : NameTable :=
  ⟨items.filterMap Item.packagePlace?, items.filterMap Item.typePlace?⟩

/-- Building a table is taking up item after item. -/
theorem build_eq_foldlM_enter (packages : List Package) :
    build packages = (items packages).foldlM enter empty := by
  rw [items, foldlM_flatMap, build]
  refine congrArg (fun round => packages.zipIdx.foldlM round empty) ?_
  funext table entry
  rw [List.foldlM_cons, addPackage]
  by_cases hold : (table.packageIndex? entry.1.name).isSome = true
  · rw [if_pos hold, enter, if_pos hold]
    rfl
  · rw [if_neg hold, enter, if_neg hold]
    show _ = (entry.1.definitions.zipIdx.map fun d =>
      Item.definition entry.1 d.1 ⟨entry.2, d.2⟩).foldlM enter _
    rw [List.foldlM_map]
    rfl

/-! ### Entering -/

/-- The names of the entries that items make are their names. -/
theorem mem_filterMap_iff {β : Type} {place? : Item → Option (String × β)}
    {tag : String → String ⊕ String}
    (hentry : ∀ item name, (place? item).map Prod.fst = some name ↔ item.key = tag name)
    {items : List Item} {name : String} :
    name ∈ (items.filterMap place?).map Prod.fst ↔ tag name ∈ items.map Item.key := by
  rw [List.map_filterMap, List.mem_filterMap, List.mem_map]
  exact exists_congr fun item => and_congr_right fun _ => hentry item name

theorem mem_packages_ofItems {items : List Item} {name : String} :
    name ∈ (ofItems items).packages.map Prod.fst ↔ .inl name ∈ items.map Item.key := by
  apply mem_filterMap_iff
  intro item name
  cases item <;> simp [Item.packagePlace?, Item.key]

theorem mem_types_ofItems {items : List Item} {name : String} :
    name ∈ (ofItems items).types.map Prod.fst ↔ .inr name ∈ items.map Item.key := by
  apply mem_filterMap_iff
  intro item name
  cases item <;> simp [Item.typePlace?, Item.key]

theorem ofItems_append_package (items : List Item) (p : Package) (index : Nat) :
    ofItems (items ++ [.package p index]) =
      { ofItems items with packages := (ofItems items).packages ++ [(p.name, index)] } := by
  simp only [ofItems, List.filterMap_append]
  congr 1
  exact List.append_nil _

theorem ofItems_append_definition (items : List Item) (p : Package) (d : Definition)
    (id : DefinitionId) :
    ofItems (items ++ [.definition p d id]) =
      { ofItems items with types := (ofItems items).types ++ [(p.qualify d.name, id)] } := by
  simp only [ofItems, List.filterMap_append]
  congr 1
  exact List.append_nil _

/-- An item whose name was not taken is added to the table. -/
theorem enter_of_not_mem {items : List Item} {item : Item}
    (hnew : item.key ∉ items.map Item.key) :
    enter (ofItems items) item = .ok (ofItems (items ++ [item])) := by
  cases item with
  | package p index =>
      have hindex : ((ofItems items).packageIndex? p.name).isSome = false := by
        rw [packageIndex?, Bool.eq_false_iff, ne_eq, lookup_isSome_iff_mem, mem_packages_ofItems]
        exact hnew
      rw [enter, hindex, ofItems_append_package]
      rfl
  | definition p d id =>
      have hget : ((ofItems items).get? (p.qualify d.name)).isSome = false := by
        rw [get?, Bool.eq_false_iff, ne_eq, lookup_isSome_iff_mem, mem_types_ofItems]
        exact hnew
      rw [enter, addDefinition, hget, ofItems_append_definition]
      rfl

/-- An item whose name was taken is an error. -/
theorem enter_of_mem {items : List Item} {item : Item} (hold : item.key ∈ items.map Item.key) :
    enter (ofItems items) item = .error item.redeclared := by
  cases item with
  | package p index =>
      have hindex : ((ofItems items).packageIndex? p.name).isSome = true := by
        rw [packageIndex?, lookup_isSome_iff_mem, mem_packages_ofItems]
        exact hold
      rw [enter, if_pos hindex, Item.redeclared]
  | definition p d id =>
      have hget : ((ofItems items).get? (p.qualify d.name)).isSome = true := by
        rw [get?, lookup_isSome_iff_mem, mem_types_ofItems]
        exact hold
      rw [enter, addDefinition, if_pos hget, Item.redeclared]

/-- Items are taken up one after another if no two of them have one name. -/
theorem succeedsIff_foldlM_enter (items : List Item) :
    SucceedsIff (items.foldlM enter empty) (items.map Item.key).Nodup (ofItems items) := by
  -- The last item is taken up behind all others, which are in the table by then.
  induction items using List.reverseRecOn with
  | nil => exact (SucceedsIff.pure empty).congr (by simp) fun _ => rfl
  | append_singleton items item ih =>
      rw [List.foldlM_append]
      have hlast : SucceedsIff ([item].foldlM enter (ofItems items))
          (item.key ∉ items.map Item.key) (ofItems (items ++ [item])) := by
        rw [List.foldlM_cons]
        by_cases hold : item.key ∈ items.map Item.key
        · rw [enter_of_mem hold]
          exact SucceedsIff.error fun hnew => hnew hold
        · rw [enter_of_not_mem hold]
          exact (SucceedsIff.pure _).congr (by simp [hold]) fun _ => rfl
      refine (ih.bind fun _ => hlast).congr ?_ fun _ => rfl
      rw [List.map_append, List.map_singleton, List.nodup_append_comm, List.singleton_append,
        List.nodup_cons, and_comm]

/-! ### What a table tells -/

/-- A table and the declarations of packages tell the same. -/
structure Lists (packages : List Package) (table : NameTable) : Prop where
  /-- A name leads to the address of what has that name. -/
  types : ∀ name (id : DefinitionId),
    table.get? name = some id ↔ id.qualifiedName? packages = some name
  /-- There is one entry for each definition. -/
  size : table.size = (packages.flatMap Package.definitions).length
  /-- A package is found at its place. -/
  packages : ∀ name index,
    table.packageIndex? name = some index ↔ packages[index]?.map Package.name = some name

/-- The error is about the first item whose name was taken before. -/
def FirstRedeclared (packages : List Package) (e : SemanticError) : Prop :=
  ∃ before item after, items packages = before ++ item :: after ∧
    (before.map Item.key).Nodup ∧ item.key ∈ before.map Item.key ∧ e = item.redeclared

variable {packages : List Package}

theorem size_listing (packages : List Package) :
    (listing packages).size = (packages.flatMap Package.definitions).length := by
  have hkeys := congrArg List.length (map_fst_listing packages)
  rw [List.length_map, Package.typeNames, List.length_flatMap] at hkeys
  simpa only [size, List.length_map, List.length_flatMap] using hkeys

theorem packageIndex?_listing_eq_some_iff (hnames : (packages.map Package.name).Nodup)
    {name : String} {index : Nat} :
    (listing packages).packageIndex? name = some index ↔
      packages[index]?.map Package.name = some name := by
  have hkeys : ((listing packages).packages.map Prod.fst).Nodup := by
    rw [listing, List.map_map]
    exact (Package.map_zipIdx_fst Package.name packages 0).symm ▸ hnames
  rw [packageIndex?, lookup_eq_some_iff_mem hkeys, listing, List.mem_map, Option.map_eq_some_iff]
  constructor
  · rintro ⟨entry, hentry, heq⟩
    cases heq
    exact ⟨entry.1, List.mem_zipIdx_iff_getElem?.mp hentry, rfl⟩
  · rintro ⟨package, hpackage, rfl⟩
    exact ⟨(package, index), List.mem_zipIdx_iff_getElem?.mpr hpackage, rfl⟩

/-- Where names are distinct, the listing tells what the declarations tell. -/
theorem lists_listing (hpackages : (packages.map Package.name).Nodup)
    (htypes : (Package.typeNames packages).Nodup) : (listing packages).Lists packages where
  types _ _ := get?_listing_eq_some_iff htypes
  size := size_listing packages
  packages _ _ := packageIndex?_listing_eq_some_iff hpackages

/-- Building fails with the error of the first item whose name was taken before. -/
theorem build_eq_error_iff {e : SemanticError} :
    build packages = .error e ↔ FirstRedeclared packages e := by
  rw [build_eq_foldlM_enter, foldlM_eq_error_iff, FirstRedeclared]
  refine exists_congr fun before => exists_congr fun item => exists_congr fun after => ?_
  constructor
  · rintro ⟨table, hitems, hbefore, herror⟩
    obtain ⟨hdistinct, rfl⟩ := (succeedsIff_foldlM_enter before).of_eq_ok hbefore
    by_cases hold : item.key ∈ before.map Item.key
    · rw [enter_of_mem hold] at herror
      exact ⟨hitems, hdistinct, hold, (Except.error.inj herror).symm⟩
    · rw [enter_of_not_mem hold] at herror
      cases herror
  · rintro ⟨hitems, hdistinct, hold, rfl⟩
    have hbefore := (succeedsIff_foldlM_enter before _).mpr ⟨hdistinct, rfl⟩
    exact ⟨ofItems before, hitems, hbefore, enter_of_mem hold⟩

/-- A table is built, by a visitor that counts or by position, exactly if package names and
qualified names are distinct; it then leads from each name to its declaration and back.  If none is
built, the first item in the order of the sources whose name was taken before is to blame. -/
theorem build_bijective (packages : List Package) :
    Finder.build packages = build packages ∧
    ((∃ table, build packages = .ok table) ↔
      (packages.map Package.name).Nodup ∧ (Package.typeNames packages).Nodup) ∧
    (∀ table, build packages = .ok table → table.Lists packages) ∧
    ∀ e, build packages = .error e ↔ FirstRedeclared packages e := by
  refine ⟨Finder.build_eq packages, (succeedsIff_build packages).exists_iff, ?_,
    fun e => build_eq_error_iff⟩
  intro table h
  obtain ⟨⟨hpackages, htypes⟩, rfl⟩ := (succeedsIff_build packages).of_eq_ok h
  exact lists_listing hpackages htypes

/-- Two packages with one type each, whose names are `a.b` and `C`, or `a` and the one given. -/
def dotted (name : String) : List Package :=
  let place : Location := ⟨0, 1, 1, ""⟩
  [⟨"a.b", [], [.struct ⟨"C", true, none, none, [], [], place⟩], [], place⟩,
    ⟨"a", [], [.enumeration ⟨name, [], [], ⟨20, 2, 3, ""⟩⟩], [], place⟩]

/-- With `C` in both packages there is a table.  With `b.C` in the second one the qualified names
are the same, and the second declaration is to blame. -/
theorem build_bijective_dotted :
    (∃ table, build (dotted "C") = .ok table ∧ table.Lists (dotted "C")) ∧
    FirstRedeclared (dotted "b.C") (.duplicateType "Enum" "a.b.C" ⟨20, 2, 3, ""⟩) := by
  have hbuild : build (dotted "C") = .ok (listing (dotted "C")) := by cbv
  have herror : build (dotted "b.C") =
      .error (.duplicateType "Enum" "a.b.C" ⟨20, 2, 3, ""⟩) := by cbv
  exact ⟨⟨_, hbuild, (build_bijective (dotted "C")).2.2.1 _ hbuild⟩,
    ((build_bijective (dotted "b.C")).2.2.2 _).mp herror⟩

end NameTable

end SchemaLang
