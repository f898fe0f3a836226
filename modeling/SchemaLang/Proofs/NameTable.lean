import SchemaLang.Proofs.Declarations
import SchemaLang.Proofs.Success

/-!
# What a table of types holds

A table is built exactly if all package names and all qualified names are distinct, and it then
leads from every qualified name to the address it belongs to.
-/

namespace SchemaLang

namespace NameTable

/-- With distinct keys a look-up finds whatever is in the list. -/
theorem lookup_eq_some_iff_mem {β : Type} {l : List (String × β)} (h : (l.map Prod.fst).Nodup)
    {key : String} {value : β} : l.lookup key = some value ↔ (key, value) ∈ l := by
  induction l with
  | nil => simp
  | cons entry l ih =>
      obtain ⟨k, v⟩ := entry
      rw [List.map_cons, List.nodup_cons] at h
      by_cases hkey : key = k
      · subst hkey
        have hnot : (key, value) ∉ l := fun hv => h.1 (List.mem_map.mpr ⟨_, hv, rfl⟩)
        simp [hnot, eq_comm]
      · have hbeq : (key == k) = false := beq_false_of_ne hkey
        simp [List.lookup_cons, hbeq, ih h.2, hkey]

/-- A look-up finds something if the key is in the list. -/
theorem lookup_isSome_iff_mem {β : Type} {l : List (String × β)} {key : String} :
    (l.lookup key).isSome = true ↔ key ∈ l.map Prod.fst := by
  rw [List.lookup_isSome_iff, List.mem_map]
  simp only [beq_iff_eq, eq_comm (a := key)]

/-- Names are distinct if each is new where it is added. -/
theorem nodup_append_cons_iff {names more : List String} {name : String} :
    (names ++ name :: more).Nodup ↔ name ∉ names ∧ ((names ++ [name]) ++ more).Nodup := by
  rw [List.nodup_middle, List.nodup_cons, List.mem_append, List.append_assoc,
    List.singleton_append, List.nodup_middle, List.nodup_cons, List.mem_append, not_or]
  tauto

theorem nodup_append_singleton {names : List String} {name : String} (h : names.Nodup)
    (hnew : name ∉ names) : (names ++ [name]).Nodup := by
  rw [← List.concat_eq_append]
  exact h.concat hnew

/-- Adding a definition succeeds if its name is new. -/
theorem succeedsIff_addDefinition (package : Package) (i : Nat) (table : NameTable)
    (entry : Definition × Nat) :
    SucceedsIff (addDefinition package i table entry)
      (package.qualify entry.1.name ∉ table.types.map Prod.fst)
      { table with types := table.types ++ [(package.qualify entry.1.name, ⟨i, entry.2⟩)] } := by
  intro t
  rw [addDefinition, ← lookup_isSome_iff_mem, ← get?]
  by_cases h : (table.get? (package.qualify entry.1.name)).isSome = true
  · simp [h]
  · simp only [h, Bool.false_eq_true, if_false, not_false_eq_true, true_and, Except.ok.injEq]
    exact eq_comm

/-- Adding definitions in turn succeeds if their names are new and distinct. -/
theorem succeedsIff_addDefinitions (package : Package) (i : Nat)
    (entries : List (Definition × Nat)) (table : NameTable)
    (h : (table.types.map Prod.fst).Nodup) :
    SucceedsIff (entries.foldlM (addDefinition package i) table)
      (table.types.map Prod.fst ++ entries.map fun e => package.qualify e.1.name).Nodup
      { table with types := table.types ++
          entries.map fun e => (package.qualify e.1.name, ⟨i, e.2⟩) } := by
  induction entries generalizing table with
  | nil => exact (SucceedsIff.pure table).congr (by simpa using h) fun _ => by simp
  | cons entry entries ih =>
      rw [List.foldlM_cons]
      -- The table of the rest has one more name, and it is distinct from the others.
      refine ((succeedsIff_addDefinition package i table entry).bind fun hnew => ih _ ?_).congr
        ?_ fun _ => ?_
      · rw [List.map_append]
        exact nodup_append_singleton h hnew
      · rw [List.map_append, List.map_cons]
        exact nodup_append_cons_iff.symm
      · simp

/-- Adding a package succeeds if its name is new, and so are the names it declares. -/
theorem succeedsIff_addPackage (table : NameTable) (entry : Package × Nat)
    (h : (table.types.map Prod.fst).Nodup) :
    SucceedsIff (addPackage table entry)
      (entry.1.name ∉ table.packages.map Prod.fst ∧
        (table.types.map Prod.fst ++
          entry.1.definitions.map fun d => entry.1.qualify d.name).Nodup)
      ⟨table.packages ++ [(entry.1.name, entry.2)],
        table.types ++ entry.1.definitions.zipIdx.map fun e =>
          (entry.1.qualify e.1.name, ⟨entry.2, e.2⟩)⟩ := by
  intro t
  have hrest := succeedsIff_addDefinitions entry.1 entry.2 entry.1.definitions.zipIdx
    { table with packages := table.packages ++ [(entry.1.name, entry.2)] } h t
  rw [Package.map_zipIdx_fst (fun d : Definition => entry.1.qualify d.name)] at hrest
  rw [addPackage, ← lookup_isSome_iff_mem, ← packageIndex?]
  by_cases hold : (table.packageIndex? entry.1.name).isSome = true
  · simp [hold]
  · simp only [hold, Bool.false_eq_true, if_false, not_false_eq_true, true_and]
    exact hrest

/-- Adding packages in turn succeeds if all their names and all names they declare are new and
distinct. -/
theorem succeedsIff_addPackages (entries : List (Package × Nat)) (table : NameTable)
    (hpackages : (table.packages.map Prod.fst).Nodup) (htypes : (table.types.map Prod.fst).Nodup) :
    SucceedsIff (entries.foldlM addPackage table)
      ((table.packages.map Prod.fst ++ entries.map fun e => e.1.name).Nodup ∧
        (table.types.map Prod.fst ++
          entries.flatMap fun e => e.1.definitions.map fun d => e.1.qualify d.name).Nodup)
      ⟨table.packages ++ entries.map fun e => (e.1.name, e.2),
        table.types ++ entries.flatMap fun e => e.1.definitions.zipIdx.map fun d =>
          (e.1.qualify d.1.name, ⟨e.2, d.2⟩)⟩ := by
  induction entries generalizing table with
  | nil =>
      refine (SucceedsIff.pure table).congr ?_ fun _ => by simp
      simp [hpackages, htypes]
  | cons entry entries ih =>
      rw [List.foldlM_cons]
      have hkeys : (entry.1.definitions.zipIdx.map fun e =>
          (entry.1.qualify e.1.name, (⟨entry.2, e.2⟩ : DefinitionId))).map Prod.fst =
          entry.1.definitions.map fun d => entry.1.qualify d.name := by
        rw [List.map_map]
        exact Package.map_zipIdx_fst (fun d : Definition => entry.1.qualify d.name) _ 0
      refine ((succeedsIff_addPackage table entry htypes).bind fun hnew => ih _ ?_ ?_).congr
        ?_ fun _ => ?_
      · rw [List.map_append]
        exact nodup_append_singleton hpackages hnew.1
      · rw [List.map_append, hkeys]
        exact hnew.2
      · rw [List.map_append, List.map_append, hkeys, List.map_singleton, List.map_cons,
          List.flatMap_cons, nodup_append_cons_iff, ← List.append_assoc]
        -- The names of this package are distinct already if they are so among all.
        refine ⟨fun ⟨hnew, hnames, htypes⟩ => ⟨⟨hnew.1, hnames⟩, htypes⟩,
          fun ⟨⟨hnew, hnames⟩, htypes⟩ => ⟨⟨hnew, ?_⟩, hnames, htypes⟩⟩
        exact (List.nodup_append.mp htypes).1
      · simp

/-- The table that lists packages and declarations as they stand. -/
def listing (packages : List Package) : NameTable :=
  ⟨packages.zipIdx.map fun entry => (entry.1.name, entry.2),
    (Package.declarations packages).map fun d => (d.qualifiedName, d.id)⟩

/-- A table is built exactly if package names and qualified names are distinct; it is then the
listing of what is declared. -/
theorem succeedsIff_build (packages : List Package) :
    SucceedsIff (build packages)
      ((packages.map Package.name).Nodup ∧ (Package.typeNames packages).Nodup)
      (listing packages) := by
  refine (succeedsIff_addPackages packages.zipIdx empty List.nodup_nil List.nodup_nil).congr
    ?_ fun _ => ?_
  · show ((packages.zipIdx.map fun e => e.1.name).Nodup ∧ (packages.zipIdx.flatMap fun e =>
      e.1.definitions.map fun d => e.1.qualify d.name).Nodup) ↔ _
    rw [Package.map_zipIdx_fst, Package.flatMap_zipIdx_fst
      (fun package : Package => package.definitions.map fun d => package.qualify d.name)]
    rfl
  · rw [listing, Package.declarations, List.map_flatMap]
    simp only [List.map_map]
    rfl

/-- The names a listing knows are the declared ones. -/
theorem map_fst_listing (packages : List Package) :
    (listing packages).types.map Prod.fst = Package.typeNames packages := by
  rw [← Package.map_qualifiedName_declarations]
  exact List.map_map

variable {packages : List Package}

/-- Where names are distinct, a listing leads to the address that has the name. -/
theorem get?_listing_eq_some_iff (hnames : (Package.typeNames packages).Nodup) {name : String}
    {id : DefinitionId} :
    (listing packages).get? name = some id ↔ id.qualifiedName? packages = some name := by
  rw [get?, lookup_eq_some_iff_mem (by rwa [map_fst_listing]),
    DefinitionId.qualifiedName?_eq_some_iff]
  simp only [listing, List.mem_map, Prod.mk.injEq]
  exact exists_congr fun d => and_congr_right fun _ => and_comm

/-- A listing knows exactly the declared names. -/
theorem get?_listing_isSome_iff {name : String} :
    ((listing packages).get? name).isSome = true ↔ name ∈ Package.typeNames packages := by
  rw [get?, lookup_isSome_iff_mem, map_fst_listing]

/-- A reference is found under its qualified name or not at all. -/
theorem find_eq_ok_iff {table : NameTable} {reference : Reference} {package : String}
    {place : Location} {id : DefinitionId} :
    table.find reference package place = .ok id ↔
      table.get? (reference.qualifiedIn package) = some id := by
  rw [find]
  cases table.get? (reference.qualifiedIn package) <;> simp

end NameTable

end SchemaLang
