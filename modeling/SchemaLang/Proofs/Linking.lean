import SchemaLang.Proofs.NameTable
import SchemaLang.Proofs.Resolved

/-!
# What linking demands

`Passes` collects, level by level, what has to hold for linking not to stop; it is stated for any
table.  Linking succeeds exactly if every package passes, and its result are then the resolved
packages.
-/

namespace SchemaLang

/-- The type of a field is found in the table if it names one, and its attributes apply. -/
def Field.Passes (table : NameTable) (package : String) (field : Field) : Prop :=
  (∀ reference, field.type.reference? = some reference →
    (table.get? (reference.qualifiedIn package)).isSome = true) ∧
  Attribute.AllApply field.attributes (.field field.type)

/-- The parent clause of a struct is found in the table and passes the check of the chain above it;
attributes apply and fields pass. -/
def Struct.Passes (packages : List Package) (table : NameTable) (package : String)
    (owner : DefinitionId) (s : Struct) : Prop :=
  (∀ reference, s.parent = some reference → ∃ target,
    table.get? (reference.qualifiedIn package) = some target ∧
    Inheritance.check packages table s target [owner] (Inheritance.members s) = .ok ()) ∧
  Attribute.AllApply s.attributes .struct ∧ ∀ field ∈ s.fields, field.Passes table package

/-- The definition passes at the given address. -/
def Definition.Passes (packages : List Package) (table : NameTable) (package : String)
    (owner : DefinitionId) : Definition → Prop
  | .struct s => s.Passes packages table package owner
  | .enumeration e => Attribute.AllApply e.attributes .enumeration

/-- The package passes at the given index: its own attributes, its imports, its definitions. -/
def Package.Passes (packages : List Package) (table : NameTable) (entry : Package × Nat) : Prop :=
  Attribute.AllApply entry.1.attributes .package ∧
  (∀ imported ∈ entry.1.imports, Attribute.AllApply imported.attributes .imported) ∧
  ∀ d ∈ entry.1.definitions.zipIdx, d.1.Passes packages table entry.1.name ⟨entry.2, d.2⟩

theorem forall_mem_zipIdx_fst {α : Type} (P : α → Prop) {l : List α} :
    (∀ entry ∈ l.zipIdx, P entry.1) ↔ ∀ a ∈ l, P a := by
  constructor
  · intro h a ha
    obtain ⟨i, hi⟩ := List.getElem?_of_mem ha
    exact h (a, i) (List.mem_zipIdx_iff_getElem?.mpr hi)
  · intro h entry hentry
    exact h entry.1 (List.fst_mem_of_mem_zipIdx hentry)

/-- A reference is found if the table has an entry for its qualified name. -/
theorem NameTable.succeedsIff_find (table : NameTable) (reference : Reference) (package : String)
    (place : Location) :
    SucceedsIff (table.find reference package place)
      ((table.get? (reference.qualifiedIn package)).isSome = true)
      ((table.get? (reference.qualifiedIn package)).getD default) := by
  intro id
  rw [find_eq_ok_iff]
  cases table.get? (reference.qualifiedIn package) <;> simp [eq_comm]

namespace Link

variable (context : Context)

theorem succeedsIff_ofField (entry : Field × Nat) :
    SucceedsIff (ofField context entry) (entry.1.Passes context.table context.package.name)
      (fieldLinks context.table context.package.name context.owner entry) := by
  have hreturn (links : List Link) :=
    (succeedsIff_checkAttributes entry.1.attributes (.field entry.1.type) entry.1.location).map
      fun _ => links
  rw [ofField, Field.Passes, fieldLinks, Field.meaning?]
  cases entry.1.type.reference? with
  | none =>
      refine SucceedsIff.congr ((SucceedsIff.pure []).bind fun _ => hreturn _) ?_ fun _ => rfl
      simp
  | some reference =>
      have hfind := context.table.succeedsIff_find reference context.package.name entry.1.location
      refine SucceedsIff.congr (hfind.bind fun _ => (SucceedsIff.pure _).bind fun _ =>
        hreturn _) ?_ ?_
      · simp
      · -- Which link is returned matters only where the name is found.
        rintro ⟨hfound, -⟩
        obtain ⟨id, hid⟩ := Option.isSome_iff_exists.mp hfound
        simp [hid]

theorem succeedsIff_ofParent (s : Struct) :
    SucceedsIff (ofParent context s)
      (∀ reference, s.parent = some reference → ∃ target,
        context.table.get? (reference.qualifiedIn context.package.name) = some target ∧
        Inheritance.check context.packages context.table s target [context.owner]
          (Inheritance.members s) = .ok ())
      ((s.meaning? context.table context.package.name).toList.map (.parent context.owner)) := by
  rw [ofParent, Struct.meaning?]
  cases s.parent with
  | none => exact (SucceedsIff.pure []).congr (by simp) fun _ => rfl
  | some reference =>
      have hfind := context.table.succeedsIff_find reference context.package.name s.location
      have hcheck (target : DefinitionId) :
          SucceedsIff (Inheritance.check context.packages context.table s target [context.owner]
            (Inheritance.members s)) (Inheritance.check context.packages context.table s target
            [context.owner] (Inheritance.members s) = .ok ()) () := fun u => by simp
      refine (hfind.bind fun _ => (hcheck _).map fun _ => _).congr ?_ ?_
      · cases hget : context.table.get? (reference.qualifiedIn context.package.name) <;>
          simp [hget]
      · rintro ⟨hfound, -⟩
        obtain ⟨id, hid⟩ := Option.isSome_iff_exists.mp hfound
        simp [hid]

theorem succeedsIff_ofDefinition (d : Definition) :
    SucceedsIff (ofDefinition context d)
      (d.Passes context.packages context.table context.package.name context.owner)
      (definitionLinks context.table context.package.name context.owner d) := by
  cases d with
  | enumeration e =>
      exact (succeedsIff_checkAttributes e.attributes .enumeration e.location).map fun _ => []
  | struct s =>
      have hfields := SucceedsIff.mapM (l := s.fields.zipIdx) fun entry _ =>
        succeedsIff_ofField context entry
      have hattributes := succeedsIff_checkAttributes s.attributes .struct s.location
      refine ((succeedsIff_ofParent context s).bind fun _ => hattributes.bind fun _ =>
        hfields.map fun _ => _).congr ?_ fun _ => ?_
      · rw [Definition.Passes, Struct.Passes,
          forall_mem_zipIdx_fst (Field.Passes context.table context.package.name)]
      · rw [definitionLinks, List.flatMap_def]

theorem succeedsIff_ofPackage (packages : List Package) (table : NameTable)
    (entry : Package × Nat) :
    SucceedsIff (ofPackage packages table entry) (Package.Passes packages table entry)
      (packageLinks table entry) := by
  have hattributes := succeedsIff_checkAttributes entry.1.attributes .package entry.1.location
  have himports := SucceedsIff.forM (l := entry.1.imports) fun imported _ =>
    succeedsIff_checkAttributes imported.attributes .imported imported.location
  have hdefinitions := SucceedsIff.mapM (l := entry.1.definitions.zipIdx) fun d _ =>
    succeedsIff_ofDefinition ⟨packages, table, entry.1, ⟨entry.2, d.2⟩⟩ d.1
  refine (hattributes.bind fun _ => himports.bind fun _ => hdefinitions.map List.flatten).congr
    Iff.rfl fun _ => ?_
  rw [packageLinks, List.flatMap_def]

theorem succeedsIff_collect (packages : List Package) (table : NameTable) :
    SucceedsIff (collect packages table)
      (∀ entry ∈ packages.zipIdx, Package.Passes packages table entry)
      (packages.zipIdx.flatMap (packageLinks table)) := by
  rw [List.flatMap_def]
  exact (SucceedsIff.mapM fun entry _ => succeedsIff_ofPackage packages table entry).map
    List.flatten

end Link

/-- Linking succeeds exactly if every package passes, and it then resolves every reference. -/
theorem Package.succeedsIff_link (packages : List Package) (table : NameTable) :
    SucceedsIff (link packages table)
      (∀ entry ∈ packages.zipIdx, Package.Passes packages table entry)
      (packages.map (Package.resolved table)) := by
  rw [← Link.foldl_write_eq_resolved]
  exact (Link.succeedsIff_collect packages table).map fun links => links.foldl Link.write packages

/-- The packages with every reference linked against the table of what they declare. -/
abbrev LinkedPackages.resolved (packages : List Package) : LinkedPackages :=
  ⟨packages.map (Package.resolved (.listing packages)), .listing packages⟩

/-- Packages are linked exactly if all names are distinct and all packages pass against the table
of what they declare. -/
theorem LinkedPackages.succeedsIff_ofPackages (packages : List Package) :
    SucceedsIff (ofPackages packages)
      (((packages.map Package.name).Nodup ∧ (Package.typeNames packages).Nodup) ∧
        ∀ entry ∈ packages.zipIdx, Package.Passes packages (.listing packages) entry)
      (resolved packages) :=
  (NameTable.succeedsIff_build packages).bind fun _ =>
    (Package.succeedsIff_link packages (.listing packages)).map fun linked =>
      LinkedPackages.mk linked (.listing packages)

end SchemaLang
