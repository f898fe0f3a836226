import SchemaLang.Proofs.LinkSearch
import SchemaLang.Proofs.Redeclaration

/-!
# The order of checks

The checkpoints of a list of packages are its packages, their imports and their definitions, in the
order of the sources.  What is checked at each is said here by its numbers alone, without a walk
that leads there.  Linking fails with the error of the first checkpoint that has one.
-/

namespace SchemaLang

/-- Something that is checked: the attributes of a package, an import, a definition. -/
inductive Checkpoint where
  | ofPackage (index : Nat)
  | ofImport (package index : Nat)
  | ofDefinition (id : DefinitionId)
deriving DecidableEq, Repr

/-- The checkpoints of the package with the given index. -/
def Package.checkpointsAt (entry : Package × Nat) : List Checkpoint :=
  .ofPackage entry.2 ::
    (entry.1.imports.zipIdx.map fun imported => .ofImport entry.2 imported.2) ++
      entry.1.definitions.zipIdx.map fun d => .ofDefinition ⟨entry.2, d.2⟩

/-- The checkpoints of all packages in the order of the sources. -/
def Package.checkpoints (packages : List Package) : List Checkpoint :=
  packages.zipIdx.flatMap checkpointsAt

namespace Checkpoint

section

variable (packages : List Package) (table : NameTable) (id : DefinitionId)

/-- The check of the parent clause of the struct with the given address. -/
def checkParent (s : Struct) : Except SemanticError Unit :=
  match s.parent with
  | none => .ok ()
  | some reference => do
      let target ← table.find reference (Inheritance.packageName packages id.package) s.location
      Inheritance.check packages table s target [id] (Inheritance.members s)

/-- The check of a field of the struct with the given address: first its type is looked up. -/
def checkField (field : Field) : Except SemanticError Unit := do
  match field.type.reference? with
  | none => pure ()
  | some reference =>
      let _ ← table.find reference (Inheritance.packageName packages id.package) field.location
  checkAttributes field.attributes (.field field.type) field.location

def checkStruct (s : Struct) : Except SemanticError Unit := do
  checkParent packages table id s
  checkAttributes s.attributes .struct s.location
  s.fields.forM (checkField packages table id)

/-- What is checked at a checkpoint, found by its numbers. -/
def check : Checkpoint → Except SemanticError Unit
  | .ofPackage index =>
      match packages[index]? with
      | none => .ok ()
      | some package => checkAttributes package.attributes .package package.location
  | .ofImport index j =>
      match packages[index]?.bind fun package => package.imports[j]? with
      | none => .ok ()
      | some imported => checkAttributes imported.attributes .imported imported.location
  | .ofDefinition id =>
      match id.find? packages with
      | none => .ok ()
      | some (.struct s) => checkStruct packages table id s
      | some (.enumeration e) => checkAttributes e.attributes .enumeration e.location

end

end Checkpoint

/-- The error arises at a checkpoint, and all checkpoints before it pass. -/
def Package.FirstError (packages : List Package) (table : NameTable) (e : SemanticError) : Prop :=
  ∃ before checkpoint after, checkpoints packages = before ++ checkpoint :: after ∧
    (∀ earlier ∈ before, earlier.check packages table = .ok ()) ∧
    checkpoint.check packages table = .error e

/-! ### Loops of checks -/

section

variable {ε α β : Type}

theorem map_eq_error_iff {f : α → β} {run : Except ε α} {e : ε} :
    f <$> run = .error e ↔ run = .error e := by
  cases run with
  | error e' =>
      show Except.error e' = Except.error e ↔ _
      simp
  | ok a =>
      show Except.ok (f a) = Except.error e ↔ _
      simp

/-- A loop of checks stops with an error exactly if one of them does, all before it having
passed. -/
theorem forM_eq_error_iff {f : α → Except ε Unit} {l : List α} {e : ε} :
    l.forM f = .error e ↔ ∃ before a after, l = before ++ a :: after ∧
      (∀ b ∈ before, f b = .ok ()) ∧ f a = .error e := by
  have hloop (l : List α) : l.forM f = l.foldlM (fun _ a => f a) () := by
    induction l with
    | nil => rfl
    | cons a l ih => exact congrArg (f a >>= ·) (funext fun _ => ih)
  have hpasses (before : List α) :
      before.foldlM (fun _ a => f a) () = .ok () ↔ ∀ b ∈ before, f b = .ok () := by
    have hforM := SucceedsIff.forM (l := before) (f := f) (P := fun b => f b = .ok ())
      fun b _ u => by simp
    rw [← hloop, hforM ()]
    simp
  rw [hloop, foldlM_eq_error_iff]
  constructor
  · rintro ⟨before, a, after, _, hsplit, hbefore, ha⟩
    exact ⟨before, a, after, hsplit, (hpasses before).mp hbefore, ha⟩
  · rintro ⟨before, a, after, hsplit, hbefore, ha⟩
    exact ⟨before, a, after, (), hsplit, (hpasses before).mpr hbefore, ha⟩

theorem forM_flatMap (f : β → Except ε Unit) (pieces : α → List β) (l : List α) :
    (l.flatMap pieces).forM f = l.forM fun a => (pieces a).forM f := by
  induction l with
  | nil => rfl
  | cons a l ih =>
      rw [List.flatMap_cons, List.forM_eq_forM, List.forM_append]
      exact congrArg _ (funext fun _ => ih)

theorem forM_congr {f g : α → Except ε Unit} {l : List α} (h : ∀ a ∈ l, f a = g a) :
    l.forM f = l.forM g := by
  induction l with
  | nil => rfl
  | cons a l ih =>
      show (f a >>= fun _ => l.forM f) = (g a >>= fun _ => l.forM g)
      rw [h a List.mem_cons_self, ih fun b hb => h b (List.mem_cons_of_mem a hb)]

theorem forM_zipIdx_fst (f : α → Except ε Unit) (l : List α) :
    (l.zipIdx.forM fun entry => f entry.1) = l.forM f := by
  have hmap := List.forM_map (l := l.zipIdx) (g := Prod.fst) (f := f)
  rw [List.zipIdx_map_fst] at hmap
  exact hmap.symm

/-- A loop whose results are forgotten is a loop of checks. -/
theorem forget_mapM (f : α → Except ε β) (l : List α) :
    (fun _ => ()) <$> l.mapM f = l.forM fun a => (fun _ => ()) <$> f a := by
  induction l with
  | nil => rfl
  | cons a l ih =>
      show _ = ((fun _ => ()) <$> f a >>= fun _ => l.forM fun a => (fun _ => ()) <$> f a)
      rw [List.mapM_cons, ← ih]
      simp only [map_bind, bind_map_left, bind_pure_comp, Functor.map_map]

end

/-! ### Links that are forgotten -/

namespace Link

variable {packages : List Package} {table : NameTable} {package : Package}

section

variable {id : DefinitionId} (hpackage : packages[id.package]? = some package)

include hpackage

theorem forget_ofField (entry : Field × Nat) :
    (fun _ => ()) <$> ofField ⟨packages, table, package, id⟩ entry =
      Checkpoint.checkField packages table id entry.1 := by
  rw [ofField, Checkpoint.checkField, Inheritance.packageName_of_getElem? hpackage]
  cases entry.1.type.reference? with
  | none => simp only [map_bind, map_pure, pure_bind, bind_pure_unit]
  | some reference => simp only [map_bind, map_pure, pure_bind, bind_pure_unit]

theorem forget_ofParent (s : Struct) :
    (fun _ => ()) <$> ofParent ⟨packages, table, package, id⟩ s =
      Checkpoint.checkParent packages table id s := by
  rw [ofParent, Checkpoint.checkParent, Inheritance.packageName_of_getElem? hpackage]
  cases s.parent with
  | none => rfl
  | some reference => simp only [map_bind, map_pure, bind_pure_unit]

theorem forget_ofDefinition (d : Definition) (hd : id.find? packages = some d) :
    (fun _ => ()) <$> ofDefinition ⟨packages, table, package, id⟩ d =
      (Checkpoint.ofDefinition id).check packages table := by
  rw [Checkpoint.check, hd]
  cases d with
  | enumeration e =>
      show (fun _ => ()) <$> (checkAttributes e.attributes .enumeration e.location >>= fun _ =>
        pure []) = _
      rw [map_bind]
      exact bind_pure_unit
  | struct s =>
      have hfields : (fun _ => ()) <$> s.fields.zipIdx.mapM
          (ofField ⟨packages, table, package, id⟩) =
            s.fields.forM (Checkpoint.checkField packages table id) := by
        rw [forget_mapM, forM_congr fun entry _ => forget_ofField hpackage entry, forM_zipIdx_fst]
      show (fun _ => ()) <$> ofStruct _ s = Checkpoint.checkStruct packages table id s
      rw [ofStruct, Checkpoint.checkStruct, ← forget_ofParent hpackage, ← hfields]
      simp only [map_bind, bind_map_left, bind_pure_comp, Functor.map_map]

end

theorem forget_ofPackage {index : Nat} (hpackage : packages[index]? = some package) :
    (fun _ => ()) <$> ofPackage packages table (package, index) =
      (Package.checkpointsAt (package, index)).forM (Checkpoint.check packages table) := by
  have himports : (package.imports.zipIdx.map fun imported =>
      Checkpoint.ofImport index imported.2).forM (Checkpoint.check packages table) =
        package.imports.forM fun imported =>
          checkAttributes imported.attributes .imported imported.location := by
    refine List.forM_map.trans ((forM_congr fun entry hentry => ?_).trans (forM_zipIdx_fst _ _))
    have himport := List.mem_zipIdx_iff_getElem?.mp hentry
    rw [Checkpoint.check, hpackage, Option.bind_some, himport]
  have hdefinitions : (package.definitions.zipIdx.map fun d =>
      Checkpoint.ofDefinition ⟨index, d.2⟩).forM (Checkpoint.check packages table) =
        package.definitions.zipIdx.forM fun d => (fun _ => ()) <$>
          ofDefinition ⟨packages, table, package, ⟨index, d.2⟩⟩ d.1 := by
    refine List.forM_map.trans (forM_congr fun entry hentry =>
      (forget_ofDefinition hpackage entry.1 ?_).symm)
    rw [DefinitionId.find?, hpackage]
    exact List.mem_zipIdx_iff_getElem?.mp hentry
  have hcheckpoints : (Package.checkpointsAt (package, index)).forM
      (Checkpoint.check packages table) =
        (Checkpoint.ofPackage index).check packages table >>= fun _ =>
          (package.imports.forM fun imported =>
            checkAttributes imported.attributes .imported imported.location) >>= fun _ =>
              package.definitions.zipIdx.forM fun d => (fun _ => ()) <$>
                ofDefinition ⟨packages, table, package, ⟨index, d.2⟩⟩ d.1 := by
    rw [← himports, ← hdefinitions]
    exact congrArg _ (funext fun _ => List.forM_append)
  rw [hcheckpoints, ← forget_mapM, ofPackage, Checkpoint.check, hpackage]
  simp only [map_bind, bind_pure_comp, Functor.map_map]

/-- Links are found exactly if all checkpoints pass, and otherwise the errors agree. -/
theorem forget_collect (packages : List Package) (table : NameTable) :
    (fun _ => ()) <$> collect packages table =
      (Package.checkpoints packages).forM (Checkpoint.check packages table) := by
  rw [collect, Package.checkpoints, forM_flatMap]
  simp only [bind_pure_comp, Functor.map_map, forget_mapM]
  refine forM_congr fun entry hentry => ?_
  exact forget_ofPackage (List.mem_zipIdx_iff_getElem?.mp hentry)

/-- Collecting fails with the first error in the order of the checkpoints. -/
theorem collect_eq_error_iff {e : SemanticError} :
    collect packages table = .error e ↔ Package.FirstError packages table e := by
  rw [Package.FirstError, ← forM_eq_error_iff, ← forget_collect, map_eq_error_iff]

end Link

/-- Linking fails exactly with the first error in the order of the checkpoints, whether links are
looked for definition by definition or with a cursor. -/
theorem Package.link_eq_error_iff (packages : List Package) (table : NameTable)
    (e : SemanticError) :
    (link packages table = .error e ↔ FirstError packages table e) ∧
      (Link.Search.links packages table = .error e ↔ FirstError packages table e) := by
  rw [Link.Search.links_eq_collect, ← Link.collect_eq_error_iff, link, bind_pure_comp,
    map_eq_error_iff]
  exact ⟨Iff.rfl, Iff.rfl⟩

end SchemaLang
