import SchemaLang.Traversal
import SchemaLang.Proofs.Validation

/-!
# Validation on a walk

Validation may also be made by one visitor that walks over all packages.  It keeps the name of the
package that it is in and two lists that grow with every definition and every reference it meets,
and the names are compared when the walk is over.  The walk gathers what the surveys of the packages
have together, and so it finds the same errors and warnings.
-/

namespace SchemaLang

/-- The name of the package that a walk is in, the names it has met, and what deserves attention. -/
structure Validator where
  packageName : String
  declared : List Mention
  used : List Mention
  warnings : List Warning

/-- Steps of a walk that gather names and end with the first attribute that does not apply. -/
abbrev Gathering : Type → Type :=
  StateT Validator (Except SemanticError)

namespace Validator

def addDeclared (d : Definition) : Gathering Unit :=
  modify fun v => { v with
    declared := v.declared ++ [⟨v.packageName ++ "." ++ d.name, d.location⟩] }

def addUsed (reference : Reference) (place : Location) : Gathering Unit :=
  modify fun v => { v with used := v.used ++ [⟨reference.qualifiedIn v.packageName, place⟩] }

/-- Notes the name that is referred to, if one is. -/
def addReference (reference? : Option Reference) (place : Location) : Gathering Unit :=
  match reference? with
  | none => pure ()
  | some reference => addUsed reference place

/-- Checks attributes where they stand and notes names.  Nothing is noted below imports, fields and
enums. -/
def visit : Visitor Gathering
  | .package package => do
      checkAttributes package.attributes .package package.location
      return true
  | .imported imported => do
      checkAttributes imported.attributes .imported imported.location
      return false
  | .struct s => do
      checkAttributes s.attributes .struct s.location
      addDeclared (.struct s)
      addReference s.parent s.location
      return true
  | .enumeration e => do
      checkAttributes e.attributes .enumeration e.location
      addDeclared (.enumeration e)
      return false
  | .field field => do
      checkAttributes field.attributes (.field field.type) field.location
      addReference field.type.reference? field.location
      return false
  | _ => return true

/-- Walks over a package under its name. -/
def walkPackage (package : Package) : Gathering Unit := do
  modify fun v => { v with packageName := package.name }
  package.walk visit

/-- Compares the names that were met. -/
def compareNames : Gathering Unit := do
  let v ← get
  if v.declared.isEmpty then
    set { v with warnings := v.warnings ++ [Warning.nothingDeclared v.packageName] }
  else
    match Survey.firstRepeated? v.declared with
    | some m => throw (.duplicateDefinition m.name m.place)
    | none =>
        match Survey.firstUnknown? ⟨v.declared, v.used⟩ with
        | some m => throw (.unknownTypeName m.name m.place)
        | none => pure ()

/-- Checks the names of all packages on one walk and tells what deserves attention. -/
def validate (packages : List Package) : Except SemanticError (List Warning) := do
  let (_, v) ← (do packages.forM walkPackage; compareNames : Gathering Unit).run ⟨"", [], [], []⟩
  return v.warnings

/-! ### What a walk gathers -/

/-- The validator with the names of a survey behind those it had. -/
def add (v : Validator) (survey : Survey) : Validator :=
  { v with declared := v.declared ++ survey.declared, used := v.used ++ survey.used }

/-- In the package the walk adds the names of a survey, or it stops with the same error. -/
def Gathers (package : Package) (walk : Gathering Unit) (expected : Except SemanticError Survey) :
    Prop :=
  ∀ v : Validator, v.packageName = package.name →
    walk.run v = expected >>= fun survey => pure ((), v.add survey)

theorem add_append (v : Validator) (a b : Survey) : (v.add a).add b = v.add (a.append b) := by
  rw [add, add, add, Survey.append, List.append_assoc, List.append_assoc]

theorem append_empty (survey : Survey) : survey.append ⟨[], []⟩ = survey := by
  rw [Survey.append, List.append_nil, List.append_nil]

/-- What surveys are put together behind may be put together first. -/
theorem append_foldl (a b : Survey) (surveys : List Survey) :
    a.append (surveys.foldl Survey.append b) = surveys.foldl Survey.append (a.append b) := by
  simp only [Survey.foldl_append, Survey.append, List.append_assoc]

namespace Gathers

variable {package : Package}

theorem nothing : Gathers package (pure ()) (pure ⟨[], []⟩) := by
  intro v _
  show (.ok ((), v) : Except SemanticError (Unit × Validator)) = .ok ((), v.add ⟨[], []⟩)
  rw [add, List.append_nil, List.append_nil]

/-- What two walks gather one after the other. -/
theorem bind {first next : Gathering Unit} {found rest : Except SemanticError Survey}
    (hfirst : Gathers package first found) (hnext : Gathers package next rest) :
    Gathers package (first >>= fun _ => next)
      (found >>= fun a => rest >>= fun b => pure (a.append b)) := by
  intro v hv
  rw [StateT.run_bind, hfirst v hv, bind_assoc, bind_assoc]
  refine bind_congr fun a => ?_
  -- The name of the package is still there.
  rw [pure_bind, hnext (v.add a) hv, bind_assoc]
  refine bind_congr fun b => ?_
  rw [pure_bind, add_append]

/-- A check gathers nothing. -/
theorem behind_check (outcome : Except SemanticError Unit) {walk : Gathering Unit}
    {expected : Except SemanticError Survey} (h : Gathers package walk expected) :
    Gathers package (liftM outcome >>= fun _ => walk) (outcome >>= fun _ => expected) := by
  intro v hv
  cases outcome with
  | error e => rfl
  | ok u => exact h v hv

theorem forM {α : Type} {l : List α} {walk : α → Gathering Unit}
    {found : α → Except SemanticError Survey} (h : ∀ a ∈ l, Gathers package (walk a) (found a)) :
    Gathers package (l.forM walk)
      (l.mapM found >>= fun surveys => pure (surveys.foldl Survey.append ⟨[], []⟩)) := by
  induction l with
  | nil => exact nothing
  | cons a l ih =>
      have hall := (h a List.mem_cons_self).bind
        (ih fun b hb => h b (List.mem_cons_of_mem a hb))
      rw [List.mapM_cons]
      simp only [bind_assoc, pure_bind, List.foldl_cons, append_foldl, append_empty] at hall ⊢
      exact hall

/-- A definition is declared under its qualified name. -/
theorem addDeclared (d : Definition) :
    Gathers package (Validator.addDeclared d) (pure (.ofDeclaration package d)) := by
  rintro ⟨_, declared, used, warnings⟩ rfl
  show (.ok ((), ⟨_, _, used, _⟩) : Except SemanticError (Unit × Validator)) =
    .ok ((), ⟨_, _, used ++ [], _⟩)
  rw [List.append_nil]
  rfl

/-- A reference is used under the name it stands for. -/
theorem addReference (reference? : Option Reference) (place : Location) :
    Gathers package (Validator.addReference reference? place)
      (pure (match reference? with
        | none => ⟨[], []⟩
        | some reference => .ofReference package reference place)) := by
  cases reference? with
  | none => exact nothing
  | some reference =>
      rintro ⟨_, declared, used, warnings⟩ rfl
      show (.ok ((), ⟨_, declared, _, _⟩) : Except SemanticError (Unit × Validator)) =
        .ok ((), ⟨_, declared ++ [], _, _⟩)
      rw [List.append_nil]
      rfl

end Gathers

/-- Nothing is noted for attributes. -/
theorem walk_attributes (attributes : List Attribute) :
    attributes.forM (Attribute.walk visit) = pure () :=
  Attribute.forM_walk_eq_pure (fun _ => rfl) attributes

section

variable (package : Package)

theorem gathers_field (field : Field) :
    Gathers package (field.walk visit) (Survey.ofField package field) := by
  have hwalk : field.walk visit = liftM (checkAttributes field.attributes (.field field.type)
      field.location) >>= fun _ => addReference field.type.reference? field.location := by
    simp [Field.walk, Visitor.enter, visit]
  rw [hwalk]
  exact (Gathers.addReference field.type.reference? field.location).behind_check _

/-- A struct declares its name and uses that of its parent before those of its fields. -/
theorem gathers_definition (d : Definition) :
    Gathers package (d.walk visit) (Survey.ofDefinition package d) := by
  cases d with
  | enumeration e =>
      have hwalk : (Definition.enumeration e).walk visit =
          liftM (checkAttributes e.attributes .enumeration e.location) >>= fun _ =>
            addDeclared (.enumeration e) := by
        simp [Definition.walk, Enumeration.walk, Visitor.enter, visit]
      rw [hwalk]
      exact (Gathers.addDeclared (.enumeration e)).behind_check _
  | struct s =>
      have hwalk : (Definition.struct s).walk visit =
          liftM (checkAttributes s.attributes .struct s.location) >>= fun _ =>
            addDeclared (.struct s) >>= fun _ => addReference s.parent s.location >>= fun _ =>
              s.fields.forM (Field.walk visit) := by
        simp [Definition.walk, Struct.walk, Struct.walkBody, Visitor.enter, visit, walk_attributes]
      have hnames := (@Gathers.addDeclared package (.struct s)).bind
        ((Gathers.addReference s.parent s.location).bind
          (.forM (l := s.fields) fun field _ => gathers_field package field))
      simp only [bind_assoc, pure_bind, append_foldl, append_empty] at hnames
      rw [hwalk]
      exact hnames.behind_check _

theorem gathers_imports (imports : List Import) :
    Gathers package (imports.forM (Import.walk visit))
      (imports.forM (fun imported =>
        checkAttributes imported.attributes .imported imported.location) >>= fun _ =>
          pure ⟨[], []⟩) := by
  induction imports with
  | nil => exact .nothing
  | cons imported imports ih =>
      have hwalk : imported.walk visit =
          liftM (checkAttributes imported.attributes .imported imported.location) := by
        simp [Import.walk, Visitor.enter, visit]
      rw [List.forM, List.forM, hwalk, bind_assoc]
      exact ih.behind_check _

/-- A package is checked before its imports and these before its definitions. -/
theorem gathers_package : Gathers package (package.walk visit) (Survey.ofPackage package) := by
  have hwalk : package.walk visit =
      liftM (checkAttributes package.attributes .package package.location) >>= fun _ =>
        package.imports.forM (Import.walk visit) >>= fun _ =>
          package.definitions.forM (Definition.walk visit) := by
    simp [Package.walk, Package.walkBody, Visitor.enter, visit, walk_attributes]
  have hnames := (gathers_imports package package.imports).bind
    (.forM (l := package.definitions) fun d _ => gathers_definition package d)
  simp only [bind_assoc, pure_bind, append_foldl, append_empty] at hnames
  rw [hwalk]
  exact hnames.behind_check _

end

/-- Over all packages the walk gathers their surveys, and it ends in the last package. -/
theorem run_walkPackages (packages : List Package) (v : Validator) :
    (packages.forM walkPackage).run v = Survey.ofPackages packages >>= fun survey =>
      pure ((), { v.add survey with
        packageName := (packages.getLast?.map Package.name).getD v.packageName }) := by
  induction packages generalizing v with
  | nil => exact @Gathers.nothing (.empty v.packageName [] default) v rfl
  | cons package packages ih =>
      have hpackage := gathers_package package { v with packageName := package.name } rfl
      have hlast : ((package :: packages).getLast?.map Package.name).getD v.packageName =
          (packages.getLast?.map Package.name).getD package.name := by
        rw [List.getLast?_cons]
        cases packages.getLast? <;> rfl
      rw [List.forM, StateT.run_bind, walkPackage, StateT.run_bind, StateT.run_modify, pure_bind,
        hpackage, hlast, Survey.ofPackages, List.mapM_cons]
      simp only [bind_assoc, pure_bind, ih, Survey.ofPackages]
      refine bind_congr fun a => bind_congr fun surveys => ?_
      have hall : (a :: surveys).foldl Survey.append ⟨[], []⟩ =
          a.append (surveys.foldl Survey.append ⟨[], []⟩) := by
        rw [append_foldl, append_empty]
        rfl
      rw [hall, ← add_append]
      rfl

/-- A visitor that keeps lists finds the same errors and warnings. -/
theorem validate_eq (packages : List Package) : validate packages = Package.validate packages := by
  rw [validate, Package.validate, StateT.run_bind, run_walkPackages, bind_assoc, bind_assoc]
  refine bind_congr fun survey => ?_
  rw [pure_bind, compareNames]
  simp only [StateT.run_bind, StateT.run_get, pure_bind, add, List.nil_append]
  cases survey.declared.isEmpty with
  | true => rfl
  | false =>
      cases Survey.firstRepeated? survey.declared with
      | some m => rfl
      | none =>
          cases survey.firstUnknown? with
          | some m => rfl
          | none => rfl

end Validator

end SchemaLang
