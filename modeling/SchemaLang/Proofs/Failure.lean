import SchemaLang.Proofs.Acceptance

/-!
# How linking fails

`FailsOnly` says of a run of checks which errors it may end with.  It follows the binds and loops of
a run as `SucceedsIff` does.  Errors of linking are about package names, declared names, references,
attributes or lines of parents, and each of them tells what is wrong with the packages.
-/

namespace SchemaLang

/-- Whatever error the computation ends with is one of those allowed. -/
def FailsOnly {ε α : Type} (run : Except ε α) (allowed : ε → Prop) : Prop :=
  ∀ e, run = .error e → allowed e

namespace FailsOnly

variable {ε α β : Type} {allowed : ε → Prop}

theorem ok (a : α) : FailsOnly (.ok a : Except ε α) allowed := by
  intro e h
  cases h

theorem error {e : ε} (h : allowed e) : FailsOnly (.error e : Except ε α) allowed := by
  intro e' h'
  cases h'
  exact h

theorem imp {run : Except ε α} {more : ε → Prop} (h : FailsOnly run allowed)
    (hmore : ∀ e, allowed e → more e) : FailsOnly run more :=
  fun e he => hmore e (h e he)

/-- A sequence fails where its first computation does, or the second one behind it. -/
theorem bind {first : Except ε α} {next : α → Except ε β} (hfirst : FailsOnly first allowed)
    (hnext : ∀ a, first = .ok a → FailsOnly (next a) allowed) :
    FailsOnly (first >>= next) allowed := by
  intro e h
  cases hrun : first with
  | error e' =>
      rw [hrun] at h
      cases h
      exact hfirst e hrun
  | ok a =>
      rw [hrun] at h
      exact hnext a hrun e h

/-- A loop that collects results fails where one of its rounds does. -/
theorem mapM {l : List α} {f : α → Except ε β} (h : ∀ a ∈ l, FailsOnly (f a) allowed) :
    FailsOnly (l.mapM f) allowed := by
  induction l with
  | nil => exact ok []
  | cons a l ih =>
      rw [List.mapM_cons]
      refine (h a List.mem_cons_self).bind fun b _ => ?_
      exact (ih fun c hc => h c (List.mem_cons_of_mem a hc)).bind fun bs _ => ok (b :: bs)

/-- A loop of bare checks fails where one of them does. -/
theorem forM {l : List α} {f : α → Except ε Unit} (h : ∀ a ∈ l, FailsOnly (f a) allowed) :
    FailsOnly (l.forM f) allowed := by
  induction l with
  | nil => exact ok ()
  | cons a l ih =>
      show FailsOnly (f a >>= fun _ => l.forM f) allowed
      exact (h a List.mem_cons_self).bind fun _ _ =>
        ih fun c hc => h c (List.mem_cons_of_mem a hc)

/-- A loop that carries a state fails where one of its rounds does. -/
theorem foldlM {l : List α} {f : β → α → Except ε β}
    (h : ∀ b, ∀ a ∈ l, FailsOnly (f b a) allowed) (b : β) : FailsOnly (l.foldlM f b) allowed := by
  induction l generalizing b with
  | nil => exact ok b
  | cons a l ih =>
      rw [List.foldlM_cons]
      exact (h b a List.mem_cons_self).bind fun next _ =>
        ih (fun b' a' ha' => h b' a' (List.mem_cons_of_mem a ha')) next

end FailsOnly

namespace SemanticError

/-- The error is about a line of parents. -/
def AboutParents : SemanticError → Prop
  | .extendsNonStruct _ _ => True
  | .classExtendsStruct _ _ _ => True
  | .structExtendsClass _ _ _ => True
  | .circularInheritance _ _ => True
  | .hiddenMember _ _ _ _ => True
  | .duplicatePackage _ _ => False
  | .duplicateType _ _ _ => False
  | .unknownType _ _ => False
  | .inapplicableAttribute _ _ => False
  | .duplicateDefinition _ _ => False
  | .unknownTypeName _ _ => False

/-- The error is about two packages of one name. -/
def AboutPackageNames : SemanticError → Prop
  | .duplicatePackage _ _ => True
  | _ => False

/-- What an error tells of packages that are linked against a table: a name that is unknown is
written somewhere, an attribute that does not apply stands somewhere, and any other error is about
parents. -/
def Tells (packages : List Package) (table : NameTable) : SemanticError → Prop
  | .unknownType name _ => ∃ package ∈ packages, ∃ d ∈ package.definitions,
      ∃ reference ∈ d.references, reference.qualifiedIn package.name = name ∧
        table.get? name = none
  | .inapplicableAttribute _ _ => ∃ package ∈ packages, ¬ package.AttributesApply
  | e => e.AboutParents

theorem AboutParents.tells {packages : List Package} {table : NameTable} {e : SemanticError}
    (h : e.AboutParents) : e.Tells packages table := by
  cases e <;> first | exact h | exact h.elim

/-- What an error of linking tells is not about package names. -/
theorem Tells.not_aboutPackageNames {packages : List Package} {table : NameTable}
    {e : SemanticError} (h : e.Tells packages table) : ¬ e.AboutPackageNames := by
  cases e <;> first | exact id | exact fun _ => h

end SemanticError

/-! ## Errors of a table -/

namespace NameTable

/-- Adding a definition fails for its name only. -/
theorem failsOnly_addDefinition (package : Package) (i : Nat) (table : NameTable)
    (entry : Definition × Nat) :
    FailsOnly (addDefinition package i table entry) fun e => ¬ e.AboutPackageNames := by
  rw [addDefinition]
  split
  · exact .error id
  · exact .ok _

/-- Adding definitions leaves the names of packages alone. -/
theorem packages_of_addDefinitions {package : Package} {i : Nat} {table more : NameTable}
    {entries : List (Definition × Nat)}
    (h : entries.foldlM (addDefinition package i) table = .ok more) :
    more.packages = table.packages := by
  induction entries generalizing table with
  | nil => cases h; rfl
  | cons entry entries ih =>
      rw [List.foldlM_cons] at h
      cases hadd : addDefinition package i table entry with
      | error e => rw [hadd] at h; cases h
      | ok next =>
          rw [hadd] at h
          have hrest := ih h
          obtain ⟨-, rfl⟩ := (succeedsIff_addDefinition package i table entry).of_eq_ok hadd
          exact hrest

theorem packages_of_addPackage {table more : NameTable} {entry : Package × Nat}
    (h : addPackage table entry = .ok more) :
    more.packages = table.packages ++ [(entry.1.name, entry.2)] := by
  rw [addPackage] at h
  split at h
  · cases h
  · exact packages_of_addDefinitions h

/-- Adding a package fails for its name only if the name is there already. -/
theorem failsOnly_addPackage {table : NameTable} {entry : Package × Nat}
    (hnew : entry.1.name ∉ table.packages.map Prod.fst) :
    FailsOnly (addPackage table entry) fun e => ¬ e.AboutPackageNames := by
  rw [← lookup_isSome_iff_mem] at hnew
  rw [addPackage, packageIndex?, if_neg hnew]
  exact FailsOnly.foldlM (fun more d _ => failsOnly_addDefinition entry.1 entry.2 more d) _

theorem failsOnly_addPackages {entries : List (Package × Nat)} {table : NameTable}
    (h : (table.packages.map Prod.fst ++ entries.map fun e => e.1.name).Nodup) :
    FailsOnly (entries.foldlM addPackage table) fun e => ¬ e.AboutPackageNames := by
  induction entries generalizing table with
  | nil => exact .ok table
  | cons entry entries ih =>
      rw [List.map_cons, nodup_append_cons_iff] at h
      rw [List.foldlM_cons]
      -- The name of this package is among those that the next ones must not have.
      refine (failsOnly_addPackage h.1).bind fun more hmore => ih ?_
      rw [packages_of_addPackage hmore, List.map_append]
      exact h.2

/-- No table fails for the name of a package if the names are distinct. -/
theorem failsOnly_build {packages : List Package} (h : (packages.map Package.name).Nodup) :
    FailsOnly (build packages) fun e => ¬ e.AboutPackageNames := by
  refine failsOnly_addPackages ?_
  rw [Package.map_zipIdx_fst]
  exact h

end NameTable

/-! ## Errors of links -/

variable {packages : List Package} (table : NameTable)

/-- Attributes fail only if one of them does not apply. -/
theorem failsOnly_checkAttributes (attributes : List Attribute) (target : Target)
    (place : Location) :
    FailsOnly (checkAttributes attributes target place) fun e =>
      (∃ reason, e = .inapplicableAttribute reason place) ∧
        ¬ Attribute.AllApply attributes target := by
  intro e he
  have hnot : ¬ Attribute.AllApply attributes target := by
    intro hall
    have hok := (succeedsIff_checkAttributes attributes target place ()).mpr ⟨hall, rfl⟩
    rw [hok] at he
    cases he
  rw [checkAttributes] at he
  cases hrun : Attribute.allApplicable attributes target with
  | ok u => rw [hrun] at he; cases he
  | error reason =>
      rw [hrun] at he
      cases he
      exact ⟨⟨reason, rfl⟩, hnot⟩

/-- A reference fails only if its qualified name has no entry. -/
theorem NameTable.failsOnly_find (table : NameTable) (reference : Reference) (package : String)
    (place : Location) :
    FailsOnly (table.find reference package place) fun e =>
      e = .unknownType (reference.qualifiedIn package) place ∧
        table.get? (reference.qualifiedIn package) = none := by
  rw [find]
  cases hget : table.get? (reference.qualifiedIn package) with
  | none => exact .error ⟨rfl, rfl⟩
  | some id => exact .ok id

/-- A check of a line of parents ends with an error about parents, or a parent clause on the way up
names nothing. -/
theorem Inheritance.failsOnly_check {allowed : SemanticError → Prop}
    (hparents : ∀ e : SemanticError, e.AboutParents → allowed e)
    (hfind : ∀ (id : DefinitionId) (s : Struct) (reference : Reference),
      id.struct? packages = some s → s.parent = some reference →
        FailsOnly (table.find reference (packageName packages id.package) s.location) allowed)
    (child : Struct) (id : DefinitionId) (chain : List DefinitionId)
    (below : List (String × String)) :
    FailsOnly (check packages table child id chain below) allowed := by
  fun_induction check packages table child id chain below with
  | case1 => exact .error (hparents _ trivial)
  | case2 => exact .error (hparents _ trivial)
  | case3 => exact .error (hparents _ trivial)
  | case4 => exact .error (hparents _ trivial)
  | case5 => exact .error (hparents _ trivial)
  | case6 => exact .ok ()
  | case7 child id chain below s hs _ _ _ _ reference hparent e he =>
      exact .error (hfind id s reference hs hparent e he)
  | case8 child id chain below s hs _ _ _ _ reference hparent next hnext ih => exact ih

/-- A struct found at an address is among the definitions of the package there. -/
theorem DefinitionId.exists_package_of_struct? {id : DefinitionId} {s : Struct}
    (h : id.struct? packages = some s) :
    ∃ package ∈ packages, .struct s ∈ package.definitions ∧
      Inheritance.packageName packages id.package = package.name := by
  obtain ⟨d, hd, hdef⟩ := struct?_eq_some_iff.mp h
  have hname := Inheritance.packageName_of_declaration? hd
  obtain ⟨package, hpackage, helement⟩ := Option.bind_eq_some_iff.mp hd
  obtain ⟨definition, hdefinition, rfl⟩ := Option.map_eq_some_iff.mp helement
  obtain rfl : definition = .struct s := hdef
  exact ⟨package, List.mem_of_getElem? hpackage, List.mem_of_getElem? hdefinition, hname⟩

namespace Link

section

variable {allowed : SemanticError → Prop} {table}
  (hattributes : ∀ package ∈ packages, ∀ (attributes : List Attribute) (target : Target)
    (place : Location), (package.AttributesApply → Attribute.AllApply attributes target) →
      FailsOnly (checkAttributes attributes target place) allowed)
  (hfind : ∀ package ∈ packages, ∀ d ∈ package.definitions, ∀ reference ∈ d.references,
    ∀ place : Location, FailsOnly (table.find reference package.name place) allowed)
  (hcheck : ∀ (owner : DefinitionId) (package : Package) (s : Struct) (reference : Reference)
    (target : DefinitionId), packages[owner.package]? = some package →
      package.definitions[owner.element]? = some (.struct s) → s.parent = some reference →
      table.find reference package.name s.location = .ok target →
      FailsOnly (Inheritance.check packages table s target [owner] (Inheritance.members s)) allowed)
  {package : Package} {owner : DefinitionId} (hpackage : packages[owner.package]? = some package)

include hattributes hfind hpackage

theorem failsOnly_ofField {s : Struct} (hs : .struct s ∈ package.definitions) {entry : Field × Nat}
    (hentry : entry.1 ∈ s.fields) :
    FailsOnly (ofField ⟨packages, table, package, owner⟩ entry) allowed := by
  have hmem := List.mem_of_getElem? hpackage
  have happly := hattributes package hmem entry.1.attributes (.field entry.1.type) entry.1.location
    fun h => (h.2.2 _ hs).2 _ hentry
  rw [ofField]
  cases hreference : entry.1.type.reference? with
  | none => exact (FailsOnly.ok []).bind fun _ _ => happly.bind fun _ _ => .ok _
  | some reference =>
      have hfound := hfind package hmem _ hs reference
        (Definition.mem_references_of_field hentry hreference) entry.1.location
      exact hfound.bind fun target _ => (FailsOnly.ok [field owner entry.2 target]).bind fun _ _ =>
        happly.bind fun _ _ => .ok _

include hcheck

omit hattributes in
theorem failsOnly_ofParent {s : Struct}
    (hs : package.definitions[owner.element]? = some (.struct s)) :
    FailsOnly (ofParent ⟨packages, table, package, owner⟩ s) allowed := by
  rw [ofParent]
  cases hparent : s.parent with
  | none => exact .ok []
  | some reference =>
      have hfound := hfind package (List.mem_of_getElem? hpackage) _ (List.mem_of_getElem? hs)
        reference (Definition.mem_references_of_parent hparent) s.location
      exact hfound.bind fun target htarget =>
        (hcheck owner package s reference target hpackage hs hparent htarget).bind fun _ _ => .ok _

theorem failsOnly_ofDefinition {d : Definition}
    (hd : package.definitions[owner.element]? = some d) :
    FailsOnly (ofDefinition ⟨packages, table, package, owner⟩ d) allowed := by
  have hmem := List.mem_of_getElem? hpackage
  have hdmem := List.mem_of_getElem? hd
  cases d with
  | enumeration e =>
      exact (hattributes package hmem e.attributes .enumeration e.location
        fun h => h.2.2 _ hdmem).bind fun _ _ => .ok []
  | struct s =>
      have happly := hattributes package hmem s.attributes .struct s.location
        fun h => (h.2.2 _ hdmem).1
      have hfields := FailsOnly.mapM (l := s.fields.zipIdx) fun entry hentry =>
        failsOnly_ofField hattributes hfind hpackage hdmem (List.fst_mem_of_mem_zipIdx hentry)
      exact (failsOnly_ofParent hfind hcheck hpackage hd).bind fun _ _ =>
        happly.bind fun _ _ => hfields.bind fun _ _ => .ok _

omit hpackage

theorem failsOnly_ofPackage {i : Nat} (hpackage : packages[i]? = some package) :
    FailsOnly (ofPackage packages table (package, i)) allowed := by
  have hmem := List.mem_of_getElem? hpackage
  have happly := hattributes package hmem package.attributes .package package.location
    fun h => h.1
  have himports := FailsOnly.forM (l := package.imports) fun imported himported =>
    hattributes package hmem imported.attributes .imported imported.location
      fun h => h.2.1 imported himported
  have hdefinitions := FailsOnly.mapM (l := package.definitions.zipIdx) fun entry hentry =>
    have hdefinition : package.definitions[entry.2]? = some entry.1 :=
      List.mem_zipIdx_iff_getElem?.mp hentry
    show FailsOnly (ofDefinition ⟨packages, table, package, ⟨i, entry.2⟩⟩ entry.1) allowed from
      failsOnly_ofDefinition hattributes hfind hcheck hpackage hdefinition
  exact happly.bind fun _ _ => himports.bind fun _ _ => hdefinitions.bind fun _ _ => .ok _

/-- Finding the links of packages fails only with what their attributes, their references and the
checks of the lines above their structs may fail with. -/
theorem failsOnly_collect_of : FailsOnly (collect packages table) allowed :=
  (FailsOnly.mapM fun _ hentry => failsOnly_ofPackage hattributes hfind hcheck
    (List.mem_zipIdx_iff_getElem?.mp hentry)).bind fun _ _ => .ok _

end

/-- A reference written in a package that is not found is an unknown name that is written there. -/
theorem failsOnly_find {package : Package} (hpackage : package ∈ packages) {d : Definition}
    (hd : d ∈ package.definitions) {reference : Reference} (hreference : reference ∈ d.references)
    (place : Location) :
    FailsOnly (table.find reference package.name place) (SemanticError.Tells packages table) := by
  refine (table.failsOnly_find reference package.name place).imp ?_
  rintro e ⟨rfl, hget⟩
  exact ⟨package, hpackage, d, hd, reference, hreference, rfl, hget⟩

/-- An attribute in a package that does not apply makes the package one with such an attribute. -/
theorem failsOnly_attributes {package : Package} (hpackage : package ∈ packages)
    {attributes : List Attribute} {target : Target}
    (hall : package.AttributesApply → Attribute.AllApply attributes target) (place : Location) :
    FailsOnly (checkAttributes attributes target place) (SemanticError.Tells packages table) := by
  refine (failsOnly_checkAttributes attributes target place).imp ?_
  rintro e ⟨⟨reason, rfl⟩, hnot⟩
  exact ⟨package, hpackage, fun happly => hnot (hall happly)⟩

/-- On the way up from a struct every unknown parent clause is written in one of the packages. -/
theorem failsOnly_check (child : Struct) (id : DefinitionId) (chain : List DefinitionId)
    (below : List (String × String)) :
    FailsOnly (Inheritance.check packages table child id chain below)
      (SemanticError.Tells packages table) := by
  refine Inheritance.failsOnly_check table (fun e he => he.tells) ?_ child id chain below
  intro id s reference hs hparent
  obtain ⟨package, hpackage, hmem, hname⟩ := DefinitionId.exists_package_of_struct? hs
  rw [hname]
  exact failsOnly_find table hpackage hmem (Definition.mem_references_of_parent hparent) s.location

/-- Finding the links of packages fails only with an error that tells what is wrong with them. -/
theorem failsOnly_collect (packages : List Package) :
    FailsOnly (collect packages table) (SemanticError.Tells packages table) :=
  failsOnly_collect_of
    (fun _ hpackage _ _ place hall => failsOnly_attributes table hpackage hall place)
    (fun _ hpackage _ hd _ hreference place => failsOnly_find table hpackage hd hreference place)
    (fun owner _ s _ target _ _ _ _ => failsOnly_check table s target [owner] _)

end Link

end SchemaLang
