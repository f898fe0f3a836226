import SchemaLang.Linking

/-!
# A search with a cursor

Links may also be found by one walk over the packages that keeps in a cursor where it stands: each
level of the walk sets its own number, and a link that is found is addressed by the numbers of that
moment.  The numbers never go astray: the walk finds the links that `Link.collect` finds, and it
stops with the same error.
-/

namespace SchemaLang

theorem Inheritance.packageName_of_getElem? {packages : List Package} {package : Package}
    {index : Nat} (h : packages[index]? = some package) :
    packageName packages index = package.name := by
  rw [packageName, h]
  rfl

namespace Link

/-- Where a search stands, by the numbers of the package, the definition and the field, and the
links it has found so far. -/
structure Cursor where
  package : Nat
  element : Nat
  index : Nat
  links : List Link
deriving DecidableEq, Repr

/-- The definition at which the cursor stands. -/
def Cursor.owner (c : Cursor) : DefinitionId :=
  ⟨c.package, c.element⟩

/-- Steps of a walk that move a cursor and end with the first error. -/
abbrev Search : Type → Type :=
  StateT Cursor (Except SemanticError)

namespace Search

/-- Notes a link, which may depend on where the cursor stands. -/
def note (link : Cursor → Link) : Search Unit :=
  modify fun c => { c with links := c.links ++ [link c] }

section

variable (packages : List Package) (table : NameTable)

/-- The definition that a reference stands for in the package at the cursor. -/
def target (reference : Reference) (place : Location) : Search DefinitionId := do
  let c ← get
  table.find reference (Inheritance.packageName packages c.package) place

/-- A field is searched by its type, and then its attributes are checked. -/
def visitField (field : Field) : Search Unit := do
  match field.type.reference? with
  | none => pure ()
  | some reference =>
      let id ← target packages table reference field.location
      note fun c => .field c.owner c.index id
  checkAttributes field.attributes (.field field.type) field.location

def visitFields (fields : List Field) : Search Unit :=
  fields.zipIdx.forM fun entry => do
    modify fun c => { c with index := entry.2 }
    visitField packages table entry.1

/-- The check of the chain above a struct, which starts at the cursor. -/
def checkChain (s : Struct) (id : DefinitionId) : Search Unit := do
  let c ← get
  Inheritance.check packages table s id [c.owner] (Inheritance.members s)

def visitParent (s : Struct) : Search Unit := do
  match s.parent with
  | none => pure ()
  | some reference =>
      let id ← target packages table reference s.location
      checkChain packages table s id
      note fun c => .parent c.owner id

def visitDefinition : Definition → Search Unit
  | .struct s => do
      visitParent packages table s
      checkAttributes s.attributes .struct s.location
      visitFields packages table s.fields
  | .enumeration e => checkAttributes e.attributes .enumeration e.location

def visitPackage (package : Package) : Search Unit := do
  checkAttributes package.attributes .package package.location
  package.imports.forM fun imported =>
    checkAttributes imported.attributes .imported imported.location
  package.definitions.zipIdx.forM fun entry => do
    modify fun c => { c with element := entry.2 }
    visitDefinition packages table entry.1

def visitPackages : Search Unit :=
  packages.zipIdx.forM fun entry => do
    modify fun c => { c with package := entry.2 }
    visitPackage packages table entry.1

/-- The links that a search over all packages finds. -/
def links : Except SemanticError (List Link) := do
  let (_, c) ← (visitPackages packages table).run ⟨0, 0, 0, []⟩
  return c.links

end

/-! ### What a search finds -/

theorem bind_apply {α β : Type} (first : Search α) (next : α → Search β) (c : Cursor) :
    (first >>= next) c = first c >>= fun r => next r.1 r.2 := rfl

/-- From the cursor the search does what is expected of it: it stops with the same error, or it
adds the links to those found before and leaves what is kept of the cursor. -/
def Finds {α : Type} (kept : Cursor → α) (search : Search Unit) (c : Cursor)
    (expected : Except SemanticError (List Link)) : Prop :=
  match expected with
  | .error e => search c = .error e
  | .ok links => ∃ c', search c = .ok ((), c') ∧ c'.links = c.links ++ links ∧ kept c' = kept c

namespace Finds

variable {α β : Type} {kept : Cursor → α} {c : Cursor}

/-- A check finds nothing. -/
theorem check (outcome : Except SemanticError Unit) :
    Finds kept (liftM outcome) c (outcome >>= fun _ => pure []) := by
  cases outcome with
  | error e => rfl
  | ok u => exact ⟨c, rfl, (List.append_nil _).symm, rfl⟩

/-- What is found by two searches one after the other. -/
theorem bind {first next : Search Unit} {found rest : Except SemanticError (List Link)}
    (hfirst : Finds kept first c found)
    (hnext : ∀ c', kept c' = kept c → Finds kept next c' rest) :
    Finds kept (first >>= fun _ => next) c
      (found >>= fun links => rest >>= fun more => pure (links ++ more)) := by
  cases found with
  | error e =>
      show (first >>= fun _ => next) c = .error e
      rw [bind_apply, show first c = .error e from hfirst]
      rfl
  | ok links =>
      obtain ⟨c', hrun, hlinks, hkept⟩ := hfirst
      have hrest := hnext c' hkept
      cases rest with
      | error e =>
          show (first >>= fun _ => next) c = .error e
          rw [bind_apply, hrun]
          exact hrest
      | ok more =>
          obtain ⟨c'', hrun', hlinks', hkept'⟩ := hrest
          refine ⟨c'', ?_, ?_, hkept'.trans hkept⟩
          · rw [bind_apply, hrun]
            exact hrun'
          · rw [hlinks', hlinks, List.append_assoc]

theorem forM {l : List β} {visit : β → Search Unit}
    {found : β → Except SemanticError (List Link)}
    (h : ∀ b ∈ l, ∀ c', kept c' = kept c → Finds kept (visit b) c' (found b)) :
    Finds kept (l.forM visit) c (l.mapM found >>= fun links => pure links.flatten) := by
  induction l generalizing c with
  | nil => exact ⟨c, rfl, (List.append_nil _).symm, rfl⟩
  | cons b l ih =>
      have hfirst := h b List.mem_cons_self c rfl
      have hall := hfirst.bind fun c' hc' => ih (c := c') fun b' hb' c'' hc'' =>
        h b' (List.mem_cons_of_mem b hb') c'' (hc''.trans hc')
      rw [List.mapM_cons]
      simp only [bind_assoc, pure_bind] at hall ⊢
      exact hall

/-- A step that moves the cursor counts as part of the search behind it. -/
theorem moved {move : Cursor → Cursor} {search : Search Unit}
    {expected : Except SemanticError (List Link)} (hlinks : (move c).links = c.links)
    (hkept : kept (move c) = kept c) (h : Finds kept search (move c) expected) :
    Finds kept (do modify move; search) c expected := by
  cases expected with
  | error e => exact h
  | ok links =>
      obtain ⟨c', hrun, hfound, hend⟩ := h
      exact ⟨c', hrun, hlinks ▸ hfound, hend.trans hkept⟩

theorem checks (l : List β) (check : β → Except SemanticError Unit) :
    Finds kept (l.forM fun b => liftM (check b)) c (l.forM check >>= fun _ => pure []) := by
  induction l generalizing c with
  | nil => exact ⟨c, rfl, (List.append_nil _).symm, rfl⟩
  | cons b l ih =>
      have hfirst : Finds kept (liftM (check b)) c _ := .check (check b)
      have hall := hfirst.bind fun c' _ => ih (c := c')
      simp only [bind_assoc, pure_bind, List.append_nil] at hall
      show Finds kept _ c ((check b >>= fun _ => l.forM check) >>= fun _ => pure [])
      rw [bind_assoc]
      exact hall

/-- A link that is noted is found. -/
theorem note (link : Cursor → Link)
    (hkept : kept { c with links := c.links ++ [link c] } = kept c) :
    Finds kept (Search.note link) c (pure [link c]) :=
  ⟨_, rfl, rfl, hkept⟩

/-- Only what a search does from the cursor matters. -/
theorem of_eq {search other : Search Unit} {expected : Except SemanticError (List Link)}
    (h : Finds kept search c expected) (heq : other c = search c) :
    Finds kept other c expected := by
  unfold Finds at h ⊢
  rwa [heq]

/-- Less may be kept of the cursor. -/
theorem weaken {γ : Type} {search : Search Unit} {expected : Except SemanticError (List Link)}
    (h : Finds kept search c expected) (less : α → γ) :
    Finds (fun c => less (kept c)) search c expected := by
  cases expected with
  | error e => exact h
  | ok links =>
      obtain ⟨c', hrun, hfound, hend⟩ := h
      exact ⟨c', hrun, hfound, congrArg less hend⟩

end Finds

section

variable {packages : List Package} (table : NameTable) {package : Package} {owner : DefinitionId}
  {c : Cursor} (hpackage : packages[owner.package]? = some package) (hc : c.owner = owner)

include hpackage hc

theorem target_apply (reference : Reference) (place : Location) :
    target packages table reference place c =
      (table.find reference package.name place).map fun id => (id, c) := by
  subst hc
  show (table.find reference (Inheritance.packageName packages c.owner.package) place >>= fun id =>
    pure (id, c)) = _
  rw [Inheritance.packageName_of_getElem? hpackage]
  cases table.find reference package.name place <;> rfl

/-- What is found behind a reference that is looked up. -/
theorem Finds.target {α : Type} {kept : Cursor → α} (reference : Reference) (place : Location)
    {next : DefinitionId → Search Unit} {found : DefinitionId → Except SemanticError (List Link)}
    (h : ∀ id, Finds kept (next id) c (found id)) :
    Finds kept (Search.target packages table reference place >>= next) c
      (table.find reference package.name place >>= found) := by
  have hfind := target_apply table hpackage hc reference place
  cases hrun : table.find reference package.name place with
  | error e =>
      rw [hrun] at hfind
      show (Search.target packages table reference place >>= next) c = .error e
      rw [bind_apply, hfind]
      rfl
  | ok id =>
      rw [hrun] at hfind
      refine (h id).of_eq ?_
      rw [bind_apply, hfind]
      rfl

/-- A field is searched for the link of the field that stands at the cursor. -/
theorem finds_visitField (field : Field) :
    Finds Cursor.owner (visitField packages table field) c
      (ofField ⟨packages, table, package, owner⟩ (field, c.index)) := by
  have hcheck (c' : Cursor) : Finds Cursor.owner
      (liftM (checkAttributes field.attributes (.field field.type) field.location)) c' _ :=
    .check _
  rw [visitField, ofField]
  cases field.type.reference? with
  | none => exact hcheck c
  | some reference =>
      have hfound := Finds.target table hpackage hc reference field.location
        fun id => (Finds.note (fun c => .field c.owner c.index id) rfl).bind fun c' _ => hcheck c'
      simp only [bind_assoc, pure_bind, List.append_nil, hc] at hfound
      exact hfound

theorem finds_visitFields (fields : List Field) :
    Finds Cursor.owner (visitFields packages table fields) c
      (fields.zipIdx.mapM (ofField ⟨packages, table, package, owner⟩) >>= fun links =>
        pure links.flatten) := by
  -- Only the owner is kept from field to field; the number of the field is set anew at each.
  refine .forM fun entry _ c' hc' => .moved rfl rfl ?_
  exact finds_visitField (c := { c' with index := entry.2 }) table hpackage (hc'.trans hc) entry.1

theorem finds_visitParent (s : Struct) :
    Finds Cursor.owner (visitParent packages table s) c
      (ofParent ⟨packages, table, package, owner⟩ s) := by
  subst hc
  have hchain (id : DefinitionId) : Finds Cursor.owner (checkChain packages table s id) c _ :=
    (Finds.check (Inheritance.check packages table s id [c.owner]
      (Inheritance.members s))).of_eq rfl
  have hnote (id : DefinitionId) (c' : Cursor) (hc' : c'.owner = c.owner) :
      Finds Cursor.owner (note fun c => .parent c.owner id) c' (pure [.parent c.owner id]) :=
    hc' ▸ .note _ rfl
  rw [visitParent, ofParent]
  cases s.parent with
  | none => exact .check (.ok ())
  | some reference =>
      have hfound := Finds.target table hpackage rfl reference s.location
        fun id => (hchain id).bind (hnote id)
      simpa only [bind_assoc, pure_bind, List.nil_append] using hfound

theorem finds_visitDefinition (d : Definition) :
    Finds Cursor.owner (visitDefinition packages table d) c
      (ofDefinition ⟨packages, table, package, owner⟩ d) := by
  cases d with
  | enumeration e => exact .check _
  | struct s =>
      have hattributes (c' : Cursor) : Finds Cursor.owner
          (liftM (checkAttributes s.attributes .struct s.location)) c' _ := .check _
      have hfound := (finds_visitParent table hpackage hc s).bind fun c' hc' =>
        (hattributes c').bind fun c'' hc'' =>
          finds_visitFields table hpackage (hc''.trans (hc'.trans hc)) s.fields
      simp only [bind_assoc, pure_bind, List.nil_append] at hfound
      exact hfound

end

section

variable {packages : List Package} {table : NameTable}

theorem finds_visitPackage {package : Package} {c : Cursor}
    (hpackage : packages[c.package]? = some package) :
    Finds Cursor.package (visitPackage packages table package) c
      (ofPackage packages table (package, c.package)) := by
  have hattributes : Finds Cursor.package
      (liftM (checkAttributes package.attributes .package package.location)) c _ := .check _
  have himports (c' : Cursor) : Finds Cursor.package (package.imports.forM fun imported =>
      liftM (checkAttributes imported.attributes .imported imported.location)) c' _ := .checks _ _
  have hdefinitions (c' : Cursor) (hc' : c'.package = c.package) :
      Finds Cursor.package (package.definitions.zipIdx.forM fun entry => do
        modify fun c => { c with element := entry.2 }
        visitDefinition packages table entry.1) c'
        ((package.definitions.zipIdx.mapM fun (d : Definition × Nat) =>
          ofDefinition ⟨packages, table, package, ⟨c.package, d.2⟩⟩ d.1) >>= fun links =>
            pure links.flatten) := by
    -- With the number of its package still there, setting its own number makes it the owner.
    refine .forM fun entry _ c'' hc'' => .moved rfl rfl ?_
    have howner : Cursor.owner { c'' with element := entry.2 } = ⟨c.package, entry.2⟩ :=
      congrArg (DefinitionId.mk · entry.2) (hc''.trans hc')
    exact (finds_visitDefinition table hpackage howner entry.1).weaken DefinitionId.package
  have hfound := hattributes.bind fun c' hc' => (himports c').bind fun c'' hc'' =>
    hdefinitions c'' (hc''.trans hc')
  simp only [bind_assoc, pure_bind, List.nil_append] at hfound
  exact hfound

/-- A search with a cursor finds the links of all packages, or stops with the same error. -/
theorem links_eq_collect (packages : List Package) (table : NameTable) :
    links packages table = collect packages table := by
  have hpackages : Finds (fun _ => ()) (visitPackages packages table) ⟨0, 0, 0, []⟩
      (collect packages table) := by
    refine .forM fun entry hentry c _ => .moved rfl rfl ?_
    exact (finds_visitPackage (c := { c with package := entry.2 })
      (List.mem_zipIdx_iff_getElem?.mp hentry)).weaken fun _ => ()
  rw [links, StateT.run]
  cases hcollect : collect packages table with
  | error e =>
      rw [hcollect] at hpackages
      rw [show visitPackages packages table ⟨0, 0, 0, []⟩ = .error e from hpackages]
      rfl
  | ok found =>
      rw [hcollect] at hpackages
      obtain ⟨c, hrun, hlinks, -⟩ := hpackages
      rw [hrun]
      exact congrArg Except.ok hlinks

end

end Search

end Link

end SchemaLang
