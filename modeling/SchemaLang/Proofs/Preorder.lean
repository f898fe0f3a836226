import SchemaLang.Traversal

/-!
# The order of a walk

A package is a tree of nodes, and its preorder listing puts each node in front of what stands below
it.  A walk visits the nodes in the order of this listing, whatever the visitor does.  A visitor
that stays out of what stands below some nodes meets the listing without their descendants, and one
that fails at its `n`th node meets the first `n` nodes.
-/

namespace SchemaLang

/-- What a node is, which is what a visitor distinguishes. -/
inductive NodeKind where
  | package
  | packageBody
  | imported
  | struct
  | structBody
  | enumeration
  | enumerationBody
  | field
  | fieldType
  | enumeral
  | attribute
deriving DecidableEq, Repr

def Node.kind : Node → NodeKind
  | .package _ => .package
  | .packageBody _ => .packageBody
  | .imported _ => .imported
  | .struct _ => .struct
  | .structBody _ => .structBody
  | .enumeration _ => .enumeration
  | .enumerationBody _ => .enumerationBody
  | .field _ => .field
  | .fieldType _ => .fieldType
  | .enumeral _ => .enumeral
  | .attribute _ => .attribute

/-! ### Trees of nodes -/

/-- Trees in a row: the root of the first one, the trees below this root, and the trees behind the
first one. -/
inductive Forest where
  | nil
  | cons (root : Node) (below : Forest) (behind : Forest)

namespace Forest

/-- A single tree. -/
def tree (root : Node) (below : Forest) : Forest :=
  .cons root below .nil

def append : Forest → Forest → Forest
  | .nil, others => others
  | .cons root below behind, others => .cons root below (behind.append others)

instance : Append Forest :=
  ⟨append⟩

/-- The trees of all elements of a list, in order. -/
def ofList {α : Type} (f : α → Forest) : List α → Forest
  | [] => .nil
  | a :: l => f a ++ ofList f l

/-- A node of a tree, with the nodes above it. -/
structure Entry where
  node : Node
  above : List Node

/-- The nodes in preorder, where those of `above` stand above all of them. -/
def listing (above : List Node) : Forest → List Entry
  | .nil => []
  | .cons root below behind =>
      ⟨root, above⟩ :: (below.listing (root :: above) ++ behind.listing above)

/-- Visits the nodes in preorder, and those below a node only if the visitor says so. -/
def walk {m : Type → Type} [Monad m] (visit : Visitor m) : Forest → m Unit
  | .nil => pure ()
  | .cons root below behind => do
      visit.enter root (below.walk visit)
      behind.walk visit

end Forest

/-! ### The tree of a package -/

def Attribute.tree (a : Attribute) : Forest :=
  .tree (.attribute a) .nil

/-- Below an array type stands the type of its elements. -/
def FieldType.tree : FieldType → Forest
  | .array element size => .tree (.fieldType (.array element size)) element.tree
  | .primitive p => .tree (.fieldType (.primitive p)) .nil
  | .named reference => .tree (.fieldType (.named reference)) .nil

/-- Below a field stand its attributes and its type. -/
def Field.tree (field : Field) : Forest :=
  .tree (.field field) (.ofList Attribute.tree field.attributes ++ field.type.tree)

/-- Below a struct stand its attributes and its body, which holds the fields. -/
def Struct.tree (struct : Struct) : Forest :=
  .tree (.struct struct) (.ofList Attribute.tree struct.attributes ++
    .tree (.structBody struct) (.ofList Field.tree struct.fields))

def Enumeral.tree (enumeral : Enumeral) : Forest :=
  .tree (.enumeral enumeral) .nil

/-- Below an enum stand its attributes and its body, which holds the names. -/
def Enumeration.tree (enumeration : Enumeration) : Forest :=
  .tree (.enumeration enumeration) (.ofList Attribute.tree enumeration.attributes ++
    .tree (.enumerationBody enumeration) (.ofList Enumeral.tree enumeration.enumerals))

def Definition.tree : Definition → Forest
  | .struct s => s.tree
  | .enumeration e => e.tree

def Import.tree (imported : Import) : Forest :=
  .tree (.imported imported) (.ofList Attribute.tree imported.attributes)

/-- Below a package stand its attributes and its body, which holds the imports and behind them the
definitions. -/
def Package.tree (package : Package) : Forest :=
  .tree (.package package) (.ofList Attribute.tree package.attributes ++
    .tree (.packageBody package)
      (.ofList Import.tree package.imports ++ .ofList Definition.tree package.definitions))

/-! ### Walks go along the tree -/

section

variable {m : Type → Type} [Monad m] [LawfulMonad m] (visit : Visitor m)

namespace Forest

@[simp] theorem walk_tree (root : Node) (below : Forest) :
    (tree root below).walk visit = visit.enter root (below.walk visit) := by
  simp [tree, walk]

@[simp] theorem walk_append (f g : Forest) :
    (f ++ g).walk visit = f.walk visit >>= fun _ => g.walk visit := by
  show (f.append g).walk visit = _
  induction f with
  | nil => simp [append, walk]
  | cons root below behind _ ih => simp [append, walk, ih]

/-- A loop over a list walks along the trees of its elements. -/
theorem walk_ofList {α : Type} {f : α → Forest} {act : α → m Unit}
    (h : ∀ a, act a = (f a).walk visit) (l : List α) :
    l.forM act = (ofList f l).walk visit := by
  induction l with
  | nil => rfl
  | cons a l ih =>
      show (act a >>= fun _ => l.forM act) = _
      rw [ih, h, ofList, walk_append]

end Forest

theorem Attribute.walk_eq (a : Attribute) : a.walk visit = a.tree.walk visit := by
  simp [Attribute.walk, Attribute.tree, Forest.walk]

theorem FieldType.walk_eq (type : FieldType) : type.walk visit = type.tree.walk visit := by
  induction type with
  | array element size ih => simp [FieldType.walk, FieldType.tree, ih]
  | primitive p => simp [FieldType.walk, FieldType.tree, Forest.walk]
  | named reference => simp [FieldType.walk, FieldType.tree, Forest.walk]

theorem Attribute.walkAll_eq (attributes : List Attribute) :
    attributes.forM (Attribute.walk visit) =
      (Forest.ofList Attribute.tree attributes).walk visit :=
  Forest.walk_ofList visit (Attribute.walk_eq visit) attributes

theorem Field.walk_eq (field : Field) : field.walk visit = field.tree.walk visit := by
  simp [Field.walk, Field.tree, Attribute.walkAll_eq, FieldType.walk_eq]

theorem Struct.walk_eq (struct : Struct) : struct.walk visit = struct.tree.walk visit := by
  simp [Struct.walk, Struct.walkBody, Struct.tree, Attribute.walkAll_eq,
    Forest.walk_ofList visit (Field.walk_eq visit)]

theorem Enumeral.walk_eq (enumeral : Enumeral) :
    enumeral.walk visit = enumeral.tree.walk visit := by
  simp [Enumeral.walk, Enumeral.tree, Forest.walk]

theorem Enumeration.walk_eq (enumeration : Enumeration) :
    enumeration.walk visit = enumeration.tree.walk visit := by
  simp [Enumeration.walk, Enumeration.walkBody, Enumeration.tree, Attribute.walkAll_eq,
    Forest.walk_ofList visit (Enumeral.walk_eq visit)]

theorem Definition.walk_eq (definition : Definition) :
    definition.walk visit = definition.tree.walk visit := by
  cases definition with
  | struct s => exact s.walk_eq visit
  | enumeration e => exact e.walk_eq visit

theorem Import.walk_eq (imported : Import) :
    imported.walk visit = imported.tree.walk visit := by
  simp [Import.walk, Import.tree, Attribute.walkAll_eq]

/-- Whatever a visitor does, the walk over a package goes along its tree. -/
theorem Package.walk_eq (package : Package) : package.walk visit = package.tree.walk visit := by
  simp [Package.walk, Package.walkBody, Package.tree, Attribute.walkAll_eq,
    Forest.walk_ofList visit (Import.walk_eq visit),
    Forest.walk_ofList visit (Definition.walk_eq visit)]

end

/-! ### Listings without descendants -/

namespace Forest

/-- None of the nodes is of a kind that is skipped. -/
def Clear (skipped : List NodeKind) (nodes : List Node) : Prop :=
  ∀ node ∈ nodes, node.kind ∉ skipped

instance (skipped : List NodeKind) (nodes : List Node) : Decidable (Clear skipped nodes) :=
  inferInstanceAs (Decidable (∀ node ∈ nodes, node.kind ∉ skipped))

/-- The entries that are no descendants of nodes of some kinds. -/
def keep (skipped : List NodeKind) (entries : List Entry) : List Entry :=
  entries.filter fun entry => Clear skipped entry.above

/-- The nodes in preorder, without the descendants of those of some kinds. -/
def pruned (skipped : List NodeKind) (f : Forest) : List Node :=
  (keep skipped (f.listing [])).map Entry.node

variable {skipped : List NodeKind} {above : List Node}

theorem clear_nil : Clear skipped [] :=
  nofun

theorem Clear.cons {root : Node} (hroot : root.kind ∉ skipped) (h : Clear skipped above) :
    Clear skipped (root :: above) :=
  List.forall_mem_cons.mpr ⟨hroot, h⟩

theorem above_of_mem_listing {f : Forest} {entry : Entry} (h : entry ∈ f.listing above) :
    ∀ node ∈ above, node ∈ entry.above := by
  induction f generalizing above with
  | nil => cases h
  | cons root below behind ihbelow ihbehind =>
      rw [listing, List.mem_cons, List.mem_append] at h
      rcases h with rfl | h | h
      · exact fun node hnode => hnode
      · exact fun node hnode => ihbelow h node (List.mem_cons_of_mem root hnode)
      · exact ihbehind h

/-- Nothing is kept below a node that is skipped. -/
theorem keep_listing_of_skipped {root : Node} (h : root.kind ∈ skipped) (f : Forest) :
    keep skipped (f.listing (root :: above)) = [] := by
  rw [keep, List.filter_eq_nil_iff]
  intro entry hentry hclear
  have habove := above_of_mem_listing hentry root List.mem_cons_self
  exact of_decide_eq_true hclear root habove h

theorem keep_listing_cons (h : Clear skipped above) (root : Node) (below behind : Forest) :
    keep skipped ((cons root below behind).listing above) =
      ⟨root, above⟩ :: (keep skipped (below.listing (root :: above)) ++
        keep skipped (behind.listing above)) := by
  rw [keep, listing, List.filter_cons, if_pos (decide_eq_true h), List.filter_append]
  rfl

/-- It does not matter which nodes stand above all of them, as long as none is skipped. -/
theorem map_keep_listing (h : Clear skipped above) (f : Forest) :
    (keep skipped (f.listing above)).map Entry.node = f.pruned skipped := by
  suffices hsame : ∀ {others : List Node}, Clear skipped others →
      (keep skipped (f.listing above)).map Entry.node =
        (keep skipped (f.listing others)).map Entry.node from
    hsame clear_nil
  intro others hothers
  induction f generalizing above others with
  | nil => rfl
  | cons root below behind ihbelow ihbehind =>
      rw [keep_listing_cons h, keep_listing_cons hothers, List.map_cons, List.map_cons,
        List.map_append, List.map_append, ihbehind h hothers]
      by_cases hroot : root.kind ∈ skipped
      · rw [keep_listing_of_skipped hroot, keep_listing_of_skipped hroot]
      · rw [ihbelow (h.cons hroot) (hothers.cons hroot)]

theorem pruned_cons (root : Node) (below behind : Forest) :
    (cons root below behind).pruned skipped =
      root :: (if root.kind ∈ skipped then [] else below.pruned skipped) ++
        behind.pruned skipped := by
  rw [pruned, keep_listing_cons clear_nil, List.map_cons, List.map_append]
  split
  · rename_i hroot
    rw [keep_listing_of_skipped hroot]
    rfl
  · rename_i hroot
    rw [map_keep_listing (clear_nil.cons hroot)]
    rfl

end Forest

/-! ### Visitors that keep a log -/

/-- A walk with a log of the nodes visited so far.  The log outlasts an error. -/
abbrev Logging : Type → Type :=
  ExceptT Unit (StateM (List Node))

/-- Adds each node to the log.  Fails when the log has reached a certain length, if one is given,
and otherwise goes on below all nodes but those of some kinds. -/
def logging (limit : Option Nat) (skipped : List NodeKind) : Visitor Logging := fun node => do
  modify (· ++ [node])
  if some (← get).length = limit then throw ()
  return !skipped.contains node.kind

namespace Logging

/-- How a walk ends that starts with a log, and the log it ends with. -/
def runFrom {α : Type} (log : List Node) (act : Logging α) : Except Unit α × List Node :=
  act.run.run log

/-- The end of a walk that meets the given nodes, and its log. -/
def ended (limit : Option Nat) (nodes : List Node) : Except Unit Unit × List Node :=
  match limit with
  | none => (.ok (), nodes)
  | some n => if n ≤ nodes.length then (.error (), nodes.take n) else (.ok (), nodes)

/-- The log may still grow. -/
def Below (limit : Option Nat) (log : List Node) : Prop :=
  ∀ n, limit = some n → log.length < n

/-- The walk meets the given nodes, unless the limit is reached. -/
def Meets (limit : Option Nat) (act : Logging Unit) (nodes : List Node) : Prop :=
  ∀ log, Below limit log → act.runFrom log = ended limit (log ++ nodes)

variable {limit : Option Nat} {nodes others : List Node} {act next : Logging Unit}

theorem ended_of_below (h : Below limit nodes) : ended limit nodes = (.ok (), nodes) := by
  cases limit with
  | none => rfl
  | some n => exact if_neg (Nat.not_le.mpr (h n rfl))

/-- Behind the limit nothing is met. -/
theorem ended_append {n : Nat} (h : n ≤ nodes.length) (others : List Node) :
    ended (some n) (nodes ++ others) = (.error (), nodes.take n) := by
  rw [ended, if_pos (by rw [List.length_append]; omega), List.take_append_of_le_length h]

theorem runFrom_bind {α β : Type} (log : List Node) (act : Logging α) (next : α → Logging β) :
    runFrom log (act >>= next) =
      match act.runFrom log with
      | (.ok a, more) => (next a).runFrom more
      | (.error e, more) => (.error e, more) := by
  show (ExceptT.run (act >>= next)).run log = match (ExceptT.run act).run log with
    | (.ok a, more) => (next a).runFrom more
    | (.error e, more) => (.error e, more)
  rw [ExceptT.run_bind, StateT.run_bind]
  rcases (ExceptT.run act).run log with ⟨_ | _, more⟩ <;> rfl

theorem runFrom_logging (limit : Option Nat) (skipped : List NodeKind) (log : List Node)
    (node : Node) : runFrom log (logging limit skipped node) =
      if some (log ++ [node]).length = limit then (.error (), log ++ [node])
      else (.ok (!skipped.contains node.kind), log ++ [node]) := by
  show (if some (log ++ [node]).length = limit then throw ()
    else pure (!skipped.contains node.kind) : Logging Bool).runFrom (log ++ [node]) = _
  split <;> rfl

theorem meets_pure : Meets limit (pure ()) [] := by
  intro log h
  rw [List.append_nil, ended_of_below h]
  rfl

/-- What is met by a walk and then by another one. -/
theorem Meets.bind (hact : Meets limit act nodes) (hnext : Meets limit next others) :
    Meets limit (act >>= fun _ => next) (nodes ++ others) := by
  intro log h
  rw [runFrom_bind, hact log h, ← List.append_assoc]
  by_cases hbelow : Below limit (log ++ nodes)
  · rw [ended_of_below hbelow]
    exact hnext _ hbelow
  · obtain ⟨n, rfl, hn⟩ : ∃ n, limit = some n ∧ n ≤ (log ++ nodes).length := by
      simpa [Below] using hbelow
    rw [ended_append hn, ended, if_pos hn]

/-- A node is met in front of what is below it, and only it if this is skipped. -/
theorem meets_enter {skipped : List NodeKind} (root : Node) (h : Meets limit act nodes) :
    Meets limit ((logging limit skipped).enter root act)
      (root :: if root.kind ∈ skipped then [] else nodes) := by
  intro log hlog
  rw [List.append_cons log root (if root.kind ∈ skipped then [] else nodes), Visitor.enter,
    runFrom_bind, runFrom_logging]
  by_cases hlimit : some (log ++ [root]).length = limit
  · rw [if_pos hlimit, ← hlimit, ended_append (Nat.le_refl _), List.take_length]
  · have hbelow : Below limit (log ++ [root]) := by
      rintro n rfl
      have hlt := hlog n rfl
      rw [Option.some_inj] at hlimit
      rw [List.length_append, List.length_singleton] at hlimit ⊢
      omega
    rw [if_neg hlimit]
    show runFrom (log ++ [root]) (if !skipped.contains root.kind then act else pure ()) = _
    by_cases hskipped : root.kind ∈ skipped
    · rw [if_neg (by simpa using hskipped), if_pos hskipped, List.append_nil,
        ended_of_below hbelow]
      rfl
    · rw [if_pos (by simpa using hskipped), if_neg hskipped]
      exact h _ hbelow

end Logging

/-- A walk along a forest meets its pruned listing. -/
theorem Forest.meets_walk (limit : Option Nat) (skipped : List NodeKind) (f : Forest) :
    Logging.Meets limit (f.walk (logging limit skipped)) (f.pruned skipped) := by
  induction f with
  | nil => exact Logging.meets_pure
  | cons root below behind ihbelow ihbehind =>
      rw [pruned_cons]
      exact (Logging.meets_enter root ihbelow).bind ihbehind

/-- A walk over a package by a visitor that keeps a log, goes on below all nodes but those of some
kinds and fails when the log has reached a certain length.  The log holds the nodes in preorder,
without the descendants of the nodes of those kinds, up to that length, and the walk fails exactly
if there are that many. -/
theorem Package.walk_logging (package : Package) {limit : Option Nat} (skipped : List NodeKind)
    (hlimit : ∀ n, limit = some n → 1 ≤ n) :
    let nodes := package.tree.pruned skipped
    let outcome := (package.walk (logging limit skipped)).runFrom []
    outcome.2 = limit.elim nodes nodes.take ∧
      (outcome.1 = .error () ↔ ∃ n, limit = some n ∧ n ≤ nodes.length) := by
  intro nodes outcome
  have houtcome : outcome = Logging.ended limit nodes := by
    show (package.walk (logging limit skipped)).runFrom [] = _
    rw [package.walk_eq]
    exact package.tree.meets_walk limit skipped [] fun n hn => hlimit n hn
  rw [houtcome]
  cases limit with
  | none => simp [Logging.ended]
  | some n =>
      by_cases h : n ≤ nodes.length
      · simp [Logging.ended, h]
      · have hall : nodes.take n = nodes := List.take_of_length_le (Nat.le_of_not_le h)
        simp [Logging.ended, h, hall]

/-- A package with attributes at many places and an array of arrays. -/
def Package.nested : Package :=
  let place : Location := ⟨0, 1, 1, ""⟩
  let grid : FieldType := .array (.array (.primitive .byte) .unbounded) (.fixed 2)
  let board : Struct :=
    ⟨"Board", false, none, none, [⟨grid, "cells", [.message], place⟩], [], place⟩
  let color : Enumeration := ⟨"Color", [⟨"Red", place⟩], [.message], place⟩
  ⟨"p", [⟨"q", [.message], place⟩], [.struct board, .enumeration color], [.version 1], place⟩

/-- What stands below the import is left out, and the walk fails inside the array type. -/
theorem Package.walk_logging_nested :
    (∀ n, some 10 = some n → 1 ≤ n) ∧
      let outcome := (nested.walk (logging (some 10) [.imported])).runFrom []
      outcome.1 = .error () ∧ outcome.2.map Node.kind =
        [.package, .attribute, .packageBody, .imported, .struct, .structBody, .field, .attribute,
          .fieldType, .fieldType] := by
  have hlimit : ∀ n, some 10 = some n → 1 ≤ n := by
    rintro n ⟨⟩
    decide
  obtain ⟨hlog, herror⟩ := nested.walk_logging [.imported] hlimit
  refine ⟨hlimit, herror.mpr ⟨10, rfl, by decide⟩, ?_⟩
  rw [hlog]
  rfl

end SchemaLang
