import SchemaLang.Proofs.Parsing
import SchemaLang.Proofs.ParserSteps

/-!
# What the routines read

A program of the machine is a reader too, if a call of a routine is taken for what the rule of the
routine reads.  Read so, what each routine does is its rule again.
-/

namespace SchemaLang

open TokenReader

namespace Slot

/-- The slot that is reached with the given tokens left. -/
def front (stop : Location) : List Token → Slot
  | [] => .stop stop
  | t :: _ => .token t

@[simp] theorem is_token (kind : TokenKind) (t : Token) :
    (token t).is kind = decide (t.kind = kind) := by
  simp [is, kind?, token?]

@[simp] theorem literal_token (t : Token) : (token t).literal = t.literal := rfl

@[simp] theorem location_token (t : Token) : (token t).location = t.location := rfl

@[simp] theorem is_stop (kind : TokenKind) (place : Location) : (stop place).is kind = false := rfl

end Slot

namespace TokenReader

variable {α β : Type}

instance : LawfulMonad TokenReader :=
  LawfulMonad.mk' _
    (fun p => by
      funext stop ts
      show (p >>= pure) stop ts = _
      rw [bind_apply]
      cases p stop ts <;> rfl)
    (fun _ _ => rfl)
    (fun p f g => by
      funext stop ts
      rw [bind_apply, bind_apply, bind_apply]
      cases p stop ts with
      | error e => rfl
      | ok x => exact (bind_apply (f x.1) g stop x.2).symm)

/-- What comes next; nothing is taken. -/
def ahead : TokenReader Slot :=
  fun stop ts => .ok (.front stop ts, ts)

/-- Takes what comes next, except the end of the source. -/
def next : TokenReader Slot :=
  fun stop ts => .ok (.front stop ts, ts.tail)

/-- In front of a wanted token, taking what comes next is taking it. -/
theorem next_bind_cons (wanted : Token → Bool) {t : Token} (h : wanted t) (expected : Expectation)
    (f : Slot → TokenReader α) (stop : Location) (ts : List Token) :
    (next >>= f) stop (t :: ts) =
      (take wanted expected >>= fun t => f (.token t)) stop (t :: ts) := by
  rw [bind_of_ok (take_cons h expected stop ts)]
  rfl

theorem unexpected_cons (expected : Expectation) (stop : Location) (t : Token) (ts : List Token) :
    unexpected expected stop (t :: ts) = (Slot.token t).unexpected expected := rfl

/-- What is taken is decided by the slot it is in, if the end of the source is not wanted. -/
theorem take_bind_apply {wanted : Slot → Bool} (hstop : ∀ place, wanted (.stop place) = false)
    (expected : Expectation) (f : Slot → TokenReader α) (stop : Location) (ts : List Token) :
    (take (fun t => wanted (.token t)) expected >>= fun t => f (.token t)) stop ts =
      if wanted (.front stop ts) then f (.front stop ts) stop ts.tail
      else .error ((Slot.front stop ts).unexpected expected) := by
  cases ts with
  | nil =>
      rw [Slot.front, hstop, if_neg Bool.false_ne_true]
      rfl
  | cons t ts =>
      rw [Slot.front, bind_apply, take]
      split <;> rfl

theorem bind_congr_apply {p q : TokenReader α} {stop : Location} {ts : List Token}
    (h : p stop ts = q stop ts) (f : α → TokenReader β) :
    (p >>= f) stop ts = (q >>= f) stop ts := by
  rw [bind_apply, bind_apply, h]

/-- Takes nothing, and fails in front of a token. -/
def atEnd : TokenReader Unit :=
  fun stop ts => if ts.isEmpty then .ok ((), ts) else .error (unexpected .endOfExpression stop ts)

theorem keeps_next : Keeps next := by
  intro stop ts a rest h
  cases h
  simp

theorem keeps_atEnd : Keeps atEnd := by
  intro stop ts a rest h
  unfold atEnd at h
  split at h <;> cases h
  exact Nat.le_refl _

/-! ### Loops round by round -/

/-- A reader that depends on whether a token comes next asks for it first. -/
theorem eq_accept_bind {kind : TokenKind} {p : TokenReader α} {f : Bool → TokenReader α}
    (htaken : ∀ {stop : Location} {t : Token} {ts : List Token}, t.kind = kind →
      p stop (t :: ts) = f true stop ts)
    (hleft : ∀ {stop : Location} {ts : List Token}, NotAhead [kind] ts →
      p stop ts = f false stop ts) : p = accept kind >>= f := by
  funext stop ts
  by_cases hahead : NotAhead [kind] ts
  · rw [bind_of_ok (accept_of_notAhead hahead stop), hleft hahead]
  · obtain ⟨t, rest, hkind, rfl⟩ := exists_cons_of_ahead hahead
    rw [List.mem_singleton] at hkind
    rw [bind_of_ok (accept_cons hkind stop rest), htaken hkind]

theorem manyAfter_eq (separator : TokenKind) (p : TokenReader α) (hkeeps : Keeps p) :
    manyAfter separator p hkeeps = (do
      if ← accept separator then
        let a ← p
        let as ← manyAfter separator p hkeeps
        pure (a :: as)
      else pure []) :=
  eq_accept_bind manyAfter_cons manyAfter_of_notAhead

theorem untilBrace_eq (p : TokenReader α) (hadvances : Advances p) :
    untilBrace p hadvances = (do
      if ← accept .rightBrace then pure []
      else
        let a ← p
        let as ← untilBrace p hadvances
        pure (a :: as)) :=
  eq_accept_bind untilBrace_cons untilBrace_of_notAhead

theorem commaSeparated_eq (p : TokenReader α) (hadvances : Advances p) :
    commaSeparated p hadvances = (do
      if ← accept .rightBrace then pure []
      else
        let a ← p
        if ← accept .comma then
          let as ← commaSeparated p hadvances
          pure (a :: as)
        else
          let _ ← expect .rightBrace .commaOrClosingBrace
          pure [a]) :=
  eq_accept_bind commaSeparated_cons commaSeparated_of_notAhead

theorem untilEnd_eq (p : TokenReader α) (hadvances : Advances p) :
    untilEnd p hadvances = (do
      if (← ahead).isStop then pure []
      else
        let a ← p
        let as ← untilEnd p hadvances
        pure (a :: as)) := by
  funext stop ts
  cases ts with
  | nil => rw [untilEnd]; rfl
  | cons t rest => exact untilEnd_of_ne_nil (by simp)

end TokenReader

theorem Expr.unary_eq : unary = (do
    if ← accept .minus then
      let e ← unary
      pure (.negate e)
    else power) :=
  eq_accept_bind (fun h => unary_cons_minus h _ _) fun h => unary_of_notAhead h _

/-! ### The rules of the routines -/

namespace Import

/-- Reads an import behind its keyword. -/
def readBehind (attributes : List Attribute) (keyword : Slot) : TokenReader Import := do
  let name ← quoted .importedName
  return ⟨name, attributes, keyword.location⟩

theorem next_bind_readBehind {t : Token} (h : t.kind = .useKeyword) (attributes : List Attribute)
    (stop : Location) (ts : List Token) :
    (next >>= readBehind attributes) stop (t :: ts) = read attributes stop (t :: ts) :=
  next_bind_cons _ (by simpa using h) .declaration _ stop ts

end Import

namespace Struct

/-- Reads a struct behind its keyword. -/
def readBehind (attributes : List Attribute) (keyword : Slot) : TokenReader Struct := do
  let name ← simpleName .typeName
  let parent ← readParent
  let _ ← expect .leftBrace .openingBrace
  let fields ← untilBrace Field.readDeclaration Field.advances_readDeclaration
  return ⟨name.literal, keyword.is .classKeyword, parent, none, fields.flatten, attributes,
    keyword.location⟩

theorem next_bind_readBehind {t : Token} (h : t.kind = .classKeyword ∨ t.kind = .structKeyword)
    (attributes : List Attribute) (stop : Location) (ts : List Token) :
    (next >>= readBehind attributes) stop (t :: ts) = read attributes stop (t :: ts) := by
  rw [next_bind_cons (fun t => t.kind = .classKeyword || t.kind = .structKeyword)
    (by simpa using h) .declaration]
  simp [read, readBehind]

theorem advances_readBehind (attributes : List Attribute) (keyword : Slot) :
    Advances (readBehind attributes keyword) :=
  (advances_simpleName _).bind fun _ => keeps_readParent.bind fun _ =>
    ((advances_expect _ _).bind fun _ =>
      ((advances_untilBrace _ _).bind fun _ => keeps_pure _).keeps).keeps

end Struct

namespace Enumeration

/-- Reads an enum behind its keyword. -/
def readBehind (attributes : List Attribute) (keyword : Slot) : TokenReader Enumeration := do
  let name ← simpleName .enumName
  let _ ← expect .leftBrace .openingBrace
  let enumerals ← commaSeparated readEnumeral advances_readEnumeral
  return ⟨name.literal, enumerals, attributes, keyword.location⟩

theorem next_bind_readBehind {t : Token} (h : t.kind = .enumKeyword) (attributes : List Attribute)
    (stop : Location) (ts : List Token) :
    (next >>= readBehind attributes) stop (t :: ts) = read attributes stop (t :: ts) :=
  next_bind_cons _ (by simpa using h) .declaration _ stop ts

theorem advances_readBehind (attributes : List Attribute) (keyword : Slot) :
    Advances (readBehind attributes keyword) :=
  (advances_simpleName _).bind fun _ => ((advances_expect _ _).bind fun _ =>
    ((advances_commaSeparated _ _).bind fun _ => keeps_pure _).keeps).keeps

end Enumeration

namespace Field

theorem keeps_readName : Keeps readName :=
  advances_readName.keeps

/-- Reads the names of a declaration. -/
def readNames : TokenReader (List (String × Location)) := do
  let first ← readName
  let others ← manyAfter .comma readName keeps_readName
  return first :: others

theorem advances_readNames : Advances readNames :=
  advances_readName.bind fun _ => (keeps_manyAfter _ _ _).bind fun _ => keeps_pure _

end Field

/-- Reads the arrays around a type. -/
def FieldType.readArrays (element : FieldType) : TokenReader FieldType := do
  let sizes ← manyAfter .leftBracket readSize advances_readSize.keeps
  return sizes.foldl .array element

namespace Expr

/-- Reads a text that holds one constant expression. -/
def readAlone : TokenReader Float := do
  let x ← constant
  let _ ← atEnd
  return x

theorem evaluate_eq (text : String) : evaluate text =
    (readAlone (Tokens.ofSource text "").stop (Tokens.ofSource text "").list).map Prod.fst := by
  rw [evaluate, readAlone, bind_apply]
  generalize Tokens.ofSource text "" = ts
  cases constant ts.stop ts.list with
  | error e => rfl
  | ok x =>
      obtain ⟨x, rest⟩ := x
      cases rest <;> rfl

end Expr

namespace Parser

/-- What a routine reads, by the rules of the grammar. -/
def reader : (r : Routine) → TokenReader r.Result
  | .package => Package.read
  | .expression => Expr.readAlone
  | .items => untilEnd Package.readItem Package.advances_readItem
  | .struct attributes => next >>= Struct.readBehind attributes
  | .enumeration attributes => next >>= Enumeration.readBehind attributes
  | .enumerals => commaSeparated Enumeration.readEnumeral Enumeration.advances_readEnumeral
  | .fields => untilBrace Field.readDeclaration Field.advances_readDeclaration
  | .field => Field.readDeclaration
  | .names => Field.readNames
  | .type => FieldType.read
  | .arrays element => FieldType.readArrays element
  | .attributes => Attribute.readAll
  | .entries => commaSeparated Attribute.readEntry Attribute.advances_readEntry
  | .entry => Attribute.readEntry
  | .range => Attribute.readBounds
  | .constant => Expr.constant
  | .sum => Expr.sum
  | .terms left => Expr.moreTerms left
  | .product => Expr.product
  | .factors left => Expr.moreFactors left
  | .unary => Expr.unary
  | .operand => Expr.operand

/-- No routine hands on more than it got. -/
theorem keeps_reader (r : Routine) : Keeps (reader r) := by
  cases r with
  | package =>
      exact Attribute.keeps_readAll.bind fun _ => ((advances_expect _ _).bind fun _ =>
        ((advances_quoted _).bind fun _ => (keeps_untilEnd _ _).bind fun _ =>
          keeps_pure _).keeps).keeps
  | expression =>
      exact (Expr.advances_constant.bind fun _ => keeps_atEnd.bind fun _ => keeps_pure _).keeps
  | items => exact keeps_untilEnd _ _
  | struct attributes =>
      exact keeps_next.bind fun keyword => (Struct.advances_readBehind attributes keyword).keeps
  | enumeration attributes =>
      exact keeps_next.bind fun keyword =>
        (Enumeration.advances_readBehind attributes keyword).keeps
  | enumerals => exact (advances_commaSeparated _ _).keeps
  | fields => exact (advances_untilBrace _ _).keeps
  | field => exact Field.advances_readDeclaration.keeps
  | names => exact Field.advances_readNames.keeps
  | type => exact FieldType.advances_read.keeps
  | arrays element => exact (keeps_manyAfter _ _ _).bind fun _ => keeps_pure _
  | attributes => exact Attribute.keeps_readAll
  | entries => exact (advances_commaSeparated _ _).keeps
  | entry => exact Attribute.advances_readEntry.keeps
  | range => exact Attribute.advances_readBounds.keeps
  | constant => exact Expr.advances_constant.keeps
  | sum => exact Expr.advances_sum.keeps
  | terms left => exact Expr.keeps_moreTerms left
  | product => exact Expr.advances_product.keeps
  | factors left => exact Expr.keeps_moreFactors left
  | unary => exact Expr.advances_unary.keeps
  | operand => exact Expr.advances_operand.keeps

/-! ### Programs as readers -/

namespace Program

variable {α β : Type}

/-- The reader that a program is, if routines read what their rules say. -/
def denote : Program α → TokenReader α
  | .done a => pure a
  | .fail e => TokenReader.ofExcept (.error e)
  | .peek next => ahead >>= fun slot => (next slot).denote
  | .advance next => TokenReader.next >>= fun slot => (next slot).denote
  | .call r next => reader r >>= fun a => (next a).denote

@[simp] theorem denote_pure (a : α) : (pure a : Program α).denote = pure a := rfl

@[simp] theorem denote_fail (e : SyntaxError) :
    (fail e : Program α).denote = TokenReader.ofExcept (.error e) := rfl

@[simp] theorem denote_ite (c : Prop) [Decidable c] (p q : Program α) :
    (if c then p else q).denote = if c then p.denote else q.denote :=
  apply_ite denote c p q

@[simp] theorem denote_bind (p : Program α) (f : α → Program β) :
    (p >>= f).denote = p.denote >>= fun a => (f a).denote := by
  show (p.bind f).denote = _
  induction p with
  | done a => simp only [bind, denote, pure_bind]
  | fail e => rfl
  | peek next ih => simp only [bind, denote, ih, bind_assoc]
  | advance next ih => simp only [bind, denote, ih, bind_assoc]
  | call r next ih => simp only [bind, denote, ih, bind_assoc]

@[simp] theorem denote_look : look.denote = ahead := bind_pure _

@[simp] theorem denote_move : move.denote = TokenReader.next := bind_pure _

@[simp] theorem denote_call (r : Routine) (next : r.Result → Program α) :
    (call r next).denote = reader r >>= fun a => (next a).denote := rfl

@[simp] theorem denote_done (a : α) : (done a).denote = pure a := rfl

@[simp] theorem run_eq (r : Routine) : run r = call r done := rfl

theorem denote_run (r : Routine) : (run r).denote = reader r := bind_pure _

@[simp] theorem denote_ofExcept (outcome : Except SyntaxError α) :
    (ofExcept outcome).denote = TokenReader.ofExcept outcome := by
  cases outcome <;> rfl

@[simp] theorem denote_here : here.denote = TokenReader.here := by
  funext stop ts
  cases ts <;> rfl

@[simp] theorem denote_refuse (expected : Expectation) :
    (refuse expected : Program α).denote = TokenReader.fail expected := by
  funext stop ts
  cases ts <;> rfl

@[simp] theorem denote_eat (kind : TokenKind) : (eat kind).denote = accept kind := by
  funext stop ts
  cases ts with
  | nil => rfl
  | cons t ts =>
      show (if (Slot.token t).is kind then move >>= fun _ => pure true
        else pure false : Program Bool).denote stop (t :: ts) = _
      by_cases hkind : t.kind = kind
      · rw [accept_cons hkind, if_pos (by simpa using hkind)]
        rfl
      · rw [accept_of_notAhead (by simpa using hkind), if_neg (by simpa using hkind)]
        rfl

/-- What is taken is a token, if the end of the source is not wanted. -/
theorem denote_take {wanted : Slot → Bool} (hstop : ∀ place, wanted (.stop place) = false)
    (expected : Expectation) : (take wanted expected).denote =
      Slot.token <$> TokenReader.take (fun t => wanted (.token t)) expected := by
  funext stop ts
  show (if wanted (.front stop ts) then move else refuse expected).denote stop ts =
    (TokenReader.take (fun t => wanted (.token t)) expected >>= fun t => pure (.token t)) stop ts
  rw [take_bind_apply hstop expected pure]
  split
  · rfl
  · rw [denote_refuse]
    cases ts <;> rfl

@[simp] theorem denote_expect (kind : TokenKind) (expected : Expectation) :
    (expect kind expected).denote = Slot.token <$> TokenReader.expect kind expected := by
  rw [expect, denote_take (fun _ => Slot.is_stop _ _)]
  simp only [Slot.is_token]
  rfl

@[simp] theorem denote_simpleName (expected : Expectation) :
    (simpleName expected).denote = Slot.token <$> TokenReader.simpleName expected := by
  rw [simpleName, denote_take (fun _ => rfl)]
  simp only [Slot.is_token]
  rfl

/-- What is wanted behind an expression is the end of the source. -/
theorem denote_end (a : α) : (take Slot.isStop .endOfExpression >>= fun _ => pure a).denote =
    atEnd >>= fun _ => pure a := by
  funext stop ts
  cases ts <;> rfl

@[simp] theorem denote_quoted (expected : Expectation) :
    (quoted expected).denote = TokenReader.quoted expected := by
  simp [quoted, TokenReader.quoted, Slot.literal, Slot.location]

/-- A token that is taken without a look at it first, and looked at then. -/
theorem denote_move_if {wanted : Slot → Bool} (hstop : ∀ place, wanted (.stop place) = false)
    (expected : Expectation) (f : Slot → Program α) :
    (move >>= fun slot => if wanted slot then f slot else fail (slot.unexpected expected)).denote =
      TokenReader.take (fun t => wanted (.token t)) expected >>=
        fun t => (f (.token t)).denote := by
  funext stop ts
  show (if wanted (.front stop ts) then f (.front stop ts) else
    fail ((Slot.front stop ts).unexpected expected)).denote stop ts.tail = _
  rw [take_bind_apply hstop expected fun slot => (f slot).denote]
  split <;> rfl

/-- The place of a name is known before it is taken. -/
theorem here_bind_simpleName (expected : Expectation) (f : Location → Token → α) :
    (TokenReader.here >>= fun place => f place <$> TokenReader.simpleName expected) =
      (fun t => f t.location t) <$> TokenReader.simpleName expected := by
  funext stop ts
  show (TokenReader.here >>= fun place => TokenReader.simpleName expected >>= fun t =>
    pure (f place t)) stop ts = (TokenReader.simpleName expected >>= fun t =>
      pure (f t.location t)) stop ts
  rw [bind_of_ok (here_apply stop ts), bind_apply, bind_apply]
  cases htake : TokenReader.simpleName expected stop ts with
  | error e => rfl
  | ok x =>
      obtain ⟨-, rfl⟩ := eq_cons_of_take htake
      rfl

/-! ### What the parts of a routine read -/

theorem denote_parent : parent.denote = Struct.readParent := by
  simp [parent, Struct.readParent]

theorem denote_placedName : placedName.denote = Field.readName := by
  simp [placedName, Field.readName, here_bind_simpleName]

theorem denote_enumeral : enumeral.denote = Enumeration.readEnumeral := by
  simp [enumeral, Enumeration.readEnumeral, here_bind_simpleName]

theorem denote_size : size.denote = FieldType.readNumber := by
  funext stop ts
  cases ts with
  | nil => rfl
  | cons t ts =>
      show (if (Slot.token t).is .integer then move >>= fun t =>
        ofExcept (Literal.toSize t.literal t.location) >>= fun size => pure (.fixed size)
          else pure .unbounded : Program ArraySize).denote stop (t :: ts) = _
      by_cases hinteger : t.kind = .integer
      · rw [if_pos (by simpa using hinteger), FieldType.readNumber_cons hinteger]
        simp only [denote_bind, denote_move, denote_ofExcept]
        rfl
      · rw [if_neg (by simpa using hinteger),
          FieldType.readNumber_of_notAhead (by simpa using hinteger)]
        rfl

theorem denote_group : group.denote = Attribute.readGroup := by
  simp [group, Attribute.readGroup, reader]

theorem denote_value (key : Token) : (value (.token key)).denote = Attribute.readBehind key := by
  simp only [value, denote_ite]
  simp [Attribute.readBehind, Attribute.readValue, Attribute.readExportAs, Attribute.readPrecision,
    Attribute.readVersion, reader]

theorem denote_structBehind (attributes : List Attribute) (keyword : Slot) :
    (structBehind attributes keyword).denote = Struct.readBehind attributes keyword := by
  simp [structBehind, Struct.readBehind, denote_parent, reader]

theorem denote_enumerationBehind (attributes : List Attribute) (keyword : Slot) :
    (enumerationBehind attributes keyword).denote =
      Enumeration.readBehind attributes keyword := by
  simp [enumerationBehind, Enumeration.readBehind, reader]

theorem denote_importBehind (attributes : List Attribute) (keyword : Slot) :
    (importBehind attributes keyword).denote = Import.readBehind attributes keyword := by
  simp [importBehind, Import.readBehind]

theorem denote_itemFrom_cons (attributes : List Attribute) (stop : Location) (t : Token)
    (ts : List Token) : (itemFrom attributes (some t.kind)).denote stop (t :: ts) =
      Package.readItemBehind attributes stop (t :: ts) := by
  cases hkind : t.kind with
  | useKeyword =>
      rw [Package.readItemBehind_use hkind]
      simp only [itemFrom, denote_bind, denote_move, denote_importBehind, denote_pure, ← bind_assoc]
      exact bind_congr_apply (Import.next_bind_readBehind hkind attributes stop ts) _
  | classKeyword =>
      rw [Package.readItemBehind_struct (.inl hkind)]
      simp only [itemFrom, denote_bind, run_eq, denote_call, denote_done, bind_pure, denote_pure]
      exact bind_congr_apply (Struct.next_bind_readBehind (.inl hkind) attributes stop ts) _
  | structKeyword =>
      rw [Package.readItemBehind_struct (.inr hkind)]
      simp only [itemFrom, denote_bind, run_eq, denote_call, denote_done, bind_pure, denote_pure]
      exact bind_congr_apply (Struct.next_bind_readBehind (.inr hkind) attributes stop ts) _
  | enumKeyword =>
      rw [Package.readItemBehind_enum hkind]
      simp only [itemFrom, denote_bind, run_eq, denote_call, denote_done, bind_pure, denote_pure]
      exact bind_congr_apply (Enumeration.next_bind_readBehind hkind attributes stop ts) _
  | _ =>
      simp only [Package.readItemBehind, choose, List.head?_cons, Option.map_some, hkind]
      exact congrFun (congrFun (denote_refuse .declaration) stop) (t :: ts)

theorem denote_item : item.denote = Package.readItem := by
  simp only [item, denote_bind, run_eq, denote_call, denote_done, bind_pure, Package.readItem]
  refine bind_congr fun attributes => ?_
  funext stop ts
  cases ts with
  | nil => rfl
  | cons t ts => exact denote_itemFrom_cons attributes stop t ts

theorem denote_listing {item : Program α} {again : Program (List α)} {p : TokenReader α}
    {hadvances : Advances p} (hitem : item.denote = p)
    (hagain : again.denote = commaSeparated p hadvances) :
    (listing item again).denote = commaSeparated p hadvances := by
  rw [commaSeparated_eq]
  simp [listing, hitem, hagain]

theorem denote_parenthesised : parenthesised.denote = Expr.parenthesised := by
  simp [parenthesised, Expr.parenthesised_eq, reader]

theorem denote_further {op? : TokenKind → Option Operator} {operators : List TokenKind}
    {item : Program Expr} {again : Expr → Program Expr} {p : TokenReader Expr}
    {loop : Expr → TokenReader Expr} (hitem : item.denote = p)
    (hagain : ∀ e, (again e).denote = loop e)
    (hop : ∀ kind, op? kind = none → kind ∉ operators)
    (hstop : ∀ {ts : List Token}, NotAhead operators ts → ∀ left stop,
      loop left stop ts = .ok (left, ts))
    (hmore : ∀ {t : Token} {op : Operator}, op? t.kind = some op → ∀ left stop ts,
      loop left stop (t :: ts) = (p >>= fun right => loop (.binary op left right)) stop ts)
    (left : Expr) : (further op? item again left).denote = loop left := by
  funext stop ts
  cases ts with
  | nil =>
      rw [hstop (notAhead_nil _)]
      rfl
  | cons t ts =>
      show (operation item again left (op? t.kind)).denote stop (t :: ts) = _
      cases hkind : op? t.kind with
      | some op =>
          simp only [operation, denote_bind, denote_move, hitem, hagain, hmore hkind]
          rfl
      | none =>
          rw [hstop (notAhead_cons.mpr (hop _ hkind))]
          rfl

theorem denote_rangeFrom (opening : Slot) (lower upper : Float) :
    (rangeFrom opening lower upper).denote =
      TokenReader.take (fun t => t.kind = .rightBracket || t.kind = .rightAngle) .rangeClosing >>=
        fun closing => TokenReader.ofExcept (Attribute.ofBounds lower (opening.is .leftBracket)
          upper (closing.kind = .rightBracket) opening.location) := by
  refine (denote_move_if (fun _ => rfl) _ _).trans ?_
  simp

theorem denote_operand : (body .operand).denote = Expr.operand := by
  funext stop ts
  cases ts with
  | nil =>
      rw [Expr.operand, Expr.cutOperand]
      rfl
  | cons t ts =>
      rw [Expr.operand_cons]
      show (operandFrom (.token t)).denote stop ts = _
      simp only [operandFrom, denote_ite]
      simp [denote_parenthesised, unexpected_cons]

/-- What a routine does is what its rule says. -/
theorem denote_body (r : Routine) : (body r).denote = reader r := by
  cases r with
  | package => simp [body, reader, Package.read]
  | expression =>
      refine (denote_bind _ _).trans ?_
      rw [denote_run]
      exact bind_congr denote_end
  | items =>
      refine Eq.trans ?_ (untilEnd_eq _ _).symm
      simp [body, reader, denote_item]
  | struct attributes => simp [body, reader, denote_structBehind]
  | enumeration attributes => simp [body, reader, denote_enumerationBehind]
  | enumerals => exact denote_listing denote_enumeral (denote_run _)
  | fields =>
      refine Eq.trans ?_ (untilBrace_eq _ _).symm
      simp [body, reader]
  | field => simp [body, reader, Field.readDeclaration, Field.readNames]
  | names =>
      rw [reader, Field.readNames, manyAfter_eq]
      simp only [body, denote_bind, denote_placedName, denote_eat, denote_ite, bind_assoc]
      refine bind_congr fun name => bind_congr fun more => ?_
      cases more <;> simp [reader, Field.readNames]
  | type => simp [body, reader, FieldType.read, FieldType.readArrays]
  | arrays element =>
      rw [reader, FieldType.readArrays, manyAfter_eq]
      simp only [body, denote_bind, denote_eat, denote_ite, bind_assoc]
      refine bind_congr fun more => ?_
      cases more <;> simp [denote_size, FieldType.readSize_eq, reader, FieldType.readArrays]
  | attributes =>
      rw [reader, Attribute.readAll, manyAfter_eq]
      simp only [body, denote_bind, denote_eat, denote_ite, bind_assoc]
      refine bind_congr fun more => ?_
      cases more <;> simp [denote_group, reader, Attribute.readAll]
  | entries => exact denote_listing (denote_run _) (denote_run _)
  | entry => simp [body, reader, Attribute.readEntry, denote_value]
  | range =>
      refine (denote_move_if (fun _ => rfl) _ _).trans ?_
      simp [reader, Attribute.readBounds, denote_rangeFrom]
  | constant => simp [body, reader, Expr.constant]
  | sum => simp [body, reader, Expr.sum_eq]
  | terms left =>
      exact denote_further (denote_run .product) (fun e => denote_run (.terms e))
        (fun kind h => by cases kind <;> simp_all [Expr.additive?])
        Expr.moreTerms_of_notAhead Expr.moreTerms_cons left
  | product => simp [body, reader, Expr.product_eq]
  | factors left =>
      exact denote_further (denote_run .unary) (fun e => denote_run (.factors e))
        (fun kind h => by cases kind <;> simp_all [Expr.multiplicative?])
        Expr.moreFactors_of_notAhead Expr.moreFactors_cons left
  | unary =>
      refine Eq.trans ?_ Expr.unary_eq.symm
      simp [body, reader, Expr.power_eq]
  | operand => exact denote_operand

end Program

end Parser

end SchemaLang
