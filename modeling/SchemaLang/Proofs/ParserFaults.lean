import SchemaLang.Proofs.ParserRuns

/-!
# Where routines fail

A routine fails over something that it has looked at.  `Fault` lists what that can be, rule by rule,
and `Ensures` says of a program that each of its errors is a fault of the routine it belongs to.
While the machine is at work the position only grows, so the slot that a run has looked at last lies
behind all others it knows of, and a run that fails over that slot fails the same way on every
vector that begins alike.
-/

namespace SchemaLang

/-! ### What checks complain about -/

section

variable {literal : String} {place : Location} {e : SyntaxError}

theorem Literal.unquote_eq_error (h : unquote literal place = .error e) :
    e = .malformedString literal place := by
  unfold unquote at h
  split at h
  · split at h <;> cases h
    rfl
  · cases h
    rfl

theorem Literal.toInt_eq_error (h : toInt literal place = .error e) :
    e = .invalidNumber literal place := by
  unfold toInt at h
  split at h <;> cases h
  rfl

theorem Literal.toSize_eq_error (h : toSize literal place = .error e) :
    e = .invalidNumber literal place := by
  unfold toSize at h
  split at h <;> cases h
  · rfl
  · exact toInt_eq_error ‹_›

theorem Literal.toFloat_eq_error (h : toFloat literal place = .error e) :
    e = .invalidNumber literal place := by
  unfold toFloat at h
  split at h <;> cases h
  rfl

theorem Attribute.ofPrecision_eq_error {step : Float} (h : ofPrecision step place = .error e) :
    e = .notANumber place := by
  unfold ofPrecision at h
  split at h <;> cases h
  rfl

theorem Attribute.ofBounds_eq_error {lower upper : Float} {atLower atUpper : Bool}
    (h : ofBounds lower atLower upper atUpper place = .error e) :
    ∃ reason, e = .invalidRange reason place := by
  unfold ofBounds at h
  split at h <;> cases h
  exact ⟨_, rfl⟩

theorem Field.declare_eq_error {type : FieldType} {names : List (String × Location)}
    {attributes : List Attribute} (h : declare type names attributes place = .error e) :
    ∃ reason, e = .inapplicableAttribute reason place := by
  unfold declare at h
  dsimp only at h
  split at h
  · cases h
  · split at h <;> cases h
    exact ⟨_, rfl⟩

end

namespace Parser

/-- The position of a program, and the index of the slot it has looked at last, if it knows. -/
structure Spot where
  position : Nat
  seen : Option Nat

variable (slots : List Slot)

/-! ### What stands in front -/

/-- A token of one of the given kinds stands right in front of the position. -/
def Behind (position : Nat) (wanted : TokenKind → Prop) : Prop :=
  ∃ before t, position = before + 1 ∧ slots[before]? = some (.token t) ∧ wanted t.kind

/-- The index of what stands between the brackets behind a type: behind a word or another pair of
brackets. -/
def SizePlace (index : Nat) : Prop :=
  ∃ before bracket, index = before + 1 ∧
    Behind slots before (fun kind => kind = .identifier ∨ kind = .rightBracket) ∧
    slots[before]? = some (.token bracket) ∧ bracket.kind = .leftBracket

/-- Kinds of tokens that the key of an attribute stands behind. -/
def OpensEntry (kind : TokenKind) : Prop :=
  kind = .at ∨ kind = .leftBrace ∨ kind = .comma

/-- The index of what stands behind the key `version` of an attribute and its colon. -/
def VersionPlace (index : Nat) : Prop :=
  ∃ before key colon, index = before + 2 ∧ Behind slots before OpensEntry ∧
    slots[before]? = some (.token key) ∧ key.kind = .identifier ∧ key.literal = "version" ∧
    slots[before + 1]? = some (.token colon) ∧ colon.kind = .colon

/-- What stands in front of a routine when it is called. -/
def Routine.Entered : Routine → Nat → Prop
  | .arrays _, position =>
      Behind slots position fun kind => kind = .identifier ∨ kind = .rightBracket
  | .entries, position => Behind slots position OpensEntry
  | .entry, position => Behind slots position OpensEntry
  | _, _ => True

/-- The routines that read expressions. -/
def Routine.Arithmetic : Routine → Prop
  | .expression => True
  | .constant => True
  | .sum => True
  | .terms _ => True
  | .product => True
  | .factors _ => True
  | .unary => True
  | .operand => True
  | _ => False

/-! ### Faults -/

/-- What a routine can fail over, with the error it then fails with.  Something that it did not
expect is in the slot that it has looked at last; the others it has looked at before. -/
inductive Fault : Routine → Option Nat → SyntaxError → Prop
  | unexpected {r : Routine} {i : Nat} {slot : Slot} (hslot : slots[i]? = some slot)
      (expected : Expectation) : Fault r (some i) (slot.unexpected expected)
  | string {r : Routine} {seen : Option Nat} {i : Nat} {t : Token} {e : SyntaxError}
      (ht : slots[i]? = some (.token t)) (hkind : t.kind = .string)
      (h : Literal.unquote t.literal t.location = .error e) : Fault r seen e
  | size {element : FieldType} {seen : Option Nat} {i : Nat} {t : Token} {e : SyntaxError}
      (ht : slots[i]? = some (.token t)) (hkind : t.kind = .integer) (hplace : SizePlace slots i)
      (h : Literal.toSize t.literal t.location = .error e) : Fault (.arrays element) seen e
  | version {seen : Option Nat} {i : Nat} {t : Token} {e : SyntaxError}
      (ht : slots[i]? = some (.token t)) (hkind : t.kind = .integer)
      (hplace : VersionPlace slots i)
      (h : Literal.toInt t.literal t.location = .error e) : Fault .entry seen e
  | number {seen : Option Nat} {i : Nat} {t : Token} {e : SyntaxError}
      (ht : slots[i]? = some (.token t)) (hkind : t.kind = .integer ∨ t.kind = .float)
      (h : Literal.toFloat t.literal t.location = .error e) : Fault .operand seen e
  | key {seen : Option Nat} {i : Nat} {t : Token} (ht : slots[i]? = some (.token t)) :
      Fault .entry seen (.unknownAttribute t.literal t.location)
  | value {r : Routine} {seen : Option Nat} {i : Nat} {slot : Slot}
      (hslot : slots[i]? = some slot) : Fault r seen (.notANumber slot.location)
  | range {seen : Option Nat} {i : Nat} {slot : Slot} (hslot : slots[i]? = some slot)
      (reason : RangeError) : Fault .range seen (.invalidRange reason slot.location)
  | target {seen : Option Nat} {i : Nat} {slot : Slot} (hslot : slots[i]? = some slot)
      (reason : AttributeError) : Fault .field seen (.inapplicableAttribute reason slot.location)

/-! ### Programs and their faults -/

namespace Program

variable {α β : Type}

/-- From a spot on each error of a program is a fault of the routine, the routines that it calls
find in front of them what they need, and each result fits. -/
def Ensures (r : Routine) : Program α → (α → Spot → Prop) → Spot → Prop
  | .done a, fits, spot => fits a spot
  | .fail e, _, spot => Fault slots r spot.seen e
  | .peek next, fits, spot => ∀ slot, slots[spot.position]? = some slot →
      (next slot).Ensures r fits ⟨spot.position, some spot.position⟩
  | .advance next, fits, spot => ∀ slot, slots[spot.position]? = some slot →
      (next slot).Ensures r fits
        ⟨if slot.isStop then spot.position else spot.position + 1, some spot.position⟩
  | .call callee next, fits, spot =>
      (callee.Entered slots spot.position ∧ (r.Arithmetic → callee.Arithmetic)) ∧
        ∀ a position, (next a).Ensures r fits ⟨position, none⟩

variable {slots} {r : Routine} {fits : α → Spot → Prop} {spot : Spot}

/-- What comes behind a program starts with a result that fits. -/
theorem Ensures.bind_of {p : Program α} {f : α → Program β} {more : β → Spot → Prop}
    (h : p.Ensures slots r fits spot)
    (hf : ∀ a spot, fits a spot → (f a).Ensures slots r more spot) :
    (p >>= f).Ensures slots r more spot := by
  show (p.bind f).Ensures slots r more spot
  induction p generalizing spot with
  | done a => exact hf a spot h
  | fail e => exact h
  | peek next ih => exact fun slot hslot => ih slot (h slot hslot)
  | advance next ih => exact fun slot hslot => ih slot (h slot hslot)
  | call callee next ih => exact ⟨h.1, fun a position => ih a (h.2 a position)⟩

theorem Ensures.bind {p : Program α} {f : α → Program β} {more : β → Spot → Prop}
    (h : p.Ensures slots r (fun a spot => (f a).Ensures slots r more spot) spot) :
    (p >>= f).Ensures slots r more spot :=
  h.bind_of fun _ _ => id

theorem Ensures.ite {c : Prop} [Decidable c] {p q : Program α}
    (hp : c → p.Ensures slots r fits spot) (hq : ¬ c → q.Ensures slots r fits spot) :
    (if c then p else q).Ensures slots r fits spot := by
  split <;> rename_i h
  · exact hp h
  · exact hq h

theorem ensures_here {fits : Location → Spot → Prop}
    (h : ∀ slot, slots[spot.position]? = some slot →
      fits slot.location ⟨spot.position, some spot.position⟩) :
    here.Ensures slots r fits spot :=
  h

theorem ensures_refuse (expected : Expectation) :
    (refuse expected : Program α).Ensures slots r fits spot :=
  fun _ hslot => .unexpected hslot expected

/-- What is taken is what has been looked at. -/
theorem ensures_move {slot : Slot} {fits : Slot → Spot → Prop}
    (hslot : slots[spot.position]? = some slot)
    (h : fits slot
      ⟨if slot.isStop then spot.position else spot.position + 1, some spot.position⟩) :
    move.Ensures slots r fits spot := by
  intro slot' hslot'
  cases hslot.symm.trans hslot'
  exact h

theorem ensures_take {wanted : Slot → Bool} {expected : Expectation} {fits : Slot → Spot → Prop}
    (h : ∀ slot, slots[spot.position]? = some slot → wanted slot →
      fits slot ⟨if slot.isStop then spot.position else spot.position + 1, some spot.position⟩) :
    (take wanted expected).Ensures slots r fits spot := by
  intro slot hslot
  exact .ite (fun hwanted => ensures_move hslot (h slot hslot hwanted)) fun _ =>
    ensures_refuse expected

/-- What is taken is a token of the kind that is wanted. -/
theorem ensures_expect {kind : TokenKind} {expected : Expectation} {fits : Slot → Spot → Prop}
    (h : ∀ t, slots[spot.position]? = some (.token t) → t.kind = kind →
      fits (.token t) ⟨spot.position + 1, some spot.position⟩) :
    (expect kind expected).Ensures slots r fits spot := by
  refine ensures_take fun slot hslot hkind => ?_
  cases slot with
  | token t => exact h t hslot (by simpa using hkind)
  | stop place => cases hkind

theorem ensures_simpleName {expected : Expectation} {fits : Slot → Spot → Prop}
    (h : ∀ slot spot', fits slot spot') :
    (simpleName expected).Ensures slots r fits spot :=
  ensures_take fun slot _ _ => h slot _

theorem ensures_eat {kind : TokenKind} {fits : Bool → Spot → Prop}
    (htaken : ∀ t, slots[spot.position]? = some (.token t) → t.kind = kind →
      fits true ⟨spot.position + 1, some spot.position⟩)
    (hleft : fits false ⟨spot.position, some spot.position⟩) :
    (eat kind).Ensures slots r fits spot := by
  intro slot hslot
  refine .ite (fun hkind => .bind (ensures_move hslot ?_)) fun _ => hleft
  cases slot with
  | token t => exact htaken t hslot (by simpa using hkind)
  | stop place => cases hkind

theorem ensures_ofExcept {outcome : Except SyntaxError α}
    (hfault : ∀ e, outcome = .error e → Fault slots r spot.seen e) (hfits : ∀ a, fits a spot) :
    (ofExcept outcome).Ensures slots r fits spot := by
  cases outcome with
  | ok a => exact hfits a
  | error e => exact hfault e rfl

theorem ensures_quoted {expected : Expectation} {fits : String → Spot → Prop}
    (h : ∀ text spot', fits text spot') : (quoted expected).Ensures slots r fits spot :=
  .bind (ensures_expect fun _ ht hkind =>
    ensures_ofExcept (fun _ => .string ht hkind) fun _ => h _ _)

theorem ensures_run {callee : Routine} {fits : callee.Result → Spot → Prop}
    (hentered : callee.Entered slots spot.position) (harithmetic : r.Arithmetic → callee.Arithmetic)
    (h : ∀ a position, fits a ⟨position, none⟩) : (run callee).Ensures slots r fits spot :=
  ⟨⟨hentered, harithmetic⟩, h⟩

variable (slots r)

/-- From a spot on each error of a program is a fault of the routine, whatever its results are. -/
def Sound (p : Program α) (spot : Spot) : Prop :=
  p.Ensures slots r (fun _ _ => True) spot

variable {slots r}

/-- Behind a program that may have any result. -/
theorem Sound.andThen {p : Program α} {f : α → Program β} {more : β → Spot → Prop}
    (h : p.Sound slots r spot) (hf : ∀ a spot, (f a).Ensures slots r more spot) :
    (p >>= f).Ensures slots r more spot :=
  h.bind_of fun a spot _ => hf a spot

/-! ### The parts of a routine -/

theorem sound_importBehind (attributes : List Attribute) (keyword : Slot) :
    (importBehind attributes keyword).Sound slots r spot :=
  .bind (ensures_quoted fun _ _ => trivial)

theorem sound_item : item.Sound slots .items spot := by
  refine .bind (ensures_run trivial False.elim fun attributes position slot _ => ?_)
  show (itemFrom attributes slot.kind?).Sound slots .items _
  unfold itemFrom
  split
  · exact fun keyword _ => (sound_importBehind attributes keyword).andThen fun _ _ => trivial
  · exact .bind (ensures_run trivial False.elim fun _ _ => trivial)
  · exact .bind (ensures_run trivial False.elim fun _ _ => trivial)
  · exact .bind (ensures_run trivial False.elim fun _ _ => trivial)
  · exact ensures_refuse _

theorem sound_parent : parent.Sound slots r spot :=
  .bind (ensures_eat (fun _ _ _ => .bind (ensures_expect fun _ _ _ => trivial)) trivial)

theorem sound_structBehind (attributes outer : List Attribute) (keyword : Slot) :
    (structBehind attributes keyword).Sound slots (.struct outer) spot :=
  .bind (ensures_simpleName fun _ _ => sound_parent.andThen fun _ _ =>
    .bind (ensures_expect fun _ _ _ => .bind (ensures_run trivial False.elim fun _ _ => trivial)))

theorem sound_enumerationBehind (attributes outer : List Attribute) (keyword : Slot) :
    (enumerationBehind attributes keyword).Sound slots (.enumeration outer) spot :=
  .bind (ensures_simpleName fun _ _ =>
    .bind (ensures_expect fun _ _ _ => .bind (ensures_run trivial False.elim fun _ _ => trivial)))

theorem sound_placedName : placedName.Sound slots r spot :=
  .bind (ensures_here fun _ _ => .bind (ensures_simpleName fun _ _ => trivial))

theorem sound_enumeral : enumeral.Sound slots r spot :=
  .bind (ensures_here fun _ _ => .bind (ensures_simpleName fun _ _ => trivial))

theorem sound_size {element : FieldType} (hplace : SizePlace slots spot.position) :
    size.Sound slots (.arrays element) spot := by
  intro slot hslot
  refine .ite (fun hkind => .bind (ensures_move hslot ?_)) fun _ => trivial
  cases slot with
  | token t =>
      exact .bind (p := ofExcept _) (ensures_ofExcept
        (fun _ => .size hslot (by simpa using hkind) hplace) fun _ => trivial)
  | stop place => cases hkind

theorem sound_group (hat : Behind slots spot.position (· = .at)) :
    group.Sound slots .attributes spot := by
  refine .bind (ensures_eat (fun t ht hkind => ?_) ?_)
  · exact ensures_run ⟨_, t, rfl, ht, .inr (.inl hkind)⟩ False.elim fun _ _ => trivial
  · obtain ⟨before, t, hposition, ht, hkind⟩ := hat
    exact .bind (ensures_run ⟨before, t, hposition, ht, .inl hkind⟩ False.elim fun _ _ => trivial)

/-- One round of a loop whose items have commas between them. -/
theorem sound_listing {item : Program α} {again : Program (List α)}
    (hitem : item.Sound slots r ⟨spot.position, some spot.position⟩)
    (hagain : ∀ {position seen}, Behind slots position (· = .comma) →
      again.Sound slots r ⟨position, seen⟩) : (listing item again).Sound slots r spot :=
  .bind (ensures_eat (fun _ _ _ => trivial) (hitem.andThen fun _ _ => .bind (ensures_eat
    (fun t ht hkind => (hagain ⟨_, t, rfl, ht, hkind⟩).andThen fun _ _ => trivial)
    (.bind (ensures_expect fun _ _ _ => trivial)))))

theorem sound_further (op? : TokenKind → Option Operator) (item : Program Expr)
    (again : Expr → Program Expr) (left : Expr) (hitem : ∀ spot, item.Sound slots r spot)
    (hagain : ∀ e spot, (again e).Sound slots r spot) :
    (further op? item again left).Sound slots r spot := by
  intro slot _
  show (operation item again left (slot.kind?.bind op?)).Sound slots r _
  unfold operation
  split
  · exact fun _ _ => (hitem _).andThen fun _ _ => hagain _ _
  · exact trivial

theorem sound_parenthesised : parenthesised.Sound slots .operand spot :=
  .bind (ensures_run trivial id fun _ _ => .bind (ensures_expect fun _ _ _ => trivial))

theorem sound_operandFrom {i : Nat} {slot : Slot} (hslot : slots[i]? = some slot) {position : Nat} :
    (operandFrom slot).Sound slots .operand ⟨position, some i⟩ := by
  refine .ite (fun hnumber => ?_) fun _ => .ite (fun _ => trivial) fun _ => .ite (fun _ => ?_)
    fun _ => .ite (fun _ => sound_parenthesised) fun _ => .unexpected hslot _
  · cases slot with
    | token t =>
        exact .bind (ensures_ofExcept (fun _ => .number hslot (by simpa using hnumber))
          fun _ => trivial)
    | stop place => simp at hnumber
  · exact .bind (ensures_expect fun _ _ _ => sound_parenthesised.andThen fun _ _ => trivial)

theorem sound_rangeFrom {i : Nat} {opening : Slot} (hopening : slots[i]? = some opening)
    (lower upper : Float) : (rangeFrom opening lower upper).Sound slots .range spot := by
  intro closing hclosing
  refine .ite (fun _ => ensures_ofExcept (fun e he => ?_) fun _ => trivial) fun _ =>
    .unexpected hclosing _
  obtain ⟨reason, rfl⟩ := Attribute.ofBounds_eq_error he
  exact .range hopening reason

theorem sound_value {before : Nat} {seen : Option Nat} {key : Token}
    (hfront : Behind slots before OpensEntry) (hkey : slots[before]? = some (.token key))
    (hkind : key.kind = .identifier) :
    (value (.token key)).Sound slots .entry ⟨before + 1, seen⟩ := by
  refine .ite (fun _ => trivial) fun _ => .ite (fun _ => ?_) fun _ => .ite (fun _ => ?_) fun _ =>
    .ite (fun _ => ?_) fun _ => .ite (fun hversion => ?_) fun _ => .key hkey
  · exact .bind (ensures_expect fun _ _ _ => .bind (ensures_quoted fun _ _ => trivial))
  · refine .bind (ensures_expect fun _ _ _ => .bind (ensures_here fun slot hslot =>
      .bind (ensures_run trivial False.elim fun _ _ =>
        ensures_ofExcept (fun e he => ?_) fun _ => trivial)))
    obtain rfl := Attribute.ofPrecision_eq_error he
    exact .value hslot
  · exact .bind (ensures_expect fun _ _ _ => ensures_run trivial False.elim fun _ _ => trivial)
  · refine .bind (ensures_expect fun colon hcolon hcolonKind => .bind (ensures_expect
      fun t ht hinteger => .bind (ensures_ofExcept (fun _ => .version ht hinteger ?_)
        fun _ => trivial)))
    exact ⟨before, key, colon, rfl, hfront, hkey, hkind, hversion, hcolon, hcolonKind⟩

/-- Every routine fails over what it has looked at only, if it is entered where it may be. -/
theorem sound_body {r : Routine} {position : Nat} (h : r.Entered slots position) :
    (body r).Sound slots r ⟨position, none⟩ := by
  cases r with
  | package =>
      exact .bind (ensures_run trivial False.elim fun _ _ =>
        .bind (ensures_expect fun _ _ _ => .bind (ensures_quoted fun _ _ =>
          .bind (ensures_run trivial False.elim fun _ _ => trivial))))
  | expression =>
      exact .bind (ensures_run trivial id fun _ _ => .bind (ensures_take fun _ _ _ => trivial))
  | items =>
      exact fun _ _ => .ite (fun _ => trivial) fun _ => sound_item.andThen fun _ _ =>
        .bind (ensures_run trivial False.elim fun _ _ => trivial)
  | struct attributes => exact fun keyword _ => sound_structBehind attributes attributes keyword
  | enumeration attributes =>
      exact fun keyword _ => sound_enumerationBehind attributes attributes keyword
  | enumerals =>
      exact sound_listing sound_enumeral fun _ => ensures_run trivial False.elim fun _ _ => trivial
  | fields =>
      exact .bind (ensures_eat (fun _ _ _ => trivial) (.bind (ensures_run trivial False.elim
        fun _ _ => .bind (ensures_run trivial False.elim fun _ _ => trivial))))
  | field =>
      refine .bind (ensures_run trivial False.elim fun _ _ => .bind (ensures_here
        fun slot hslot => .bind (ensures_run trivial False.elim fun _ _ =>
          .bind (ensures_run trivial False.elim fun _ _ =>
            ensures_ofExcept (fun e he => ?_) fun _ => trivial))))
      obtain ⟨reason, rfl⟩ := Field.declare_eq_error he
      exact .target hslot reason
  | names =>
      exact sound_placedName.andThen fun _ _ => .bind (ensures_eat
        (fun _ _ _ => .bind (ensures_run trivial False.elim fun _ _ => trivial)) trivial)
  | type =>
      exact .bind (ensures_expect fun t ht hkind =>
        ensures_run ⟨position, t, rfl, ht, .inl hkind⟩ False.elim fun _ _ => trivial)
  | arrays element =>
      refine .bind (ensures_eat (fun bracket hbracket hkind => ?_) trivial)
      refine (sound_size ⟨position, bracket, rfl, h, hbracket, hkind⟩).andThen fun _ _ => ?_
      exact .bind (ensures_expect fun t ht hkind =>
        ensures_run ⟨_, t, rfl, ht, .inr hkind⟩ False.elim fun _ _ => trivial)
  | attributes =>
      exact .bind (ensures_eat (fun t ht hkind => (sound_group ⟨_, t, rfl, ht, hkind⟩).andThen
        fun _ _ => .bind (ensures_run trivial False.elim fun _ _ => trivial)) trivial)
  | entries =>
      refine sound_listing (ensures_run h False.elim fun _ _ => trivial) fun hcomma => ?_
      -- The next entry stands behind the comma.
      obtain ⟨before, t, hposition, ht, hkind⟩ := hcomma
      exact ensures_run ⟨before, t, hposition, ht, .inr (.inr hkind)⟩ False.elim fun _ _ => trivial
  | entry => exact .bind (ensures_expect fun key hkey hkind => sound_value h hkey hkind)
  | range =>
      refine fun opening hopening => .ite (fun _ => ?_) fun _ => .unexpected hopening _
      exact .bind (ensures_run trivial False.elim fun _ _ => .bind (ensures_expect fun _ _ _ =>
        .bind (ensures_run trivial False.elim fun _ _ => sound_rangeFrom hopening _ _)))
  | constant =>
      exact .bind (ensures_here fun slot hslot => .bind (ensures_run trivial id fun _ _ =>
        .ite (fun _ => .value hslot) fun _ => trivial))
  | sum =>
      exact .bind (ensures_run trivial id fun _ _ => ensures_run trivial id fun _ _ => trivial)
  | terms left =>
      exact sound_further Expr.additive? (run .product) (fun e => run (.terms e)) left
        (fun _ => ensures_run trivial id fun _ _ => trivial)
        fun _ _ => ensures_run trivial id fun _ _ => trivial
  | product =>
      exact .bind (ensures_run trivial id fun _ _ => ensures_run trivial id fun _ _ => trivial)
  | factors left =>
      exact sound_further Expr.multiplicative? (run .unary) (fun e => run (.factors e)) left
        (fun _ => ensures_run trivial id fun _ _ => trivial)
        fun _ _ => ensures_run trivial id fun _ _ => trivial
  | unary =>
      refine .bind (ensures_eat (fun _ _ _ => .bind (ensures_run trivial id fun _ _ => trivial)) ?_)
      exact .bind (ensures_run trivial id fun _ _ => .bind (ensures_eat
        (fun _ _ _ => .bind (ensures_run trivial id fun _ _ => trivial)) trivial))
  | operand => exact fun slot hslot => sound_operandFrom hslot

end Program

/-! ### Runs that fail -/

variable {main : Routine} {slots} {seen : Option Nat} {s s' : State main}

/-- The vectors have the same slots up to an index. -/
def AlikeUpTo (k : Nat) (others slots : List Slot) : Prop :=
  ∀ j ≤ k, others[j]? = slots[j]?

/-- No slot behind the index has been looked at. -/
def Spot.Within (k : Nat) (spot : Spot) : Prop :=
  spot.seen = some k ∨ spot.position ≤ k

variable (slots) in
/-- All routines that wait fail over what they have looked at only, whatever they are handed. -/
def Callers.Sound {active : Routine} : Callers main active → Prop
  | .none => True
  | .frame caller _ next below =>
      (main.Arithmetic → caller.Arithmetic) ∧
        (∀ a position, (next a).Sound slots caller ⟨position, Option.none⟩) ∧
          below.Sound

variable (slots s seen) in
/-- The routine at work fails over what it has looked at only, and so do those that wait. -/
structure State.Sound : Prop where
  arithmetic : main.Arithmetic → s.active.Arithmetic
  program : s.program.Sound slots s.active ⟨s.position, seen⟩
  callers : s.callers.Sound slots

theorem State.sound_start (h : main.Entered slots 0) : (State.start main).Sound slots none :=
  ⟨id, Program.sound_body h, trivial⟩

/-- A step keeps that.  It depends on no slot but the one that it looks at. -/
theorem State.Sound.step (h : s.Sound slots seen) (hstep : s.step slots = .running s') :
    ∃ seen', s'.Sound slots seen' ∧ ∀ k, Spot.Within k ⟨s'.position, seen'⟩ →
      Spot.Within k ⟨s.position, seen⟩ ∧
        ∀ others, AlikeUpTo k others slots → s.step others = .running s' := by
  obtain ⟨active, entry, position, program, callers⟩ := s
  obtain ⟨harithmetic, hprogram, hcallers⟩ := h
  cases program with
  | done a =>
      cases callers with
      | none => cases hstep
      | frame caller entry next below =>
          cases hstep
          exact ⟨none, ⟨hcallers.1, hcallers.2.1 a position, hcallers.2.2⟩, fun k hk =>
            ⟨.inr (hk.resolve_left nofun), fun _ _ => rfl⟩⟩
  | fail e => cases hstep
  | call callee next =>
      cases hstep
      obtain ⟨⟨hentered, harith⟩, hnext⟩ := hprogram
      exact ⟨none, ⟨harith ∘ harithmetic, Program.sound_body hentered,
        harithmetic, hnext, hcallers⟩, fun k hk => ⟨.inr (hk.resolve_left nofun), fun _ _ => rfl⟩⟩
  | peek next =>
      rw [State.step] at hstep
      split at hstep
      case h_1 slot hslot =>
          cases hstep
          refine ⟨some position, ⟨harithmetic, hprogram slot hslot, hcallers⟩, fun k hk => ?_⟩
          have hle : position ≤ k := hk.elim (fun hseen => Nat.le_of_eq (Option.some.inj hseen)) id
          refine ⟨.inr hle, fun others halike => ?_⟩
          rw [State.step, halike position hle, hslot]
      case h_2 => cases hstep
  | advance next =>
      rw [State.step] at hstep
      split at hstep
      case h_1 slot hslot =>
          cases hstep
          refine ⟨some position, ⟨harithmetic, hprogram slot hslot, hcallers⟩, fun k hk => ?_⟩
          have hle : position ≤ k := by
            refine hk.elim (fun hseen => Nat.le_of_eq (Option.some.inj hseen)) fun hposition => ?_
            dsimp only at hposition
            split at hposition <;> omega
          refine ⟨.inr hle, fun others halike => ?_⟩
          rw [State.step, halike position hle, hslot]
      case h_2 => cases hstep

/-- A step that ends with an error does so over something that the routine at work has looked at,
and on every vector. -/
theorem State.Sound.fault_of_step {e : SyntaxError} (h : s.Sound slots seen)
    (hstep : s.step slots = .finished (.error e)) :
    Fault slots s.active seen e ∧ ∀ others, s.step others = .finished (.error e) := by
  obtain ⟨active, entry, position, program, callers⟩ := s
  cases program with
  | done a => cases callers <;> cases hstep
  | fail e' =>
      cases hstep
      exact ⟨h.program, fun _ => rfl⟩
  | call callee next => cases hstep
  | peek next =>
      rw [State.step] at hstep
      split at hstep <;> cases hstep
  | advance next =>
      rw [State.step] at hstep
      split at hstep <;> cases hstep

/-- A run that ends with an error does so over something that a routine has looked at.  If that
routine has just looked at a slot, the run ends so on every vector that is the same up to there. -/
theorem State.Sound.fault {n : Nat} {e : SyntaxError} (h : s.Sound slots seen)
    (hrun : s.run slots n = .finished (.error e)) :
    ∃ r seen', (main.Arithmetic → r.Arithmetic) ∧ Fault slots r seen' e ∧
      ∀ k, seen' = some k → Spot.Within k ⟨s.position, seen⟩ ∧
        ∀ others, AlikeUpTo k others slots → s.run others n = .finished (.error e) := by
  induction n generalizing s seen with
  | zero => cases hrun
  | succ n ih =>
      rw [State.run] at hrun
      cases hstep : s.step slots with
      | running s' =>
          rw [hstep] at hrun
          obtain ⟨seen', hsound, hwithin⟩ := h.step hstep
          obtain ⟨r, last, harithmetic, hfault, hlocal⟩ := ih hsound hrun
          refine ⟨r, last, harithmetic, hfault, fun k hk => ?_⟩
          obtain ⟨hposition, hothers⟩ := hlocal k hk
          refine ⟨(hwithin k hposition).1, fun others halike => ?_⟩
          rw [State.run, (hwithin k hposition).2 others halike]
          exact hothers others halike
      | finished result =>
          rw [hstep] at hrun
          cases hrun
          obtain ⟨hfault, hothers⟩ := h.fault_of_step hstep
          refine ⟨s.active, seen, h.arithmetic, hfault, fun k hk => ⟨.inl hk, fun others _ => ?_⟩⟩
          rw [State.run, hothers others]
      | outside =>
          rw [hstep] at hrun
          cases hrun

/-! ### The end of a run -/

/-- There is nothing more to do behind the end. -/
theorem State.run_add {n : Nat} {result : Except SyntaxError main.Result}
    (h : s.run slots n = .finished result) (m : Nat) : s.run slots (n + m) = .finished result := by
  induction n generalizing s with
  | zero => cases h
  | succ n ih =>
      rw [Nat.succ_add, State.run]
      rw [State.run] at h
      cases hstep : s.step slots with
      | running s' =>
          rw [hstep] at h
          exact ih h
      | finished x =>
          rw [hstep] at h
          exact h
      | outside =>
          rw [hstep] at h
          cases h

/-- A run has one end. -/
theorem State.result_unique {n m : Nat} {a b : Except SyntaxError main.Result}
    (ha : s.run slots n = .finished a) (hb : s.run slots m = .finished b) : a = b := by
  have h := State.run_add ha m
  rw [Nat.add_comm, State.run_add hb n] at h
  cases h
  rfl

variable (main) in
/-- What a routine does not read from the start of a source is a fault of one of the routines, and
if that routine has just looked at a slot, no source that is the same up to there is read. -/
theorem fault_of_reader {source : Tokens} {e : SyntaxError} (hentered : main.Entered source.slots 0)
    (h : (reader main source.stop source.list).map Prod.fst = .error e) :
    ∃ r seen, (main.Arithmetic → r.Arithmetic) ∧ Fault source.slots r seen e ∧
      ∀ i, seen = some i → ∀ others : Tokens, AlikeUpTo i others.slots source.slots →
        (reader main others.stop others.list).map Prod.fst = .error e := by
  obtain ⟨n, hn⟩ := (terminates_of_reader main source).ends
  rw [h] at hn
  obtain ⟨r, seen, harithmetic, hfault, hlocal⟩ := (State.sound_start hentered).fault hn
  refine ⟨r, seen, harithmetic, hfault, fun i hi others halike => ?_⟩
  obtain ⟨m, hm⟩ := (terminates_of_reader main others).ends
  exact State.result_unique hm ((hlocal i hi).2 _ halike)

end Parser

end SchemaLang
