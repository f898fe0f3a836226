import SchemaLang.Proofs.ExprReading

/-!
# Readers do not look at places

`displace φ` gives everything that a reader takes or makes another place, the one that `φ` has for
its own.  A reader moves along with its tokens: what it makes of displaced tokens is the displaced
form of what it makes of the tokens themselves, errors included.
-/

namespace SchemaLang

/-! ### Other places -/

section Displace

variable (φ : Location → Location)

def Token.displace (t : Token) : Token :=
  { t with location := φ t.location }

def SyntaxError.displace : SyntaxError → SyntaxError
  | .invalidToken literal place => .invalidToken literal (φ place)
  | .unexpectedToken expected found place => .unexpectedToken expected found (φ place)
  | .malformedString literal place => .malformedString literal (φ place)
  | .invalidNumber literal place => .invalidNumber literal (φ place)
  | .unknownAttribute key place => .unknownAttribute key (φ place)
  | .notANumber place => .notANumber (φ place)
  | .invalidRange reason place => .invalidRange reason (φ place)
  | .inapplicableAttribute reason place => .inapplicableAttribute reason (φ place)

def Field.displace (f : Field) : Field :=
  { f with location := φ f.location }

def Struct.displace (s : Struct) : Struct :=
  { s with fields := s.fields.map (Field.displace φ), location := φ s.location }

def Enumeral.displace (e : Enumeral) : Enumeral :=
  { e with location := φ e.location }

def Enumeration.displace (e : Enumeration) : Enumeration :=
  { e with enumerals := e.enumerals.map (Enumeral.displace φ), location := φ e.location }

def Definition.displace : Definition → Definition
  | .struct s => .struct (s.displace φ)
  | .enumeration e => .enumeration (e.displace φ)

def Import.displace (i : Import) : Import :=
  { i with location := φ i.location }

def Package.displace (p : Package) : Package :=
  { p with
    imports := p.imports.map (Import.displace φ)
    definitions := p.definitions.map (Definition.displace φ)
    location := φ p.location }

variable {α β : Type}

/-- The outcome with its error at another place, or with `f` of what was made. -/
def displaceOutcome (f : α → β) : Except SyntaxError α → Except SyntaxError β
  | .ok a => .ok (f a)
  | .error e => .error (e.displace φ)

end Displace

@[simp] theorem Token.kind_displace (φ : Location → Location) (t : Token) :
    (t.displace φ).kind = t.kind := rfl

@[simp] theorem Token.literal_displace (φ : Location → Location) (t : Token) :
    (t.displace φ).literal = t.literal := rfl

@[simp] theorem Token.location_displace (φ : Location → Location) (t : Token) :
    (t.displace φ).location = φ t.location := rfl

@[simp] theorem notAhead_map_displace {φ : Location → Location} {kinds : List TokenKind}
    {ts : List Token} : NotAhead kinds (ts.map (Token.displace φ)) ↔ NotAhead kinds ts := by
  cases ts <;> simp

namespace TokenReader

variable {φ : Location → Location} {α β γ δ : Type}

/-- On displaced tokens, the second reader does what the first one does on the tokens themselves;
`f` is what a result becomes. -/
def MovesAt (φ : Location → Location) (f : α → β) (p : TokenReader α) (q : TokenReader β)
    (stop : Location) (ts : List Token) : Prop :=
  q (φ stop) (ts.map (Token.displace φ)) =
    displaceOutcome φ (fun x => (f x.1, x.2.map (Token.displace φ))) (p stop ts)

/-- The second reader does on displaced tokens what the first one does. -/
def Moves (φ : Location → Location) (f : α → β) (p : TokenReader α) (q : TokenReader β) : Prop :=
  ∀ stop ts, MovesAt φ f p q stop ts

/-! ### Single steps -/

theorem placeOf_map (stop : Location) (ts : List Token) :
    placeOf (φ stop) (ts.map (Token.displace φ)) = φ (placeOf stop ts) := by
  cases ts <;> rfl

theorem unexpected_map (expected : Expectation) (stop : Location) (ts : List Token) :
    unexpected expected (φ stop) (ts.map (Token.displace φ)) =
      (unexpected expected stop ts).displace φ := by
  cases ts with
  | nil => rfl
  | cons t ts =>
      by_cases hkind : t.kind = .invalid <;> simp [unexpected, hkind, SyntaxError.displace]

theorem MovesAt.bind {f : α → β} {g : γ → δ} {p : TokenReader α} {q : TokenReader β}
    {k : α → TokenReader γ} {l : β → TokenReader δ} {stop : Location} {ts : List Token}
    (hp : MovesAt φ f p q stop ts)
    (hk : ∀ a mid, p stop ts = .ok (a, mid) → MovesAt φ g (k a) (l (f a)) stop mid) :
    MovesAt φ g (p >>= k) (q >>= l) stop ts := by
  unfold MovesAt at hp ⊢
  rw [bind_apply, bind_apply, hp]
  cases hrun : p stop ts with
  | error e => rfl
  | ok x => exact hk x.1 x.2 hrun

theorem MovesAt.pure {f : α → β} {a : α} {b : β} {stop : Location} {ts : List Token}
    (h : f a = b) : MovesAt φ f (Pure.pure a) (Pure.pure b) stop ts := by
  subst h
  rfl

namespace Moves

theorem bind {f : α → β} {g : γ → δ} {p : TokenReader α} {q : TokenReader β}
    {k : α → TokenReader γ} {l : β → TokenReader δ} (hp : Moves φ f p q)
    (hk : ∀ a, Moves φ g (k a) (l (f a))) : Moves φ g (p >>= k) (q >>= l) :=
  fun stop ts => (hp stop ts).bind fun a mid _ => hk a stop mid

theorem pure {f : α → β} {a : α} {b : β} (h : f a = b) :
    Moves φ f (Pure.pure a) (Pure.pure b) :=
  fun _ _ => .pure h

theorem ofExcept {f : α → β} {outcome : Except SyntaxError α} {outcome' : Except SyntaxError β}
    (h : outcome' = displaceOutcome φ f outcome) :
    Moves φ f (ofExcept outcome) (ofExcept outcome') := by
  subst h
  intro stop ts
  cases outcome <;> rfl

theorem here : Moves φ φ here here := by
  intro stop ts
  simp only [MovesAt, here_apply, placeOf_map]
  rfl

theorem fail (expected : Expectation) (f : α → β) :
    Moves φ f (fail expected) (fail expected) := by
  intro stop ts
  simp only [MovesAt, TokenReader.fail, unexpected_map]
  rfl

theorem take {wanted : Token → Bool} (h : ∀ t, wanted (t.displace φ) = wanted t)
    (expected : Expectation) :
    Moves φ (Token.displace φ) (take wanted expected) (take wanted expected) := by
  intro stop ts
  unfold MovesAt TokenReader.take
  rw [unexpected_map]
  cases ts with
  | nil => rfl
  | cons t ts =>
      simp only [List.map_cons, h]
      split <;> rfl

theorem expect (kind : TokenKind) (expected : Expectation) :
    Moves φ (Token.displace φ) (expect kind expected) (expect kind expected) :=
  take (fun _ => rfl) expected

theorem accept (kind : TokenKind) : Moves φ id (accept kind) (accept kind) := by
  intro stop ts
  unfold MovesAt TokenReader.accept
  cases ts with
  | nil => rfl
  | cons t ts =>
      simp only [List.map_cons, Token.kind_displace]
      split <;> rfl

theorem choose {f : α → β} {branch : Option TokenKind → TokenReader α}
    {branch' : Option TokenKind → TokenReader β}
    (h : ∀ kind, Moves φ f (branch kind) (branch' kind)) :
    Moves φ f (choose branch) (choose branch') := by
  intro stop ts
  have hkind : (ts.map (Token.displace φ)).head?.map Token.kind = ts.head?.map Token.kind := by
    cases ts <;> rfl
  unfold MovesAt TokenReader.choose
  rw [hkind]
  exact h _ stop ts

/-! ### Loops -/

-- The loops recurse on the tokens that an item leaves, so each induction below is on the number of
-- tokens and follows the run of the first reader.

/-- An item, and a loop that moves where the item has stopped. -/
theorem cons_at {f : α → β} {p : TokenReader α} {q : TokenReader β}
    {loop : TokenReader (List α)} {loop' : TokenReader (List β)} {stop : Location}
    {ts : List Token} (h : Moves φ f p q)
    (hloop : ∀ a mid, p stop ts = .ok (a, mid) → MovesAt φ (List.map f) loop loop' stop mid) :
    MovesAt φ (List.map f) (p >>= fun a => loop >>= fun as => Pure.pure (a :: as))
      (q >>= fun b => loop' >>= fun bs => Pure.pure (b :: bs)) stop ts :=
  (h stop ts).bind fun a mid hrun =>
    (hloop a mid hrun).bind fun _ _ _ => .pure (List.map_cons ..)

theorem manyAfter {f : α → β} {p : TokenReader α} {q : TokenReader β} (h : Moves φ f p q)
    (separator : TokenKind) (hp : Keeps p) (hq : Keeps q) :
    Moves φ (List.map f) (manyAfter separator p hp) (manyAfter separator q hq) := by
  intro stop ts
  induction hlength : ts.length using Nat.strongRecOn generalizing ts with
  | ind n ih =>
  subst hlength
  by_cases hahead : NotAhead [separator] ts
  · rw [MovesAt, manyAfter_of_notAhead hahead,
      manyAfter_of_notAhead (notAhead_map_displace.mpr hahead)]
    rfl
  · obtain ⟨t, ts, hkind, rfl⟩ := exists_cons_of_ahead hahead
    rw [List.mem_singleton] at hkind
    have hmore := cons_at h fun a mid hrun =>
      ih mid.length (Nat.lt_succ_of_le (hp hrun)) mid rfl
    rw [MovesAt] at hmore ⊢
    have hkind' : (t.displace φ).kind = separator := hkind
    rwa [manyAfter_cons hkind, List.map_cons, manyAfter_cons hkind']

theorem untilBrace {f : α → β} {p : TokenReader α} {q : TokenReader β} (h : Moves φ f p q)
    (hp : Advances p) (hq : Advances q) :
    Moves φ (List.map f) (untilBrace p hp) (untilBrace q hq) := by
  intro stop ts
  induction hlength : ts.length using Nat.strongRecOn generalizing ts with
  | ind n ih =>
  subst hlength
  by_cases hahead : NotAhead [.rightBrace] ts
  · have hmore := cons_at h fun a mid hrun => ih mid.length (hp hrun) mid rfl
    rw [MovesAt] at hmore ⊢
    rwa [untilBrace_of_notAhead hahead,
      untilBrace_of_notAhead (notAhead_map_displace.mpr hahead)]
  · obtain ⟨t, ts, hkind, rfl⟩ := exists_cons_of_ahead hahead
    rw [List.mem_singleton] at hkind
    have hkind' : (t.displace φ).kind = .rightBrace := hkind
    rw [MovesAt, untilBrace_cons hkind, List.map_cons, untilBrace_cons hkind']
    rfl

theorem commaSeparated {f : α → β} {p : TokenReader α} {q : TokenReader β} (h : Moves φ f p q)
    (hp : Advances p) (hq : Advances q) :
    Moves φ (List.map f) (commaSeparated p hp) (commaSeparated q hq) := by
  intro stop ts
  induction hlength : ts.length using Nat.strongRecOn generalizing ts with
  | ind n ih =>
  subst hlength
  by_cases hahead : NotAhead [.rightBrace] ts
  · rw [MovesAt, commaSeparated_of_notAhead hahead,
      commaSeparated_of_notAhead (notAhead_map_displace.mpr hahead)]
    refine (h stop ts).bind fun a mid hrun => (accept .comma stop mid).bind fun comma last hc => ?_
    cases comma with
    | true =>
        have hshorter := Nat.lt_of_le_of_lt (keeps_accept _ hc) (hp hrun)
        exact (ih _ hshorter last rfl).bind fun _ _ _ => .pure (List.map_cons ..)
    | false => exact (expect _ _ stop last).bind fun _ _ _ => .pure rfl
  · obtain ⟨t, ts, hkind, rfl⟩ := exists_cons_of_ahead hahead
    rw [List.mem_singleton] at hkind
    have hkind' : (t.displace φ).kind = .rightBrace := hkind
    rw [MovesAt, commaSeparated_cons hkind, List.map_cons, commaSeparated_cons hkind']
    rfl

theorem untilEnd {f : α → β} {p : TokenReader α} {q : TokenReader β} (h : Moves φ f p q)
    (hp : Advances p) (hq : Advances q) :
    Moves φ (List.map f) (untilEnd p hp) (untilEnd q hq) := by
  intro stop ts
  induction hlength : ts.length using Nat.strongRecOn generalizing ts with
  | ind n ih =>
  subst hlength
  by_cases hne : ts = []
  · subst hne
    unfold MovesAt TokenReader.untilEnd
    rfl
  · have hmore := cons_at h fun a mid hrun => ih mid.length (hp hrun) mid rfl
    rw [MovesAt] at hmore ⊢
    rwa [untilEnd_of_ne_nil hne, untilEnd_of_ne_nil (by simpa using hne)]

end Moves

end TokenReader

end SchemaLang
