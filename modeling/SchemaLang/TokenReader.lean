import SchemaLang.SyntaxError
import SchemaLang.Token

/-!
# Readers of tokens

A `TokenReader` takes what it needs from the front of a token list and hands on the rest, or fails.
Where the source stops is known to every reader, because an error at the end of the tokens is
placed there.

A reader *advances* if it takes at least one token whenever it succeeds, and *keeps* if it never
hands on more than it got.  The loops below ask for such a proof and end by the number of tokens
that are left; `Advances.bind` and its companions carry the proof through a sequence of readers.
-/

namespace SchemaLang

/-- Reads an `α` from the front of a token list. -/
def TokenReader (α : Type) : Type :=
  Location → List Token → Except SyntaxError (α × List Token)

namespace TokenReader

variable {α β : Type}

instance : Monad TokenReader where
  pure a := fun _ ts => .ok (a, ts)
  bind p f := fun stop ts =>
    match p stop ts with
    | .ok (a, rest) => f a stop rest
    | .error e => .error e

/-- The place of the next token, or of the end of the source. -/
def placeOf (stop : Location) (ts : List Token) : Location :=
  match ts with
  | [] => stop
  | t :: _ => t.location

/-- The complaint that something else was needed than what comes next.  A token that is no token of
the language is named as such, whatever was needed. -/
def unexpected (expected : Expectation) (stop : Location) (ts : List Token) : SyntaxError :=
  match ts with
  | [] => .unexpectedToken expected none stop
  | t :: _ =>
      if t.kind = .invalid then .invalidToken t.literal t.location
      else .unexpectedToken expected (some t.literal) t.location

/-- The place of what comes next; nothing is taken. -/
def here : TokenReader Location :=
  fun stop ts => .ok (placeOf stop ts, ts)

/-- Fails because something else is needed than what comes next. -/
def fail (expected : Expectation) : TokenReader α :=
  fun stop ts => .error (unexpected expected stop ts)

/-- The outcome of a checked construction; nothing is taken. -/
def ofExcept (outcome : Except SyntaxError α) : TokenReader α :=
  fun _ ts =>
    match outcome with
    | .ok a => .ok (a, ts)
    | .error e => .error e

/-- Takes the next token if it is wanted, and fails otherwise. -/
def take (wanted : Token → Bool) (expected : Expectation) : TokenReader Token :=
  fun stop ts =>
    match ts with
    | t :: rest => if wanted t then .ok (t, rest) else .error (unexpected expected stop ts)
    | [] => .error (unexpected expected stop ts)

/-- Takes a token of the given kind. -/
def expect (kind : TokenKind) (expected : Expectation) : TokenReader Token :=
  take (fun t => t.kind = kind) expected

/-- Takes the next token if it is of the given kind, and says whether it did. -/
def accept (kind : TokenKind) : TokenReader Bool :=
  fun _ ts =>
    match ts with
    | t :: rest => if t.kind = kind then .ok (true, rest) else .ok (false, ts)
    | [] => .ok (false, ts)

/-- What the kind of the next token decides; `none` at the end of the source. -/
def choose (branch : Option TokenKind → TokenReader α) : TokenReader α :=
  fun stop ts => branch (ts.head?.map Token.kind) stop ts

/-- A successful reader hands on fewer tokens than it got. -/
def Advances (p : TokenReader α) : Prop :=
  ∀ ⦃stop ts a rest⦄, p stop ts = .ok (a, rest) → rest.length < ts.length

/-- A successful reader hands on no more tokens than it got. -/
def Keeps (p : TokenReader α) : Prop :=
  ∀ ⦃stop ts a rest⦄, p stop ts = .ok (a, rest) → rest.length ≤ ts.length

theorem Advances.keeps {p : TokenReader α} (hp : Advances p) : Keeps p :=
  fun _ _ _ _ h => Nat.le_of_lt (hp h)

/-- A sequence that succeeds went through both of its readers. -/
theorem bind_eq_ok {p : TokenReader α} {f : α → TokenReader β} {stop : Location}
    {ts rest : List Token} {b : β} (h : (p >>= f) stop ts = .ok (b, rest)) :
    ∃ a mid, p stop ts = .ok (a, mid) ∧ f a stop mid = .ok (b, rest) := by
  change (match p stop ts with
    | .ok (a, rest) => f a stop rest
    | .error e => .error e) = .ok (b, rest) at h
  split at h
  · rename_i a mid hp
    exact ⟨a, mid, hp, h⟩
  · cases h

theorem Advances.bind {p : TokenReader α} {f : α → TokenReader β} (hp : Advances p)
    (hf : ∀ a, Keeps (f a)) : Advances (p >>= f) := by
  intro stop ts b rest h
  obtain ⟨a, mid, h₁, h₂⟩ := bind_eq_ok h
  exact Nat.lt_of_le_of_lt (hf a h₂) (hp h₁)

theorem Keeps.bind {p : TokenReader α} {f : α → TokenReader β} (hp : Keeps p)
    (hf : ∀ a, Keeps (f a)) : Keeps (p >>= f) := by
  intro stop ts b rest h
  obtain ⟨a, mid, h₁, h₂⟩ := bind_eq_ok h
  exact Nat.le_trans (hf a h₂) (hp h₁)

theorem Keeps.bind_advances {p : TokenReader α} {f : α → TokenReader β} (hp : Keeps p)
    (hf : ∀ a, Advances (f a)) : Advances (p >>= f) := by
  intro stop ts b rest h
  obtain ⟨a, mid, h₁, h₂⟩ := bind_eq_ok h
  exact Nat.lt_of_lt_of_le (hf a h₂) (hp h₁)

theorem keeps_pure (a : α) : Keeps (pure a : TokenReader α) := by
  intro stop ts b rest h
  cases h
  exact Nat.le_refl _

theorem keeps_here : Keeps here := by
  intro stop ts a rest h
  cases h
  exact Nat.le_refl _

theorem advances_fail (expected : Expectation) : Advances (fail expected : TokenReader α) := by
  intro stop ts a rest h
  cases h

theorem keeps_ofExcept (outcome : Except SyntaxError α) : Keeps (ofExcept outcome) := by
  intro stop ts a rest h
  cases outcome with
  | ok b => cases h; exact Nat.le_refl _
  | error e => cases h

theorem advances_take (wanted : Token → Bool) (expected : Expectation) :
    Advances (take wanted expected) := by
  intro stop ts a rest h
  cases ts with
  | nil => cases h
  | cons t ts =>
      by_cases hw : wanted t = true
      · simp only [take, hw, if_true] at h
        cases h
        exact Nat.lt_succ_self _
      · simp [take, hw] at h

theorem advances_expect (kind : TokenKind) (expected : Expectation) :
    Advances (expect kind expected) :=
  advances_take _ _

theorem keeps_accept (kind : TokenKind) : Keeps (accept kind) := by
  intro stop ts a rest h
  cases ts with
  | nil => cases h; exact Nat.le_refl _
  | cons t ts =>
      by_cases hk : t.kind = kind
      · simp only [accept, hk, if_true] at h
        cases h
        exact Nat.le_succ _
      · simp only [accept, hk, if_false] at h
        cases h
        exact Nat.le_refl _

theorem accept_eq_true {kind : TokenKind} {stop : Location} {ts rest : List Token}
    (h : accept kind stop ts = .ok (true, rest)) : rest.length < ts.length := by
  cases ts with
  | nil => cases h
  | cons t ts =>
      by_cases hk : t.kind = kind
      · simp only [accept, hk, if_true] at h
        cases h
        exact Nat.lt_succ_self _
      · simp only [accept, hk, if_false] at h
        cases h

theorem advances_choose {branch : Option TokenKind → TokenReader α}
    (hb : ∀ kind, Advances (branch kind)) : Advances (choose branch) :=
  fun _ _ _ _ h => hb _ h

theorem keeps_choose {branch : Option TokenKind → TokenReader α}
    (hb : ∀ kind, Keeps (branch kind)) : Keeps (choose branch) :=
  fun _ _ _ _ h => hb _ h

/-- Reads an item behind each separator, as long as separators come. -/
def manyAfter (separator : TokenKind) (item : TokenReader α) (hi : Keeps item) :
    TokenReader (List α) :=
  fun stop ts =>
    match ts with
    | [] => .ok ([], [])
    | t :: rest =>
        if t.kind = separator then
          match _h : item stop rest with
          | .error e => .error e
          | .ok (a, mid) =>
              match manyAfter separator item hi stop mid with
              | .error e => .error e
              | .ok (as, last) => .ok (a :: as, last)
        else .ok ([], t :: rest)
termination_by _ ts => ts.length
decreasing_by exact Nat.lt_succ_of_le (hi _h)

/-- Reads items up to a closing brace, and takes the brace. -/
def untilBrace (item : TokenReader α) (hi : Advances item) : TokenReader (List α) :=
  fun stop ts =>
    match accept .rightBrace stop ts with
    | .error e => .error e
    | .ok (true, rest) => .ok ([], rest)
    | .ok (false, _) =>
        match h : item stop ts with
        | .error e => .error e
        | .ok (a, mid) =>
            have : mid.length < ts.length := hi h
            match untilBrace item hi stop mid with
            | .error e => .error e
            | .ok (as, last) => .ok (a :: as, last)
termination_by _ ts => ts.length

/-- Reads items with commas between them up to a closing brace, and takes the brace.  A comma may
stand before the brace. -/
def commaSeparated (item : TokenReader α) (hi : Advances item) : TokenReader (List α) :=
  fun stop ts =>
    match accept .rightBrace stop ts with
    | .error e => .error e
    | .ok (true, rest) => .ok ([], rest)
    | .ok (false, _) =>
        match h : item stop ts with
        | .error e => .error e
        | .ok (a, mid) =>
            match hc : accept .comma stop mid with
            | .error e => .error e
            | .ok (true, rest) =>
                have : rest.length < ts.length := Nat.lt_of_le_of_lt (keeps_accept _ hc) (hi h)
                match commaSeparated item hi stop rest with
                | .error e => .error e
                | .ok (as, last) => .ok (a :: as, last)
            | .ok (false, _) =>
                match expect .rightBrace .commaOrClosingBrace stop mid with
                | .error e => .error e
                | .ok (_, last) => .ok ([a], last)
termination_by _ ts => ts.length

/-- Reads items up to the end of the source. -/
def untilEnd (item : TokenReader α) (hi : Advances item) : TokenReader (List α) :=
  fun stop ts =>
    if ts.isEmpty then .ok ([], [])
    else
      match h : item stop ts with
      | .error e => .error e
      | .ok (a, mid) =>
          have : mid.length < ts.length := hi h
          match untilEnd item hi stop mid with
          | .error e => .error e
          | .ok (as, last) => .ok (a :: as, last)
termination_by _ ts => ts.length

theorem keeps_manyAfter (separator : TokenKind) (item : TokenReader α) (hi : Keeps item) :
    Keeps (manyAfter separator item hi) := by
  intro stop ts
  fun_induction manyAfter separator item hi stop ts with
  | case1 => intro as last h; cases h; exact Nat.le_refl _
  | case2 => intro as last h; cases h
  | case3 => intro as last h; cases h
  | case4 t rest _ a mid hit as last hrec ih =>
      intro as' last' h
      cases h
      exact Nat.le_trans (ih hrec) (Nat.le_succ_of_le (hi hit))
  | case5 => intro as last h; cases h; exact Nat.le_refl _

theorem advances_untilBrace (item : TokenReader α) (hi : Advances item) :
    Advances (untilBrace item hi) := by
  intro stop ts
  fun_induction untilBrace item hi stop ts with
  | case1 => intro as last h; cases h
  | case2 ts rest hb =>
      intro as last h
      cases h
      exact accept_eq_true hb
  | case3 => intro as last h; cases h
  | case4 => intro as last h; cases h
  | case5 ts _ _ a mid hit hlt as last hrec ih =>
      intro as' last' h
      cases h
      exact Nat.lt_trans (ih hrec) hlt

theorem advances_commaSeparated (item : TokenReader α) (hi : Advances item) :
    Advances (commaSeparated item hi) := by
  intro stop ts
  fun_induction commaSeparated item hi stop ts with
  | case1 => intro as last h; cases h
  | case2 ts rest hb =>
      intro as last h
      cases h
      exact accept_eq_true hb
  | case3 => intro as last h; cases h
  | case4 => intro as last h; cases h
  | case5 => intro as last h; cases h
  | case6 ts _ _ a mid hit rest hc hlt as last hrec ih =>
      intro as' last' h
      cases h
      exact Nat.lt_trans (ih hrec) hlt
  | case7 => intro as last h; cases h
  | case8 ts _ _ a mid hit _ hc b last hb =>
      intro as' last' h
      cases h
      exact Nat.lt_trans (advances_expect _ _ hb) (hi hit)

theorem keeps_untilEnd (item : TokenReader α) (hi : Advances item) :
    Keeps (untilEnd item hi) := by
  intro stop ts as last h
  have : last = [] := by
    revert as last
    fun_induction untilEnd item hi stop ts with
    | case1 => intro as last h; cases h; rfl
    | case2 => intro as last h; cases h
    | case3 => intro as last h; cases h
    | case4 ts _ a mid hit hlt as last hrec ih =>
        intro as' last' h
        cases h
        exact ih hrec
  simp [this]

end TokenReader

end SchemaLang
