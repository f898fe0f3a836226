import SchemaLang.Proofs.ExprReading

/-!
# Writing constant expressions

`Formula.words` writes an expression down and puts parentheses around an operand only where the
grammar has no other way to take it.  `Expr.sum_of_words` says that the reader finds the same
expression again, and stops behind it.
-/

namespace SchemaLang

open Grammar Lexeme TokenReader

/-- The rules of the grammar by how tightly they bind. -/
inductive Level where
  | sum
  | product
  | unary
  | operand
deriving DecidableEq, Repr

namespace Level

def rank : Level → Nat
  | .sum => 0
  | .product => 1
  | .unary => 2
  | .operand => 3

instance : LE Level := ⟨fun a b => a.rank ≤ b.rank⟩

instance (a b : Level) : Decidable (a ≤ b) := inferInstanceAs (Decidable (a.rank ≤ b.rank))

end Level

namespace Operator

def word : Operator → TokenKind × String
  | .add => (.plus, "+")
  | .subtract => (.minus, "-")
  | .multiply => (.star, "*")
  | .divide => (.slash, "/")
  | .power => (.caret, "^")

/-- How tightly an operation binds. -/
def level : Operator → Level
  | .add | .subtract => .sum
  | .multiply | .divide => .product
  | .power => .unary

/-- How tightly a left operand has to bind. -/
def left : Operator → Level
  | .add | .subtract => .sum
  | .multiply | .divide => .product
  | .power => .operand

/-- How tightly a right operand has to bind. -/
def right : Operator → Level
  | .add | .subtract => .product
  | .multiply | .divide | .power => .unary

end Operator

/-- A number as it is written. -/
structure Numeral where
  kind : TokenKind
  literal : String
  shape : (kind = .integer ∧ IsDigits literal.toList) ∨ (kind = .float ∧ IsDecimal literal.toList)

/-- An expression whose numbers are known by how they are written. -/
inductive Formula where
  | number (numeral : Numeral)
  | infinity
  | negate (operand : Formula)
  | root (operand : Formula)
  | binary (operator : Operator) (left right : Formula)

namespace Numeral

theorem wellShaped (n : Numeral) (place : Location) :
    (decide (n.kind = .integer) || decide (n.kind = .float)) ∧
      Token.HasShape ⟨n.kind, n.literal, place⟩ := by
  obtain ⟨kind, literal, ⟨rfl, hdigits⟩ | ⟨rfl, hdecimal⟩⟩ := n
  · exact ⟨rfl, hdigits⟩
  · exact ⟨rfl, hdecimal⟩

/-- The numeral as the token of a source. -/
def token (n : Numeral) (place : Location) :
    Terminal fun t => t.kind = .integer || t.kind = .float :=
  ⟨⟨n.kind, n.literal, place⟩, n.wellShaped place⟩

def value (n : Numeral) : Float :=
  floatOf (n.token default)

end Numeral

namespace Formula

def expr : Formula → Expr
  | .number n => .number n.value
  | .infinity => .number (1.0 / 0.0)
  | .negate f => .negate f.expr
  | .root f => .root f.expr
  | .binary op f g => .binary op f.expr g.expr

def level : Formula → Level
  | .number _ | .infinity | .root _ => .operand
  | .negate _ => .unary
  | .binary op _ _ => op.level

end Formula

def parenthesise (words : List (TokenKind × String)) : List (TokenKind × String) :=
  (.leftParen, "(") :: (words ++ [(.rightParen, ")")])

/-- What stands where nothing may bind less tightly than `least`. -/
def enclose (least level : Level) (words : List (TokenKind × String)) :
    List (TokenKind × String) :=
  if least ≤ level then words else parenthesise words

/-- The words that write an expression down. -/
def Formula.words : Formula → List (TokenKind × String)
  | .number n => [(n.kind, n.literal)]
  | .infinity => [(.identifier, "inf")]
  | .negate f => (.minus, "-") :: enclose .unary f.level f.words
  | .root f => (.identifier, "sqrt") :: parenthesise f.words
  | .binary op f g =>
      enclose op.left f.level f.words ++ op.word :: enclose op.right g.level g.words

/-! ### What is written has a derivation -/

/-- The tokens have a derivation by the rule of the level, and it means the expression. -/
def Derives (level : Level) (ts : List Token) (e : Expr) : Prop :=
  match level with
  | .sum => ∃ s : SumTree, s.tokens = ts ∧ s.expr = e
  | .product => ∃ p : ProductTree, p.tokens = ts ∧ p.expr = e
  | .unary => ∃ u : UnaryTree, u.tokens = ts ∧ u.expr = e
  | .operand => ∃ o : OperandTree, o.tokens = ts ∧ o.expr = e

theorem Token.eq_of_word {t : Token} {kind : TokenKind} {literal : String}
    (h : t.word = (kind, literal)) : t = ⟨kind, literal, t.location⟩ := by
  cases h
  rfl

namespace Derives

variable {ts us : List Token} {e e' : Expr} {level least : Level}

theorem of_operand (h : Derives .operand ts e) : Derives .unary ts e := by
  obtain ⟨o, rfl, rfl⟩ := h
  exact ⟨.operand o, rfl, rfl⟩

theorem of_unary (h : Derives .unary ts e) : Derives .product ts e := by
  obtain ⟨u, rfl, rfl⟩ := h
  exact ⟨.unary u, rfl, rfl⟩

theorem of_product (h : Derives .product ts e) : Derives .sum ts e := by
  obtain ⟨p, rfl, rfl⟩ := h
  exact ⟨.product p, rfl, rfl⟩

/-- What binds more tightly may stand where less is asked. -/
theorem mono (h : Derives level ts e) (hle : least ≤ level) : Derives least ts e := by
  cases level with
  | sum =>
      cases least with
      | sum => exact h
      | product | unary | operand => exact absurd hle (by decide)
  | product =>
      cases least with
      | sum => exact h.of_product
      | product => exact h
      | unary | operand => exact absurd hle (by decide)
  | unary =>
      cases least with
      | sum => exact h.of_unary.of_product
      | product => exact h.of_unary
      | unary => exact h
      | operand => exact absurd hle (by decide)
  | operand =>
      cases least with
      | sum => exact h.of_operand.of_unary.of_product
      | product => exact h.of_operand.of_unary
      | unary => exact h.of_operand
      | operand => exact h

theorem negate {t : Token} (ht : t.word = (.minus, "-")) (h : Derives .unary ts e) :
    Derives .unary (t :: ts) (.negate e) := by
  obtain ⟨u, rfl, rfl⟩ := h
  rw [Token.eq_of_word ht]
  exact ⟨.negated ⟨⟨.minus, "-", t.location⟩, rfl, trivial⟩ u, rfl, rfl⟩

/-- A sum in parentheses, which makes an operand of its own or belongs to a root. -/
theorem parenthesised {words : List (TokenKind × String)}
    (hts : ts.map Token.word = parenthesise words)
    (h : ∀ {us : List Token}, us.map Token.word = words → Derives .sum us e) :
    ∃ (opening : Word .leftParen) (inner : SumTree) (closing : Word .rightParen),
      ts = opening.1 :: (inner.tokens ++ [closing.1]) ∧ inner.expr = e := by
  obtain ⟨t, ts, rfl, ht, hts⟩ := List.map_eq_cons_iff.mp hts
  obtain ⟨us, vs, rfl, hus, hvs⟩ := List.map_eq_append_iff.mp hts
  obtain ⟨u, vs, rfl, hu, hvs⟩ := List.map_eq_cons_iff.mp hvs
  obtain rfl := List.map_eq_nil_iff.mp hvs
  obtain ⟨inner, rfl, rfl⟩ := h hus
  rw [Token.eq_of_word ht, Token.eq_of_word hu]
  exact ⟨⟨⟨.leftParen, "(", t.location⟩, rfl, trivial⟩, inner,
    ⟨⟨.rightParen, ")", u.location⟩, rfl, trivial⟩, rfl, rfl⟩

theorem grouped {words : List (TokenKind × String)}
    (hts : ts.map Token.word = parenthesise words)
    (h : ∀ {us : List Token}, us.map Token.word = words → Derives .sum us e) :
    Derives .operand ts e := by
  obtain ⟨opening, inner, closing, rfl, rfl⟩ := parenthesised hts h
  exact ⟨.grouped opening inner closing, rfl, rfl⟩

theorem root {t : Token} (ht : t.word = (.identifier, "sqrt"))
    {words : List (TokenKind × String)} (hts : ts.map Token.word = parenthesise words)
    (h : ∀ {us : List Token}, us.map Token.word = words → Derives .sum us e) :
    Derives .operand (t :: ts) (.root e) := by
  obtain ⟨opening, inner, closing, rfl, rfl⟩ := parenthesised hts h
  rw [Token.eq_of_word ht]
  exact ⟨.root ⟨⟨.identifier, "sqrt", t.location⟩, rfl, trivial⟩ opening inner closing, rfl, rfl⟩

/-- An operand stands as it is where it binds tightly enough, and in parentheses elsewhere. -/
theorem enclosed {words : List (TokenKind × String)}
    (hts : ts.map Token.word = enclose least level words)
    (h : ∀ {us : List Token}, us.map Token.word = words → Derives level us e) :
    Derives least ts e := by
  unfold enclose at hts
  split at hts
  · rename_i hle
    exact (h hts).mono hle
  · -- Between parentheses any sum may stand, and parentheses make an operand, the tightest level.
    have hgrouped : Derives .operand ts e := grouped hts fun hus => (h hus).mono (Nat.zero_le _)
    exact hgrouped.mono (by cases least <;> decide)

theorem binary {op : Operator} {t : Token} (ht : t.word = op.word) (hleft : Derives op.left ts e)
    (hright : Derives op.right us e') : Derives op.level (ts ++ t :: us) (.binary op e e') := by
  rw [Token.eq_of_word ht]
  cases op with
  | add =>
      obtain ⟨s, rfl, rfl⟩ := hleft
      obtain ⟨p, rfl, rfl⟩ := hright
      exact ⟨.more s ⟨⟨.plus, "+", t.location⟩, rfl, trivial⟩ p, rfl, rfl⟩
  | subtract =>
      obtain ⟨s, rfl, rfl⟩ := hleft
      obtain ⟨p, rfl, rfl⟩ := hright
      exact ⟨.more s ⟨⟨.minus, "-", t.location⟩, rfl, trivial⟩ p, rfl, rfl⟩
  | multiply =>
      obtain ⟨p, rfl, rfl⟩ := hleft
      obtain ⟨u, rfl, rfl⟩ := hright
      exact ⟨.more p ⟨⟨.star, "*", t.location⟩, rfl, trivial⟩ u, rfl, rfl⟩
  | divide =>
      obtain ⟨p, rfl, rfl⟩ := hleft
      obtain ⟨u, rfl, rfl⟩ := hright
      exact ⟨.more p ⟨⟨.slash, "/", t.location⟩, rfl, trivial⟩ u, rfl, rfl⟩
  | power =>
      obtain ⟨o, rfl, rfl⟩ := hleft
      obtain ⟨u, rfl, rfl⟩ := hright
      exact ⟨.power o ⟨⟨.caret, "^", t.location⟩, rfl, trivial⟩ u, rfl, rfl⟩

end Derives

/-- What is written for an expression has a derivation that means it. -/
theorem Formula.derives (f : Formula) {ts : List Token} (hts : ts.map Token.word = f.words) :
    Derives f.level ts f.expr := by
  induction f generalizing ts with
  | number n =>
      obtain ⟨t, ts, rfl, ht, hnil⟩ := List.map_eq_cons_iff.mp hts
      obtain rfl := List.map_eq_nil_iff.mp hnil
      rw [Token.eq_of_word ht]
      exact ⟨.number (n.token _), rfl, rfl⟩
  | infinity =>
      obtain ⟨t, ts, rfl, ht, hnil⟩ := List.map_eq_cons_iff.mp hts
      obtain rfl := List.map_eq_nil_iff.mp hnil
      rw [Token.eq_of_word ht]
      exact ⟨.infinity ⟨⟨.identifier, "inf", t.location⟩, rfl, trivial⟩, rfl, rfl⟩
  | negate f ih =>
      obtain ⟨t, ts, rfl, ht, hts⟩ := List.map_eq_cons_iff.mp hts
      exact (Derives.enclosed hts ih).negate ht
  | root f ih =>
      obtain ⟨t, ts, rfl, ht, hts⟩ := List.map_eq_cons_iff.mp hts
      exact Derives.root ht hts fun hus => (ih hus).mono (Nat.zero_le _)
  | binary op f g ihf ihg =>
      obtain ⟨us, vs, rfl, hus, hvs⟩ := List.map_eq_append_iff.mp hts
      obtain ⟨t, vs, rfl, ht, hvs⟩ := List.map_eq_cons_iff.mp hvs
      exact .binary ht (.enclosed hus ihf) (.enclosed hvs ihg)

/-- An expression is read as it was written, up to where it ends, in front of anything but an
operator. -/
theorem Expr.sum_of_words (f : Formula) {ts rest : List Token}
    (hts : ts.map Token.word = f.words) (hrest : NotAhead termKinds rest) (stop : Location) :
    sum stop (ts ++ rest) = .ok (f.expr, rest) := by
  have hsum : Derives .sum ts f.expr := (f.derives hts).mono (Nat.zero_le _)
  obtain ⟨s, rfl, hs⟩ := hsum
  -- No operator comes next, so neither loop goes on behind the last operand.
  rw [run_sum stop s (hrest.mono (by simp [factorKinds, termKinds])),
    moreTerms_of_notAhead (hrest.mono (by simp [termKinds])), hs]

theorem Expr.sum_of_words_power :
    let two : Numeral := ⟨.integer, "2", .inl ⟨rfl, by simp, by simp [isDigit]⟩⟩
    let f : Formula := .binary .power (.negate (.number two)) (.negate (.number two))
    let ts : List Token := [⟨.leftParen, "(", default⟩, ⟨.minus, "-", default⟩,
      ⟨.integer, "2", default⟩, ⟨.rightParen, ")", default⟩, ⟨.caret, "^", default⟩,
      ⟨.minus, "-", default⟩, ⟨.integer, "2", default⟩]
    let rest : List Token := [⟨.comma, ",", default⟩]
    ts.map Token.word = f.words ∧ NotAhead termKinds rest ∧
      sum default (ts ++ rest) =
        .ok (.binary .power (.negate (.number two.value)) (.negate (.number two.value)), rest) := by
  intro two f ts rest
  have hwords : ts.map Token.word = f.words := by decide
  have hrest : NotAhead termKinds rest := by simp [rest, termKinds]
  exact ⟨hwords, hrest, sum_of_words f hwords hrest default⟩

end SchemaLang
