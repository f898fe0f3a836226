import SchemaLang.Expr
import SchemaLang.Literal
import SchemaLang.TokenReader

/-!
# Reading constant expressions

Sums of products of signed powers: `+` and `-` bind loosest and associate to the left, as do `*`
and `/` above them; a minus sign stands before a power or another minus sign; `^` binds tightest
and associates to the right, and its exponent may have a sign.  An operand is a number, the word
`inf`, a square root `sqrt(...)` or a sum in parentheses.

The functions call each other on shorter token lists, so each of them hands on its rest together
with the proof that it is shorter.  `sum` and `constant` are the readers for use elsewhere.
-/

namespace SchemaLang.Expr

open TokenReader (unexpected placeOf)

/-- An expression and the tokens behind it, fewer than the given ones. -/
abbrev Cut (ts : List Token) : Type :=
  Expr × { rest : List Token // rest.length < ts.length }

/-- An expression and the tokens behind it, at most the given ones. -/
abbrev Grown (ts : List Token) : Type :=
  Expr × { rest : List Token // rest.length ≤ ts.length }

/-- The operators between the terms of a sum. -/
def additive? : TokenKind → Option Operator
  | .plus => some .add
  | .minus => some .subtract
  | _ => none

/-- The operators between the factors of a product. -/
def multiplicative? : TokenKind → Option Operator
  | .star => some .multiply
  | .slash => some .divide
  | _ => none

/-- Takes the parenthesis that closes a sum. -/
def closeParen (stop : Location) (ts : List Token) :
    Except SyntaxError { rest : List Token // rest.length < ts.length } :=
  match ts with
  | t :: rest =>
      if t.kind = .rightParen then .ok ⟨rest, Nat.lt_succ_self _⟩
      else .error (unexpected .closingParen stop (t :: rest))
  | [] => .error (unexpected .closingParen stop [])

mutual

/-- A sum. -/
def cutSum (stop : Location) (ts : List Token) : Except SyntaxError (Cut ts) :=
  match cutProduct stop ts with
  | .error e => .error e
  | .ok (left, ⟨mid, hm⟩) =>
      match growSum stop left mid with
      | .error e => .error e
      | .ok (e, ⟨rest, hr⟩) => .ok (e, ⟨rest, Nat.lt_of_le_of_lt hr hm⟩)
termination_by (ts.length, 4)

/-- A sum whose first terms are read already. -/
def growSum (stop : Location) (left : Expr) (ts : List Token) : Except SyntaxError (Grown ts) :=
  match ts with
  | [] => .ok (left, ⟨[], Nat.le_refl _⟩)
  | t :: behind =>
      match additive? t.kind with
      | none => .ok (left, ⟨t :: behind, Nat.le_refl _⟩)
      | some op =>
          match cutProduct stop behind with
          | .error e => .error e
          | .ok (right, ⟨mid, hm⟩) =>
              have : mid.length < (t :: behind).length := Nat.lt_succ_of_lt hm
              match growSum stop (.binary op left right) mid with
              | .error e => .error e
              | .ok (e, ⟨rest, hr⟩) => .ok (e, ⟨rest, Nat.le_trans hr (Nat.le_of_lt this)⟩)
termination_by (ts.length, 0)

/-- A product. -/
def cutProduct (stop : Location) (ts : List Token) : Except SyntaxError (Cut ts) :=
  match cutUnary stop ts with
  | .error e => .error e
  | .ok (left, ⟨mid, hm⟩) =>
      match growProduct stop left mid with
      | .error e => .error e
      | .ok (e, ⟨rest, hr⟩) => .ok (e, ⟨rest, Nat.lt_of_le_of_lt hr hm⟩)
termination_by (ts.length, 3)

/-- A product whose first factors are read already. -/
def growProduct (stop : Location) (left : Expr) (ts : List Token) :
    Except SyntaxError (Grown ts) :=
  match ts with
  | [] => .ok (left, ⟨[], Nat.le_refl _⟩)
  | t :: behind =>
      match multiplicative? t.kind with
      | none => .ok (left, ⟨t :: behind, Nat.le_refl _⟩)
      | some op =>
          match cutUnary stop behind with
          | .error e => .error e
          | .ok (right, ⟨mid, hm⟩) =>
              have : mid.length < (t :: behind).length := Nat.lt_succ_of_lt hm
              match growProduct stop (.binary op left right) mid with
              | .error e => .error e
              | .ok (e, ⟨rest, hr⟩) => .ok (e, ⟨rest, Nat.le_trans hr (Nat.le_of_lt this)⟩)
termination_by (ts.length, 0)

/-- A power, or a negated one. -/
def cutUnary (stop : Location) (ts : List Token) : Except SyntaxError (Cut ts) :=
  match ts with
  | [] => .error (unexpected .number stop [])
  | t :: behind =>
      if t.kind = .minus then
        match cutUnary stop behind with
        | .error e => .error e
        | .ok (e, ⟨rest, hr⟩) => .ok (.negate e, ⟨rest, Nat.lt_succ_of_lt hr⟩)
      else cutPower stop (t :: behind)
termination_by (ts.length, 2)

/-- An operand, raised to a power if an exponent follows. -/
def cutPower (stop : Location) (ts : List Token) : Except SyntaxError (Cut ts) :=
  match cutOperand stop ts with
  | .error e => .error e
  | .ok (base, ⟨[], hm⟩) => .ok (base, ⟨[], hm⟩)
  | .ok (base, ⟨t :: behind, hm⟩) =>
      if t.kind = .caret then
        have : behind.length < ts.length := Nat.lt_of_succ_lt hm
        match cutUnary stop behind with
        | .error e => .error e
        | .ok (power, ⟨rest, hr⟩) =>
            .ok (.binary .power base power, ⟨rest, Nat.lt_trans hr this⟩)
      else .ok (base, ⟨t :: behind, hm⟩)
termination_by (ts.length, 1)

/-- A sum in parentheses, whose opening parenthesis is taken already. -/
def cutParenthesised (stop : Location) (ts : List Token) : Except SyntaxError (Cut ts) :=
  match cutSum stop ts with
  | .error e => .error e
  | .ok (e, ⟨mid, hm⟩) =>
      match closeParen stop mid with
      | .error e => .error e
      | .ok ⟨rest, hr⟩ => .ok (e, ⟨rest, Nat.lt_trans hr hm⟩)
termination_by (ts.length, 5)

/-- A number, `inf`, a square root, or a sum in parentheses. -/
def cutOperand (stop : Location) (ts : List Token) : Except SyntaxError (Cut ts) :=
  match ts with
  | [] => .error (unexpected .number stop [])
  | t :: behind =>
      if t.kind = .integer ∨ t.kind = .float then
        match Literal.toFloat t.literal t.location with
        | .error e => .error e
        | .ok x => .ok (.number x, ⟨behind, Nat.lt_succ_self _⟩)
      else if t.kind = .identifier ∧ t.literal = "inf" then
        .ok (.number (1.0 / 0.0), ⟨behind, Nat.lt_succ_self _⟩)
      else if t.kind = .identifier ∧ t.literal = "sqrt" then
        match behind with
        | [] => .error (unexpected .openingParen stop [])
        | u :: inner =>
            if u.kind = .leftParen then
              match cutParenthesised stop inner with
              | .error e => .error e
              | .ok (e, ⟨rest, hr⟩) =>
                  .ok (.root e, ⟨rest, Nat.lt_succ_of_lt (Nat.lt_succ_of_lt hr)⟩)
            else .error (unexpected .openingParen stop (u :: inner))
      else if t.kind = .leftParen then
        match cutParenthesised stop behind with
        | .error e => .error e
        | .ok (e, ⟨rest, hr⟩) => .ok (e, ⟨rest, Nat.lt_succ_of_lt hr⟩)
      else .error (unexpected .number stop (t :: behind))
termination_by (ts.length, 0)

end

/-- Reads a constant expression. -/
def sum : TokenReader Expr :=
  fun stop ts =>
    match cutSum stop ts with
    | .error e => .error e
    | .ok (e, rest) => .ok (e, rest.1)

/-- Reads a constant expression and folds it.  A value that is no number is refused at the place
where the expression starts. -/
def constant : TokenReader Float := do
  let place ← TokenReader.here
  let e ← sum
  if e.value.isNaN then TokenReader.ofExcept (.error (.notANumber place)) else pure e.value

theorem advances_sum : TokenReader.Advances sum := by
  intro stop ts e rest h
  unfold sum at h
  split at h
  · cases h
  · rename_i e' rest' _
    cases h
    exact rest'.2

theorem advances_constant : TokenReader.Advances constant :=
  TokenReader.keeps_here.bind_advances fun _ => advances_sum.bind fun e => by
    split
    · exact TokenReader.keeps_ofExcept _
    · exact TokenReader.keeps_pure _

end SchemaLang.Expr
