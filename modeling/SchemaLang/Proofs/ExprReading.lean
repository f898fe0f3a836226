import SchemaLang.Proofs.Reading

/-!
# Reading constant expressions by their grammar

The functions that cut expressions hand on their rests with proofs about lengths, which matter to
their own recursion only.  Without them they are readers like all others, each with the equation
that its rule of the grammar suggests.
-/

namespace SchemaLang.Expr

open TokenReader Grammar

/-- A cut without the proof that its rest is short enough. -/
def forget {P : List Token → Prop} (run : Except SyntaxError (Expr × { rest // P rest })) :
    Except SyntaxError (Expr × List Token) :=
  run.map fun x => (x.1, x.2.1)

/-- Reads a product. -/
def product : TokenReader Expr :=
  fun stop ts => forget (cutProduct stop ts)

/-- Reads a power, or a negated one. -/
def unary : TokenReader Expr :=
  fun stop ts => forget (cutUnary stop ts)

/-- Reads an operand, raised to a power if an exponent follows. -/
def power : TokenReader Expr :=
  fun stop ts => forget (cutPower stop ts)

def operand : TokenReader Expr :=
  fun stop ts => forget (cutOperand stop ts)

/-- Reads the further terms of a sum. -/
def moreTerms (left : Expr) : TokenReader Expr :=
  fun stop ts => forget (growSum stop left ts)

/-- Reads the further factors of a product. -/
def moreFactors (left : Expr) : TokenReader Expr :=
  fun stop ts => forget (growProduct stop left ts)

/-- Reads a sum and the parenthesis behind it. -/
def parenthesised : TokenReader Expr :=
  fun stop ts => forget (cutParenthesised stop ts)

/-! ### What the readers leave -/

theorem of_forget {P : List Token → Prop} {run : Except SyntaxError (Expr × { rest // P rest })}
    {e : Expr} {rest : List Token} (h : forget run = .ok (e, rest)) : P rest := by
  cases run with
  | error e => cases h
  | ok x =>
      cases h
      exact x.2.2

theorem advances_product : Advances product :=
  fun _ _ _ _ h => of_forget h

theorem advances_unary : Advances unary :=
  fun _ _ _ _ h => of_forget h

theorem advances_operand : Advances operand :=
  fun _ _ _ _ h => of_forget h

theorem keeps_moreTerms (left : Expr) : Keeps (moreTerms left) :=
  fun _ _ _ _ h => of_forget h

theorem keeps_moreFactors (left : Expr) : Keeps (moreFactors left) :=
  fun _ _ _ _ h => of_forget h

/-! ### The readers rule by rule -/

theorem sum_eq : sum = product >>= moreTerms := by
  funext stop ts
  rw [bind_apply, sum, product, cutSum]
  cases cutProduct stop ts with
  | error e => rfl
  | ok x =>
      obtain ⟨left, mid, hmid⟩ := x
      show _ = forget (growSum stop left mid)
      dsimp only
      cases growSum stop left mid <;> rfl

theorem product_eq : product = unary >>= moreFactors := by
  funext stop ts
  rw [bind_apply, product, unary, cutProduct]
  cases cutUnary stop ts with
  | error e => rfl
  | ok x =>
      obtain ⟨left, mid, hmid⟩ := x
      show _ = forget (growProduct stop left mid)
      dsimp only
      cases growProduct stop left mid <;> rfl

theorem moreTerms_of_notAhead {ts : List Token} (h : NotAhead [.plus, .minus] ts) (left : Expr)
    (stop : Location) : moreTerms left stop ts = .ok (left, ts) := by
  rw [moreTerms, growSum.eq_def]
  cases ts with
  | nil => rfl
  | cons t ts =>
      have hnone : additive? t.kind = none := by
        unfold additive?
        split <;> simp_all
      dsimp only
      rw [hnone]
      rfl

theorem moreTerms_cons {t : Token} {op : Operator} (h : additive? t.kind = some op) (left : Expr)
    (stop : Location) (ts : List Token) : moreTerms left stop (t :: ts) =
      (product >>= fun right => moreTerms (.binary op left right)) stop ts := by
  rw [bind_apply, moreTerms, product, growSum, h]
  dsimp only
  cases cutProduct stop ts with
  | error e => rfl
  | ok x =>
      obtain ⟨right, mid, hmid⟩ := x
      show _ = forget (growSum stop (.binary op left right) mid)
      dsimp only
      cases growSum stop (.binary op left right) mid <;> rfl

/-- Behind either of its operators, the loop for terms goes on. -/
theorem exists_moreTerms {left : Expr} {stop : Location} {t : Token} {ts : List Token}
    (h : t.kind ∈ [TokenKind.plus, .minus]) : ∃ op, moreTerms left stop (t :: ts) =
      (product >>= fun right => moreTerms (.binary op left right)) stop ts := by
  simp only [List.mem_cons, List.not_mem_nil, or_false] at h
  obtain ⟨op, hop⟩ : ∃ op, additive? t.kind = some op := by
    rcases h with h | h <;> simp [additive?, h]
  exact ⟨op, moreTerms_cons hop left stop ts⟩

theorem moreFactors_of_notAhead {ts : List Token} (h : NotAhead [.star, .slash] ts) (left : Expr)
    (stop : Location) : moreFactors left stop ts = .ok (left, ts) := by
  rw [moreFactors, growProduct.eq_def]
  cases ts with
  | nil => rfl
  | cons t ts =>
      have hnone : multiplicative? t.kind = none := by
        unfold multiplicative?
        split <;> simp_all
      dsimp only
      rw [hnone]
      rfl

theorem moreFactors_cons {t : Token} {op : Operator} (h : multiplicative? t.kind = some op)
    (left : Expr) (stop : Location) (ts : List Token) : moreFactors left stop (t :: ts) =
      (unary >>= fun right => moreFactors (.binary op left right)) stop ts := by
  rw [bind_apply, moreFactors, unary, growProduct, h]
  dsimp only
  cases cutUnary stop ts with
  | error e => rfl
  | ok x =>
      obtain ⟨right, mid, hmid⟩ := x
      show _ = forget (growProduct stop (.binary op left right) mid)
      dsimp only
      cases growProduct stop (.binary op left right) mid <;> rfl

/-- Behind either of its operators, the loop for factors goes on. -/
theorem exists_moreFactors {left : Expr} {stop : Location} {t : Token} {ts : List Token}
    (h : t.kind ∈ [TokenKind.star, .slash]) : ∃ op, moreFactors left stop (t :: ts) =
      (unary >>= fun right => moreFactors (.binary op left right)) stop ts := by
  simp only [List.mem_cons, List.not_mem_nil, or_false] at h
  obtain ⟨op, hop⟩ : ∃ op, multiplicative? t.kind = some op := by
    rcases h with h | h <;> simp [multiplicative?, h]
  exact ⟨op, moreFactors_cons hop left stop ts⟩

theorem unary_cons_minus {t : Token} (h : t.kind = .minus) (stop : Location) (ts : List Token) :
    unary stop (t :: ts) = (unary >>= fun e => Pure.pure (.negate e)) stop ts := by
  rw [bind_apply, unary, cutUnary, if_pos h, unary]
  cases cutUnary stop ts <;> rfl

theorem unary_of_notAhead {ts : List Token} (h : NotAhead [.minus] ts) (stop : Location) :
    unary stop ts = power stop ts := by
  cases ts with
  | nil => rw [unary, cutUnary, power, cutPower, cutOperand]
  | cons t ts =>
      have hkind : t.kind ≠ .minus := by simpa using h
      rw [unary, cutUnary, if_neg hkind, power]

theorem power_eq : power = operand >>= fun base => accept .caret >>= fun raised =>
    if raised then unary >>= fun exponent => Pure.pure (.binary .power base exponent)
    else Pure.pure base := by
  funext stop ts
  rw [bind_apply, power, operand, cutPower]
  cases cutOperand stop ts with
  | error e => rfl
  | ok x =>
      obtain ⟨base, mid, hmid⟩ := x
      show _ = (accept .caret >>= fun _ => _) stop mid
      rw [bind_apply]
      cases mid with
      | nil => rfl
      | cons t mid =>
          by_cases hkind : t.kind = .caret
          · rw [accept_cons hkind]
            show _ = (unary >>= fun exponent =>
              Pure.pure (Expr.binary .power base exponent)) stop mid
            rw [bind_apply, unary]
            dsimp only
            rw [if_pos hkind]
            cases cutUnary stop mid <;> rfl
          · rw [accept_of_notAhead (by simpa using hkind)]
            dsimp only
            rw [if_neg hkind]
            rfl

theorem parenthesised_eq : parenthesised = sum >>= fun e =>
    expect .rightParen .closingParen >>= fun _ => Pure.pure e := by
  funext stop ts
  rw [bind_apply, parenthesised, sum, cutParenthesised]
  cases cutSum stop ts with
  | error e => rfl
  | ok x =>
      obtain ⟨e, mid, hmid⟩ := x
      show _ = (expect .rightParen .closingParen >>= fun _ => Pure.pure e) stop mid
      rw [bind_apply]
      cases mid with
      | nil => rfl
      | cons t mid =>
          by_cases hkind : t.kind = .rightParen
          · simp only [closeParen, expect, take, hkind, if_true, decide_true]
            rfl
          · simp only [closeParen, expect, take, hkind, if_false, decide_false]
            rfl

theorem operand_cons (stop : Location) (t : Token) (ts : List Token) :
    operand stop (t :: ts) =
      (if t.kind = .integer ∨ t.kind = .float then
        ofExcept (Literal.toFloat t.literal t.location) >>= fun x => Pure.pure (.number x)
      else if t.kind = .identifier ∧ t.literal = "inf" then Pure.pure (.number (1.0 / 0.0))
      else if t.kind = .identifier ∧ t.literal = "sqrt" then
        expect .leftParen .openingParen >>= fun _ => parenthesised >>= fun e => Pure.pure (.root e)
      else if t.kind = .leftParen then parenthesised
      else ofExcept (.error (unexpected .number stop (t :: ts)))) stop ts := by
  rw [operand, cutOperand.eq_def]
  dsimp only
  by_cases hnumber : t.kind = .integer ∨ t.kind = .float
  · rw [if_pos hnumber, if_pos hnumber, bind_apply, ofExcept_apply]
    cases Literal.toFloat t.literal t.location <;> rfl
  rw [if_neg hnumber, if_neg hnumber]
  by_cases hinfinity : t.kind = .identifier ∧ t.literal = "inf"
  · rw [if_pos hinfinity, if_pos hinfinity]
    rfl
  rw [if_neg hinfinity, if_neg hinfinity]
  by_cases hroot : t.kind = .identifier ∧ t.literal = "sqrt"
  · rw [if_pos hroot, if_pos hroot, bind_apply]
    cases ts with
    | nil => rfl
    | cons u ts =>
        by_cases hopening : u.kind = .leftParen
        · have htake : expect .leftParen .openingParen stop (u :: ts) = .ok (u, ts) :=
            take_cons (by simpa using hopening) _ _ _
          rw [htake]
          show _ = (parenthesised >>= fun e => Pure.pure (Expr.root e)) stop ts
          rw [bind_apply, parenthesised]
          dsimp only
          rw [if_pos hopening]
          cases cutParenthesised stop ts <;> rfl
        · simp only [expect, take, hopening, if_false, decide_false]
          rfl
  rw [if_neg hroot, if_neg hroot]
  by_cases hopening : t.kind = .leftParen
  · rw [if_pos hopening, if_pos hopening, parenthesised]
    cases cutParenthesised stop ts <;> rfl
  · rw [if_neg hopening, if_neg hopening]
    rfl

/-! ### Trees are read -/

/-- The operators that go on with a product or bind tighter. -/
def factorKinds : List TokenKind := [.caret, .star, .slash]

/-- All operators. -/
def termKinds : List TokenKind := [.caret, .star, .slash, .plus, .minus]

/-- A sum that is read up to its closing parenthesis has no further terms there. -/
theorem run_parenthesised {stop : Location} {s : SumTree} {closing : Word .rightParen}
    {rest : List Token} (h : sum stop (s.tokens ++ closing.1 :: rest) =
      moreTerms s.expr stop (closing.1 :: rest)) :
    parenthesised stop (s.tokens ++ closing.1 :: rest) = .ok (s.expr, rest) := by
  have hclosing : NotAhead [.plus, .minus] (closing.1 :: rest) := by simp [kind_word closing]
  rw [moreTerms_of_notAhead hclosing] at h
  rw [parenthesised_eq, bind_of_ok h, bind_of_ok (expect_word closing _ stop rest)]
  rfl

theorem additive?_operator (operator : Terminal fun t => t.kind = .plus || t.kind = .minus) :
    additive? operator.1.kind = some (additive operator.1) ∧ operator.1.kind ∉ factorKinds := by
  have hkind : operator.1.kind = .plus ∨ operator.1.kind = .minus := by
    simpa using operator.2.1
  rcases hkind with h | h <;> simp [additive?, additive, factorKinds, h]

theorem multiplicative?_operator
    (operator : Terminal fun t => t.kind = .star || t.kind = .slash) :
    multiplicative? operator.1.kind = some (multiplicative operator.1) ∧
      operator.1.kind ∉ [TokenKind.caret] := by
  have hkind : operator.1.kind = .star ∨ operator.1.kind = .slash := by
    simpa using operator.2.1
  rcases hkind with h | h <;> simp [multiplicative?, multiplicative, h]

/-- An operand starts with no sign. -/
theorem notAhead_minus_operand (o : OperandTree) (rest : List Token) :
    NotAhead [.minus] (o.tokens ++ rest) := by
  cases o with
  | number literal =>
      have hkind : literal.1.kind = .integer ∨ literal.1.kind = .float := by
        simpa using literal.2.1
      rcases hkind with h | h <;> simp [OperandTree.tokens, h]
  | infinity word =>
      simp [OperandTree.tokens, (kind_key word).1]
  | root word opening inner closing =>
      simp [OperandTree.tokens, (kind_key word).1]
  | grouped opening inner closing =>
      simp [OperandTree.tokens, kind_word opening]

theorem toFloat_literal (literal : Terminal fun t => t.kind = .integer || t.kind = .float) :
    Literal.toFloat literal.1.literal literal.1.location = .ok (floatOf literal) := by
  have hread : Decimal.readFloat? literal.1.literal.toList = some (floatOf literal) :=
    (Option.some_get _).symm
  rw [Literal.toFloat, hread]

-- The induction is on the tree.  A sum or product gives its left operand away to the loop for the
-- operators behind it, so it is only said to be read up to where that loop goes on.
mutual

/-- In front of what goes on with it, a sum is the left operand. -/
theorem run_sum (stop : Location) (s : SumTree) {rest : List Token}
    (h : NotAhead factorKinds rest) :
    sum stop (s.tokens ++ rest) = moreTerms s.expr stop rest := by
  cases s with
  | product only =>
      have honly : product stop (only.tokens ++ rest) = .ok (only.expr, rest) :=
        (run_product stop only (h.mono (by simp [factorKinds]))).trans
          (moreFactors_of_notAhead (h.mono (by simp [factorKinds])) _ _)
      rw [SumTree.tokens, sum_eq, bind_of_ok honly, SumTree.expr]
  | more left operator right =>
      obtain ⟨hoperator, hahead⟩ := additive?_operator operator
      have hleft : sum stop (left.tokens ++ operator.1 :: (right.tokens ++ rest)) =
          moreTerms left.expr stop (operator.1 :: (right.tokens ++ rest)) :=
        run_sum stop left (notAhead_cons.mpr hahead)
      have hright : product stop (right.tokens ++ rest) = .ok (right.expr, rest) :=
        (run_product stop right (h.mono (by simp [factorKinds]))).trans
          (moreFactors_of_notAhead (h.mono (by simp [factorKinds])) _ _)
      rw [SumTree.tokens, List.append_assoc, List.cons_append, hleft, moreTerms_cons hoperator,
        bind_of_ok hright, SumTree.expr]

theorem run_product (stop : Location) (p : ProductTree) {rest : List Token}
    (h : NotAhead [.caret] rest) :
    product stop (p.tokens ++ rest) = moreFactors p.expr stop rest := by
  cases p with
  | unary only =>
      rw [ProductTree.tokens, product_eq, bind_of_ok (run_unary stop only h), ProductTree.expr]
  | more left operator right =>
      obtain ⟨hoperator, hahead⟩ := multiplicative?_operator operator
      have hleft : product stop (left.tokens ++ operator.1 :: (right.tokens ++ rest)) =
          moreFactors left.expr stop (operator.1 :: (right.tokens ++ rest)) :=
        run_product stop left (notAhead_cons.mpr hahead)
      rw [ProductTree.tokens, List.append_assoc, List.cons_append, hleft,
        moreFactors_cons hoperator, bind_of_ok (run_unary stop right h), ProductTree.expr]

theorem run_unary (stop : Location) (u : UnaryTree) {rest : List Token}
    (h : NotAhead [.caret] rest) :
    unary stop (u.tokens ++ rest) = .ok (u.expr, rest) := by
  cases u with
  | negated sign operand =>
      rw [UnaryTree.tokens, List.cons_append, unary_cons_minus (kind_word sign),
        bind_of_ok (run_unary stop operand h), UnaryTree.expr]
      rfl
  | operand only =>
      rw [UnaryTree.tokens, unary_of_notAhead (notAhead_minus_operand only rest), power_eq,
        bind_of_ok (run_operand stop only rest), bind_of_ok (accept_of_notAhead h stop),
        UnaryTree.expr]
      rfl
  | power base caret exponent =>
      rw [UnaryTree.tokens, List.append_assoc, List.cons_append,
        unary_of_notAhead (notAhead_minus_operand base _), power_eq,
        bind_of_ok (run_operand stop base _), bind_of_ok (accept_cons (kind_word caret) stop _),
        UnaryTree.expr]
      show (unary >>= fun exponent => Pure.pure (Expr.binary .power base.expr exponent)) stop
        (exponent.tokens ++ rest) = _
      rw [bind_of_ok (run_unary stop exponent h)]
      rfl

theorem run_operand (stop : Location) (o : OperandTree) (rest : List Token) :
    operand stop (o.tokens ++ rest) = .ok (o.expr, rest) := by
  cases o with
  | number literal =>
      have hkind : literal.1.kind = .integer ∨ literal.1.kind = .float := by
        simpa using literal.2.1
      rw [OperandTree.tokens, List.singleton_append, operand_cons, if_pos hkind, toFloat_literal]
      rfl
  | infinity word =>
      have hword := kind_key word
      rw [OperandTree.tokens, List.singleton_append, operand_cons, if_neg (by simp [hword.1]),
        if_pos hword]
      rfl
  | root word opening inner closing =>
      have hword := kind_key word
      have hinner := run_parenthesised
        (run_sum stop inner (show NotAhead factorKinds (closing.1 :: rest) by
          simp [factorKinds, kind_word closing]))
      rw [OperandTree.tokens, List.cons_append, List.cons_append, List.append_assoc,
        List.singleton_append, operand_cons, if_neg (by simp [hword.1]), if_neg (by simp [hword.2]),
        if_pos hword, bind_of_ok (expect_word opening _ stop _), bind_of_ok hinner,
        OperandTree.expr]
      rfl
  | grouped opening inner closing =>
      have hopening := kind_word opening
      have hinner := run_parenthesised
        (run_sum stop inner (show NotAhead factorKinds (closing.1 :: rest) by
          simp [factorKinds, kind_word closing]))
      rw [OperandTree.tokens, List.cons_append, List.append_assoc, List.singleton_append,
        operand_cons, if_neg (by simp [hopening]), if_neg (by simp [hopening]),
        if_neg (by simp [hopening]), if_pos hopening, hinner, OperandTree.expr]

end

/-! ### What is read are trees -/

/-- A loop for operators makes, of the tree it has, a tree over all tokens it takes: it stops in
front of other tokens and joins what it has and what it reads by an operator. -/
theorem covers_loop {σ τ : Type} {loop : Expr → TokenReader Expr} {item : TokenReader Expr}
    {operators : List TokenKind} {stop : Location} {n : Nat}
    (tokens : σ → List Token) (itemTokens : τ → List Token)
    (hstop : ∀ {left : Expr} {ts : List Token}, NotAhead operators ts →
      loop left stop ts = .ok (left, ts))
    (hmore : ∀ {left : Expr} {t : Token} {ts : List Token}, t.kind ∈ operators →
      ∃ op, loop left stop (t :: ts) =
        (item >>= fun right => loop (.binary op left right)) stop ts)
    (hitem : ∀ {ts rest : List Token} {e : Expr}, ts.length ≤ n → (∀ t ∈ ts, t.HasShape) →
      item stop ts = .ok (e, rest) → ∃ x, ts = itemTokens x ++ rest)
    (hjoin : ∀ (y : σ) {t : Token} (x : τ), t.kind ∈ operators → t.HasShape →
      ∃ z, tokens z = tokens y ++ t :: itemTokens x)
    {ts rest : List Token} {left e : Expr} (y : σ) (hn : ts.length ≤ n)
    (hts : ∀ t ∈ ts, t.HasShape) (h : loop left stop ts = .ok (e, rest)) :
    ∃ z, tokens y ++ ts = tokens z ++ rest := by
  induction hlength : ts.length using Nat.strongRecOn generalizing ts rest left e y with
  | ind m ih =>
  subst hlength
  by_cases hahead : NotAhead operators ts
  · rw [hstop hahead] at h
    cases h
    exact ⟨y, rfl⟩
  · obtain ⟨t, ts, hkind, rfl⟩ := exists_cons_of_ahead hahead
    obtain ⟨op, hloop⟩ := hmore hkind
    rw [hloop] at h
    obtain ⟨ht, hts⟩ := List.forall_mem_cons.mp hts
    obtain ⟨right, mid, hrun, hagain⟩ := bind_eq_ok h
    obtain ⟨x, rfl⟩ := hitem (Nat.le_of_lt hn) hts hrun
    have hshorter : mid.length < (t :: (itemTokens x ++ mid)).length := by
      simp only [List.length_append, List.length_cons]
      omega
    obtain ⟨joined, hjoined⟩ := hjoin y x hkind ht
    obtain ⟨z, hz⟩ := ih _ hshorter joined (Nat.le_trans (Nat.le_of_lt hshorter) hn)
      (List.forall_mem_append.mp hts).2 hagain rfl
    exact ⟨z, by rw [← hz, hjoined, List.append_assoc, List.cons_append]⟩

section Covers

-- Below a sum stand sums again, of fewer tokens; the rules in between may count on those.
variable {stop : Location} {n : Nat}
  (hsum : ∀ {ts rest : List Token} {e : Expr}, ts.length < n → (∀ t ∈ ts, t.HasShape) →
    sum stop ts = .ok (e, rest) → ∃ s : SumTree, ts = s.tokens ++ rest)

include hsum

theorem covers_parenthesised {ts rest : List Token} {e : Expr} (hn : ts.length < n)
    (hts : ∀ t ∈ ts, t.HasShape) (h : parenthesised stop ts = .ok (e, rest)) :
    ∃ (s : SumTree) (closing : Word .rightParen), ts = s.tokens ++ closing.1 :: rest := by
  rw [parenthesised_eq] at h
  obtain ⟨e', mid, hinner, hclosing⟩ := bind_eq_ok h
  obtain ⟨s, rfl⟩ := hsum hn hts hinner
  obtain ⟨closing, mid, rfl, -, hrest⟩ := split_take (List.forall_mem_append.mp hts).2 hclosing
  cases hrest
  exact ⟨s, closing, rfl⟩

theorem covers_operand {ts rest : List Token} {e : Expr} (hn : ts.length ≤ n)
    (hts : ∀ t ∈ ts, t.HasShape) (h : operand stop ts = .ok (e, rest)) :
    ∃ o : OperandTree, ts = o.tokens ++ rest := by
  cases ts with
  | nil =>
      rw [operand, cutOperand] at h
      cases h
  | cons t ts =>
      obtain ⟨ht, hts⟩ := List.forall_mem_cons.mp hts
      rw [operand_cons] at h
      by_cases hnumber : t.kind = .integer ∨ t.kind = .float
      · rw [if_pos hnumber] at h
        obtain ⟨x, mid, hfloat, hrest⟩ := bind_eq_ok h
        cases hrest
        obtain ⟨-, rfl⟩ := of_ofExcept hfloat
        exact ⟨.number ⟨t, by simpa using hnumber, ht⟩, rfl⟩
      rw [if_neg hnumber] at h
      by_cases hinfinity : t.kind = .identifier ∧ t.literal = "inf"
      · rw [if_pos hinfinity] at h
        cases h
        exact ⟨.infinity ⟨t, by simpa using hinfinity, ht⟩, rfl⟩
      rw [if_neg hinfinity] at h
      by_cases hroot : t.kind = .identifier ∧ t.literal = "sqrt"
      · rw [if_pos hroot] at h
        obtain ⟨opening, mid, rfl, hmid, h⟩ := split_take hts h
        obtain ⟨e', last, hinner, hrest⟩ := bind_eq_ok h
        cases hrest
        have hshorter : mid.length < n := by
          have hlength : mid.length + 1 + 1 ≤ n := hn
          omega
        obtain ⟨s, closing, rfl⟩ := covers_parenthesised hsum hshorter hmid hinner
        exact ⟨.root ⟨t, by simpa using hroot, ht⟩ opening s closing, by
          simp [OperandTree.tokens]⟩
      rw [if_neg hroot] at h
      by_cases hopening : t.kind = .leftParen
      · rw [if_pos hopening] at h
        obtain ⟨s, closing, rfl⟩ := covers_parenthesised hsum hn hts h
        exact ⟨.grouped ⟨t, by simpa using hopening, ht⟩ s closing, by simp [OperandTree.tokens]⟩
      · rw [if_neg hopening] at h
        cases h

theorem covers_unary {ts rest : List Token} {e : Expr} (hn : ts.length ≤ n)
    (hts : ∀ t ∈ ts, t.HasShape) (h : unary stop ts = .ok (e, rest)) :
    ∃ u : UnaryTree, ts = u.tokens ++ rest := by
  induction hlength : ts.length using Nat.strongRecOn generalizing ts rest e with
  | ind m ih =>
  subst hlength
  by_cases hminus : NotAhead [.minus] ts
  · rw [unary_of_notAhead hminus, power_eq] at h
    obtain ⟨base, mid, hbase, hmore⟩ := bind_eq_ok h
    obtain ⟨o, rfl⟩ := covers_operand hsum hn hts hbase
    have hmid := (List.forall_mem_append.mp hts).2
    obtain ⟨raised, last, hcaret, hexponent⟩ := bind_eq_ok hmore
    obtain ⟨rfl, t, hkind, rfl⟩ | ⟨rfl, rfl⟩ := of_accept hcaret
    · obtain ⟨ht, hlast⟩ := List.forall_mem_cons.mp hmid
      obtain ⟨exponent, behind, hrun, hrest⟩ := bind_eq_ok hexponent
      cases hrest
      have hshorter : last.length < (o.tokens ++ t :: last).length := by
        simp only [List.length_append, List.length_cons]
        omega
      obtain ⟨u, rfl⟩ := ih _ hshorter (Nat.le_trans (Nat.le_of_lt hshorter) hn) hlast hrun rfl
      exact ⟨.power o ⟨t, by simpa using hkind, ht⟩ u, by simp [UnaryTree.tokens]⟩
    · cases hexponent
      exact ⟨.operand o, rfl⟩
  · obtain ⟨t, ts, hkind, rfl⟩ := exists_cons_of_ahead hminus
    rw [List.mem_singleton] at hkind
    rw [unary_cons_minus hkind] at h
    obtain ⟨ht, hts⟩ := List.forall_mem_cons.mp hts
    obtain ⟨operand, mid, hrun, hrest⟩ := bind_eq_ok h
    cases hrest
    obtain ⟨u, rfl⟩ := ih _ (Nat.lt_succ_self _) (Nat.le_of_lt hn) hts hrun rfl
    exact ⟨.negated ⟨t, by simpa using hkind, ht⟩ u, rfl⟩

theorem covers_product {ts rest : List Token} {e : Expr} (hn : ts.length ≤ n)
    (hts : ∀ t ∈ ts, t.HasShape) (h : product stop ts = .ok (e, rest)) :
    ∃ p : ProductTree, ts = p.tokens ++ rest := by
  rw [product_eq] at h
  obtain ⟨left, mid, hfirst, hmore⟩ := bind_eq_ok h
  obtain ⟨u, rfl⟩ := covers_unary hsum hn hts hfirst
  have hmid : mid.length ≤ n := by
    rw [List.length_append] at hn
    omega
  have hjoin (p : ProductTree) {t : Token} (u : UnaryTree)
      (hkind : t.kind ∈ [TokenKind.star, .slash]) (ht : t.HasShape) :
      ∃ q : ProductTree, q.tokens = p.tokens ++ t :: u.tokens :=
    ⟨.more p ⟨t, by simpa using hkind, ht⟩ u, rfl⟩
  exact covers_loop ProductTree.tokens UnaryTree.tokens
    (fun h => moreFactors_of_notAhead h _ _) exists_moreFactors (covers_unary hsum) hjoin (.unary u)
    hmid (List.forall_mem_append.mp hts).2 hmore

end Covers

/-- What is read as a sum is a sum.  Sums stand in sums only between parentheses, so the induction
is on the number of tokens. -/
theorem covers_sum {stop : Location} {ts rest : List Token} {e : Expr}
    (hts : ∀ t ∈ ts, t.HasShape) (h : sum stop ts = .ok (e, rest)) :
    ∃ s : SumTree, ts = s.tokens ++ rest := by
  induction hlength : ts.length using Nat.strongRecOn generalizing ts rest e with
  | ind n ih =>
  subst hlength
  have hsum {us last : List Token} {e : Expr} (hn : us.length < ts.length)
      (hus : ∀ t ∈ us, t.HasShape) (hrun : sum stop us = .ok (e, last)) :
      ∃ s : SumTree, us = s.tokens ++ last :=
    ih _ hn hus hrun rfl
  rw [sum_eq] at h
  obtain ⟨left, mid, hfirst, hmore⟩ := bind_eq_ok h
  obtain ⟨p, hp⟩ := covers_product hsum (Nat.le_refl _) hts hfirst
  have hmid : mid.length ≤ ts.length := by
    rw [hp, List.length_append]
    omega
  have hjoin (s : SumTree) {t : Token} (p : ProductTree)
      (hkind : t.kind ∈ [TokenKind.plus, .minus]) (ht : t.HasShape) :
      ∃ r : SumTree, r.tokens = s.tokens ++ t :: p.tokens :=
    ⟨.more s ⟨t, by simpa using hkind, ht⟩ p, rfl⟩
  obtain ⟨s, hs⟩ := covers_loop SumTree.tokens ProductTree.tokens
    (fun h => moreTerms_of_notAhead h _ _) exists_moreTerms (covers_product hsum) hjoin (.product p)
    hmid (List.forall_mem_append.mp (hp ▸ hts)).2 hmore
  exact ⟨s, by rw [hp, ← hs, SumTree.tokens]⟩

/-- Sums are read up to what no operator goes on with. -/
theorem reads_sum : Reads sum Grammar.sum termKinds where
  run stop s rest hrest := by
    have hrun : sum stop (s.tokens ++ rest) = .ok (s.expr, rest) :=
      (run_sum stop s (hrest.mono (by simp [factorKinds, termKinds]))).trans
        (moreTerms_of_notAhead (hrest.mono (by simp [termKinds])) _ _)
    show SucceedsIff (sum stop (s.tokens ++ rest)) True (s.expr, rest)
    rw [hrun]
    exact .pure _
  covers := covers_sum

/-- A constant is a sum whose value is a number. -/
theorem reads_constant : Reads constant Grammar.constant termKinds where
  run stop s rest hrest := by
    have hvalue (place : Location) : SucceedsIff
        ((if s.expr.value.isNaN then ofExcept (.error (.notANumber place))
          else Pure.pure s.expr.value : TokenReader Float) stop rest)
        (s.expr.value.isNaN = false) (s.expr.value, rest) := by
      cases hnan : s.expr.value.isNaN with
      | true => exact .error (by simp)
      | false => exact (SucceedsIff.pure _).congr (by simp) fun _ => rfl
    rw [constant, bind_of_ok (here_apply stop _)]
    exact ((reads_sum.run stop s hrest).read_bind fun _ => hvalue _).congr
      ⟨fun h => h.2, fun h => ⟨trivial, h⟩⟩ fun _ => rfl
  covers hts h := by
    obtain ⟨place, _, hplace, hsum⟩ := bind_eq_ok h
    cases hplace
    obtain ⟨s, mid, e, rfl, -, hvalue⟩ := reads_sum.split hts hsum
    split at hvalue
    · cases hvalue
    · cases hvalue
      exact ⟨s, rfl⟩

end SchemaLang.Expr
