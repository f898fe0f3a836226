import SchemaLang.Proofs.Grammar

/-!
# Readers that follow a rule

A reader reads a rule of the grammar if it takes exactly the tokens of a tree of the rule, succeeds
if the tree is admissible and gives what the tree means.  Where a rule ends, a reader decides by
the next token, so that a tree is read off only in front of tokens that cannot continue it.
-/

namespace SchemaLang

open Grammar

/-- No token of the given kinds comes next. -/
def NotAhead (kinds : List TokenKind) (ts : List Token) : Prop :=
  ∀ t ∈ ts.head?, t.kind ∉ kinds

@[simp] theorem notAhead_nil (kinds : List TokenKind) : NotAhead kinds [] := by
  simp [NotAhead]

@[simp] theorem notAhead_none (ts : List Token) : NotAhead [] ts := by
  simp [NotAhead]

@[simp] theorem notAhead_cons {kinds : List TokenKind} {t : Token} {ts : List Token} :
    NotAhead kinds (t :: ts) ↔ t.kind ∉ kinds := by
  simp [NotAhead]

theorem NotAhead.mono {kinds others : List TokenKind} {ts : List Token} (h : NotAhead others ts)
    (hsub : kinds ⊆ others) : NotAhead kinds ts :=
  fun t ht hmem => h t ht (hsub hmem)

theorem exists_cons_of_ahead {kinds : List TokenKind} {ts : List Token} (h : ¬ NotAhead kinds ts) :
    ∃ t rest, t.kind ∈ kinds ∧ ts = t :: rest := by
  cases ts with
  | nil => exact absurd (notAhead_nil kinds) h
  | cons t ts => exact ⟨t, ts, by simpa using h, rfl⟩

namespace TokenReader

variable {α β : Type}

/-- The second of two readers in sequence starts where the first has stopped. -/
theorem bind_apply (p : TokenReader α) (f : α → TokenReader β) (stop : Location)
    (ts : List Token) : (p >>= f) stop ts = p stop ts >>= fun x => f x.1 stop x.2 := by
  simp only [Bind.bind]
  cases p stop ts <;> rfl

theorem bind_of_ok {p : TokenReader α} {f : α → TokenReader β} {stop : Location}
    {ts mid : List Token} {a : α} (h : p stop ts = .ok (a, mid)) :
    (p >>= f) stop ts = f a stop mid := by
  rw [bind_apply, h]
  rfl

/-- An item, and what a loop reads behind it. -/
theorem bind_cons_apply (item : TokenReader α) (loop : TokenReader (List α)) (stop : Location)
    (ts : List Token) :
    (item >>= fun a => loop >>= fun as => Pure.pure (a :: as)) stop ts =
      match item stop ts with
      | .error e => .error e
      | .ok (a, mid) =>
          match loop stop mid with
          | .error e => .error e
          | .ok (as, rest) => .ok (a :: as, rest) := by
  rw [bind_apply]
  cases item stop ts with
  | error e => rfl
  | ok x =>
      obtain ⟨a, mid⟩ := x
      show (loop >>= fun as => Pure.pure (a :: as)) stop mid = match loop stop mid with
        | .error e => .error e
        | .ok (as, rest) => .ok (a :: as, rest)
      rw [bind_apply]
      cases loop stop mid <;> rfl

theorem here_apply (stop : Location) (ts : List Token) :
    here stop ts = .ok (placeOf stop ts, ts) := rfl

theorem ofExcept_apply (outcome : Except SyntaxError α) (stop : Location) (ts : List Token) :
    ofExcept outcome stop ts = outcome >>= fun a => Pure.pure (a, ts) := by
  cases outcome <;> rfl

end TokenReader

namespace SucceedsIff

variable {α β : Type} {stop : Location} {ts mid rest : List Token}

/-- Two readers in sequence succeed if the second does where the first has stopped. -/
theorem read_bind {p : TokenReader α} {f : α → TokenReader β} {P Q : Prop} {a : α} {b : β}
    (hp : SucceedsIff (p stop ts) P (a, mid))
    (hf : P → SucceedsIff (f a stop mid) Q (b, rest)) :
    SucceedsIff ((p >>= f) stop ts) (P ∧ Q) (b, rest) := by
  rw [TokenReader.bind_apply]
  exact hp.bind hf

theorem read_pure (a : α) : SucceedsIff ((Pure.pure a : TokenReader α) stop ts) True (a, ts) :=
  SucceedsIff.pure (a, ts)

theorem read_map {p : TokenReader α} {P : Prop} {a : α}
    (hp : SucceedsIff (p stop ts) P (a, rest)) (f : α → β) :
    SucceedsIff ((p >>= fun x => Pure.pure (f x)) stop ts) P (f a, rest) :=
  (hp.read_bind fun _ => read_pure (f a)).congr (by rw [and_true]) fun _ => rfl

/-- Behind a reader that is known to succeed. -/
theorem read_after {p : TokenReader α} {f : α → TokenReader β} {Q : Prop} {a : α} {b : β}
    (hp : p stop ts = .ok (a, mid)) (hf : SucceedsIff (f a stop mid) Q (b, rest)) :
    SucceedsIff ((p >>= f) stop ts) Q (b, rest) := by
  rwa [TokenReader.bind_of_ok hp]

/-- A checked construction takes nothing. -/
theorem read_ofExcept {outcome : Except SyntaxError α} {P : Prop} {a : α}
    (h : SucceedsIff outcome P a) :
    SucceedsIff (TokenReader.ofExcept outcome stop ts) P (a, ts) := by
  rw [TokenReader.ofExcept_apply]
  exact h.map fun a => (a, ts)

end SucceedsIff

namespace TokenReader

variable {α β σ τ : Type}

/-- The reader follows the rule, as far as no token of the given kinds comes next. -/
structure Reads (p : TokenReader α) (r : Rule τ α) (continuing : List TokenKind) : Prop where
  /-- A tree is read if it is admissible, whatever stands behind it. -/
  run : ∀ (stop : Location) (x : τ) {rest : List Token}, NotAhead continuing rest →
    SucceedsIff (p stop (r.tokens x ++ rest)) (r.Admissible x) (r.meaning x, rest)
  /-- What is taken are the tokens of a tree. -/
  covers : ∀ {stop : Location} {ts rest : List Token} {a : α}, (∀ t ∈ ts, t.HasShape) →
    p stop ts = .ok (a, rest) → ∃ x, ts = r.tokens x ++ rest

namespace Reads

variable {p : TokenReader α} {r : Rule τ α} {continuing : List TokenKind}

/-- A sequence of readers splits its tokens into a tree of the first and what the second gets. -/
theorem split (hp : Reads p r continuing) {f : α → TokenReader β} {stop : Location}
    {ts rest : List Token} {b : β} (hts : ∀ t ∈ ts, t.HasShape)
    (h : (p >>= f) stop ts = .ok (b, rest)) :
    ∃ x mid a, ts = r.tokens x ++ mid ∧ (∀ t ∈ mid, t.HasShape) ∧
      f a stop mid = .ok (b, rest) := by
  obtain ⟨a, mid, hrun, hnext⟩ := bind_eq_ok h
  obtain ⟨x, rfl⟩ := hp.covers hts hrun
  exact ⟨x, mid, a, rfl, (List.forall_mem_append.mp hts).2, hnext⟩

theorem map (hp : Reads p r continuing) (f : α → β) :
    Reads (p >>= fun a => Pure.pure (f a)) (r.map f) continuing where
  run stop x _ hrest := (hp.run stop x hrest).read_map f
  covers hts h := by
    obtain ⟨x, mid, a, rfl, -, hnext⟩ := hp.split hts h
    cases hnext
    exact ⟨x, rfl⟩

end Reads

/-- A wanted token is taken. -/
theorem take_cons {wanted : Token → Bool} {t : Token} (h : wanted t) (expected : Expectation)
    (stop : Location) (ts : List Token) : take wanted expected stop (t :: ts) = .ok (t, ts) := by
  simp [take, h]

theorem eq_cons_of_take {wanted : Token → Bool} {expected : Expectation} {stop : Location}
    {ts rest : List Token} {t : Token} (h : take wanted expected stop ts = .ok (t, rest)) :
    wanted t ∧ ts = t :: rest := by
  cases ts with
  | nil => cases h
  | cons u ts =>
      by_cases hu : wanted u
      · rw [take_cons hu] at h
        cases h
        exact ⟨hu, rfl⟩
      · simp [take, hu] at h

theorem reads_take (wanted : Token → Bool) (expected : Expectation) :
    Reads (take wanted expected) (Rule.terminal wanted) [] where
  run stop x rest _ := by
    rw [show (Rule.terminal wanted).tokens x ++ rest = x.1 :: rest from rfl, take_cons x.2.1]
    exact SucceedsIff.pure _
  covers hts h := by
    obtain ⟨hwanted, rfl⟩ := eq_cons_of_take h
    exact ⟨⟨_, hwanted, hts _ List.mem_cons_self⟩, rfl⟩

theorem of_ofExcept {outcome : Except SyntaxError α} {stop : Location} {ts rest : List Token}
    {a : α} (h : ofExcept outcome stop ts = .ok (a, rest)) : outcome = .ok a ∧ ts = rest := by
  cases outcome with
  | error e => cases h
  | ok b =>
      cases h
      exact ⟨rfl, rfl⟩

/-- A sequence that starts with a token takes a wanted one. -/
theorem split_take {wanted : Token → Bool} {expected : Expectation} {f : Token → TokenReader β}
    {stop : Location} {ts rest : List Token} {b : β} (hts : ∀ t ∈ ts, t.HasShape)
    (h : (take wanted expected >>= f) stop ts = .ok (b, rest)) :
    ∃ (t : Terminal wanted) (mid : List Token), ts = t.1 :: mid ∧ (∀ t ∈ mid, t.HasShape) ∧
      f t.1 stop mid = .ok (b, rest) := by
  obtain ⟨t, mid, htake, hnext⟩ := bind_eq_ok h
  obtain ⟨hwanted, rfl⟩ := eq_cons_of_take htake
  obtain ⟨ht, hmid⟩ := List.forall_mem_cons.mp hts
  exact ⟨⟨t, hwanted, ht⟩, mid, rfl, hmid, hnext⟩

/-- What is read behind a token that only introduces it. -/
theorem Reads.behind {p : TokenReader α} {r : Rule τ α} {continuing : List TokenKind}
    (hp : Reads p r continuing) (kind : TokenKind) (expected : Expectation) :
    Reads (expect kind expected >>= fun _ => p) (r.behind kind) continuing where
  run stop x rest hrest :=
    .read_after (take_cons x.1.2.1 expected stop (r.tokens x.2 ++ rest)) (hp.run stop x.2 hrest)
  covers hts h := by
    obtain ⟨t, mid, rfl, hmid, hnext⟩ := split_take hts h
    obtain ⟨x, rfl⟩ := hp.covers hmid hnext
    exact ⟨(t, x), rfl⟩

theorem expect_word {kind : TokenKind} (t : Word kind) (expected : Expectation) (stop : Location)
    (ts : List Token) : expect kind expected stop (t.1 :: ts) = .ok (t.1, ts) :=
  take_cons t.2.1 _ _ _

/-! ### Optional tokens -/

theorem accept_cons {kind : TokenKind} {t : Token} (h : t.kind = kind) (stop : Location)
    (ts : List Token) : accept kind stop (t :: ts) = .ok (true, ts) := by
  simp [accept, h]

theorem accept_of_notAhead {kind : TokenKind} {ts : List Token} (h : NotAhead [kind] ts)
    (stop : Location) : accept kind stop ts = .ok (false, ts) := by
  cases ts with
  | nil => rfl
  | cons t ts =>
      have hkind : t.kind ≠ kind := by simpa using h
      simp [accept, hkind]

/-- What a question for an optional token was answered by. -/
theorem of_accept {kind : TokenKind} {stop : Location} {ts rest : List Token} {found : Bool}
    (h : accept kind stop ts = .ok (found, rest)) :
    (found = true ∧ ∃ t, t.kind = kind ∧ ts = t :: rest) ∨ (found = false ∧ ts = rest) := by
  cases ts with
  | nil =>
      cases h
      exact .inr ⟨rfl, rfl⟩
  | cons t ts =>
      by_cases hkind : t.kind = kind
      · rw [accept_cons hkind] at h
        cases h
        exact .inl ⟨rfl, t, hkind, rfl⟩
      · rw [accept_of_notAhead (by simpa using hkind)] at h
        cases h
        exact .inr ⟨rfl, rfl⟩

/-! ### Loops -/

/-- A repetition stops where neither its separator nor a continued item comes next. -/
theorem notAhead_many_behind {separator : TokenKind} {continuing : List TokenKind}
    (hsep : separator ∉ continuing) (r : Rule τ α) (l : List (Word separator × τ))
    {rest : List Token} (hrest : NotAhead continuing rest) :
    NotAhead continuing ((r.behind separator).many.tokens l ++ rest) := by
  cases l with
  | nil => exact hrest
  | cons x l =>
      have hkind := kind_word x.1
      show NotAhead continuing (x.1.1 :: _)
      rwa [notAhead_cons, hkind]

theorem manyAfter_of_notAhead {separator : TokenKind} {p : TokenReader α} {hkeeps : Keeps p}
    {stop : Location} {ts : List Token} (h : NotAhead [separator] ts) :
    manyAfter separator p hkeeps stop ts = .ok ([], ts) := by
  cases ts with
  | nil => rw [manyAfter]
  | cons t ts =>
      have hkind : t.kind ≠ separator := by simpa using h
      rw [manyAfter, if_neg hkind]

/-- Behind a separator the loop is an item and the loop again. -/
theorem manyAfter_cons {separator : TokenKind} {p : TokenReader α} {hkeeps : Keeps p}
    {stop : Location} {t : Token} {ts : List Token} (h : t.kind = separator) :
    manyAfter separator p hkeeps stop (t :: ts) =
      (p >>= fun a => manyAfter separator p hkeeps >>= fun as => Pure.pure (a :: as)) stop ts := by
  rw [manyAfter, if_pos h, bind_cons_apply]
  split <;> rename_i hrun <;> exact hrun ▸ rfl

theorem reads_manyAfter {separator : TokenKind} {p : TokenReader α} {r : Rule τ α}
    {continuing : List TokenKind} (hp : Reads p r continuing) (hsep : separator ∉ continuing)
    (hkeeps : Keeps p) :
    Reads (manyAfter separator p hkeeps) (r.behind separator).many (separator :: continuing) where
  run stop l rest hrest := by
    induction l with
    | nil =>
        rw [show (r.behind separator).many.tokens [] ++ rest = rest from rfl,
          manyAfter_of_notAhead (hrest.mono (by simp))]
        exact (SucceedsIff.pure _).congr (by simp) fun _ => rfl
    | cons x l ih =>
        have hnext := notAhead_many_behind hsep r l (hrest.mono (List.subset_cons_self _ _))
        have hkind := kind_word x.1
        have htokens : (r.behind separator).many.tokens (x :: l) ++ rest =
            x.1.1 :: (r.tokens x.2 ++ ((r.behind separator).many.tokens l ++ rest)) := by
          simp
        rw [htokens, manyAfter_cons hkind]
        exact ((hp.run stop x.2 hnext).read_bind fun _ => ih.read_map _).congr
          (Rule.many_admissible_cons (r.behind separator) x l).symm fun _ => rfl
  covers {stop ts rest as} hts h := by
    fun_induction manyAfter separator p hkeeps stop ts generalizing as rest with
    | case1 => cases h; exact ⟨[], rfl⟩
    | case2 => cases h
    | case3 => cases h
    | case4 t ts hkind a mid hrun as last hmore ih =>
        cases h
        obtain ⟨ht, hts⟩ := List.forall_mem_cons.mp hts
        obtain ⟨x, rfl⟩ := hp.covers hts hrun
        obtain ⟨l, rfl⟩ := ih (List.forall_mem_append.mp hts).2 hmore
        exact ⟨(⟨t, by simpa using hkind, ht⟩, x) :: l, by simp⟩
    | case5 => cases h; exact ⟨[], rfl⟩

/-- Every tree of the rule starts with a token of one of the kinds. -/
def StartsWith (r : Rule τ α) (first : List TokenKind) : Prop :=
  ∀ x, ∃ t ts, r.tokens x = t :: ts ∧ t.kind ∈ first

theorem StartsWith.notAhead {r : Rule τ α} {first kinds : List TokenKind}
    (h : StartsWith r first) (hdisjoint : ∀ kind ∈ kinds, kind ∉ first) (x : τ)
    (rest : List Token) : NotAhead kinds (r.tokens x ++ rest) := by
  obtain ⟨t, ts, htokens, hfirst⟩ := h x
  rw [htokens, List.cons_append, notAhead_cons]
  exact fun hmem => hdisjoint t.kind hmem hfirst

/-- In front of a token that no item starts with, the loop up to a brace is an item and the loop
again. -/
theorem untilBrace_of_notAhead {p : TokenReader α} {hadvances : Advances p} {stop : Location}
    {ts : List Token} (h : NotAhead [.rightBrace] ts) :
    untilBrace p hadvances stop ts =
      (p >>= fun a => untilBrace p hadvances >>= fun as => Pure.pure (a :: as)) stop ts := by
  rw [untilBrace, accept_of_notAhead h, bind_cons_apply]
  dsimp only
  split <;> rename_i hrun <;> exact hrun ▸ rfl

theorem untilBrace_cons {p : TokenReader α} {hadvances : Advances p} {stop : Location}
    {t : Token} {ts : List Token} (h : t.kind = .rightBrace) :
    untilBrace p hadvances stop (t :: ts) = .ok ([], ts) := by
  rw [untilBrace, accept_cons h]

theorem reads_untilBrace {p : TokenReader α} {r : Rule τ α} {continuing first : List TokenKind}
    (hp : Reads p r continuing) (hfirst : StartsWith r first)
    (hdisjoint : ∀ kind ∈ TokenKind.rightBrace :: continuing, kind ∉ first)
    (hbrace : .rightBrace ∉ continuing) (hadvances : Advances p) :
    Reads (untilBrace p hadvances) r.braced [] where
  run stop x rest hrest := by
    obtain ⟨l, closing⟩ := x
    have hclosing := kind_word closing
    induction l with
    | nil =>
        rw [show r.braced.tokens ([], closing) ++ rest = closing.1 :: rest from rfl,
          untilBrace_cons hclosing]
        exact (SucceedsIff.pure _).congr (by simp [Rule.braced]) fun _ => rfl
    | cons y l ih =>
        have htokens : r.braced.tokens (y :: l, closing) ++ rest =
            r.tokens y ++ (r.braced.tokens (l, closing) ++ rest) := by
          simp [Rule.braced]
        have hahead : NotAhead [.rightBrace] (r.braced.tokens (y :: l, closing) ++ rest) := by
          rw [htokens]
          exact hfirst.notAhead (by simpa using hdisjoint _ List.mem_cons_self) y _
        have hnext : NotAhead continuing (r.braced.tokens (l, closing) ++ rest) := by
          cases l with
          | nil => simpa [Rule.braced, hclosing] using hbrace
          | cons z l =>
              simp only [Rule.braced, Rule.many_tokens_cons, List.append_assoc]
              exact hfirst.notAhead
                (fun kind hkind => hdisjoint kind (List.mem_cons_of_mem _ hkind)) z _
        rw [untilBrace_of_notAhead hahead, htokens]
        exact ((hp.run stop y hnext).read_bind fun _ => ih.read_map _).congr
          (Rule.many_admissible_cons r y l).symm fun _ => rfl
  covers {stop ts rest as} hts h := by
    fun_induction untilBrace p hadvances stop ts generalizing as rest with
    | case1 => cases h
    | case2 ts last hbrace =>
        cases h
        obtain ⟨-, t, hkind, rfl⟩ | ⟨hfound, -⟩ := of_accept hbrace
        · exact ⟨([], ⟨t, by simpa using hkind, hts t List.mem_cons_self⟩), rfl⟩
        · cases hfound
    | case3 => cases h
    | case4 => cases h
    | case5 ts _ _ a mid hrun _ as last hmore ih =>
        cases h
        obtain ⟨y, rfl⟩ := hp.covers hts hrun
        obtain ⟨⟨l, closing⟩, rfl⟩ := ih (List.forall_mem_append.mp hts).2 hmore
        exact ⟨(y :: l, closing), by simp [Rule.braced]⟩

theorem commaSeparated_cons {p : TokenReader α} {hadvances : Advances p} {stop : Location}
    {t : Token} {ts : List Token} (h : t.kind = .rightBrace) :
    commaSeparated p hadvances stop (t :: ts) = .ok ([], ts) := by
  rw [commaSeparated, accept_cons h]

/-- In front of a token that no item starts with, a listing is an item and, behind a comma, the
listing again. -/
theorem commaSeparated_of_notAhead {p : TokenReader α} {hadvances : Advances p} {stop : Location}
    {ts : List Token} (h : NotAhead [.rightBrace] ts) :
    commaSeparated p hadvances stop ts =
      (p >>= fun a => accept .comma >>= fun comma =>
        if comma then commaSeparated p hadvances >>= fun as => Pure.pure (a :: as)
        else expect .rightBrace .commaOrClosingBrace >>= fun _ => Pure.pure [a]) stop ts := by
  rw [commaSeparated, accept_of_notAhead h, bind_apply]
  dsimp only
  split
  · rename_i e hrun
    rw [hrun]
    rfl
  · rename_i a mid hrun
    rw [hrun]
    show _ = (accept .comma >>= fun comma => _) stop mid
    rw [bind_apply]
    split
    · rename_i e haccept
      rw [haccept]
      rfl
    · rename_i behind haccept
      rw [haccept]
      show _ = (commaSeparated p hadvances >>= fun as => Pure.pure (a :: as)) stop behind
      rw [bind_apply]
      cases commaSeparated p hadvances stop behind <;> rfl
    · rename_i behind haccept
      obtain ⟨hfound, -⟩ | ⟨-, rfl⟩ := of_accept haccept
      · cases hfound
      rw [haccept]
      show _ = (expect .rightBrace .commaOrClosingBrace >>= fun _ => Pure.pure [a]) stop mid
      rw [bind_apply]
      cases expect .rightBrace .commaOrClosingBrace stop mid <;> rfl

section CommaSeparated

variable {p : TokenReader α} {r : Rule τ α} {continuing first : List TokenKind}
  (hp : Reads p r continuing) (hfirst : StartsWith r first) (hdisjoint : .rightBrace ∉ first)
  (hadvances : Advances p)

include hp hfirst hdisjoint

/-- The last item of a listing without a comma behind it. -/
theorem commaSeparated_last (hbrace : .rightBrace ∉ continuing) (stop : Location) (y : τ)
    (closing : Word .rightBrace) (rest : List Token) :
    SucceedsIff (commaSeparated p hadvances stop (r.tokens y ++ closing.1 :: rest))
      (r.Admissible y) ([r.meaning y], rest) := by
  have hclosing := kind_word closing
  rw [commaSeparated_of_notAhead (hfirst.notAhead (by simpa using hdisjoint) y _)]
  have hitem := hp.run stop y (show NotAhead continuing (closing.1 :: rest) by
    simpa [hclosing] using hbrace)
  have hnoComma : accept .comma stop (closing.1 :: rest) = .ok (false, closing.1 :: rest) :=
    accept_of_notAhead (by simp [hclosing]) stop
  have hexpect : expect .rightBrace .commaOrClosingBrace stop (closing.1 :: rest) =
      .ok (closing.1, rest) := take_cons closing.2.1 _ _ _
  have htail : SucceedsIff ((expect .rightBrace .commaOrClosingBrace >>= fun _ =>
      Pure.pure [r.meaning y]) stop (closing.1 :: rest)) True ([r.meaning y], rest) :=
    .read_after hexpect (.read_pure _)
  exact (hitem.read_bind fun _ => .read_after hnoComma htail).congr (by rw [and_true])
    fun _ => rfl

/-- An item of a listing with a comma behind it. -/
theorem commaSeparated_more (hcomma : .comma ∉ continuing) {stop : Location} (y : τ)
    (comma : Word .comma) {ts rest : List Token} {P : Prop} {as : List α}
    (hmore : SucceedsIff (commaSeparated p hadvances stop ts) P (as, rest)) :
    SucceedsIff (commaSeparated p hadvances stop (r.tokens y ++ comma.1 :: ts))
      (r.Admissible y ∧ P) (r.meaning y :: as, rest) := by
  have hkind := kind_word comma
  rw [commaSeparated_of_notAhead (hfirst.notAhead (by simpa using hdisjoint) y _)]
  have hitem := hp.run stop y (show NotAhead continuing (comma.1 :: ts) by
    simpa [hkind] using hcomma)
  refine hitem.read_bind fun _ => ?_
  exact .read_after (accept_cons hkind stop ts) (hmore.read_map _)

theorem run_commaSeparated (hbrace : .rightBrace ∉ continuing) (hcomma : .comma ∉ continuing)
    (stop : Location) (listing : Option (Listing τ)) (closing : Word .rightBrace)
    (rest : List Token) :
    SucceedsIff (commaSeparated p hadvances stop (r.listed.tokens (listing, closing) ++ rest))
      (r.listed.Admissible (listing, closing)) (r.listed.meaning (listing, closing), rest) := by
  have hnone : SucceedsIff
      (commaSeparated p hadvances stop (r.listed.tokens (none, closing) ++ rest)) True
      ([], rest) := by
    have hclosing := kind_word closing
    rw [show r.listed.tokens (none, closing) ++ rest = closing.1 :: rest from rfl,
      commaSeparated_cons hclosing]
    exact .pure _
  cases listing with
  | none => exact hnone
  | some listing =>
      obtain ⟨y, others, trailing⟩ := listing
      -- The listing grows at its front, so the induction is on the items behind the first.
      induction others generalizing y with
      | nil =>
          cases trailing with
          | none =>
              have hlast := commaSeparated_last hp hfirst hdisjoint hadvances hbrace stop y closing
                rest
              have htokens : r.listed.tokens (some ⟨y, [], none⟩, closing) ++ rest =
                  r.tokens y ++ closing.1 :: rest := by
                simp [Rule.listed, Rule.listing]
              rw [htokens]
              exact hlast.congr (by simp [Rule.listed, Rule.listing]) fun _ => rfl
          | some comma =>
              have hmore := commaSeparated_more hp hfirst hdisjoint hadvances hcomma y comma hnone
              have htokens : r.listed.tokens (some ⟨y, [], some comma⟩, closing) ++ rest =
                  r.tokens y ++ comma.1 :: (r.listed.tokens (none, closing) ++ rest) := by
                simp [Rule.listed, Rule.listing]
              rw [htokens]
              exact hmore.congr (by simp [Rule.listed, Rule.listing]) fun _ => rfl
      | cons x others ih =>
          have hmore := commaSeparated_more hp hfirst hdisjoint hadvances hcomma y x.1 (ih x.2)
          have htokens : r.listed.tokens (some ⟨y, x :: others, trailing⟩, closing) ++ rest =
              r.tokens y ++ x.1.1 ::
                (r.listed.tokens (some ⟨x.2, others, trailing⟩, closing) ++ rest) := by
            simp [Rule.listed, Rule.listing]
          rw [htokens]
          refine hmore.congr (and_congr_right fun _ => ?_) fun _ => rfl
          exact (Rule.many_admissible_cons (r.behind .comma) x others).symm

omit hfirst hdisjoint in
theorem covers_commaSeparated {stop : Location} {ts rest : List Token} {as : List α}
    (hts : ∀ t ∈ ts, t.HasShape) (h : commaSeparated p hadvances stop ts = .ok (as, rest)) :
    ∃ x, ts = r.listed.tokens x ++ rest := by
  fun_induction commaSeparated p hadvances stop ts generalizing as rest with
  | case1 => cases h
  | case2 ts last hbrace =>
      cases h
      obtain ⟨-, t, hkind, rfl⟩ | ⟨hfound, -⟩ := of_accept hbrace
      · exact ⟨(none, ⟨t, by simpa using hkind, hts t List.mem_cons_self⟩), rfl⟩
      · cases hfound
  | case3 => cases h
  | case4 => cases h
  | case5 => cases h
  | case6 ts _ _ a mid hrun behind hcomma _ as last hmore ih =>
      cases h
      obtain ⟨y, rfl⟩ := hp.covers hts hrun
      obtain ⟨-, t, hkind, rfl⟩ | ⟨hfound, -⟩ := of_accept hcomma
      · obtain ⟨ht, hbehind⟩ := List.forall_mem_cons.mp (List.forall_mem_append.mp hts).2
        obtain ⟨⟨listing, closing⟩, rfl⟩ := ih hbehind hmore
        let comma : Word .comma := ⟨t, by simpa using hkind, ht⟩
        cases listing with
        | none =>
            exact ⟨(some ⟨y, [], some comma⟩, closing), by simp [Rule.listed, Rule.listing, comma]⟩
        | some listing =>
            obtain ⟨z, others, trailing⟩ := listing
            exact ⟨(some ⟨y, (comma, z) :: others, trailing⟩, closing), by
              simp [Rule.listed, Rule.listing, comma]⟩
      · cases hfound
  | case7 => cases h
  | case8 ts _ _ a mid hrun _ hcomma b last hbrace =>
      cases h
      obtain ⟨y, rfl⟩ := hp.covers hts hrun
      obtain ⟨hkind, rfl⟩ := eq_cons_of_take hbrace
      have hb := (List.forall_mem_cons.mp (List.forall_mem_append.mp hts).2).1
      exact ⟨(some ⟨y, [], none⟩, ⟨b, hkind, hb⟩), by simp [Rule.listed, Rule.listing]⟩

theorem reads_commaSeparated (hbrace : .rightBrace ∉ continuing) (hcomma : .comma ∉ continuing) :
    Reads (commaSeparated p hadvances) r.listed [] where
  run stop x _ _ :=
    run_commaSeparated hp hfirst hdisjoint hadvances hbrace hcomma stop x.1 x.2 _
  covers := covers_commaSeparated hp hadvances

end CommaSeparated

/-! ### The end of the source -/

/-- In front of a token, the loop up to the end is an item and the loop again. -/
theorem untilEnd_of_ne_nil {p : TokenReader α} {hadvances : Advances p} {stop : Location}
    {ts : List Token} (h : ts ≠ []) :
    untilEnd p hadvances stop ts =
      (p >>= fun a => untilEnd p hadvances >>= fun as => Pure.pure (a :: as)) stop ts := by
  rw [untilEnd, if_neg (by simpa using h), bind_cons_apply]
  dsimp only
  split <;> rename_i hrun <;> exact hrun ▸ rfl

/-- Items that take up all tokens are read if each of them is admissible. -/
theorem run_untilEnd {p : TokenReader α} {r : Rule τ α} {continuing first : List TokenKind}
    (hp : Reads p r continuing) (hfirst : StartsWith r first)
    (hdisjoint : ∀ kind ∈ continuing, kind ∉ first) (hadvances : Advances p) (stop : Location)
    (l : List τ) :
    SucceedsIff (untilEnd p hadvances stop (r.many.tokens l)) (r.many.Admissible l)
      (r.many.meaning l, []) := by
  induction l with
  | nil =>
      rw [Rule.many_tokens_nil, untilEnd, if_pos (by rfl)]
      exact (SucceedsIff.pure _).congr (by simp) fun _ => rfl
  | cons x l ih =>
      have hne : r.many.tokens (x :: l) ≠ [] := by
        obtain ⟨t, ts, htokens, -⟩ := hfirst x
        simp [htokens]
      have hnext : NotAhead continuing (r.many.tokens l) := by
        cases l with
        | nil => exact notAhead_nil _
        | cons y l => exact hfirst.notAhead hdisjoint y _
      rw [untilEnd_of_ne_nil hne, Rule.many_tokens_cons]
      exact ((hp.run stop x hnext).read_bind fun _ => ih.read_map _).congr
        (Rule.many_admissible_cons r x l).symm fun _ => rfl

/-- The loop up to the end leaves nothing. -/
theorem covers_untilEnd {p : TokenReader α} {r : Rule τ α} {continuing : List TokenKind}
    (hp : Reads p r continuing) (hadvances : Advances p) {stop : Location}
    {ts rest : List Token} {as : List α} (hts : ∀ t ∈ ts, t.HasShape)
    (h : untilEnd p hadvances stop ts = .ok (as, rest)) : ∃ l, ts = r.many.tokens l := by
  fun_induction untilEnd p hadvances stop ts generalizing as rest with
  | case1 ts hempty => exact ⟨[], List.isEmpty_iff.mp hempty⟩
  | case2 => cases h
  | case3 => cases h
  | case4 ts _ a mid hrun _ as last hmore ih =>
      cases h
      obtain ⟨x, rfl⟩ := hp.covers hts hrun
      obtain ⟨l, rfl⟩ := ih (List.forall_mem_append.mp hts).2 hmore
      exact ⟨x :: l, rfl⟩

end TokenReader

end SchemaLang
