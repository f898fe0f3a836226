import SchemaLang.Proofs.ParserReaders

/-!
# Reading ends

Every routine calls others only after it has taken a token, or such that stand nearer to the
tokens.  So the number of tokens that are left and the level of the routine decrease together from
call to call, and every run of the machine ends, with what the rules of the grammar say.
-/

namespace SchemaLang

open TokenReader

namespace Parser

namespace Program

variable {α β : Type} {level n : Nat} {stop : Location} {ts : List Token}

/-- Every call comes after one of the `n` tokens has been taken, or goes below the level. -/
def Guarded (level n : Nat) (stop : Location) : Program α → List Token → Prop
  | .done _, _ => True
  | .fail _, _ => True
  | .peek next, ts => (next (.front stop ts)).Guarded level n stop ts
  | .advance next, ts => (next (.front stop ts)).Guarded level n stop ts.tail
  | .call r next, ts => (ts.length < n ∨ ts.length ≤ n ∧ r.level < level) ∧
      ∀ a rest, reader r stop ts = .ok (a, rest) → (next a).Guarded level n stop rest

/-- Once a token has been taken everything may be called. -/
theorem guarded_of_lt (p : Program α) (h : ts.length < n) : p.Guarded level n stop ts := by
  induction p generalizing ts with
  | done a => trivial
  | fail e => trivial
  | peek next ih => exact ih _ h
  | advance next ih =>
      refine ih _ (Nat.lt_of_le_of_lt ?_ h)
      simp
  | call r next ih =>
      exact ⟨.inl h, fun a rest hr => ih a (Nat.lt_of_le_of_lt (keeps_reader r hr) h)⟩

theorem Guarded.bind {p : Program α} {f : α → Program β} (hp : p.Guarded level n stop ts)
    (hf : ∀ a rest, p.denote stop ts = .ok (a, rest) → (f a).Guarded level n stop rest) :
    (p >>= f).Guarded level n stop ts := by
  show (p.bind f).Guarded level n stop ts
  induction p generalizing ts with
  | done a => exact hf a ts rfl
  | fail e => trivial
  | peek next ih => exact ih _ hp hf
  | advance next ih => exact ih _ hp hf
  | call r next ih =>
      refine ⟨hp.1, fun a rest hr => ih a (hp.2 a rest hr) fun b last hb => hf b last ?_⟩
      rw [denote_call, bind_of_ok hr]
      exact hb

/-- Behind a program that takes a token everything may be called. -/
theorem Guarded.bind_advances {p : Program α} {f : α → Program β}
    (hp : p.Guarded level n stop ts) (hadvances : Advances p.denote) (hn : ts.length ≤ n) :
    (p >>= f).Guarded level n stop ts :=
  hp.bind fun a _ h => guarded_of_lt (f a) (Nat.lt_of_lt_of_le (hadvances h) hn)

theorem Guarded.ite {c : Prop} [Decidable c] {p q : Program α} (hp : c → p.Guarded level n stop ts)
    (hq : ¬ c → q.Guarded level n stop ts) : (if c then p else q).Guarded level n stop ts := by
  split <;> rename_i h
  · exact hp h
  · exact hq h

theorem guarded_run {r : Routine} (hn : ts.length ≤ n) (hlevel : r.level < level) :
    (run r).Guarded level n stop ts :=
  ⟨.inr ⟨hn, hlevel⟩, fun _ _ _ => trivial⟩

theorem guarded_take (wanted : Slot → Bool) (expected : Expectation) :
    (take wanted expected).Guarded level n stop ts := by
  show (if wanted (.front stop ts) then move else refuse expected).Guarded level n stop ts
  split <;> trivial

theorem guarded_eat (kind : TokenKind) : (eat kind).Guarded level n stop ts := by
  show (if (Slot.front stop ts).is kind then move >>= fun _ => pure true
    else pure false : Program Bool).Guarded level n stop ts
  split <;> trivial

theorem advances_expect (kind : TokenKind) (expected : Expectation) :
    Advances (expect kind expected).denote := by
  rw [denote_expect]
  exact (TokenReader.advances_expect _ _).bind fun _ => keeps_pure _

/-- Behind a token that is wanted everything may be called. -/
theorem guarded_expect_bind (kind : TokenKind) (expected : Expectation) (f : Slot → Program α)
    (hn : ts.length ≤ n) : (expect kind expected >>= f).Guarded level n stop ts :=
  (guarded_take _ _).bind_advances (advances_expect _ _) hn

/-- Behind a token that is asked for everything may be called if it was there. -/
theorem guarded_eat_bind (kind : TokenKind) {f : Bool → Program α} (hn : ts.length ≤ n)
    (hf : (f false).Guarded level n stop ts) : (eat kind >>= f).Guarded level n stop ts := by
  refine (guarded_eat kind).bind fun found rest h => ?_
  rw [denote_eat] at h
  cases found with
  | true => exact guarded_of_lt _ (Nat.lt_of_lt_of_le (accept_eq_true h) hn)
  | false =>
      obtain ⟨hfound, -⟩ | ⟨-, rfl⟩ := of_accept h
      · cases hfound
      · exact hf

/-- Behind a token that is taken everything may be called, if there was one. -/
theorem guarded_move_bind {f : Slot → Program α} (hn : ts.length ≤ n)
    (hf : ts = [] → (f (.stop stop)).Guarded level n stop []) :
    (move >>= f).Guarded level n stop ts := by
  cases ts with
  | nil => exact hf rfl
  | cons t ts => exact guarded_of_lt (f (.token t)) hn

/-- Behind a routine that takes a token everything may be called. -/
theorem guarded_run_bind {r : Routine} {f : r.Result → Program α} (hn : ts.length ≤ n)
    (hlevel : r.level < level) (hadvances : Advances (reader r)) :
    (run r >>= f).Guarded level n stop ts :=
  (guarded_run hn hlevel).bind_advances (by rwa [denote_run]) hn

theorem guarded_placedName : placedName.Guarded level n stop ts :=
  Guarded.bind trivial fun _ _ _ => (guarded_take _ _).bind fun _ _ _ => trivial

theorem advances_placedName : Advances placedName.denote := by
  rw [denote_placedName]
  exact Field.advances_readName

theorem guarded_enumeral : enumeral.Guarded level n stop ts :=
  Guarded.bind trivial fun _ _ _ => (guarded_take _ _).bind fun _ _ _ => trivial

theorem advances_enumeral : Advances enumeral.denote := by
  rw [denote_enumeral]
  exact Enumeration.advances_readEnumeral

theorem guarded_item (hn : ts.length ≤ n) (hlevel : 11 < level) :
    item.Guarded level n stop ts := by
  have hattributes : Routine.level .attributes < level := Nat.lt_trans (by decide) hlevel
  refine (guarded_run hn hattributes).bind fun attributes rest h => ?_
  rw [denote_run] at h
  have hrest : rest.length ≤ n := Nat.le_trans (keeps_reader _ h) hn
  show (itemFrom attributes (Slot.front stop rest).kind?).Guarded level n stop rest
  unfold itemFrom
  split
  · exact guarded_move_bind hrest fun _ => trivial
  · exact (guarded_run hrest hlevel).bind fun _ _ _ => trivial
  · exact (guarded_run hrest hlevel).bind fun _ _ _ => trivial
  · exact (guarded_run hrest hlevel).bind fun _ _ _ => trivial
  · trivial

theorem advances_item : Advances item.denote := by
  rw [denote_item]
  exact Package.advances_readItem

theorem guarded_listing {item : Program α} {again : Program (List α)}
    (hitem : item.Guarded level n stop ts) (hadvances : Advances item.denote)
    (hn : ts.length ≤ n) : (listing item again).Guarded level n stop ts :=
  guarded_eat_bind .rightBrace hn (hitem.bind_advances hadvances hn)

theorem guarded_further (op? : TokenKind → Option Operator) (item : Program Expr)
    (again : Expr → Program Expr) (left : Expr) (hn : ts.length ≤ n) :
    (further op? item again left).Guarded level n stop ts := by
  cases ts with
  | nil => trivial
  | cons t ts =>
      show (operation item again left (op? t.kind)).Guarded level n stop (t :: ts)
      cases op? t.kind with
      | some op => exact guarded_move_bind hn nofun
      | none => trivial

/-- Every routine takes a token before it calls another that is not nearer to the tokens. -/
theorem guarded_body (r : Routine) (stop : Location) (ts : List Token) :
    (body r).Guarded r.level ts.length stop ts := by
  have hn : ts.length ≤ ts.length := Nat.le_refl _
  cases r with
  | package =>
      refine (guarded_run hn (by decide)).bind fun attributes rest h => ?_
      rw [denote_run] at h
      exact guarded_expect_bind _ _ _ (keeps_reader _ h)
  | expression =>
      exact (guarded_run hn (by decide)).bind fun x rest h =>
        (guarded_take _ _).bind fun _ _ _ => trivial
  | items =>
      show (if (Slot.front stop ts).isStop then pure [] else item >>= fun i =>
        run .items >>= fun is => pure (i :: is) : Program (List Package.Item)).Guarded _ _ stop ts
      exact .ite (fun _ => trivial) fun _ =>
        (guarded_item hn (by decide)).bind_advances advances_item hn
  | struct attributes => exact guarded_move_bind hn fun _ => trivial
  | enumeration attributes => exact guarded_move_bind hn fun _ => trivial
  | enumerals => exact guarded_listing guarded_enumeral advances_enumeral hn
  | fields =>
      exact guarded_eat_bind _ hn
        (guarded_run_bind hn (by decide) Field.advances_readDeclaration)
  | field =>
      refine (guarded_run hn (by decide)).bind fun attributes rest h => ?_
      rw [denote_run] at h
      exact guarded_run_bind (keeps_reader _ h) (by decide) FieldType.advances_read
  | names => exact guarded_placedName.bind_advances advances_placedName hn
  | type => exact guarded_expect_bind _ _ _ hn
  | arrays element => exact guarded_eat_bind _ hn trivial
  | attributes => exact guarded_eat_bind _ hn trivial
  | entries =>
      refine guarded_listing (guarded_run hn (by decide)) ?_ hn
      rw [denote_run]
      exact Attribute.advances_readEntry
  | entry => exact guarded_expect_bind _ _ _ hn
  | range => exact guarded_move_bind hn fun _ => trivial
  | constant =>
      exact (guarded_run hn (by decide)).bind fun e rest h =>
        .ite (fun _ => trivial) fun _ => trivial
  | sum => exact guarded_run_bind hn (by decide) Expr.advances_product
  | terms left =>
      exact guarded_further Expr.additive? (run .product) (fun e => run (.terms e)) left hn
  | product => exact guarded_run_bind hn (by decide) Expr.advances_unary
  | factors left =>
      exact guarded_further Expr.multiplicative? (run .unary) (fun e => run (.factors e)) left hn
  | unary =>
      exact guarded_eat_bind _ hn (guarded_run_bind hn (by decide) Expr.advances_operand)
  | operand => exact guarded_move_bind hn fun _ => trivial

end Program

/-! ### Runs -/

/-- What stands from a position on in the vector of a source. -/
def LeftAt (source : Tokens) (position : Nat) (ts : List Token) : Prop :=
  ∃ taken, source.list = taken ++ ts ∧ taken.length = position

namespace LeftAt

variable {source : Tokens} {position : Nat} {ts : List Token}

theorem add_length (h : LeftAt source position ts) :
    position + ts.length = source.list.length := by
  obtain ⟨taken, hlist, rfl⟩ := h
  rw [hlist, List.length_append]

theorem lt_length (h : LeftAt source position ts) : position < source.slots.length := by
  have hadd := h.add_length
  simp only [Tokens.slots, List.length_append, List.length_map, List.length_singleton]
  omega

theorem getElem?_eq (h : LeftAt source position ts) :
    source.slots[position]? = some (.front source.stop ts) := by
  obtain ⟨taken, hlist, rfl⟩ := h
  cases ts <;> simp [Tokens.slots, hlist, Slot.front]

/-- One moves on, but not behind the last token. -/
theorem advance (h : LeftAt source position ts) :
    LeftAt source (if (Slot.front source.stop ts).isStop then position else position + 1)
      ts.tail := by
  obtain ⟨taken, hlist, rfl⟩ := h
  cases ts with
  | nil => exact ⟨taken, hlist, rfl⟩
  | cons t ts => exact ⟨taken ++ [t], by simp [hlist], by simp [Slot.front, Slot.isStop]⟩

end LeftAt

variable {main : Routine}

/-- The position is in the vector, and the routine at work calls others only after it has moved or
such that stand nearer to the tokens. -/
structure State.Fine (slots : List Slot) (s : State main) : Prop where
  inside : s.position < slots.length
  descends : ∀ {r : Routine} {next : r.Result → Program s.active.Result},
    s.program = .call r next → s.entry < s.position ∨ r.level < s.active.level

/-- All states up to the end are fine, and the end is the result. -/
inductive Ends (slots : List Slot) (result : Except SyntaxError main.Result) : State main → Prop
  | last {s : State main} : s.Fine slots → s.step slots = .finished result → Ends slots result s
  | more {s s' : State main} : s.Fine slots → s.step slots = .running s' → Ends slots result s' →
      Ends slots result s

/-- The outcome is the result or goes on to it. -/
def Outcome.Leads (slots : List Slot) (result : Except SyntaxError main.Result) :
    Outcome main → Prop
  | .running s => Ends slots result s
  | .finished x => x = result
  | .outside => False

theorem ends_of_leads {slots : List Slot} {result : Except SyntaxError main.Result}
    {s : State main} (hfine : s.Fine slots) (h : (s.step slots).Leads slots result) :
    Ends slots result s := by
  cases hstep : s.step slots with
  | running s' => exact .more hfine hstep (by rwa [hstep] at h)
  | finished x =>
      rw [hstep] at h
      cases h
      exact .last hfine hstep
  | outside =>
      rw [hstep] at h
      cases h

section Body

variable {source : Tokens} {result : Except SyntaxError main.Result}

/-- The callers come to the result with whatever the reader hands them. -/
def Callers.Await (source : Tokens) (result : Except SyntaxError main.Result) {active : Routine}
    (callers : Callers main active) : Except SyntaxError (active.Result × List Token) → Prop
  | .error e => .error e = result
  | .ok (a, rest) => ∀ position, LeftAt source position rest →
      (callers.resume position a).Leads source.slots result

/-- A routine that is called with some tokens left comes to the result, if its callers do with what
its rule reads. -/
def Finishes (source : Tokens) (result : Except SyntaxError main.Result) (r : Routine)
    (ts : List Token) : Prop :=
  ∀ (position : Nat) (callers : Callers main r), LeftAt source position ts →
    callers.Await source result (reader r source.stop ts) →
    Ends source.slots result ⟨r, position, position, .body r, callers⟩

/-- What is left of a routine ends, if the routines that it may still call do. -/
theorem ends_program {active : Routine} {entry n : Nat} {callers : Callers main active}
    (hentry : entry + n = source.list.length)
    (hcalls : ∀ (r : Routine) (ts : List Token),
      ts.length < n ∨ ts.length ≤ n ∧ r.level < active.level → Finishes source result r ts)
    (p : Program active.Result) {position : Nat} {ts : List Token}
    (hleft : LeftAt source position ts) (hguarded : p.Guarded active.level n source.stop ts)
    (hawait : callers.Await source result (p.denote source.stop ts)) :
    Ends source.slots result ⟨active, entry, position, p, callers⟩ := by
  induction p generalizing position ts with
  | done a => exact ends_of_leads ⟨hleft.lt_length, nofun⟩ (hawait position hleft)
  | fail e => exact ends_of_leads ⟨hleft.lt_length, nofun⟩ hawait
  | peek next ih =>
      refine .more ⟨hleft.lt_length, nofun⟩ ?_ (ih _ hleft hguarded hawait)
      rw [State.step, hleft.getElem?_eq]
  | advance next ih =>
      refine .more ⟨hleft.lt_length, nofun⟩ ?_ (ih _ hleft.advance hguarded hawait)
      rw [State.step, hleft.getElem?_eq]
  | call r next ih =>
      obtain ⟨hcall, hnext⟩ := hguarded
      have hadd := hleft.add_length
      have hdescends : entry < position ∨ r.level < active.level :=
        hcall.imp (fun h => by omega) And.right
      refine .more ⟨hleft.lt_length, fun hprogram => ?_⟩ rfl (hcalls r ts hcall position _ hleft ?_)
      · cases hprogram
        exact hdescends
      · -- What the callee reads is handed to the rest of the program, which ends by induction.
        rw [Program.denote_call, bind_apply] at hawait
        cases hread : reader r source.stop ts with
        | error e =>
            rw [hread] at hawait
            exact hawait
        | ok x =>
            obtain ⟨a, rest⟩ := x
            rw [hread] at hawait
            exact fun position' hleft' => ih a hleft' (hnext a rest hread) hawait

/-- Every routine comes to the result.  The induction is on the tokens that are left and, as long as
none is taken, on the level. -/
theorem finishes (r : Routine) (ts : List Token) : Finishes source result r ts := by
  intro position callers hleft hawait
  refine ends_program hleft.add_length (fun r' ts' hcall => ?_) (.body r) hleft
    (Program.guarded_body r source.stop ts) (by rwa [Program.denote_body])
  exact finishes r' ts'
termination_by (ts.length, r.level)
decreasing_by
  obtain h | ⟨h, hlevel⟩ := hcall
  · exact .left _ _ h
  · exact (Nat.lt_or_eq_of_le h).elim (.left _ _) fun h => h ▸ .right _ hlevel

end Body

namespace Ends

variable {slots : List Slot} {result : Except SyntaxError main.Result} {s : State main}

theorem exists_run (h : Ends slots result s) : ∃ n, s.run slots n = .finished result := by
  induction h with
  | last hfine hstep => exact ⟨1, by rw [State.run, hstep]⟩
  | more hfine hstep hends ih =>
      obtain ⟨n, hn⟩ := ih
      exact ⟨n + 1, by rw [State.run, hstep]; exact hn⟩

/-- After any number of steps there is the result or a fine state. -/
theorem run_cases (h : Ends slots result s) (n : Nat) :
    s.run slots n = .finished result ∨ ∃ s', s.run slots n = .running s' ∧ s'.Fine slots := by
  induction h generalizing n with
  | last hfine hstep =>
      cases n with
      | zero => exact .inr ⟨_, rfl, hfine⟩
      | succ n => exact .inl (by rw [State.run, hstep])
  | more hfine hstep hends ih =>
      cases n with
      | zero => exact .inr ⟨_, rfl, hfine⟩
      | succ n =>
          rw [State.run, hstep]
          exact ih n

theorem fine_of_run (h : Ends slots result s) {n : Nat} {s' : State main}
    (hrun : s.run slots n = .running s') : s'.Fine slots := by
  obtain hfinished | ⟨s'', hrunning, hfine⟩ := h.run_cases n
  · rw [hrun] at hfinished
    cases hfinished
  · rw [hrun] at hrunning
    cases hrunning
    exact hfine

end Ends

theorem Routine.Again.level_eq {r active : Routine} (h : r.Again active) :
    r.level = active.level := by
  cases r <;> cases active <;> first | rfl | cases h

/-- Reading a source from its start ends with the result, and all goes well up to there. -/
structure Terminates (main : Routine) (source : Tokens)
    (result : Except SyntaxError main.Result) : Prop where
  ends : ∃ n, (State.start main).run source.slots n = .finished result
  /-- The vector holds the tokens that the source is asked for one after another. -/
  answers : source.slots.map Slot.token? = source.ask source.slots.length
  /-- The end of the source stands in the last slot and nowhere else. -/
  stops : ∀ i, (∃ place, source.slots[i]? = some (.stop place)) ↔ i + 1 = source.slots.length
  /-- The position is that of a slot, the last one at most. -/
  inside : ∀ {n : Nat} {s : State main}, (State.start main).run source.slots n = .running s →
    s.position < source.slots.length
  /-- No step looks at or takes what is not there. -/
  indexed : ∀ n, (State.start main).run source.slots n ≠ .outside
  /-- Another round of a loop starts behind a token that the last round has taken. -/
  rounds : ∀ {n : Nat} {s : State main} {r : Routine} {next : r.Result → Program s.active.Result},
    (State.start main).run source.slots n = .running s → s.program = .call r next →
    r.Again s.active → s.entry < s.position
  /-- A routine calls others after it has taken a token, or such at a lower level. -/
  descends : ∀ {n : Nat} {s : State main} {r : Routine}
    {next : r.Result → Program s.active.Result},
    (State.start main).run source.slots n = .running s → s.program = .call r next →
    s.entry < s.position ∨ r.level < s.active.level

/-- Every source is read to an end by every routine, with what the rule of the routine says. -/
theorem terminates_of_reader (main : Routine) (source : Tokens) :
    Terminates main source ((reader main source.stop source.list).map Prod.fst) := by
  have hends : Ends source.slots ((reader main source.stop source.list).map Prod.fst)
      (State.start main) := by
    refine finishes main source.list 0 .none ⟨[], rfl, rfl⟩ ?_
    cases reader main source.stop source.list with
    | error e => rfl
    | ok x => exact fun position hleft => rfl
  refine ⟨hends.exists_run, source.map_token?_slots, source.exists_stop_iff,
    fun h => (hends.fine_of_run h).inside, fun n h => ?_, fun h hcall hagain => ?_,
    fun h => (hends.fine_of_run h).descends⟩
  · obtain hfinished | ⟨s, hrunning, -⟩ := hends.run_cases n
    · rw [h] at hfinished
      cases hfinished
    · rw [h] at hrunning
      cases hrunning
  · obtain hmoved | hlevel := (hends.fine_of_run h).descends hcall
    · exact hmoved
    · rw [hagain.level_eq] at hlevel
      exact absurd hlevel (Nat.lt_irrefl _)

/-- Every text is read to an end, as a package and as a constant expression. -/
theorem parse_and_evaluate_terminate (text source : String) :
    Terminates .package (.ofSource text source) (Package.parse text source) ∧
      Terminates .expression (.ofSource text "") (Expr.evaluate text) := by
  rw [Expr.evaluate_eq]
  exact ⟨terminates_of_reader .package _, terminates_of_reader .expression _⟩

end Parser

end SchemaLang
