import Mathlib.Data.List.Forall2
import SchemaLang.Proofs.FieldDeclarations

/-!
# Attributes in groups

The attributes before a declaration are written one by one or several between braces, in any
mixture.  An entry ends where neither a colon nor an operator comes next, and what stands between
entries is neither, so no entry takes anything of the next one or of the group around it: the
attributes are those of the entries, and the groups do not matter.

`Clause` is an entry as it is written, whether or not it is one of the language.  `Grouped` lists
the clauses of a text, and `Clause.Means` says what a clause stands for.
-/

namespace SchemaLang

open Grammar TokenReader
open SchemaLang.Expr (termKinds reads_sum)

namespace Grammar

/-! ### Clauses -/

/-- What may stand behind the colon of a clause. -/
inductive Value where
  | text (literal : Word .string)
  | number (sum : SumTree)
  | bounds (values : Bounds)

def Value.tokens : Value → List Token
  | .text literal => [literal.1]
  | .number sum => sum.tokens
  | .bounds values => Grammar.bounds.tokens values

/-- A key and perhaps a value, whether or not they belong together. -/
structure Clause where
  key : Word .identifier
  value : Option (Word .colon × Value)

/-- The value of a clause behind its colon, if there is one. -/
def Clause.behind (c : Clause) : List Token :=
  c.value.elim [] fun (colon, value) => colon.1 :: value.tokens

def Clause.tokens (c : Clause) : List Token :=
  c.key.1 :: c.behind

/-- Clauses with commas between them, up to the brace that closes them.  A comma may stand behind
the last. -/
inductive Enclosed : List Clause → List Token → Prop
  | close (closing : Word .rightBrace) : Enclosed [] [closing.1]
  | last (c : Clause) (closing : Word .rightBrace) : Enclosed [c] (c.tokens ++ [closing.1])
  | more (c : Clause) (comma : Word .comma) {cs : List Clause} {ts : List Token}
      (hmore : Enclosed cs ts) : Enclosed (c :: cs) (c.tokens ++ comma.1 :: ts)

/-- Clauses in groups, one clause or any number in braces behind each sign. -/
inductive Grouped : List Clause → List Token → Prop
  | nil : Grouped [] []
  | single (sign : Word .at) (c : Clause) {cs : List Clause} {ts : List Token}
      (hmore : Grouped cs ts) : Grouped (c :: cs) (sign.1 :: (c.tokens ++ ts))
  | block (sign : Word .at) (opening : Word .leftBrace) {ds cs : List Clause}
      {us ts : List Token} (hinside : Enclosed ds us) (hmore : Grouped cs ts) :
      Grouped (ds ++ cs) (sign.1 :: opening.1 :: (us ++ ts))

/-- The tokens that go on with a clause. -/
def clauseKinds : List TokenKind :=
  .colon :: termKinds

/-! ### Where clauses end -/

/-- The tokens that an expression starts with. -/
def sumKinds : List TokenKind :=
  [.minus, .integer, .float, .identifier, .leftParen]

theorem OperandTree.starts (o : OperandTree) :
    ∃ t ts, o.tokens = t :: ts ∧ t.kind ∈ sumKinds := by
  cases o with
  | number literal =>
      have hkind : literal.1.kind = .integer ∨ literal.1.kind = .float := by
        simpa using literal.2.1
      exact ⟨_, _, rfl, by rcases hkind with h | h <;> simp [h, sumKinds]⟩
  | infinity word => exact ⟨_, _, rfl, by simp [(kind_key word).1, sumKinds]⟩
  | root word opening inner closing =>
      exact ⟨_, _, rfl, by simp [(kind_key word).1, sumKinds]⟩
  | grouped opening inner closing => exact ⟨_, _, rfl, by simp [kind_word opening, sumKinds]⟩

theorem UnaryTree.starts (u : UnaryTree) :
    ∃ t ts, u.tokens = t :: ts ∧ t.kind ∈ sumKinds := by
  cases u with
  | negated sign operand => exact ⟨_, _, rfl, by simp [kind_word sign, sumKinds]⟩
  | operand only => exact only.starts
  | power base caret exponent =>
      obtain ⟨t, ts, hbase, ht⟩ := base.starts
      exact ⟨t, _, by rw [UnaryTree.tokens, hbase, List.cons_append], ht⟩

theorem ProductTree.starts : (p : ProductTree) → ∃ t ts, p.tokens = t :: ts ∧ t.kind ∈ sumKinds
  | .unary only => only.starts
  | .more left operator right => by
    obtain ⟨t, ts, hleft, ht⟩ := left.starts
    exact ⟨t, _, by rw [ProductTree.tokens, hleft, List.cons_append], ht⟩

theorem SumTree.starts : (s : SumTree) → ∃ t ts, s.tokens = t :: ts ∧ t.kind ∈ sumKinds
  | .product only => only.starts
  | .more left operator right => by
    obtain ⟨t, ts, hleft, ht⟩ := left.starts
    exact ⟨t, _, by rw [SumTree.tokens, hleft, List.cons_append], ht⟩

/-- An expression ends where no operator comes next. -/
theorem SumTree.eq_of_append_eq {s t : SumTree} {rest mid : List Token}
    (hrest : NotAhead termKinds rest) (hmid : NotAhead termKinds mid)
    (h : s.tokens ++ rest = t.tokens ++ mid) : rest = mid := by
  have hread := (reads_sum.run default s hrest _).mpr ⟨trivial, rfl⟩
  have hother := (reads_sum.run default t hmid _).mpr ⟨trivial, rfl⟩
  change Expr.sum default (s.tokens ++ rest) = .ok (s.expr, rest) at hread
  rw [h] at hread
  exact (Prod.mk.inj (Except.ok.inj (hread.symm.trans hother))).2

/-- The closing bracket ends a range. -/
theorem Bounds.eq_of_append_eq {a b : Bounds} {rest mid : List Token}
    (h : bounds.tokens a ++ rest = bounds.tokens b ++ mid) : rest = mid := by
  have htokens (b : Bounds) (ts : List Token) : bounds.tokens b ++ ts =
      b.opening.1 :: (b.lower.tokens ++ b.comma.1 :: (b.upper.tokens ++ b.closing.1 :: ts)) := by
    simp [bounds, constant]
  have hcomma (b : Bounds) (ts : List Token) : NotAhead termKinds (b.comma.1 :: ts) := by
    simp [kind_word b.comma, termKinds]
  have hclosing (b : Bounds) (ts : List Token) : NotAhead termKinds (b.closing.1 :: ts) := by
    have hkind : b.closing.1.kind = .rightBracket ∨ b.closing.1.kind = .rightAngle := by
      simpa using b.closing.2.1
    rcases hkind with h | h <;> simp [h, termKinds]
  rw [htokens, htokens] at h
  have hlower := SumTree.eq_of_append_eq (hcomma a _) (hcomma b _) (List.cons.inj h).2
  have hupper := SumTree.eq_of_append_eq (hclosing a _) (hclosing b _) (List.cons.inj hlower).2
  exact (List.cons.inj hupper).2

namespace Value

/-- The tokens that a value of its kind starts with. -/
def firstKinds : Value → List TokenKind
  | .text _ => [.string]
  | .number _ => sumKinds
  | .bounds _ => [.leftBracket, .leftAngle]

theorem starts (v : Value) : ∃ t ts, v.tokens = t :: ts ∧ t.kind ∈ v.firstKinds := by
  cases v with
  | text literal => exact ⟨_, _, rfl, by simp [kind_word literal, firstKinds]⟩
  | number sum => exact sum.starts
  | bounds values =>
      have hkind : values.opening.1.kind = .leftBracket ∨ values.opening.1.kind = .leftAngle := by
        simpa using values.opening.2.1
      exact ⟨_, _, rfl, by simpa [firstKinds] using hkind⟩

/-- A value ends where no operator comes next.  Values of different kinds start differently. -/
theorem eq_of_append_eq {v w : Value} {rest mid : List Token} (hrest : NotAhead termKinds rest)
    (hmid : NotAhead termKinds mid) (h : v.tokens ++ rest = w.tokens ++ mid) : rest = mid := by
  have hfirst (hapart : ∀ kind ∈ v.firstKinds, kind ∉ w.firstKinds) : False := by
    obtain ⟨t, ts, hv, ht⟩ := v.starts
    obtain ⟨u, us, hw, hu⟩ := w.starts
    rw [hv, hw] at h
    obtain rfl := (List.cons.inj h).1
    exact hapart _ ht hu
  cases v with
  | text literal =>
      cases w with
      | text other => exact (List.cons.inj h).2
      | number sum => exact (hfirst (by simp [firstKinds, sumKinds])).elim
      | bounds values => exact (hfirst (by simp [firstKinds])).elim
  | number sum =>
      cases w with
      | text literal => exact (hfirst (by simp [firstKinds, sumKinds])).elim
      | number other => exact SumTree.eq_of_append_eq hrest hmid h
      | bounds values => exact (hfirst (by simp [firstKinds, sumKinds])).elim
  | bounds values =>
      cases w with
      | text literal => exact (hfirst (by simp [firstKinds])).elim
      | number sum => exact (hfirst (by simp [firstKinds, sumKinds])).elim
      | bounds others => exact Bounds.eq_of_append_eq h

end Value

/-- A clause ends where neither a colon nor an operator comes next. -/
theorem Clause.eq_of_append_eq {c d : Clause} {rest mid : List Token}
    (hrest : NotAhead clauseKinds rest) (hmid : NotAhead clauseKinds mid)
    (h : c.tokens ++ rest = d.tokens ++ mid) : rest = mid := by
  have hcolon {ts : List Token} (hts : NotAhead clauseKinds ts) (colon : Word .colon)
      {us : List Token} : ts ≠ colon.1 :: us := by
    rintro rfl
    exact notAhead_cons.mp hts (by simp [kind_word colon, clauseKinds])
  have hterm {ts : List Token} (hts : NotAhead clauseKinds ts) : NotAhead termKinds ts :=
    hts.mono (List.subset_cons_self _ _)
  have hbehind : c.behind ++ rest = d.behind ++ mid := (List.cons.inj h).2
  unfold behind at hbehind
  cases hc : c.value with
  | none =>
      cases hd : d.value with
      | none => simpa [hc, hd] using hbehind
      | some value => exact absurd (by simpa [hc, hd] using hbehind) (hcolon hrest value.1)
  | some value =>
      cases hd : d.value with
      | none => exact absurd (by simpa [hc, hd] using hbehind.symm) (hcolon hmid value.1)
      | some other =>
          rw [hc, hd] at hbehind
          exact Value.eq_of_append_eq (hterm hrest) (hterm hmid) (List.cons.inj hbehind).2

/-! ### What clauses stand for -/

/-- A key, whichever it is. -/
def keyWord {p : Token → Bool} (key : Terminal fun t => t.kind = .identifier && p t) :
    Word .identifier :=
  ⟨key.1, (Bool.and_eq_true_iff.mp key.2.1).1, key.2.2⟩

/-- An integer as an expression. -/
def integerSum (number : Word .integer) : SumTree :=
  .product (.unary (.operand (.number ⟨number.1, by simp [kind_word number], number.2.2⟩)))

/-- The clause that an entry of the language is. -/
def Entry.clause : Entry → Clause
  | .message key => ⟨keyWord key, none⟩
  | .exportAs key colon name => ⟨keyWord key, some (colon, .text name)⟩
  | .precision key colon step => ⟨keyWord key, some (colon, .number step)⟩
  | .range key colon values => ⟨keyWord key, some (colon, .bounds values)⟩
  | .version key colon number => ⟨keyWord key, some (colon, .number (integerSum number))⟩

theorem Entry.tokens_clause (e : Entry) : e.clause.tokens = entry.tokens e := by
  cases e <;> rfl

/-- The attribute that a clause stands for, if it is an entry that may be written. -/
def Clause.Means (c : Clause) (a : Attribute) : Prop :=
  ∃ e, entry.tokens e = c.tokens ∧ entry.Admissible e ∧ entry.meaning e = a

end Grammar

/-! ### Reading clauses -/

namespace Attribute

/-- Where a clause ends in front of what cannot go on with it, the clause is an entry. -/
theorem readEntry_clause_eq_ok_iff (c : Clause) {stop : Location} {rest mid : List Token}
    (hrest : NotAhead clauseKinds rest) (hmid : NotAhead clauseKinds mid)
    (hshape : ∀ t ∈ c.tokens ++ rest, t.HasShape) {a : Attribute} :
    readEntry stop (c.tokens ++ rest) = .ok (a, mid) ↔ c.Means a ∧ mid = rest := by
  have hterm : NotAhead termKinds rest := hrest.mono (List.subset_cons_self _ _)
  constructor
  · intro h
    -- An entry was read, but nothing says yet that it is as long as the clause.
    obtain ⟨e, htokens⟩ := reads_readEntry.covers hshape h
    rw [← e.tokens_clause] at htokens
    obtain rfl := Clause.eq_of_append_eq hrest hmid htokens
    have hsame := List.append_cancel_right htokens
    rw [hsame, e.tokens_clause] at h
    obtain ⟨hadmissible, hmeaning⟩ := (reads_readEntry.run stop e hterm).of_eq_ok h
    refine ⟨⟨e, ?_, hadmissible, (Prod.mk.inj hmeaning).1.symm⟩, rfl⟩
    rw [hsame, e.tokens_clause]
  · rintro ⟨⟨e, htokens, hadmissible, rfl⟩, rfl⟩
    rw [← htokens]
    exact (reads_readEntry.run stop e hterm _).mpr ⟨hadmissible, rfl⟩

/-- A clause of a listing is read in front of a comma or the closing brace only. -/
theorem commaSeparated_clause_eq_ok_iff (c : Clause) {stop : Location} {rest : List Token}
    (hrest : NotAhead clauseKinds rest) (hshape : ∀ t ∈ c.tokens ++ rest, t.HasShape)
    {out : List Attribute × List Token} :
    commaSeparated readEntry advances_readEntry stop (c.tokens ++ rest) = .ok out ↔
      ∃ a, c.Means a ∧ (accept .comma >>= fun comma =>
        if comma then commaSeparated readEntry advances_readEntry >>= fun as => pure (a :: as)
        else expect .rightBrace .commaOrClosingBrace >>= fun _ => pure [a]) stop rest =
          .ok out := by
  have hkey : NotAhead [.rightBrace] (c.tokens ++ rest) := by
    simp [Clause.tokens, kind_word c.key]
  rw [commaSeparated_of_notAhead hkey, bind_run_eq_ok_iff]
  constructor
  · rintro ⟨a, mid, hread, hnext⟩
    -- The listing went on behind the entry, so it found a comma there or the closing brace.
    have hmid : NotAhead clauseKinds mid := by
      obtain ⟨comma, behind, haccept, hbehind⟩ := bind_run_eq_ok_iff.mp hnext
      obtain ⟨-, t, hkind, rfl⟩ | ⟨rfl, rfl⟩ := of_accept haccept
      · simp [hkind, clauseKinds, termKinds]
      · obtain ⟨t, last, hexpect, -⟩ := bind_run_eq_ok_iff.mp hbehind
        obtain ⟨hkind, rfl⟩ := eq_cons_of_take hexpect
        simp [of_decide_eq_true hkind, clauseKinds, termKinds]
    obtain ⟨hmeans, rfl⟩ := (readEntry_clause_eq_ok_iff c hrest hmid hshape).mp hread
    exact ⟨a, hmeans, hnext⟩
  · rintro ⟨a, hmeans, hnext⟩
    exact ⟨a, rest, (readEntry_clause_eq_ok_iff c hrest hrest hshape).mpr ⟨hmeans, rfl⟩, hnext⟩

/-- Clauses between braces are read as the attributes that they stand for. -/
theorem commaSeparated_enclosed_eq_ok_iff {cs : List Clause} {ts : List Token}
    (h : Enclosed cs ts) {stop : Location} {rest mid : List Token}
    (hshape : ∀ t ∈ ts ++ rest, t.HasShape) {as : List Attribute} :
    commaSeparated readEntry advances_readEntry stop (ts ++ rest) = .ok (as, mid) ↔
      List.Forall₂ Clause.Means cs as ∧ mid = rest := by
  induction h generalizing as with
  | close closing =>
      rw [List.singleton_append, commaSeparated_cons (kind_word closing)]
      constructor
      · intro hout
        cases hout
        exact ⟨.nil, rfl⟩
      · rintro ⟨⟨⟩, rfl⟩
        rfl
  | last c closing =>
      have hkind := kind_word closing
      rw [List.append_assoc, List.singleton_append] at hshape ⊢
      rw [commaSeparated_clause_eq_ok_iff c (by simp [hkind, clauseKinds, termKinds]) hshape]
      have hnoComma : accept .comma stop (closing.1 :: rest) = .ok (false, closing.1 :: rest) :=
        accept_of_notAhead (by simp [hkind]) stop
      have hnext (a : Attribute) : (accept .comma >>= fun comma =>
          if comma then commaSeparated readEntry advances_readEntry >>= fun as => pure (a :: as)
          else expect .rightBrace .commaOrClosingBrace >>= fun _ => pure [a]) stop
            (closing.1 :: rest) = .ok ([a], rest) := by
        rw [bind_of_ok hnoComma, if_neg Bool.false_ne_true,
          bind_of_ok (expect_word closing _ stop rest)]
        rfl
      simp only [hnext]
      constructor
      · rintro ⟨a, hmeans, hout⟩
        cases hout
        exact ⟨.cons hmeans .nil, rfl⟩
      · rintro ⟨hall, rfl⟩
        cases hall with
        | cons hmeans hnil =>
            cases hnil
            exact ⟨_, hmeans, rfl⟩
  | @more c comma cs ts _ ih =>
      have hkind := kind_word comma
      rw [List.append_assoc, List.cons_append] at hshape ⊢
      rw [commaSeparated_clause_eq_ok_iff c (by simp [hkind, clauseKinds, termKinds]) hshape]
      obtain ⟨-, hcomma⟩ := List.forall_mem_append.mp hshape
      obtain ⟨-, hmore⟩ := List.forall_mem_cons.mp hcomma
      simp only [bind_of_ok (accept_cons hkind stop (ts ++ rest)), if_true, map_run_eq_ok_iff,
        ih hmore]
      constructor
      · rintro ⟨a, hmeans, as, ⟨hall, rfl⟩, rfl⟩
        exact ⟨.cons hmeans hall, rfl⟩
      · rintro ⟨hall, rfl⟩
        cases hall with
        | cons hmeans hall => exact ⟨_, hmeans, _, ⟨hall, rfl⟩, rfl⟩

/-! ### Reading groups -/

theorem readAll_of_notAhead {stop : Location} {ts : List Token} (h : NotAhead [.at] ts) :
    readAll stop ts = .ok ([], ts) := by
  rw [readAll, bind_of_ok (manyAfter_of_notAhead h)]
  rfl

/-- Behind a sign stands a group, and then further groups. -/
theorem readAll_cons_eq_ok_iff {stop : Location} {t : Token} {ts mid : List Token}
    (h : t.kind = .at) {as : List Attribute} :
    readAll stop (t :: ts) = .ok (as, mid) ↔ ∃ some behind, readGroup stop ts = .ok (some, behind) ∧
      ∃ more, readAll stop behind = .ok (more, mid) ∧ as = some ++ more := by
  simp only [readAll, map_run_eq_ok_iff, manyAfter_cons h, bind_run_eq_ok_iff (p := readGroup)]
  constructor
  · rintro ⟨_, ⟨some, behind, hgroup, groups, hgroups, rfl⟩, rfl⟩
    exact ⟨some, behind, hgroup, _, ⟨groups, hgroups, rfl⟩, rfl⟩
  · rintro ⟨some, behind, hgroup, _, ⟨groups, hgroups, rfl⟩, rfl⟩
    exact ⟨_, ⟨some, behind, hgroup, groups, hgroups, rfl⟩, rfl⟩

theorem readGroup_single_eq_ok_iff (c : Clause) {stop : Location} {rest mid : List Token}
    {as : List Attribute} : readGroup stop (c.tokens ++ rest) = .ok (as, mid) ↔
      ∃ a, readEntry stop (c.tokens ++ rest) = .ok (a, mid) ∧ as = [a] := by
  have hkey : NotAhead [.leftBrace] (c.tokens ++ rest) := by
    simp [Clause.tokens, kind_word c.key]
  rw [readGroup, bind_of_ok (accept_of_notAhead hkey stop), if_neg Bool.false_ne_true]
  exact map_run_eq_ok_iff

theorem readGroup_block (opening : Word .leftBrace) (stop : Location) (ts : List Token) :
    readGroup stop (opening.1 :: ts) = commaSeparated readEntry advances_readEntry stop ts := by
  rw [readGroup, bind_of_ok (accept_cons (kind_word opening) stop ts), if_pos rfl]

/-- Attributes that are read up to a declaration go on with a further group or end there. -/
theorem notAhead_of_readAll {stop : Location} {ts mid : List Token} {as : List Attribute}
    (hmid : NotAhead clauseKinds mid) (h : readAll stop ts = .ok (as, mid)) :
    NotAhead clauseKinds ts := by
  by_cases hsign : NotAhead [.at] ts
  · rw [readAll_of_notAhead hsign] at h
    cases h
    exact hmid
  · obtain ⟨t, us, ht, rfl⟩ := exists_cons_of_ahead hsign
    simp [List.mem_singleton.mp ht, clauseKinds, termKinds]

end Attribute

theorem Grammar.Grouped.notAhead {cs : List Clause} {ts : List Token} (h : Grouped cs ts)
    {kinds : List TokenKind} (hkinds : .at ∉ kinds) {rest : List Token}
    (hrest : NotAhead kinds rest) : NotAhead kinds (ts ++ rest) := by
  cases h with
  | nil => exact hrest
  | single sign c hmore => simpa [kind_word sign] using hkinds
  | block sign opening hinside hmore => simpa [kind_word sign] using hkinds

namespace Attribute

/-- Clauses are read as the attributes that they stand for, in whatever groups they are written. -/
theorem readAll_grouped_eq_ok_iff {cs : List Clause} {ts : List Token} (h : Grouped cs ts)
    {stop : Location} {rest mid : List Token} (hrest : NotAhead (.at :: clauseKinds) rest)
    (hmid : NotAhead (.at :: clauseKinds) mid) (hshape : ∀ t ∈ ts ++ rest, t.HasShape)
    {as : List Attribute} : readAll stop (ts ++ rest) = .ok (as, mid) ↔
      List.Forall₂ Clause.Means cs as ∧ mid = rest := by
  have hclause {us : List Token} (hus : NotAhead (.at :: clauseKinds) us) :
      NotAhead clauseKinds us := hus.mono (List.subset_cons_self _ _)
  -- Along the groups.  `mid` stays fixed: where the reading stopped tells how each entry ended.
  induction h generalizing as with
  | nil =>
      rw [List.nil_append, readAll_of_notAhead (hrest.mono (by simp))]
      constructor
      · intro hout
        cases hout
        exact ⟨.nil, rfl⟩
      · rintro ⟨⟨⟩, rfl⟩
        rfl
  | @single sign c cs ts hts ih =>
      rw [List.cons_append, List.append_assoc] at hshape ⊢
      obtain ⟨-, hbehind⟩ := List.forall_mem_cons.mp hshape
      obtain ⟨-, hmore⟩ := List.forall_mem_append.mp hbehind
      have hnext := hts.notAhead (by decide) (hclause hrest)
      simp only [readAll_cons_eq_ok_iff (kind_word sign), readGroup_single_eq_ok_iff]
      constructor
      · rintro ⟨_, behind, ⟨a, hread, rfl⟩, more, hrun, rfl⟩
        have hend := notAhead_of_readAll (hclause hmid) hrun
        obtain ⟨hmeans, rfl⟩ := (readEntry_clause_eq_ok_iff c hnext hend hbehind).mp hread
        obtain ⟨hall, rfl⟩ := (ih hmore).mp hrun
        exact ⟨.cons hmeans hall, rfl⟩
      · rintro ⟨hall, rfl⟩
        cases hall with
        | cons hmeans hall =>
            exact ⟨_, _, ⟨_, (readEntry_clause_eq_ok_iff c hnext hnext hbehind).mpr ⟨hmeans, rfl⟩,
              rfl⟩, _, (ih hmore).mpr ⟨hall, rfl⟩, rfl⟩
  | @block sign opening ds cs us ts hinside hts ih =>
      rw [List.cons_append, List.cons_append, List.append_assoc] at hshape ⊢
      obtain ⟨-, hopening⟩ := List.forall_mem_cons.mp hshape
      obtain ⟨-, hbehind⟩ := List.forall_mem_cons.mp hopening
      obtain ⟨-, hmore⟩ := List.forall_mem_append.mp hbehind
      simp only [readAll_cons_eq_ok_iff (kind_word sign), readGroup_block,
        commaSeparated_enclosed_eq_ok_iff hinside hbehind]
      constructor
      · rintro ⟨some, behind, ⟨hsome, rfl⟩, more, hrun, rfl⟩
        obtain ⟨hall, rfl⟩ := (ih hmore).mp hrun
        exact ⟨List.rel_append hsome hall, rfl⟩
      · rintro ⟨hall, rfl⟩
        -- The attributes are parted where the clauses of the group end.
        have hsome := List.forall₂_take ds.length hall
        have hothers := List.forall₂_drop ds.length hall
        rw [List.take_left] at hsome
        rw [List.drop_left] at hothers
        exact ⟨_, _, ⟨hsome, rfl⟩, _, (ih hmore).mpr ⟨hothers, rfl⟩,
          (List.take_append_drop _ _).symm⟩

/-- A reader that goes on behind attributes only where they end does not look at their groups. -/
theorem bind_readAll_regrouped {α : Type} {next : List Attribute → TokenReader α}
    (hnext : ∀ {as stop mid out}, next as stop mid = .ok out → NotAhead (.at :: clauseKinds) mid)
    {cs : List Clause} {ts us : List Token} (hts : Grouped cs ts) (hus : Grouped cs us)
    {stop : Location} {rest : List Token} (hrest : NotAhead (.at :: clauseKinds) rest)
    (hshape : ∀ t ∈ ts ++ rest, t.HasShape) (hother : ∀ t ∈ us ++ rest, t.HasShape)
    {out : α × List Token} :
    (readAll >>= next) stop (ts ++ rest) = .ok out ↔
      (readAll >>= next) stop (us ++ rest) = .ok out := by
  have hread {ts : List Token} (hts : Grouped cs ts) (hshape : ∀ t ∈ ts ++ rest, t.HasShape) :
      (readAll >>= next) stop (ts ++ rest) = .ok out ↔
        ∃ as, List.Forall₂ Clause.Means cs as ∧ next as stop rest = .ok out := by
    rw [bind_run_eq_ok_iff]
    constructor
    · rintro ⟨as, mid, hrun, hout⟩
      obtain ⟨hall, rfl⟩ :=
        (readAll_grouped_eq_ok_iff hts hrest (hnext hout) hshape).mp hrun
      exact ⟨as, hall, hout⟩
    · rintro ⟨as, hall, hout⟩
      exact ⟨as, rest, (readAll_grouped_eq_ok_iff hts hrest hrest hshape).mpr ⟨hall, rfl⟩, hout⟩
  rw [hread hts hshape, hread hus hother]

end Attribute

/-! ### Declarations -/

theorem notAhead_of_expect {α : Type} {kinds : List TokenKind} {kind : TokenKind}
    (hkind : kind ∉ kinds) {expected : Expectation} {next : Token → TokenReader α}
    {stop : Location} {ts : List Token} {out : α × List Token}
    (h : (expect kind expected >>= next) stop ts = .ok out) : NotAhead kinds ts := by
  obtain ⟨t, mid, hexpect, -⟩ := bind_run_eq_ok_iff.mp h
  obtain ⟨ht, rfl⟩ := eq_cons_of_take hexpect
  rw [notAhead_cons, of_decide_eq_true ht]
  exact hkind

namespace Grammar

/-- The tokens that a declaration starts with. -/
def declarationKinds : List TokenKind :=
  [.packageKeyword, .useKeyword, .classKeyword, .structKeyword, .enumKeyword, .identifier]

theorem notAhead_declaration {t : Token} (ht : t.kind ∈ declarationKinds) {kinds : List TokenKind}
    (hkinds : ∀ kind ∈ declarationKinds, kind ∉ kinds) (ts : List Token) :
    NotAhead kinds (t :: ts) :=
  notAhead_cons.mpr (hkinds _ ht)

/-- What stands in front of clauses and of the token `t` that a declaration starts with: nothing,
whole items or whole fields, or else what is refused where a sign comes next, and also where the
declaration does if there are no clauses. -/
inductive Before (cs : List Clause) (t : Token) : List Token → Prop
  | package : Before cs t []
  | item (decorated : Attributes) (keyword : Word .packageKeyword) (name : Word .string)
      (items : List (Attributes × Element)) :
      Before cs t
        (attributes.tokens decorated ++ keyword.1 :: name.1 :: item.many.tokens items)
  | field (o : Opening) : Before cs t o.tokens
  | refused {front : List Token}
      (hsign : ∀ (stop : Location) (sign : Word .at) (ts : List Token),
        ∃ e, Package.read stop (front ++ sign.1 :: ts) = .error e)
      (hbare : cs = [] → ∀ (stop : Location) (ts : List Token),
        ∃ e, Package.read stop (front ++ t :: ts) = .error e) : Before cs t front

end Grammar

namespace Package

theorem read_items_eq_ok_iff (decorated : Attributes) (keyword : Word .packageKeyword)
    (name : Word .string) (items : List (Attributes × Element)) {stop : Location}
    {rest last : List Token} {parsed : Package} :
    read stop (Grammar.attributes.tokens decorated ++ keyword.1 :: name.1 ::
        (item.many.tokens items ++ rest)) = .ok (parsed, last) ↔
      Grammar.attributes.Admissible decorated ∧ item.many.Admissible items ∧ ∃ more,
        untilEnd readItem advances_readItem stop rest = .ok (more, last) ∧
          parsed = (item.many.meaning items ++ more).foldl add
            (.empty (Literal.textOf name.1.literal) (Grammar.attributes.meaning decorated)
              keyword.1.location) := by
  have hkeyword (ts : List Token) : NotAhead (.at :: termKinds) (keyword.1 :: ts) := by
    simp [kind_word keyword, termKinds]
  rw [read, Attribute.reads_readAll.bind_eq_ok_iff decorated (hkeyword _),
    bind_of_ok (expect_word keyword _ stop _), bind_of_ok (quoted_word name _ stop _),
    map_run_eq_ok_iff]
  simp only [untilEnd_many_eq_ok_iff reads_readItem startsWith_item (by simp) advances_readItem
    items (notAhead_none _)]
  constructor
  · rintro ⟨hdecorated, _, ⟨hitems, more, hmore, rfl⟩, rfl⟩
    exact ⟨hdecorated, hitems, more, hmore, rfl⟩
  · rintro ⟨hdecorated, hitems, more, hmore, rfl⟩
    exact ⟨hdecorated, _, ⟨hitems, more, hmore, rfl⟩, rfl⟩

section Regrouped

variable {cs : List Clause} {ts us : List Token} (hts : Grouped cs ts) (hus : Grouped cs us)
  {stop : Location} {t : Token} (ht : t.kind ∈ declarationKinds) {rest : List Token}
  (hshape : ∀ u ∈ ts ++ t :: rest, u.HasShape) (hother : ∀ u ∈ us ++ t :: rest, u.HasShape)

include hts hus ht hshape hother

/-- The fields of a struct that come next do not depend on the groups of attributes. -/
theorem untilBrace_regrouped {out : List (List Field) × List Token} :
    untilBrace Field.readDeclaration Field.advances_readDeclaration stop (ts ++ t :: rest) =
        .ok out ↔
      untilBrace Field.readDeclaration Field.advances_readDeclaration stop (us ++ t :: rest) =
        .ok out := by
  have hbrace {ts : List Token} (hts : Grouped cs ts) : NotAhead [.rightBrace] (ts ++ t :: rest) :=
    hts.notAhead (by decide) (notAhead_declaration ht (by decide) rest)
  have hdeclaration {out : List Field × List Token} :
      Field.readDeclaration stop (ts ++ t :: rest) = .ok out ↔
        Field.readDeclaration stop (us ++ t :: rest) = .ok out := by
    refine Attribute.bind_readAll_regrouped (fun h => ?_) hts hus
      (notAhead_declaration ht (by decide) rest) hshape hother
    obtain ⟨place, mid, hhere, htype⟩ := bind_run_eq_ok_iff.mp h
    cases hhere
    obtain ⟨type, mid, hread, -⟩ := bind_run_eq_ok_iff.mp htype
    exact notAhead_of_expect (by decide) hread
  rw [untilBrace_of_notAhead (hbrace hts), untilBrace_of_notAhead (hbrace hus),
    bind_run_eq_ok_iff, bind_run_eq_ok_iff]
  simp only [hdeclaration]

/-- The items of a package that come next do not depend on the groups of attributes. -/
theorem untilEnd_regrouped {out : List Item × List Token} :
    untilEnd readItem advances_readItem stop (ts ++ t :: rest) = .ok out ↔
      untilEnd readItem advances_readItem stop (us ++ t :: rest) = .ok out := by
  have hitem {out : Item × List Token} : readItem stop (ts ++ t :: rest) = .ok out ↔
      readItem stop (us ++ t :: rest) = .ok out := by
    refine Attribute.bind_readAll_regrouped (fun h => ?_) hts hus
      (notAhead_declaration ht (by decide) rest) hshape hother
    obtain ⟨t, us, rfl, hkind⟩ := readItemBehind_eq_ok h
    rcases hkind with hkind | (hkind | hkind) | hkind <;> simp [hkind, clauseKinds, termKinds]
  rw [untilEnd_of_ne_nil (by simp), untilEnd_of_ne_nil (by simp), bind_run_eq_ok_iff,
    bind_run_eq_ok_iff]
  simp only [hitem]

/-- A package is the same however the attributes before one of its declarations are grouped. -/
theorem read_regrouped {front : List Token} (hfront : Before cs t front)
    {out : Package × List Token} :
    read stop (front ++ (ts ++ t :: rest)) = .ok out ↔
      read stop (front ++ (us ++ t :: rest)) = .ok out := by
  cases hfront with
  | package =>
      exact Attribute.bind_readAll_regrouped (notAhead_of_expect (by decide)) hts hus
        (notAhead_declaration ht (by decide) rest) hshape hother
  | item decorated keyword name items =>
      obtain ⟨parsed, last⟩ := out
      simp only [List.append_assoc, List.cons_append, read_items_eq_ok_iff,
        untilEnd_regrouped hts hus ht hshape hother]
  | field o =>
      have hcomma {ts : List Token} (hts : Grouped cs ts) : NotAhead [.comma] (ts ++ t :: rest) :=
        hts.notAhead (by decide) (notAhead_declaration ht (by decide) rest)
      obtain ⟨parsed, last⟩ := out
      have hread {ts : List Token} (hts : Grouped cs ts) :
          read stop (o.tokens ++ (ts ++ t :: rest)) = .ok (parsed, last) ↔ _ :=
        read_opening_eq_ok_iff o [] (hcomma hts)
      simp only [hread hts, hread hus, untilBrace_regrouped hts hus ht hshape hother]
  | refused hsign hbare =>
      have herror {ts : List Token} (hts : Grouped cs ts) :
          ∃ e, read stop (front ++ (ts ++ t :: rest)) = .error e := by
        cases hts with
        | nil => exact hbare rfl stop rest
        | single sign c hmore => exact hsign stop sign _
        | block sign opening hinside hmore => exact hsign stop sign _
      obtain ⟨e, he⟩ := herror hts
      obtain ⟨e', he'⟩ := herror hus
      rw [he, he']
      simp

end Regrouped

/-! ### Sources -/

/-- Whether tokens are well shaped is seen in their words. -/
theorem hasShape_of_map_word {ts us : List Token} (h : ts.map Token.word = us.map Token.word)
    (hts : ∀ t ∈ ts, t.HasShape) : ∀ u ∈ us, u.HasShape := by
  intro u hu
  have hmem : u.word ∈ ts.map Token.word := h ▸ List.mem_map_of_mem hu
  obtain ⟨t, ht, hword⟩ := List.mem_map.mp hmem
  have hshape : Lexeme.HasShape ⟨t.word.1, t.word.2.toList⟩ := hts t ht
  rwa [hword] at hshape

/-- What a source is parsed as, places apart, is seen in its words. -/
theorem displaceOutcome_parse {text source : String} {ts : List Token}
    (htext : (Tokens.ofSource text source).list.map Token.word = ts.map Token.word)
    (place : Location) :
    displaceOutcome (fun _ => place) (Package.displace fun _ => place) (parse text source) =
      displaceOutcome (fun _ => place) (Package.displace fun _ => place)
        (ofTokens ⟨ts, default⟩) := by
  have htokens : (Tokens.ofSource text source).displace (fun _ => place) =
      (⟨ts, default⟩ : Tokens).displace fun _ => place :=
    Tokens.displace_eq_of_map_word htext place
  rw [parse, ← ofTokens_displace, ← ofTokens_displace, htokens]

section Sources

variable {text other source otherSource : String} {front : List Token} {cs : List Clause}
  {ts us : List Token} {t : Token} {rest : List Token} (hfront : Before cs t front)
  (hts : Grouped cs ts) (hus : Grouped cs us) (ht : t.kind ∈ declarationKinds)
  (htext : (Tokens.ofSource text source).list.map Token.word =
    (front ++ (ts ++ t :: rest)).map Token.word)
  (hother : (Tokens.ofSource other otherSource).list.map Token.word =
    (front ++ (us ++ t :: rest)).map Token.word)

include hfront hts hus ht htext hother

/-- A source that is parsed is parsed with other groups of attributes, too. -/
theorem exists_parse_regrouped {package : Package} (h : parse text source = .ok package)
    (place : Location) : ∃ same, parse other otherSource = .ok same ∧
      package.displace (fun _ => place) = same.displace fun _ => place := by
  have hshape {text source : String} {ts : List Token}
      (htext : (Tokens.ofSource text source).list.map Token.word =
        (front ++ (ts ++ t :: rest)).map Token.word) : ∀ u ∈ ts ++ t :: rest, u.HasShape :=
    (List.forall_mem_append.mp
      (hasShape_of_map_word htext (Tokens.wellShaped_ofSource text source))).2
  have hgroups (parsed : Package) :
      ofTokens ⟨front ++ (ts ++ t :: rest), default⟩ = .ok parsed ↔
        ofTokens ⟨front ++ (us ++ t :: rest), default⟩ = .ok parsed := by
    simp only [ofTokens_eq_ok_iff_read,
      read_regrouped hts hus ht (hshape htext) (hshape hother) hfront]
  obtain ⟨parsed, hparsed, hplaces⟩ :=
    exists_eq_ok_of_displaceOutcome_eq (displaceOutcome_parse htext place) h
  obtain ⟨same, hsame, hagain⟩ := exists_eq_ok_of_displaceOutcome_eq
    (displaceOutcome_parse hother place).symm ((hgroups parsed).mp hparsed)
  exact ⟨same, hsame, hplaces.trans hagain⟩

/-- Two sources that differ in how the same clauses before a declaration are grouped are both
parsed or both refused, and the packages that they hold are the same but for places. -/
theorem parse_regrouped :
    ((∃ package, parse text source = .ok package) ↔
      ∃ same, parse other otherSource = .ok same) ∧
    ∀ package same, parse text source = .ok package → parse other otherSource = .ok same →
      ∀ place, package.displace (fun _ => place) = same.displace fun _ => place := by
  refine ⟨⟨?_, ?_⟩, ?_⟩
  · rintro ⟨package, hpackage⟩
    obtain ⟨same, hsame, -⟩ :=
      exists_parse_regrouped hfront hts hus ht htext hother hpackage default
    exact ⟨same, hsame⟩
  · rintro ⟨same, hsame⟩
    obtain ⟨package, hpackage, -⟩ :=
      exists_parse_regrouped hfront hus hts ht hother htext hsame default
    exact ⟨package, hpackage⟩
  · intro package same hpackage hsame place
    obtain ⟨again, hagain, hplaces⟩ :=
      exists_parse_regrouped hfront hts hus ht htext hother hpackage place
    cases hagain.symm.trans hsame
    exact hplaces

end Sources

section Versioned

/-- A version and a name in generated code. -/
def versioned : List Clause :=
  [⟨wordAt 23 .identifier "version" trivial, some (wordAt 30 .colon ":" trivial,
      .number (integerSum (wordAt 32 .integer "2" ⟨by decide, List.all_eq_true.mp rfl⟩)))⟩,
    ⟨wordAt 35 .identifier "export_as" trivial, some (wordAt 44 .colon ":" trivial,
      .text (wordAt 46 .string "\"b\""
        (@Lexeme.IsQuoted.intro ['b'] (by simp [Lexeme.isQuotable]))))⟩]

/-- A field has the same attributes where each stands in a group of its own and where both stand in
one, behind an empty one. -/
theorem parse_regrouped_versioned : ∃ package same,
    parse "package \"q\" class T \x7b @version: 2 @export_as: \"b\" int a \x7d" "" = .ok package ∧
      parse ("package \"q\" class T \x7b @\x7b\x7d " ++
        "@\x7b version: 2, export_as: \"b\", \x7d int a \x7d") "" = .ok same ∧
      ∀ place, package.displace (fun _ => place) = same.displace fun _ => place := by
  let sign : Word .at := wordAt 22 .at "@" trivial
  let opening : Word .leftBrace := wordAt 23 .leftBrace "\x7b" trivial
  let closing : Word .rightBrace := wordAt 24 .rightBrace "\x7d" trivial
  let comma : Word .comma := wordAt 38 .comma "," trivial
  let type : Token := tokenAt 50 .identifier "int"
  let rest : List Token := [tokenAt 54 .identifier "a", tokenAt 56 .rightBrace "\x7d"]
  obtain ⟨ts, hapart, htext⟩ : ∃ ts, Grouped versioned ts ∧
      (Tokens.ofSource "package \"q\" class T \x7b @version: 2 @export_as: \"b\" int a \x7d"
        "").list.map Token.word =
        (Schema.pairOpening.tokens ++ (ts ++ type :: rest)).map Token.word :=
    ⟨_, .single sign _ (.single sign _ .nil), by with_unfolding_all rfl⟩
  obtain ⟨us, htogether, hother⟩ : ∃ us, Grouped versioned us ∧
      (Tokens.ofSource ("package \"q\" class T \x7b @\x7b\x7d " ++
        "@\x7b version: 2, export_as: \"b\", \x7d int a \x7d") "").list.map Token.word =
        (Schema.pairOpening.tokens ++ (us ++ type :: rest)).map Token.word :=
    ⟨_, .block sign opening (.close closing)
      (.block sign opening (.more _ comma (.more _ comma (.close closing))) .nil),
      by with_unfolding_all rfl⟩
  have hparse : ∃ package, parse
      "package \"q\" class T \x7b @version: 2 @export_as: \"b\" int a \x7d" "" = .ok package :=
    ⟨_, by with_unfolding_all rfl⟩
  have hkind : type.kind ∈ declarationKinds := by decide
  obtain ⟨hiff, hplaces⟩ :=
    parse_regrouped (.field Schema.pairOpening) hapart htogether hkind htext hother
  obtain ⟨package, hpackage⟩ := hparse
  obtain ⟨same, hsame⟩ := hiff.mp ⟨package, hpackage⟩
  exact ⟨package, same, hpackage, hsame, hplaces package same hpackage hsame⟩

end Versioned

end Package

end SchemaLang
