import SchemaLang.Proofs.ExprReading

/-!
# Reading attributes by their grammar

Every key asks for a value of its own, and each value is read by its rule.  Entries stand alone or
in a block, and all attributes before a declaration are read as one list.
-/

namespace SchemaLang

open TokenReader Grammar
open SchemaLang.Expr (termKinds reads_constant)

/-- String literals are read as the text between their quotes. -/
theorem TokenReader.reads_quoted (expected : Expectation) :
    Reads (quoted expected)
      ((Rule.terminal fun t => t.kind = .string).map fun t => Literal.textOf t.literal) [] where
  run stop t rest _ := by
    have htext : SucceedsIff (Literal.unquote t.1.literal t.1.location) True
        (Literal.textOf t.1.literal) := by
      rw [Token.unquote_literal t.2.2 (kind_word t)]
      exact .pure _
    exact .read_after (expect_word t expected stop rest) htext.read_ofExcept
  covers hts h := by
    obtain ⟨t, mid, rfl, -, htext⟩ := split_take hts h
    obtain ⟨-, rfl⟩ := of_ofExcept htext
    exact ⟨t, rfl⟩

namespace Attribute

/-- Two bounds make a range, if one at all, with themselves as its ends. -/
theorem succeedsIff_ofBounds (b : Bounds) (place : Location) :
    SucceedsIff (ofBounds b.range.lower b.range.lowerInclusive b.range.upper
        b.range.upperInclusive place)
      (Range.make b.range.lower b.range.lowerInclusive b.range.upper b.range.upperInclusive =
        .ok b.range) (.range b.range) := by
  unfold ofBounds
  cases hmake : Range.make b.range.lower b.range.lowerInclusive b.range.upper
      b.range.upperInclusive with
  | error reason => exact .error (by simp)
  | ok values =>
      have hvalues : values = b.range := by
        unfold Range.make at hmake
        split at hmake
        · cases hmake
        split at hmake
        · cases hmake
        · cases hmake
          rfl
      subst hvalues
      exact (SucceedsIff.pure _).congr (by simp) fun _ => rfl

theorem reads_readBounds : Reads readBounds bounds [] where
  run stop b rest _ := by
    have hcomma : NotAhead termKinds
        (b.comma.1 :: (constant.tokens b.upper ++ b.closing.1 :: rest)) := by
      simp [kind_word b.comma, termKinds]
    have hclosing : NotAhead termKinds (b.closing.1 :: rest) := by
      have hkind : b.closing.1.kind = .rightBracket ∨ b.closing.1.kind = .rightAngle := by
        simpa using b.closing.2.1
      rcases hkind with h | h <;> simp [h, termKinds]
    have htokens : bounds.tokens b ++ rest = b.opening.1 :: (constant.tokens b.lower ++
        b.comma.1 :: (constant.tokens b.upper ++ b.closing.1 :: rest)) := by
      simp [bounds]
    rw [htokens]
    refine .read_after (take_cons b.opening.2.1 _ stop _) ?_
    refine (reads_constant.run stop b.lower hcomma).read_bind fun _ => ?_
    refine .read_after (expect_word b.comma _ stop _) ?_
    refine (reads_constant.run stop b.upper hclosing).read_bind fun _ => ?_
    refine .read_after (take_cons b.closing.2.1 _ stop rest) ?_
    exact (succeedsIff_ofBounds b b.opening.1.location).read_ofExcept
  covers hts h := by
    obtain ⟨opening, mid, rfl, hmid, h⟩ := split_take hts h
    obtain ⟨lower, mid, _, rfl, hmid, h⟩ := reads_constant.split hmid h
    obtain ⟨comma, mid, rfl, hmid, h⟩ := split_take hmid h
    obtain ⟨upper, mid, _, rfl, hmid, h⟩ := reads_constant.split hmid h
    obtain ⟨closing, mid, rfl, -, h⟩ := split_take hmid h
    obtain ⟨-, rfl⟩ := of_ofExcept h
    exact ⟨⟨opening, lower, comma, upper, closing⟩, by simp [bounds]⟩

theorem reads_readPrecision : Reads readPrecision (constant.map precision) termKinds where
  run stop s rest hrest := by
    have hprecision (place : Location) : SucceedsIff (ofPrecision s.expr.value place)
        (constant.Admissible s) (.precision s.expr.value) := by
      unfold ofPrecision
      cases hnan : s.expr.value.isNaN with
      | true => exact .error fun hnumber => Bool.noConfusion (hnan.symm.trans hnumber)
      | false => exact (SucceedsIff.pure _).congr (iff_of_true trivial hnan) fun _ => rfl
    refine SucceedsIff.congr (.read_after (here_apply stop _) ?_) and_self_iff fun _ => rfl
    exact (reads_constant.run stop s hrest).read_bind fun _ => (hprecision _).read_ofExcept
  covers hts h := by
    obtain ⟨place, _, hplace, h⟩ := bind_eq_ok h
    cases hplace
    obtain ⟨s, mid, _, rfl, -, h⟩ := reads_constant.split hts h
    obtain ⟨-, rfl⟩ := of_ofExcept h
    exact ⟨s, rfl⟩

/-- The versions that are integers of 64 signed bits. -/
def versionNumber : Rule (Word .integer) Attribute where
  tokens number := [number.1]
  Admissible number := Decimal.FitsSigned (numberOf number)
  meaning number := .version (numberOf number)

theorem reads_readVersion : Reads readVersion versionNumber [] where
  run stop number rest _ := by
    have hdigits := Token.isDigits_literal number.2.2 (kind_word number)
    have hint := Literal.succeedsIff_toInt hdigits number.1.location
    exact .read_after (expect_word number _ stop rest) (hint.read_ofExcept.read_map _)
  covers hts h := by
    obtain ⟨number, mid, rfl, -, h⟩ := split_take hts h
    obtain ⟨n, last, hint, h⟩ := bind_eq_ok h
    obtain ⟨-, rfl⟩ := of_ofExcept hint
    cases h
    exact ⟨number, rfl⟩

theorem reads_readExportAs : Reads readExportAs
    (((Rule.terminal fun t => t.kind = .string).map fun t => Literal.textOf t.literal).map
      Attribute.exportAs) [] :=
  (reads_quoted _).map _

/-! ### Which value a key asks for -/

theorem readBehind_message {key : Token} (h : key.literal = "message") :
    readBehind key = Pure.pure .message := by
  rw [readBehind, if_pos h]

theorem readBehind_exportAs {key : Token}
    (h : key.literal = "export_as" ∨ key.literal = "exportAs") :
    readBehind key = readValue readExportAs := by
  rw [readBehind, if_neg (by rcases h with h | h <;> simp [h]), if_pos h]

theorem readBehind_precision {key : Token} (h : key.literal = "precision") :
    readBehind key = readValue readPrecision := by
  simp [readBehind, h]

theorem readBehind_range {key : Token} (h : key.literal = "range") :
    readBehind key = readValue readBounds := by
  simp [readBehind, h]

theorem readBehind_version {key : Token} (h : key.literal = "version") :
    readBehind key = readValue readVersion := by
  simp [readBehind, h]

theorem readBehind_eq_ok {key : Token} {stop : Location} {ts rest : List Token} {a : Attribute}
    (h : readBehind key stop ts = .ok (a, rest)) :
    key.literal = "message" ∨ (key.literal = "export_as" ∨ key.literal = "exportAs") ∨
      key.literal = "precision" ∨ key.literal = "range" ∨ key.literal = "version" := by
  refine Decidable.byContradiction fun hnone => ?_
  simp only [not_or] at hnone
  obtain ⟨hmessage, hexportAs, hprecision, hrange, hversion⟩ := hnone
  rw [readBehind, if_neg hmessage, if_neg (not_or.mpr hexportAs), if_neg hprecision,
    if_neg hrange, if_neg hversion] at h
  cases h

theorem reads_readEntry : Reads readEntry entry termKinds where
  run stop e rest hrest := by
    have hkey {word : String} (key : Key word) (ts : List Token) :
        expect .identifier .attributeName stop (key.1 :: ts) = .ok (key.1, ts) :=
      take_cons (by simpa using (kind_key key).1) _ _ _
    cases e with
    | message key =>
        refine .read_after (hkey key rest) ?_
        rw [readBehind_message (kind_key key).2]
        exact .pure _
    | exportAs key colon name =>
        have hword : key.1.kind = .identifier ∧
            (key.1.literal = "export_as" ∨ key.1.literal = "exportAs") := by
          simpa using key.2.1
        refine .read_after (take_cons (by simpa using hword.1) _ _ _) ?_
        rw [readBehind_exportAs hword.2]
        exact (reads_readExportAs.behind .colon _).run stop (colon, name) (notAhead_none _)
    | precision key colon step =>
        refine .read_after (hkey key _) ?_
        rw [readBehind_precision (kind_key key).2]
        exact (reads_readPrecision.behind .colon _).run stop (colon, step) hrest
    | range key colon values =>
        refine .read_after (hkey key _) ?_
        rw [readBehind_range (kind_key key).2]
        exact (reads_readBounds.behind .colon _).run stop (colon, values) (notAhead_none _)
    | version key colon number =>
        refine .read_after (hkey key _) ?_
        rw [readBehind_version (kind_key key).2]
        exact (reads_readVersion.behind .colon _).run stop (colon, number) (notAhead_none _)
  covers hts h := by
    obtain ⟨key, mid, rfl, hmid, h⟩ := split_take hts h
    have hkind := kind_word key
    rcases readBehind_eq_ok h with hkey | hkey | hkey | hkey | hkey
    · rw [readBehind_message hkey] at h
      cases h
      exact ⟨.message ⟨key.1, by simpa using ⟨hkind, hkey⟩, key.2.2⟩, rfl⟩
    · rw [readBehind_exportAs hkey] at h
      obtain ⟨x, rfl⟩ := (reads_readExportAs.behind .colon _).covers hmid h
      exact ⟨.exportAs ⟨key.1, by simpa using ⟨hkind, hkey⟩, key.2.2⟩ x.1 x.2, rfl⟩
    · rw [readBehind_precision hkey] at h
      obtain ⟨x, rfl⟩ := (reads_readPrecision.behind .colon _).covers hmid h
      exact ⟨.precision ⟨key.1, by simpa using ⟨hkind, hkey⟩, key.2.2⟩ x.1 x.2, rfl⟩
    · rw [readBehind_range hkey] at h
      obtain ⟨x, rfl⟩ := (reads_readBounds.behind .colon _).covers hmid h
      exact ⟨.range ⟨key.1, by simpa using ⟨hkind, hkey⟩, key.2.2⟩ x.1 x.2, rfl⟩
    · rw [readBehind_version hkey] at h
      obtain ⟨x, rfl⟩ := (reads_readVersion.behind .colon _).covers hmid h
      exact ⟨.version ⟨key.1, by simpa using ⟨hkind, hkey⟩, key.2.2⟩ x.1 x.2, rfl⟩

theorem startsWith_entry : StartsWith entry [.identifier] := by
  intro e
  cases e with
  | message key => exact ⟨_, _, rfl, by simp [(kind_key key).1]⟩
  | exportAs key colon name =>
      have hword : key.1.kind = .identifier ∧
          (key.1.literal = "export_as" ∨ key.1.literal = "exportAs") := by
        simpa using key.2.1
      exact ⟨_, _, rfl, by simp [hword.1]⟩
  | precision key colon step => exact ⟨_, _, rfl, by simp [(kind_key key).1]⟩
  | range key colon values => exact ⟨_, _, rfl, by simp [(kind_key key).1]⟩
  | version key colon number => exact ⟨_, _, rfl, by simp [(kind_key key).1]⟩

theorem reads_entries :
    Reads (commaSeparated readEntry advances_readEntry) entry.listed [] :=
  reads_commaSeparated reads_readEntry startsWith_entry (by decide) _ (by decide) (by decide)

theorem reads_readGroup : Reads readGroup group termKinds where
  run stop g rest hrest := by
    cases g with
    | single only =>
        have hentry : NotAhead [.leftBrace] (entry.tokens only ++ rest) :=
          startsWith_entry.notAhead (by decide) only rest
        refine .read_after (accept_of_notAhead hentry stop) ?_
        exact (reads_readEntry.run stop only hrest).read_map fun a => [a]
    | block opening entries =>
        refine .read_after (accept_cons (kind_word opening) stop _) ?_
        exact reads_entries.run stop entries (notAhead_none _)
  covers hts h := by
    obtain ⟨braced, mid, haccept, hbehind⟩ := bind_eq_ok h
    obtain ⟨rfl, t, hkind, rfl⟩ | ⟨rfl, rfl⟩ := of_accept haccept
    · obtain ⟨ht, hts⟩ := List.forall_mem_cons.mp hts
      obtain ⟨entries, rfl⟩ := reads_entries.covers hts hbehind
      exact ⟨.block ⟨t, by simpa using hkind, ht⟩ entries, rfl⟩
    · obtain ⟨only, last, _, rfl, -, hrest⟩ := reads_readEntry.split hts hbehind
      cases hrest
      exact ⟨.single only, rfl⟩

/-- The attributes before a declaration end where neither a further group nor an operator comes
next. -/
theorem reads_readAll : Reads readAll attributes (.at :: termKinds) :=
  (reads_manyAfter reads_readGroup (by decide) advances_readGroup.keeps).map List.flatten

end Attribute

end SchemaLang
