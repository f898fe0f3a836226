import SchemaLang.Proofs.LiteralShape
import SchemaLang.Proofs.ParserFaults

/-!
# Literals are converted

A routine converts a literal that it has found to be a string, an integer or a number.  The lexer
has cut such a literal in the shape of its kind, so the conversion does what it should: the one
thing that can go wrong is an integer of `2 ^ 63` or more, as the size of an array or as a version.
-/

namespace SchemaLang

open SchemaLang.Parser (Fault Routine SizePlace VersionPlace)

theorem Tokens.mem_of_getElem?_slots {ts : Tokens} {i : Nat} {t : Token}
    (h : ts.slots[i]? = some (.token t)) : t ∈ ts.list := by
  have hmem := List.mem_of_getElem? h
  simpa [Tokens.slots] using hmem

namespace Token

/-- The text of a string is what stands between its quotes. -/
theorem unquote_ne_error {t : Token} (h : t.HasShape) (hkind : t.kind = .string) (place : Location)
    (e : SyntaxError) : Literal.unquote t.literal place ≠ .error e := by
  rw [unquote_literal h hkind]
  exact nofun

/-- The literal of a number writes a float, whatever its digits are. -/
theorem exists_toFloat {t : Token} (h : t.HasShape) (hkind : t.kind = .integer ∨ t.kind = .float)
    (place : Location) : ∃ x, Literal.toFloat t.literal place = .ok x := by
  obtain ⟨x, hx⟩ := Option.isSome_iff_exists.mp (isSome_readFloat?_literal h hkind)
  exact ⟨x, by rw [Literal.toFloat, hx]⟩

theorem toFloat_ne_error {t : Token} (h : t.HasShape) (hkind : t.kind = .integer ∨ t.kind = .float)
    (place : Location) (e : SyntaxError) : Literal.toFloat t.literal place ≠ .error e := by
  obtain ⟨x, hx⟩ := exists_toFloat h hkind place
  rw [hx]
  exact nofun

/-- An integer of a source that is the size of an array or a version, and too large for 64 signed
bits. -/
structure Overflows (ts : Tokens) (t : Token) : Prop where
  integer : t.kind = .integer
  placed : ∃ i, ts.slots[i]? = some (.token t) ∧ (SizePlace ts.slots i ∨ VersionPlace ts.slots i)
  large : ¬ Decimal.FitsSigned (Decimal.natOf t.literal.toList)

end Token

/-- The error is that a literal cannot be converted. -/
def SyntaxError.RefusesLiteral : SyntaxError → Prop
  | .malformedString _ _ => True
  | .invalidNumber _ _ => True
  | _ => False

theorem Slot.not_refusesLiteral_unexpected (slot : Slot) (expected : Expectation) :
    ¬ (slot.unexpected expected).RefusesLiteral := by
  cases slot with
  | token t =>
      rw [unexpected]
      split <;> exact id
  | stop place => exact id

/-- Where literals have the shape of their kinds, the only ones that are refused are integers that
are too large, and none in an expression. -/
theorem Parser.Fault.overflows {ts : Tokens} (hshaped : ts.WellShaped) {r : Routine}
    {seen : Option Nat} {e : SyntaxError} (h : Fault ts.slots r seen e)
    (hrefuses : e.RefusesLiteral) :
    ¬ r.Arithmetic ∧ ∃ t : Token, t.Overflows ts ∧ e = .invalidNumber t.literal t.location := by
  have hshape {i : Nat} {t : Token} (ht : ts.slots[i]? = some (.token t)) : t.HasShape :=
    hshaped t (Tokens.mem_of_getElem?_slots ht)
  cases h with
  | unexpected _ expected => exact absurd hrefuses (Slot.not_refusesLiteral_unexpected _ expected)
  | string ht hkind h => exact absurd h (Token.unquote_ne_error (hshape ht) hkind _ e)
  | size ht hkind hplace h =>
      obtain rfl := Literal.toSize_eq_error h
      have hdigits := Token.isDigits_literal (hshape ht) hkind
      have hlarge := (Literal.succeedsIff_toSize hdigits _).not_of_eq_error h
      exact ⟨id, _, ⟨hkind, ⟨_, ht, .inl hplace⟩, hlarge⟩, rfl⟩
  | version ht hkind hplace h =>
      obtain rfl := Literal.toInt_eq_error h
      have hdigits := Token.isDigits_literal (hshape ht) hkind
      have hlarge := (Literal.succeedsIff_toInt hdigits _).not_of_eq_error h
      exact ⟨id, _, ⟨hkind, ⟨_, ht, .inr hplace⟩, hlarge⟩, rfl⟩
  | number ht hkind h => exact absurd h (Token.toFloat_ne_error (hshape ht) hkind _ e)
  | key => cases hrefuses
  | value => cases hrefuses
  | range => cases hrefuses
  | target => cases hrefuses

namespace Package

theorem overflows_of_parse {text source : String} {e : SyntaxError}
    (h : parse text source = .error e) (hrefuses : e.RefusesLiteral) :
    ∃ t : Token, t.Overflows (.ofSource text source) ∧ e = .invalidNumber t.literal t.location := by
  obtain ⟨r, seen, -, hfault, -⟩ := Parser.fault_of_reader .package trivial h
  exact (hfault.overflows (Tokens.wellShaped_ofSource text source) hrefuses).2

end Package

/-- No literal of an expression is refused. -/
theorem Expr.not_refusesLiteral_of_evaluate {text : String} {e : SyntaxError}
    (h : evaluate text = .error e) : ¬ e.RefusesLiteral := by
  intro hrefuses
  rw [evaluate_eq] at h
  obtain ⟨r, seen, harithmetic, hfault, -⟩ := Parser.fault_of_reader .expression trivial h
  exact (hfault.overflows (Tokens.wellShaped_ofSource text "") hrefuses).1 (harithmetic trivial)

/-- Of the literals of a source those that are refused are integers of `2 ^ 63` or more, as sizes of
arrays and versions; a constant expression has none of them. -/
theorem literals_of_source (text source : String) :
    (∀ literal place, Package.parse text source ≠ .error (.malformedString literal place)) ∧
      (∀ literal place, Package.parse text source = .error (.invalidNumber literal place) →
        ∃ t : Token, t.Overflows (.ofSource text source) ∧ t.literal = literal ∧
          t.location = place) ∧
      (∀ literal place, Expr.evaluate text ≠ .error (.malformedString literal place) ∧
        Expr.evaluate text ≠ .error (.invalidNumber literal place)) ∧
      ∀ t ∈ (Tokens.ofSource text source).list, t.kind = .integer ∨ t.kind = .float →
        ∃ x, Literal.toFloat t.literal t.location = .ok x := by
  refine ⟨fun literal place h => ?_, fun literal place h => ?_, fun literal place => ⟨?_, ?_⟩,
    fun t ht hkind => ?_⟩
  · obtain ⟨t, -, ht⟩ := Package.overflows_of_parse h trivial
    cases ht
  · obtain ⟨t, hoverflows, ht⟩ := Package.overflows_of_parse h trivial
    cases ht
    exact ⟨t, hoverflows, rfl, rfl⟩
  · exact fun h => Expr.not_refusesLiteral_of_evaluate h trivial
  · exact fun h => Expr.not_refusesLiteral_of_evaluate h trivial
  · exact Token.exists_toFloat (Tokens.wellShaped_ofSource text source t ht) hkind t.location

/-- A version that is one too large. -/
example : Package.parse "@version: 9223372036854775808 package \"p\"" "" =
    .error (.invalidNumber "9223372036854775808" ⟨10, 1, 11, ""⟩) := by
  with_unfolding_all rfl

end SchemaLang
