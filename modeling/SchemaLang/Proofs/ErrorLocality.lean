import SchemaLang.Proofs.ParserFaults

/-!
# Errors are local

The error of a source that holds no package is about one of its tokens.  If it is that something
else was needed than that token, then the token decides: no source that is the same up to there
holds a package, and all of them have the same error.
-/

namespace SchemaLang

open SchemaLang.Parser (AlikeUpTo)

/-- The error is that something else was needed than what was found. -/
def SyntaxError.RejectsToken : SyntaxError → Prop
  | .invalidToken _ _ => True
  | .unexpectedToken _ _ _ => True
  | _ => False

theorem Slot.location_unexpected (slot : Slot) (expected : Expectation) :
    (slot.unexpected expected).location = slot.location := by
  cases slot with
  | token t =>
      rw [unexpected]
      split <;> rfl
  | stop place => rfl

namespace Parser.Fault

variable {slots : List Slot} {r : Routine} {seen : Option Nat} {e : SyntaxError}

/-- Every error is about a slot that has been looked at. -/
theorem exists_location (h : Fault slots r seen e) :
    ∃ slot ∈ slots, slot.location = e.location := by
  cases h with
  | unexpected hslot expected =>
      exact ⟨_, List.mem_of_getElem? hslot, (Slot.location_unexpected _ expected).symm⟩
  | string ht _ h =>
      obtain rfl := Literal.unquote_eq_error h
      exact ⟨_, List.mem_of_getElem? ht, rfl⟩
  | size ht _ _ h =>
      obtain rfl := Literal.toSize_eq_error h
      exact ⟨_, List.mem_of_getElem? ht, rfl⟩
  | version ht _ _ h =>
      obtain rfl := Literal.toInt_eq_error h
      exact ⟨_, List.mem_of_getElem? ht, rfl⟩
  | number ht _ h =>
      obtain rfl := Literal.toFloat_eq_error h
      exact ⟨_, List.mem_of_getElem? ht, rfl⟩
  | key ht => exact ⟨_, List.mem_of_getElem? ht, rfl⟩
  | value hslot => exact ⟨_, List.mem_of_getElem? hslot, rfl⟩
  | range hslot => exact ⟨_, List.mem_of_getElem? hslot, rfl⟩
  | target hslot => exact ⟨_, List.mem_of_getElem? hslot, rfl⟩

/-- What was not expected is in the slot that has been looked at last. -/
theorem exists_rejected (h : Fault slots r seen e) (hrejects : e.RejectsToken) :
    ∃ i slot expected, seen = some i ∧ slots[i]? = some slot ∧ e = slot.unexpected expected := by
  cases h with
  | unexpected hslot expected => exact ⟨_, _, expected, rfl, hslot, rfl⟩
  | string _ _ h =>
      obtain rfl := Literal.unquote_eq_error h
      cases hrejects
  | size _ _ _ h =>
      obtain rfl := Literal.toSize_eq_error h
      cases hrejects
  | version _ _ _ h =>
      obtain rfl := Literal.toInt_eq_error h
      cases hrejects
  | number _ _ h =>
      obtain rfl := Literal.toFloat_eq_error h
      cases hrejects
  | key => cases hrejects
  | value => cases hrejects
  | range => cases hrejects
  | target => cases hrejects

end Parser.Fault

/-- Where places are distinct, a place tells the index. -/
theorem index_unique_of_location {slots : List Slot} (h : (slots.map Slot.location).Nodup)
    {i j : Nat} {a b : Slot} (ha : slots[i]? = some a) (hb : slots[j]? = some b)
    (hab : a.location = b.location) : i = j := by
  have hi : (slots.map Slot.location)[i]? = some a.location := by rw [List.getElem?_map, ha]; rfl
  have hj : (slots.map Slot.location)[j]? = some b.location := by rw [List.getElem?_map, hb]; rfl
  obtain ⟨hlength, -⟩ := List.getElem?_eq_some_iff.mp hi
  exact (List.getElem?_inj hlength h).mp (by rw [hi, hj, hab])

namespace Package

/-- An error is about a token.  A token that is rejected is rejected whatever stands behind it; it
is the one at the place of the error, if no two tokens are at one place. -/
theorem ofTokens_error_local {ts : Tokens} {e : SyntaxError} (h : ofTokens ts = .error e) :
    (∃ slot ∈ ts.slots, slot.location = e.location) ∧
      (e.RejectsToken → ∃ i slot expected,
        ts.slots[i]? = some slot ∧ e = slot.unexpected expected ∧
          ∀ others : Tokens, AlikeUpTo i others.slots ts.slots → ofTokens others = .error e) ∧
      (e.RejectsToken → (ts.slots.map Slot.location).Nodup → ∀ i slot,
        ts.slots[i]? = some slot → slot.location = e.location →
          ∀ others : Tokens, AlikeUpTo i others.slots ts.slots → ofTokens others = .error e) := by
  obtain ⟨r, seen, -, hfault, hlocal⟩ := Parser.fault_of_reader .package trivial h
  refine ⟨hfault.exists_location, fun hrejects => ?_,
    fun hrejects hplaces i slot hslot hplace => ?_⟩
  · obtain ⟨i, slot, expected, hseen, hslot, rfl⟩ := hfault.exists_rejected hrejects
    exact ⟨i, slot, expected, hslot, rfl, hlocal i hseen⟩
  · obtain ⟨j, rejected, expected, hseen, hrejected, rfl⟩ := hfault.exists_rejected hrejects
    rw [Slot.location_unexpected] at hplace
    obtain rfl := index_unique_of_location hplaces hslot hrejected hplace
    exact hlocal i hseen

/-- A source with a number where a declaration should start. -/
def numbered : Tokens :=
  ⟨[⟨.packageKeyword, "package", ⟨0, 1, 1, ""⟩⟩, ⟨.string, "\"p\"", ⟨8, 1, 9, ""⟩⟩,
    ⟨.integer, "12", ⟨12, 1, 13, ""⟩⟩, ⟨.rightBrace, "\x7d", ⟨14, 1, 15, ""⟩⟩], ⟨15, 1, 16, ""⟩⟩

/-- The number is the third token, and decides. -/
theorem ofTokens_numbered :
    ofTokens numbered = .error (.unexpectedToken .declaration (some "12") ⟨12, 1, 13, ""⟩) ∧
      ∀ others : Tokens, AlikeUpTo 2 others.slots numbered.slots →
        ofTokens others = .error (.unexpectedToken .declaration (some "12") ⟨12, 1, 13, ""⟩) := by
  have hnumber : ofTokens numbered =
      .error (.unexpectedToken .declaration (some "12") ⟨12, 1, 13, ""⟩) := by
    with_unfolding_all rfl
  exact ⟨hnumber, (ofTokens_error_local hnumber).2.2 trivial (by decide) 2 _ rfl rfl⟩

end Package

end SchemaLang
