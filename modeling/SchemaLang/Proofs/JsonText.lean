import SchemaLang.Json
import SchemaLang.Proofs.DecimalText
import SchemaLang.Proofs.Shows

/-!
# The text of a JSON value

A JSON value is read back from its text over several lines, apart from the floats that are no finite
numbers, which all become `null`.
-/

namespace SchemaLang.Json

open Decimal (IsFinite)

/-! ### Strings -/

/-- The number that a hexadecimal digit stands for. -/
def hexValue (c : Char) : Nat :=
  if c.isDigit then c.toNat - '0'.toNat else c.toNat - 'a'.toNat + 10

/-- The character that one letter behind a backslash stands for. -/
def unmark : Char → Char
  | 'b' => '\x08'
  | 'f' => '\x0c'
  | 'n' => '\n'
  | 'r' => '\r'
  | 't' => '\t'
  | c => c

/-- The first character inside a string, and what stands behind it; nothing if the string ends. -/
def unescape : List Char → Option (Char × List Char)
  | [] => none
  | '"' :: _ => none
  | '\\' :: 'u' :: '0' :: '0' :: high :: low :: rest =>
      some (Char.ofNat (hexValue high * 16 + hexValue low), rest)
  | '\\' :: mark :: rest => some (unmark mark, rest)
  | c :: rest => some (c, rest)

theorem hexValue_digitChar : ∀ n < 16, hexValue (Nat.digitChar n) = n := by
  decide

theorem unescape_escape (c : Char) (rest : List Char) :
    unescape (escape c ++ rest) = some (c, rest) := by
  unfold escape
  split
  case h_8 =>
    split
    · rename_i hcontrol
      have hvalue : hexValue (Nat.digitChar (c.toNat / 16)) * 16 +
          hexValue (Nat.digitChar (c.toNat % 16)) = c.toNat := by
        rw [hexValue_digitChar _ (by omega), hexValue_digitChar _ (by omega)]
        omega
      show some (Char.ofNat _, rest) = _
      rw [hvalue, Char.ofNat_toNat]
    · show unescape (c :: rest) = _
      unfold unescape
      split <;> simp_all
  all_goals rfl

theorem flatMap_escape_append_inj {cs ds r s : List Char}
    (h : cs.flatMap escape ++ '"' :: r = ds.flatMap escape ++ '"' :: s) : cs = ds ∧ r = s := by
  have hend (rest : List Char) : unescape ('"' :: rest) = none := rfl
  induction cs generalizing ds with
  | nil =>
      cases ds with
      | nil => exact ⟨rfl, (List.cons.inj h).2⟩
      | cons d ds =>
          have hfirst := congrArg unescape h
          rw [List.flatMap_cons, List.append_assoc, unescape_escape] at hfirst
          cases hfirst
  | cons c cs ih =>
      have hfirst := congrArg unescape h
      rw [List.flatMap_cons, List.append_assoc, unescape_escape] at hfirst
      cases ds with
      | nil => cases hfirst
      | cons d ds =>
          rw [List.flatMap_cons, List.append_assoc, unescape_escape] at hfirst
          obtain ⟨hc, hrest⟩ := Prod.mk.inj (Option.some.inj hfirst)
          obtain ⟨rfl, rfl⟩ := ih hrest
          exact ⟨by rw [hc], rfl⟩

/-- A string ends at the first quote that is not escaped. -/
theorem quote_append_inj {a b : String} {r s : List Char} (h : quote a ++ r = quote b ++ s) :
    a = b ∧ r = s := by
  simp only [quote, List.cons_append, List.append_assoc, List.nil_append] at h
  obtain ⟨hchars, hrest⟩ := flatMap_escape_append_inj (List.cons.inj h).2
  exact ⟨String.toList_inj.mp hchars, hrest⟩

/-! ### Numbers -/

theorem isNumeral_of_mem_toString {n : Int} : ∀ c ∈ (toString n).toList,
    Decimal.Style.isNumeral c ∧ c ≠ '.' ∧ c ≠ 'e' := by
  have hdigit (n : Nat) : ∀ c ∈ (toString n).toList,
      Decimal.Style.isNumeral c ∧ c ≠ '.' ∧ c ≠ 'e' := by
    intro c hc
    have hc := (Decimal.isDigits_toString n).2 c hc
    refine ⟨Decimal.Style.isNumeral_of_isDigit (.inl hc), ?_, ?_⟩ <;> rintro rfl <;> cases hc
  cases n with
  | ofNat n => exact hdigit n
  | negSucc n =>
      show ∀ c ∈ ("-" ++ toString (n + 1)).toList, _
      rw [String.toList_append]
      exact List.forall_mem_append.mpr ⟨by simp [Decimal.Style.isNumeral], hdigit (n + 1)⟩

/-- A whole number is not written like a float. -/
theorem toString_ne_write {n : Int} {x : Float} (hx : IsFinite x.toBits) :
    toString n ≠ number.write x := by
  intro h
  obtain ⟨c, hc, hmark⟩ := number.exists_mark_of_isFinite rfl hx
  obtain ⟨-, hpoint, hexponent⟩ := isNumeral_of_mem_toString c (h ▸ hc)
  exact hmark.elim hpoint hexponent

theorem number_write_of_not_isFinite {x : Float} (hx : ¬ IsFinite x.toBits) :
    number.write x = "null" := by
  unfold Decimal.Style.write Decimal.Style.ofBits
  rw [if_pos (not_not.mp hx)]
  split
  · rfl
  · split <;> rfl

/-! ### Values of finite numbers -/

/-- Values that are written as one word. -/
def isWord : Json → Bool
  | .null | .bool _ | .integer _ | .real _ => true
  | .string _ | .array _ | .object _ => false

/-- The values all of whose numbers are finite. -/
inductive Finite : Json → Prop
  | null : Finite .null
  | bool (b : Bool) : Finite (.bool b)
  | integer (n : Int) : Finite (.integer n)
  | real {x : Float} (h : IsFinite x.toBits) : Finite (.real x)
  | string (s : String) : Finite (.string s)
  | array {items : List Json} (h : ∀ x ∈ items, Finite x) : Finite (.array items)
  | object {members : List (String × Json)} (h : ∀ m ∈ members, Finite m.2) :
      Finite (.object members)

/-- The characters of words: none of those that other values start with or that may follow a
value. -/
def inWord (c : Char) : Bool :=
  c ≠ '"' && c ≠ '[' && c ≠ '\x7b' && c ≠ ',' && c ≠ '\n'

theorem inWord_of_isNumeral {c : Char} (h : Decimal.Style.isNumeral c) : inWord c := by
  have hne (d : Char) (hd : Decimal.Style.isNumeral d = false) : c ≠ d := by
    rintro rfl
    rw [hd] at h
    cases h
  simp [inWord, hne '"' rfl, hne '[' rfl, hne '\x7b' rfl, hne ',' rfl, hne '\n' rfl]

theorem inWord_of_mem_scalar {x : Json} (hx : x.Finite) (hword : x.isWord) :
    ∀ c ∈ x.scalar, inWord c := by
  cases hx with
  | null => simp [scalar, inWord]
  | bool b => cases b <;> simp [scalar, inWord]
  | integer n => exact fun c hc => inWord_of_isNumeral (isNumeral_of_mem_toString c hc).1
  | real h => exact fun c hc => inWord_of_isNumeral (number.isNumeral_of_mem_write h c hc)
  | string s => cases hword
  | array h => cases hword
  | object h => cases hword

/-- Words are told apart. -/
theorem eq_of_scalar_eq {x y : Json} (hx : x.Finite) (hy : y.Finite) (hxword : x.isWord)
    (hyword : y.isWord) (h : x.scalar = y.scalar) : x = y := by
  have hnull {cs : List Char} (hcs : ∀ c ∈ cs, Decimal.Style.isNumeral c) :
      Json.null.scalar ≠ cs ∧ ∀ b, (Json.bool b).scalar ≠ cs := by
    constructor
    · rintro rfl
      exact Bool.noConfusion (hcs 'n' List.mem_cons_self)
    · rintro (_ | _) rfl
      · exact Bool.noConfusion (hcs 'f' List.mem_cons_self)
      · exact Bool.noConfusion (hcs 't' List.mem_cons_self)
  have hinteger (n : Int) := hnull fun c hc => (isNumeral_of_mem_toString (n := n) c hc).1
  have hreal {x : Float} (hx : IsFinite x.toBits) := hnull (number.isNumeral_of_mem_write hx)
  cases hx with
  | null =>
      cases hy with
      | null => rfl
      | bool b => cases b <;> cases h
      | integer n => exact absurd h (hinteger n).1
      | real hy => exact absurd h (hreal hy).1
      | _ => cases hyword
  | bool b =>
      cases hy with
      | null => cases b <;> cases h
      | bool b' => cases b <;> cases b' <;> first | rfl | cases h
      | integer n => exact absurd h ((hinteger n).2 b)
      | real hy => exact absurd h ((hreal hy).2 b)
      | _ => cases hyword
  | integer n =>
      cases hy with
      | null => exact absurd h.symm (hinteger n).1
      | bool b => exact absurd h.symm ((hinteger n).2 b)
      | integer m => exact congrArg _ (Int.repr_inj.mp (String.toList_inj.mp h))
      | real hy => exact absurd (String.toList_inj.mp h) (toString_ne_write hy)
      | _ => cases hyword
  | real hx =>
      cases hy with
      | null => exact absurd h.symm (hreal hx).1
      | bool b => exact absurd h.symm ((hreal hx).2 b)
      | integer n => exact absurd (String.toList_inj.mp h.symm) (toString_ne_write hx)
      | real hy => exact congrArg _ (number.eq_of_write_eq hx hy (String.toList_inj.mp h))
      | _ => cases hyword
  | _ => cases hxword

/-! ### Texts of values -/

/-- The character that a value starts with, unless it is a word. -/
def opening : Json → Option Char
  | .string _ => some '"'
  | .array _ => some '['
  | .object _ => some '\x7b'
  | .null | .bool _ | .integer _ | .real _ => none

theorem prettyChars_of_isWord {x : Json} (h : x.isWord) (level : Nat) :
    prettyChars level x = x.scalar := by
  cases x <;> first | cases h; done | simp [prettyChars]

theorem prettyChars_string (level : Nat) (s : String) :
    prettyChars level (.string s) = quote s := by
  simp [prettyChars, scalar]

theorem toList_toString_ne_nil (n : Int) : (toString n).toList ≠ [] := by
  cases n with
  | ofNat n => exact (Decimal.isDigits_toString n).1
  | negSucc n =>
      show ("-" ++ toString (n + 1)).toList ≠ []
      simp

theorem scalar_ne_nil {x : Json} (hx : x.Finite) (hword : x.isWord) : x.scalar ≠ [] := by
  cases hx with
  | null => simp [scalar]
  | bool b => cases b <;> simp [scalar]
  | integer n => exact toList_toString_ne_nil n
  | real h =>
      obtain ⟨c, hc, -⟩ := number.exists_mark_of_isFinite rfl h
      exact List.ne_nil_of_mem hc
  | string s => cases hword
  | array h => cases hword
  | object h => cases hword

/-- A value starts with its opening character, a word with a character of words. -/
theorem exists_cons_prettyChars {x : Json} (hx : x.Finite) (level : Nat) :
    ∃ c cs, prettyChars level x = c :: cs ∧ x.opening = if inWord c then none else some c := by
  cases hword : x.isWord with
  | true =>
      rw [prettyChars_of_isWord hword]
      obtain ⟨c, cs, hcs⟩ := List.exists_cons_of_ne_nil (scalar_ne_nil hx hword)
      have hc := inWord_of_mem_scalar hx hword c (hcs ▸ List.mem_cons_self)
      refine ⟨c, cs, hcs, ?_⟩
      rw [if_pos hc]
      cases x <;> first | rfl | cases hword
  | false =>
      cases x with
      | string s => exact ⟨'"', _, prettyChars_string level s, rfl⟩
      | array items => cases items <;> exact ⟨'[', _, by simp [prettyChars]; rfl, rfl⟩
      | object members =>
          cases members <;> exact ⟨'\x7b', _, by simp [prettyChars]; rfl, rfl⟩
      | _ => cases hword

/-- Behind a value the text ends, or a comma or a new line follows. -/
def Ended (text : List Char) : Prop :=
  ∀ c ∈ text.head?, c = ',' ∨ c = '\n'

theorem Ended.inWord_eq {text : List Char} (h : Ended text) :
    ∀ c ∈ text.head?, inWord c = false := by
  intro c hc
  rcases h c hc with rfl | rfl <;> decide

theorem ended_prettyItems (level : Nat) (items : List Json) (rest : List Char) :
    Ended (prettyItems level items ++ rest) := by
  cases items <;> simp [Ended, prettyItems, newline]

theorem ended_prettyMembers (level : Nat) (members : List (String × Json)) (rest : List Char) :
    Ended (prettyMembers level members ++ rest) := by
  rcases members with _ | ⟨⟨key, x⟩, members⟩ <;> simp [Ended, prettyMembers, newline]

theorem opening_eq {level : Nat} {x y : Json} (hx : x.Finite) (hy : y.Finite) {r s : List Char}
    (h : prettyChars level x ++ r = prettyChars level y ++ s) : x.opening = y.opening := by
  obtain ⟨c, cs, htext, hopening⟩ := exists_cons_prettyChars hx level
  obtain ⟨d, ds, htext', hopening'⟩ := exists_cons_prettyChars hy level
  rw [htext, htext'] at h
  rw [hopening, hopening', (List.cons.inj h).1]

theorem isWord_iff (x : Json) : x.isWord ↔ x.opening = none := by
  cases x <;> simp [isWord, opening]

theorem word_append_inj {level : Nat} {x y : Json} (hword : x.isWord) (hx : x.Finite)
    (hy : y.Finite) {r s : List Char} (hr : Ended r) (hs : Ended s)
    (h : prettyChars level x ++ r = prettyChars level y ++ s) : x = y ∧ r = s := by
  have hyword : y.isWord := by
    rwa [isWord_iff, ← opening_eq hx hy h, ← isWord_iff]
  rw [prettyChars_of_isWord hword, prettyChars_of_isWord hyword] at h
  obtain ⟨hscalar, hrest⟩ := append_inj_of_class (inWord_of_mem_scalar hx hword)
    (inWord_of_mem_scalar hy hyword) hr.inWord_eq hs.inWord_eq h
  exact ⟨eq_of_scalar_eq hx hy hword hyword hscalar, hrest⟩

/-- Behind their opening brackets arrays are written like their items. -/
theorem prettyItems_of_array {level : Nat} {xs ys : List Json} {r s : List Char}
    (h : prettyChars level (.array xs) ++ r = prettyChars level (.array ys) ++ s) :
    prettyItems level xs ++ r = prettyItems level ys ++ s := by
  rcases xs with _ | ⟨x, xs⟩ <;> rcases ys with _ | ⟨y, ys⟩ <;>
    simp [prettyChars, prettyItems, newline] at h ⊢ <;> exact h

theorem prettyMembers_of_object {level : Nat} {ms ns : List (String × Json)} {r s : List Char}
    (h : prettyChars level (.object ms) ++ r = prettyChars level (.object ns) ++ s) :
    prettyMembers level ms ++ r = prettyMembers level ns ++ s := by
  rcases ms with _ | ⟨⟨key, x⟩, ms⟩ <;> rcases ns with _ | ⟨⟨key', y⟩, ns⟩ <;>
    simp [prettyChars, prettyMembers, newline] at h ⊢ <;> exact h

mutual

/-- A value is read back from its text, whatever follows. -/
theorem prettyChars_append_inj {level : Nat} : {x y : Json} → x.Finite → y.Finite →
    {r s : List Char} → Ended r → Ended s →
    prettyChars level x ++ r = prettyChars level y ++ s → x = y ∧ r = s
  | .null, _, hx, hy, _, _, hr, hs, h => word_append_inj rfl hx hy hr hs h
  | .bool _, _, hx, hy, _, _, hr, hs, h => word_append_inj rfl hx hy hr hs h
  | .integer _, _, hx, hy, _, _, hr, hs, h => word_append_inj rfl hx hy hr hs h
  | .real _, _, hx, hy, _, _, hr, hs, h => word_append_inj rfl hx hy hr hs h
  | .string a, y, hx, hy, r, s, _, _, h => by
    have hopening := opening_eq hx hy h
    cases y with
    | string b =>
        rw [prettyChars_string, prettyChars_string] at h
        obtain ⟨rfl, rfl⟩ := quote_append_inj h
        exact ⟨rfl, rfl⟩
    | _ => cases hopening
  | .array xs, y, hx, hy, r, s, _, _, h => by
    have hopening := opening_eq hx hy h
    cases y with
    | array ys =>
        cases hx with
        | array hx =>
            cases hy with
            | array hy =>
                obtain ⟨rfl, rfl⟩ := prettyItems_append_inj hx hy (prettyItems_of_array h)
                exact ⟨rfl, rfl⟩
    | _ => cases hopening
  | .object ms, y, hx, hy, r, s, _, _, h => by
    have hopening := opening_eq hx hy h
    cases y with
    | object ns =>
        cases hx with
        | object hx =>
            cases hy with
            | object hy =>
                obtain ⟨rfl, rfl⟩ := prettyMembers_append_inj hx hy (prettyMembers_of_object h)
                exact ⟨rfl, rfl⟩
    | _ => cases hopening

theorem prettyItems_append_inj {level : Nat} : {xs ys : List Json} → (∀ x ∈ xs, x.Finite) →
    (∀ y ∈ ys, y.Finite) → {r s : List Char} →
    prettyItems level xs ++ r = prettyItems level ys ++ s → xs = ys ∧ r = s
  | [], [], _, _, _, _, h => by simpa [prettyItems] using h
  | [], y :: ys, _, _, _, _, h => by simp [prettyItems, newline] at h
  | x :: xs, [], _, _, _, _, h => by simp [prettyItems, newline] at h
  | x :: xs, y :: ys, hx, hy, r, s, h => by
    obtain ⟨hxhead, hxtail⟩ := List.forall_mem_cons.mp hx
    obtain ⟨hyhead, hytail⟩ := List.forall_mem_cons.mp hy
    simp only [prettyItems, List.cons_append, List.append_assoc, List.cons.injEq, true_and,
      List.append_cancel_left_eq] at h
    obtain ⟨rfl, hrest⟩ := prettyChars_append_inj hxhead hyhead (ended_prettyItems _ _ _)
      (ended_prettyItems _ _ _) h
    obtain ⟨rfl, rfl⟩ := prettyItems_append_inj hxtail hytail hrest
    exact ⟨rfl, rfl⟩

theorem prettyMembers_append_inj {level : Nat} : {ms ns : List (String × Json)} →
    (∀ m ∈ ms, m.2.Finite) → (∀ n ∈ ns, n.2.Finite) → {r s : List Char} →
    prettyMembers level ms ++ r = prettyMembers level ns ++ s → ms = ns ∧ r = s
  | [], [], _, _, _, _, h => by simpa [prettyMembers] using h
  | [], (key, y) :: ns, _, _, _, _, h => by simp [prettyMembers, newline] at h
  | (key, x) :: ms, [], _, _, _, _, h => by simp [prettyMembers, newline] at h
  | (key, x) :: ms, (key', y) :: ns, hx, hy, r, s, h => by
    obtain ⟨hxhead, hxtail⟩ := List.forall_mem_cons.mp hx
    obtain ⟨hyhead, hytail⟩ := List.forall_mem_cons.mp hy
    simp only [prettyMembers, List.cons_append, List.append_assoc, List.cons.injEq, true_and,
      List.append_cancel_left_eq] at h
    obtain ⟨rfl, hvalue⟩ := quote_append_inj h
    simp only [List.cons.injEq, true_and] at hvalue
    obtain ⟨rfl, hrest⟩ := prettyChars_append_inj hxhead hyhead (ended_prettyMembers _ _ _)
      (ended_prettyMembers _ _ _) hvalue
    obtain ⟨rfl, rfl⟩ := prettyMembers_append_inj hxtail hytail hrest
    exact ⟨rfl, rfl⟩

end

/-- A value of finite numbers is read back from its text. -/
theorem eq_of_pretty_eq {x y : Json} (hx : x.Finite) (hy : y.Finite) (h : x.pretty = y.pretty) :
    x = y := by
  have hend : Ended [] := by simp [Ended]
  have hchars : prettyChars 0 x ++ [] = prettyChars 0 y ++ [] := by
    rw [List.append_nil, List.append_nil]
    exact String.ofList_inj.mp h
  exact (prettyChars_append_inj hx hy hend hend hchars).1

/-! ### Numbers that are not finite -/

mutual

/-- The value with `null` in the place of every number that is not finite. -/
def shown : Json → Json
  | .real x => if IsFinite x.toBits then .real x else .null
  | .array items => .array (shownItems items)
  | .object members => .object (shownMembers members)
  | .null => .null
  | .bool b => .bool b
  | .integer n => .integer n
  | .string s => .string s

def shownItems : List Json → List Json
  | [] => []
  | x :: xs => shown x :: shownItems xs

def shownMembers : List (String × Json) → List (String × Json)
  | [] => []
  | (key, x) :: ms => (key, shown x) :: shownMembers ms

end

mutual

theorem finite_shown : (x : Json) → x.shown.Finite
  | .real x => by
    rw [shown]
    split
    · exact .real ‹_›
    · exact .null
  | .array items => .array (finite_shownItems items)
  | .object members => .object (finite_shownMembers members)
  | .null => .null
  | .bool b => .bool b
  | .integer n => .integer n
  | .string s => .string s

theorem finite_shownItems : (items : List Json) → ∀ x ∈ shownItems items, x.Finite
  | [] => fun _ hnone => nomatch hnone
  | x :: xs => List.forall_mem_cons.mpr ⟨finite_shown x, finite_shownItems xs⟩

theorem finite_shownMembers : (members : List (String × Json)) →
    ∀ m ∈ shownMembers members, m.2.Finite
  | [] => fun _ hnone => nomatch hnone
  | (_, x) :: ms => List.forall_mem_cons.mpr ⟨finite_shown x, finite_shownMembers ms⟩

end

mutual

theorem prettyChars_shown (level : Nat) : (x : Json) →
    prettyChars level x.shown = prettyChars level x
  | .real x => by
    rw [shown]
    split
    · rfl
    · rename_i hx
      rw [prettyChars_of_isWord rfl, prettyChars_of_isWord rfl, scalar, scalar,
        number_write_of_not_isFinite hx]
      rfl
  | .array [] => rfl
  | .array (x :: xs) => by
    simp only [shown, shownItems, prettyChars, prettyChars_shown (level + 1) x,
      prettyItems_shown level xs]
  | .object [] => rfl
  | .object ((key, x) :: ms) => by
    simp only [shown, shownMembers, prettyChars, prettyChars_shown (level + 1) x,
      prettyMembers_shown level ms]
  | .null => rfl
  | .bool b => rfl
  | .integer n => rfl
  | .string s => rfl

theorem prettyItems_shown (level : Nat) : (items : List Json) →
    prettyItems level (shownItems items) = prettyItems level items
  | [] => rfl
  | x :: xs => by
    simp only [shownItems, prettyItems, prettyChars_shown (level + 1) x, prettyItems_shown level xs]

theorem prettyMembers_shown (level : Nat) : (members : List (String × Json)) →
    prettyMembers level (shownMembers members) = prettyMembers level members
  | [] => rfl
  | (key, x) :: ms => by
    simp only [shownMembers, prettyMembers, prettyChars_shown (level + 1) x,
      prettyMembers_shown level ms]

end

/-- The text of a value shows everything but the numbers that are not finite. -/
theorem pretty_eq_iff {x y : Json} : x.pretty = y.pretty ↔ x.shown = y.shown := by
  have hshown (x : Json) : x.shown.pretty = x.pretty := by
    rw [pretty, pretty, prettyChars_shown]
  rw [← hshown x, ← hshown y]
  exact ⟨eq_of_pretty_eq (finite_shown x) (finite_shown y), congrArg pretty⟩

end SchemaLang.Json
