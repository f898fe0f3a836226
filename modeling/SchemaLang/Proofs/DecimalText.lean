import SchemaLang.Proofs.LiteralShape
import SchemaLang.Proofs.Rounding

/-!
# The text of a float

The text of a decimal says which number it is, whatever the style: `textValue` reads it off.  With
the shortest decimals that means that a style writes different finite floats differently, zeros of
different sign included.
-/

namespace SchemaLang.Decimal

open Lexeme (IsDigits)

/-! ### Digits -/

theorem natOf_eq_ofDigitChars (ds : List Char) : natOf ds = Nat.ofDigitChars 10 ds 0 :=
  Nat.ofDigitChars_eq_foldl.symm

theorem natOf_toDigits (n : Nat) : natOf (Nat.toDigits 10 n) = n := by
  rw [natOf_eq_ofDigitChars, Nat.ofDigitChars_ten_toDigits]

theorem natOf_append (ds others : List Char) :
    natOf (ds ++ others) = natOf ds * 10 ^ others.length + natOf others := by
  simp only [natOf_eq_ofDigitChars, Nat.ofDigitChars_append]
  rw [Nat.ofDigitChars_eq_ofDigitChars_zero, Nat.mul_comm]

theorem natOf_zeros (n : Nat) : natOf (List.replicate n '0') = 0 := by
  rw [natOf_eq_ofDigitChars, Nat.ofDigitChars_replicate_zero, Nat.mul_zero]

theorem isDigits_toDigits (n : Nat) : IsDigits (Nat.toDigits 10 n) :=
  ⟨Nat.toDigits_ne_nil, fun _ hc => Nat.isDigit_of_mem_toDigits (by decide) (by decide) hc⟩

theorem isDigits_toString (n : Nat) : IsDigits (toString n).toList := by
  rw [Nat.toString_eq_ofList_toDigits, String.toList_ofList]
  exact isDigits_toDigits n

theorem isDigit_zeros (n : Nat) : ∀ c ∈ List.replicate n '0', isDigit c := by
  intro c hc
  rw [List.eq_of_mem_replicate hc]
  rfl

/-! ### Reading a text -/

/-- The number that digits write, with a point among them or not. -/
def positionalValue (text : List Char) : ℚ :=
  let whole := text.takeWhile isDigit
  let fraction := (text.dropWhile isDigit).tail
  natOf (whole ++ fraction) * 10 ^ (-(fraction.length : Int))

/-- The exponent that is written behind its mark. -/
def exponentValue (text : List Char) : Int :=
  let (negative, digits) := signed text
  if negative then -(natOf digits : Int) else natOf digits

/-- The number that a text writes, with an exponent or not. -/
def textValue (text : List Char) : ℚ :=
  positionalValue (text.takeWhile (· ≠ 'e')) *
    10 ^ exponentValue (text.dropWhile (· ≠ 'e')).tail

theorem positionalValue_digits {ds : List Char} (h : ∀ c ∈ ds, isDigit c) :
    positionalValue ds = natOf ds := by
  obtain ⟨htake, hdrop⟩ :=
    Lexeme.span_append h (show ∀ c ∈ ([] : List Char).head?, isDigit c = false by simp)
  rw [List.append_nil] at htake hdrop
  simp [positionalValue, htake, hdrop]

theorem positionalValue_point {whole fraction : List Char} (h : ∀ c ∈ whole, isDigit c) :
    positionalValue (whole ++ '.' :: fraction) =
      natOf (whole ++ fraction) * 10 ^ (-(fraction.length : Int)) := by
  obtain ⟨htake, hdrop⟩ :=
    Lexeme.span_append h (show ∀ c ∈ ('.' :: fraction).head?, isDigit c = false by simp [isDigit])
  simp only [positionalValue, htake, hdrop, List.tail_cons]

/-- Zeros behind digits shift them. -/
theorem natOf_append_zeros (ds : List Char) (n : Nat) :
    (natOf (ds ++ List.replicate n '0') : ℚ) = natOf ds * 10 ^ (n : Int) := by
  rw [natOf_append, natOf_zeros, List.length_replicate]
  push_cast
  rw [add_zero, zpow_natCast]

theorem exponentValue_signed (n : Int) :
    exponentValue ((if n < 0 then '-' else '+') :: Nat.toDigits 10 n.natAbs) = n := by
  by_cases hneg : n < 0
  · rw [if_pos hneg]
    change -(natOf (Nat.toDigits 10 n.natAbs) : Int) = n
    rw [natOf_toDigits]
    omega
  · rw [if_neg hneg]
    change (natOf (Nat.toDigits 10 n.natAbs) : Int) = n
    rw [natOf_toDigits]
    omega

theorem textValue_of_no_mark {text : List Char} (h : ∀ c ∈ text, c ≠ 'e') :
    textValue text = positionalValue text := by
  obtain ⟨htake, hdrop⟩ := Lexeme.span_append (fun c hc => decide_eq_true (h c hc))
    (show ∀ c ∈ ([] : List Char).head?, decide (c ≠ 'e') = false by simp)
  rw [List.append_nil] at htake hdrop
  have hnone : exponentValue [] = 0 := rfl
  rw [textValue, htake, hdrop, List.tail_nil, hnone, zpow_zero, mul_one]

theorem textValue_mark {mantissa : List Char} (h : ∀ c ∈ mantissa, c ≠ 'e')
    (exponent : List Char) : textValue (mantissa ++ 'e' :: exponent) =
      positionalValue mantissa * 10 ^ exponentValue exponent := by
  obtain ⟨htake, hdrop⟩ := Lexeme.span_append (fun c hc => decide_eq_true (h c hc))
    (show ∀ c ∈ ('e' :: exponent).head?, decide (c ≠ 'e') = false by simp)
  rw [textValue, htake, hdrop, List.tail_cons]

theorem ne_mark {c : Char} (h : isDigit c ∨ c = '.') : c ≠ 'e' := by
  rintro rfl
  revert h
  decide

namespace Style

variable (style : Style) {digits : List Char}

/-- What a decimal in positional notation consists of. -/
theorem of_mem_layOut (h : ∀ c ∈ digits, isDigit c) (lead : Int) :
    ∀ c ∈ style.layOut digits lead, isDigit c ∨ c = '.' := by
  have hdigits : ∀ c ∈ digits, isDigit c ∨ c = '.' := fun c hc => .inl (h c hc)
  have hzeros (n : Nat) : ∀ c ∈ List.replicate n '0', isDigit c ∨ c = '.' :=
    fun c hc => .inl (isDigit_zeros n c hc)
  unfold layOut
  split
  · refine List.forall_mem_append.mpr ⟨?_, hdigits⟩
    exact List.forall_mem_cons.mpr ⟨.inl rfl, List.forall_mem_cons.mpr ⟨.inr rfl, hzeros _⟩⟩
  · dsimp only
    split
    · intro c hc
      rw [List.mem_append, List.mem_cons] at hc
      rcases hc with hc | rfl | hc
      · exact hdigits c (List.mem_of_mem_take hc)
      · exact .inr rfl
      · exact hdigits c (List.mem_of_mem_drop hc)
    · refine List.forall_mem_append.mpr ⟨List.forall_mem_append.mpr ⟨hdigits, hzeros _⟩, ?_⟩
      split <;> simp [isDigit]

/-- Digits that are laid out are worth their number, shifted to where the leading digit stands. -/
theorem positionalValue_layOut (h : ∀ c ∈ digits, isDigit c) (lead : Int) :
    positionalValue (style.layOut digits lead) =
      natOf digits * 10 ^ (lead + 1 - digits.length) := by
  unfold layOut
  split
  case isTrue hneg =>
    -- A zero before the point and zeros behind it.
    have htext := @positionalValue_point ['0'] (List.replicate (-lead - 1).toNat '0' ++ digits)
      (by simp [isDigit])
    have hnat : natOf (['0'] ++ (List.replicate (-lead - 1).toNat '0' ++ digits)) =
        natOf digits := by
      rw [natOf_append, natOf_append, natOf_zeros]
      simp [natOf]
    rw [hnat] at htext
    refine htext.trans ?_
    congr 2
    rw [List.length_append, List.length_replicate]
    omega
  case isFalse hneg =>
    dsimp only
    split
    case isTrue hinside =>
      rw [positionalValue_point fun c hc => h c (List.mem_of_mem_take hc), List.take_append_drop,
        List.length_drop]
      congr 2
      omega
    case isFalse hinside =>
      have hzeros : ∀ c ∈ digits ++ List.replicate (lead.toNat + 1 - digits.length) '0',
          isDigit c :=
        List.forall_mem_append.mpr ⟨h, isDigit_zeros _⟩
      have hshift : ((lead.toNat + 1 - digits.length : Nat) : Int) = lead + 1 - digits.length := by
        omega
      split
      · -- The zero behind the point shifts the digits once more, and back.
        rw [positionalValue_point hzeros, natOf_append]
        push_cast
        rw [natOf_append_zeros, hshift]
        simp [natOf]
      · rw [List.append_nil, positionalValue_digits hzeros, natOf_append_zeros, hshift]

theorem textValue_layOut (h : ∀ c ∈ digits, isDigit c) (lead : Int) :
    textValue (style.layOut digits lead) = natOf digits * 10 ^ (lead + 1 - digits.length) := by
  rw [textValue_of_no_mark fun c hc => ne_mark (style.of_mem_layOut h lead c hc),
    style.positionalValue_layOut h]

theorem textValue_exponentForm (h : IsDigits digits) (lead : Int) :
    textValue (exponentForm digits lead) = natOf digits * 10 ^ (lead + 1 - digits.length) := by
  obtain ⟨hne, hdigits⟩ := h
  unfold exponentForm
  match digits, hne with
  | [d], _ =>
      dsimp only
      rw [textValue_mark fun c hc => ne_mark (.inl (hdigits c hc)), exponentValue_signed,
        positionalValue_digits hdigits]
      congr 2
      simp
  | d :: e :: more, _ =>
      dsimp only
      obtain ⟨hd, hmore⟩ := List.forall_mem_cons.mp hdigits
      have hmantissa : ∀ c ∈ d :: '.' :: e :: more, c ≠ 'e' :=
        List.forall_mem_cons.mpr ⟨ne_mark (.inl hd), List.forall_mem_cons.mpr
          ⟨by decide, fun c hc => ne_mark (.inl (hmore c hc))⟩⟩
      have hvalue := @positionalValue_point [d] (e :: more)
        (List.forall_mem_singleton.mpr hd)
      rw [List.singleton_append, List.singleton_append] at hvalue
      rw [textValue_mark hmantissa, exponentValue_signed, hvalue, mul_assoc,
        ← zpow_add₀ (by norm_num)]
      congr 2
      simp only [List.length_cons]
      omega

theorem textValue_decimal (d : Scaled) : textValue (style.decimal d) = d.value := by
  have hdigits := isDigits_toDigits d.digits
  unfold decimal Scaled.value
  dsimp only
  split
  · rw [textValue_layOut style hdigits.2, natOf_toDigits]
    congr 2
    omega
  · rw [textValue_exponentForm hdigits, natOf_toDigits]
    congr 2
    omega

/-! ### Writing floats -/

/-- A decimal starts with a digit. -/
theorem exists_cons_decimal (d : Scaled) : ∃ c cs, style.decimal d = c :: cs ∧ isDigit c := by
  obtain ⟨hne, hdigits⟩ := isDigits_toDigits d.digits
  unfold decimal
  dsimp only
  generalize Nat.toDigits 10 d.digits = digits at hne hdigits
  match digits, hne with
  | c :: cs, _ =>
      have hc : isDigit c := hdigits c List.mem_cons_self
      split
      · unfold layOut
        split
        · exact ⟨_, _, rfl, rfl⟩
        · dsimp only
          split
          · exact ⟨_, _, rfl, hc⟩
          · exact ⟨_, _, rfl, hc⟩
      · cases cs with
        | nil => exact ⟨_, _, rfl, hc⟩
        | cons e more => exact ⟨_, _, rfl, hc⟩

/-- The sign in front of a number with the given bits. -/
def signText (bits : UInt64) : List Char :=
  if bits >>> 63 = 1 then ['-'] else []

theorem write_of_isFinite {x : Float} (h : IsFinite x.toBits) : (style.write x).toList =
    signText x.toBits ++ style.decimal ((Magnitude.ofBits x.toBits).shortest style.tie) := by
  rw [write, ofBits, if_neg h, String.toList_ofList, signText]
  by_cases hsign : x.toBits >>> 63 = 1 <;> simp [hsign]

/-- Different finite floats are written differently. -/
theorem eq_of_write_eq {x y : Float} (hx : IsFinite x.toBits) (hy : IsFinite y.toBits)
    (h : style.write x = style.write y) : x = y := by
  obtain ⟨c, cs, hdecimal, hc⟩ :=
    style.exists_cons_decimal ((Magnitude.ofBits x.toBits).shortest style.tie)
  obtain ⟨d, ds, hother, hd⟩ :=
    style.exists_cons_decimal ((Magnitude.ofBits y.toBits).shortest style.tie)
  have hminus {c : Char} (hc : isDigit c) : c ≠ '-' := by
    rintro rfl
    cases hc
  have htext := congrArg String.toList h
  rw [write_of_isFinite style hx, write_of_isFinite style hy] at htext
  -- A sign is no digit, so both have one or none has.
  have hboth : (x.toBits >>> 63 = 1 ↔ y.toBits >>> 63 = 1) ∧
      style.decimal ((Magnitude.ofBits x.toBits).shortest style.tie) =
        style.decimal ((Magnitude.ofBits y.toBits).shortest style.tie) := by
    unfold signText at htext
    by_cases hsign : x.toBits >>> 63 = 1 <;> by_cases hsign' : y.toBits >>> 63 = 1
    · simpa [hsign, hsign'] using htext
    · rw [if_pos hsign, if_neg hsign', hother] at htext
      exact absurd (List.cons.inj htext).1.symm (hminus hd)
    · rw [if_neg hsign, if_pos hsign', hdecimal] at htext
      exact absurd (List.cons.inj htext).1 (hminus hc)
    · simpa [hsign, hsign'] using htext
  have hvalue := congrArg textValue hboth.2
  rw [textValue_decimal, textValue_decimal] at hvalue
  exact Float.toBits_inj.mp (eq_of_rank_eq hboth.1 (Magnitude.rank_eq_of_shortest hvalue))

theorem write_of_isInf {x : Float} (h : x.isInf = true) : style.write x =
    if x.toBits >>> 63 = 1 then style.negativeInfinity else style.infinity := by
  unfold write
  rcases toBits_of_isInf h with hbits | hbits <;> rw [hbits] <;> rfl

/-! ### The characters of numbers -/

/-- The characters that numbers are written with. -/
def isNumeral (c : Char) : Bool :=
  isDigit c || c = '.' || c = 'e' || c = '+' || c = '-'

theorem isNumeral_of_isDigit {c : Char} (h : isDigit c ∨ c = '.') : isNumeral c := by
  rcases h with h | rfl
  · simp [isNumeral, h]
  · rfl

theorem isNumeral_of_mem_exponentForm (h : ∀ c ∈ digits, isDigit c) (lead : Int) :
    ∀ c ∈ exponentForm digits lead, isNumeral c := by
  unfold exponentForm
  dsimp only
  refine List.forall_mem_append.mpr ⟨?_, List.forall_mem_cons.mpr ⟨rfl,
    List.forall_mem_cons.mpr ⟨?_, fun c hc => isNumeral_of_isDigit (.inl ?_)⟩⟩⟩
  · intro c hc
    split at hc
    · cases hc
    · exact isNumeral_of_isDigit (.inl (h c hc))
    · rw [List.mem_cons, List.mem_cons] at hc
      rcases hc with rfl | rfl | hc
      · exact isNumeral_of_isDigit (.inl (h _ List.mem_cons_self))
      · rfl
      · exact isNumeral_of_isDigit (.inl (h c (List.mem_cons_of_mem _ hc)))
  · split <;> rfl
  · exact (isDigits_toDigits _).2 c hc

theorem isNumeral_of_mem_decimal (d : Scaled) : ∀ c ∈ style.decimal d, isNumeral c := by
  have hdigits := (isDigits_toDigits d.digits).2
  unfold decimal
  dsimp only
  split
  · exact fun c hc => isNumeral_of_isDigit (style.of_mem_layOut hdigits _ c hc)
  · exact isNumeral_of_mem_exponentForm hdigits _

/-- A finite float is written as a number. -/
theorem isNumeral_of_mem_write {x : Float} (h : IsFinite x.toBits) :
    ∀ c ∈ (style.write x).toList, isNumeral c := by
  rw [write_of_isFinite style h]
  refine List.forall_mem_append.mpr ⟨?_, style.isNumeral_of_mem_decimal _⟩
  unfold signText
  split <;> simp [isNumeral]

/-- A style that keeps the point behind a whole number writes a point or the mark of an exponent in
every number. -/
theorem exists_mark_of_isFinite (hpoint : style.pointZero = true) {x : Float}
    (h : IsFinite x.toBits) : ∃ c ∈ (style.write x).toList, c = '.' ∨ c = 'e' := by
  rw [write_of_isFinite style h]
  suffices hdecimal : ∃ c ∈ style.decimal ((Magnitude.ofBits x.toBits).shortest style.tie),
      c = '.' ∨ c = 'e' by
    obtain ⟨c, hc, hmark⟩ := hdecimal
    exact ⟨c, List.mem_append_right _ hc, hmark⟩
  unfold decimal
  dsimp only
  split
  · refine ⟨'.', ?_, .inl rfl⟩
    unfold layOut
    split
    · simp
    · dsimp only
      split <;> simp
  · exact ⟨'e', by simp [exponentForm], .inr rfl⟩

end Style

/-- Different floats are written differently in plain style, as far as they are numbers. -/
theorem eq_of_plain_write_eq {x y : Float} (hx : x.isNaN = false) (hy : y.isNaN = false)
    (h : plain.write x = plain.write y) : x = y := by
  have hword {x : Float} (hinf : x.isInf = true) : 'i' ∈ (plain.write x).toList := by
    rw [plain.write_of_isInf hinf]
    split <;> decide
  have hnumber {x : Float} (hfinite : IsFinite x.toBits) : 'i' ∉ (plain.write x).toList :=
    fun hmem => Bool.noConfusion (plain.isNumeral_of_mem_write hfinite 'i' hmem)
  cases hxinf : x.isInf with
  | false =>
      have hxfinite := (isFinite_iff_of_number hx).mpr hxinf
      cases hyinf : y.isInf with
      | false => exact plain.eq_of_write_eq hxfinite ((isFinite_iff_of_number hy).mpr hyinf) h
      | true => exact absurd (h ▸ hword hyinf) (hnumber hxfinite)
  | true =>
      cases hyinf : y.isInf with
      | false =>
          exact absurd (h ▸ hword hxinf) (hnumber ((isFinite_iff_of_number hy).mpr hyinf))
      | true =>
          -- The infinite floats differ in their signs.
          rw [plain.write_of_isInf hxinf, plain.write_of_isInf hyinf] at h
          rw [← Float.toBits_inj]
          rcases toBits_of_isInf hxinf with hbits | hbits <;>
            rcases toBits_of_isInf hyinf with hbits' | hbits' <;> rw [hbits, hbits'] at h ⊢
          · exact absurd h (by decide)
          · exact absurd h (by decide)

end SchemaLang.Decimal
