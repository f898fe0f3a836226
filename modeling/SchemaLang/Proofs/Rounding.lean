import SchemaLang.Proofs.FloatBits

/-!
# Decimals that identify a float

The reals that round to a magnitude form an interval.  The intervals of different magnitudes have
no number in common: each ends where the next one starts, and of two neighbours only the even one
has the end between them.  The shortest decimal of a magnitude lies in its interval, and so it
belongs to no other float of that sign.
-/

namespace SchemaLang.Decimal

/-- The number that a decimal stands for. -/
def Scaled.value (d : Scaled) : ℚ :=
  d.digits * 10 ^ d.exponent

namespace Magnitude

/-- A quarter of the last binary place. -/
def quarter (x : Magnitude) : ℚ :=
  2 ^ (x.q - 2)

/-- The lower end of the interval around a magnitude, in quarters. -/
def low (x : Magnitude) : Nat :=
  if x.narrow then 4 * x.m - 1 else 4 * x.m - 2

/-- The upper end of the interval around a magnitude, in quarters. -/
def high (x : Magnitude) : Nat :=
  4 * x.m + 2

/-- The number rounds to the magnitude: it lies in the interval around it.  The ends of the interval
belong to it exactly if `m` is even. -/
def Covers (x : Magnitude) (v : ℚ) : Prop :=
  if x.m % 2 = 0 then x.low * x.quarter ≤ v ∧ v ≤ x.high * x.quarter
  else x.low * x.quarter < v ∧ v < x.high * x.quarter

variable {x : Magnitude} {v : ℚ}

theorem quarter_pos (x : Magnitude) : 0 < x.quarter :=
  zpow_pos two_pos _

theorem Covers.le (h : x.Covers v) : x.low * x.quarter ≤ v ∧ v ≤ x.high * x.quarter := by
  unfold Covers at h
  split at h
  · exact h
  · exact ⟨h.1.le, h.2.le⟩

/-- An end of the interval belongs to it only if `m` is even. -/
theorem Covers.even (h : x.Covers v) (hend : v = x.low * x.quarter ∨ v = x.high * x.quarter) :
    x.m % 2 = 0 := by
  by_contra hodd
  rw [Covers, if_neg hodd] at h
  rcases hend with rfl | rfl
  · exact lt_irrefl _ h.1
  · exact lt_irrefl _ h.2

/-! ### The decimals that are chosen -/

theorem measures_pos (x : Magnitude) (k : Int) : 0 < (x.measures k).2 :=
  Nat.mul_pos (Nat.pow_pos (by decide)) (Nat.pow_pos (by decide))

/-- A step of the grid and a quarter of the last binary place, in their common unit. -/
theorem measures_ratio (x : Magnitude) (k : Int) :
    ((x.measures k).1 : ℚ) * x.quarter = 10 ^ k * (x.measures k).2 := by
  have hpow (b : ℚ) (hb : b ≠ 0) (n : Int) : b ^ n.toNat = b ^ n * b ^ (-n).toNat := by
    rw [← zpow_natCast, ← zpow_natCast, ← zpow_add₀ hb]
    congr 1
    omega
  have hten : (10 : ℚ) ^ k.toNat = 10 ^ k * 10 ^ (-k).toNat := hpow 10 (by norm_num) k
  have htwo : (2 : ℚ) ^ (x.q - 2).toNat = x.quarter * 2 ^ (2 - x.q).toNat := by
    have := hpow 2 (by norm_num) (x.q - 2)
    rwa [neg_sub] at this
  simp only [measures, Nat.cast_mul, Nat.pow_eq, Nat.cast_pow, Nat.cast_ofNat]
  rw [hten, htwo]
  ring

/-- A point of the grid in the common unit. -/
theorem grid_point (x : Magnitude) (k : Int) (d : Nat) :
    ((d * (x.measures k).1 : Nat) : ℚ) * x.quarter = d * 10 ^ k * (x.measures k).2 := by
  rw [Nat.cast_mul, mul_assoc, measures_ratio, mul_assoc]

theorem quarters_le_grid_iff (x : Magnitude) (k : Int) (n d : Nat) :
    n * (x.measures k).2 ≤ d * (x.measures k).1 ↔ n * x.quarter ≤ d * 10 ^ k := by
  have hunit : (0 : ℚ) < (x.measures k).2 := Nat.cast_pos.mpr (x.measures_pos k)
  rw [← @Nat.cast_le ℚ, ← mul_le_mul_iff_left₀ x.quarter_pos, grid_point, Nat.cast_mul,
    mul_right_comm (n : ℚ), mul_le_mul_iff_left₀ hunit]

theorem grid_le_quarters_iff (x : Magnitude) (k : Int) (n d : Nat) :
    d * (x.measures k).1 ≤ n * (x.measures k).2 ↔ d * 10 ^ k ≤ n * x.quarter := by
  have hunit : (0 : ℚ) < (x.measures k).2 := Nat.cast_pos.mpr (x.measures_pos k)
  rw [← @Nat.cast_le ℚ, ← mul_le_mul_iff_left₀ x.quarter_pos, grid_point, Nat.cast_mul,
    mul_right_comm (n : ℚ), mul_le_mul_iff_left₀ hunit]

/-- A point of the grid reads back exactly if it rounds to the magnitude. -/
theorem readsBack_iff (x : Magnitude) (k : Int) (d : Nat) :
    x.readsBack k d = true ↔ x.Covers (d * 10 ^ k) := by
  have hlow : (if x.narrow then 4 * x.m - 1 else 4 * x.m - 2) = x.low := rfl
  have hhigh : 4 * x.m + 2 = x.high := rfl
  simp only [readsBack, Covers, hlow, hhigh]
  split
  · simp only [Bool.and_eq_true, decide_eq_true_eq, quarters_le_grid_iff, grid_le_quarters_iff]
  · simp only [Bool.and_eq_true, decide_eq_true_eq, ← not_le, quarters_le_grid_iff,
      grid_le_quarters_iff]

/-- What is found on a grid rounds to the magnitude. -/
theorem covers_of_onGrid {tie : Tie} {k : Int} {d : Scaled} (h : x.onGrid tie k = some d) :
    x.Covers d.value := by
  have hpoint (n : Nat) (hback : x.readsBack k n = true) : x.Covers (Scaled.value ⟨n, k⟩) :=
    (x.readsBack_iff k n).mp hback
  unfold onGrid at h
  dsimp only at h
  split at h
  case h_1 => cases h
  case h_2 hbelow _ => cases h; exact hpoint _ hbelow
  case h_3 _ habove => cases h; exact hpoint _ habove
  case h_4 hbelow habove =>
    split at h <;> cases h
    · exact hpoint _ hbelow
    · exact hpoint _ habove
    · exact hpoint _ habove
    · split
      · exact hpoint _ hbelow
      · exact hpoint _ habove

theorem value_exact (x : Magnitude) : x.exact.value = x.m * 2 ^ x.q := by
  unfold exact Scaled.value
  split
  · rename_i hq
    have hpow : (2 : ℚ) ^ x.q.toNat = 2 ^ x.q := by
      rw [← zpow_natCast, Int.toNat_of_nonneg hq]
    simp [hpow]
  · rename_i hq
    -- With the powers of five the decimal has no more places than the binary number.
    have hpow : (5 : ℚ) ^ (-x.q).toNat * 10 ^ x.q = 2 ^ x.q := by
      rw [← zpow_natCast, Int.toNat_of_nonneg (by omega), show (10 : ℚ) = 5 * 2 by norm_num,
        mul_zpow, ← mul_assoc, ← zpow_add₀ (by norm_num), neg_add_cancel, zpow_zero, one_mul]
    simp [mul_assoc, hpow]

end Magnitude

theorem Scaled.value_strip (d : Scaled) : d.strip.value = d.value := by
  fun_induction strip d with
  | case1 d h ih =>
      have hdigits : (d.digits : ℚ) = (d.digits / 10 : Nat) * 10 := by
        exact_mod_cast (Nat.div_mul_cancel (Nat.dvd_of_mod_eq_zero h.2)).symm
      rw [ih, value, value, hdigits, zpow_add_one₀ (by norm_num)]
      ring
  | case2 d h => rfl

namespace Magnitude

/-- A magnitude other than zero lies inside its interval. -/
theorem covers_self {x : Magnitude} (hm : x.m ≠ 0) : x.Covers (x.m * 2 ^ x.q) := by
  have hvalue : (x.m : ℚ) * 2 ^ x.q = (4 * x.m : Nat) * x.quarter := by
    rw [quarter, zpow_sub₀ (by norm_num)]
    push_cast
    ring
  have hlow : x.low < 4 * x.m := by
    unfold low
    split <;> omega
  have hhigh : 4 * x.m < x.high := by
    unfold high
    omega
  have hinside : x.low * x.quarter < x.m * 2 ^ x.q ∧ x.m * 2 ^ x.q < x.high * x.quarter := by
    rw [hvalue, mul_lt_mul_iff_left₀ x.quarter_pos, mul_lt_mul_iff_left₀ x.quarter_pos,
      Nat.cast_lt, Nat.cast_lt]
    exact ⟨hlow, hhigh⟩
  unfold Covers
  split
  · exact ⟨hinside.1.le, hinside.2.le⟩
  · exact hinside

/-- The shortest decimal of a magnitude rounds to it. -/
theorem covers_shortest (x : Magnitude) (tie : Tie) : x.Covers (x.shortest tie).value := by
  unfold shortest
  split
  · rename_i hzero
    have hlow : x.low = 0 := by
      unfold low
      split <;> omega
    have hhigh : (0 : ℚ) ≤ x.high * x.quarter := mul_nonneg (Nat.cast_nonneg _) x.quarter_pos.le
    simp [Covers, Scaled.value, hzero, hlow, hhigh]
  · rename_i hm
    dsimp only
    rw [Scaled.value_strip]
    cases hfound : (List.map _ _).findSome? (x.onGrid tie) with
    | some d =>
        obtain ⟨k, -, hgrid⟩ := List.exists_of_findSome?_eq_some hfound
        exact covers_of_onGrid hgrid
    | none =>
        rw [Option.getD_none, value_exact]
        exact covers_self hm

/-! ### The intervals of all magnitudes -/

/-- The magnitude of given exponent bits and fraction bits. -/
def ofFields (scale fraction : Nat) : Magnitude :=
  if scale = 0 then ⟨fraction, -1074, false⟩
  else ⟨2 ^ 52 + fraction, (scale : Int) - 1075, fraction = 0 && 1 < scale⟩

/-- The magnitude of a rank, which is the place of a float among those of its sign. -/
def ofRank (rank : Nat) : Magnitude :=
  ofFields (rank / 2 ^ 52) (rank % 2 ^ 52)

theorem ofBits_eq_ofRank (bits : UInt64) : ofBits bits = ofRank (rank bits) := by
  unfold ofBits ofRank ofFields
  rw [toNat_scale, toNat_fraction]
  rfl

theorem mod_two_m_ofRank (rank : Nat) : (ofRank rank).m % 2 = rank % 2 := by
  unfold ofRank ofFields
  split
  · dsimp only
    omega
  · dsimp only
    omega

theorem high_ofFields (scale fraction : Nat) :
    (ofFields scale fraction).high * (ofFields scale fraction).quarter =
      (ofFields scale (fraction + 1)).low * (ofFields scale (fraction + 1)).quarter := by
  have hends : (ofFields scale (fraction + 1)).low = (ofFields scale fraction).high := by
    unfold ofFields low high
    split <;> simp <;> omega
  have hquarter : (ofFields scale (fraction + 1)).quarter = (ofFields scale fraction).quarter := by
    unfold ofFields quarter
    split <;> rfl
  rw [hends, hquarter]

/-- Where the exponent grows the next binary place is twice as large, but for the least exponent,
which is also that of the numbers below the first power of two. -/
theorem high_ofFields_last (scale : Nat) :
    (ofFields scale (2 ^ 52 - 1)).high * (ofFields scale (2 ^ 52 - 1)).quarter =
      (ofFields (scale + 1) 0).low * (ofFields (scale + 1) 0).quarter := by
  cases scale with
  | zero => simp [ofFields, high, low, quarter]
  | succ scale =>
      have hends : (ofFields (scale + 1) (2 ^ 52 - 1)).high = 2 * (ofFields (scale + 2) 0).low := by
        simp [ofFields, high, low]
      have hquarter : (ofFields (scale + 2) 0).quarter =
          2 * (ofFields (scale + 1) (2 ^ 52 - 1)).quarter := by
        unfold ofFields quarter
        rw [if_neg (by omega), if_neg (by omega), ← zpow_one_add₀ (by norm_num)]
        congr 1
        push_cast
        ring
      rw [hends, hquarter]
      push_cast
      ring

/-- The interval of a magnitude ends where that of the next one starts. -/
theorem high_ofRank (rank : Nat) :
    (ofRank rank).high * (ofRank rank).quarter =
      (ofRank (rank + 1)).low * (ofRank (rank + 1)).quarter := by
  unfold ofRank
  by_cases hlast : rank % 2 ^ 52 = 2 ^ 52 - 1
  · have hscale : (rank + 1) / 2 ^ 52 = rank / 2 ^ 52 + 1 := by omega
    have hfraction : (rank + 1) % 2 ^ 52 = 0 := by omega
    rw [hscale, hfraction, hlast]
    exact high_ofFields_last _
  · have hscale : (rank + 1) / 2 ^ 52 = rank / 2 ^ 52 := by omega
    have hfraction : (rank + 1) % 2 ^ 52 = rank % 2 ^ 52 + 1 := by omega
    rw [hscale, hfraction]
    exact high_ofFields _ _

theorem low_lt_high (x : Magnitude) : x.low * x.quarter < x.high * x.quarter := by
  rw [mul_lt_mul_iff_left₀ x.quarter_pos, Nat.cast_lt]
  unfold low high
  split <;> omega

/-- The interval of a smaller magnitude ends before that of a larger one starts, or there. -/
theorem high_le_low {rank other : Nat} (h : rank < other) :
    (ofRank rank).high * (ofRank rank).quarter ≤ (ofRank other).low * (ofRank other).quarter := by
  induction other, h using Nat.le_induction with
  | base => exact (high_ofRank rank).le
  | succ other _ ih => exact ih.trans ((low_lt_high _).le.trans (high_ofRank other).le)

/-- No number rounds to two magnitudes. -/
theorem rank_le_of_covers {rank other : Nat} {v : ℚ} (h : (ofRank rank).Covers v)
    (hother : (ofRank other).Covers v) : other ≤ rank := by
  by_contra hlt
  rw [not_le] at hlt
  obtain ⟨-, hhigh⟩ := h.le
  obtain ⟨hlow, -⟩ := hother.le
  have hbetween := high_le_low hlt
  have heven := h.even (.inr (le_antisymm hhigh (hbetween.trans hlow)))
  have hotherEven := hother.even (.inl (le_antisymm (hhigh.trans hbetween) hlow))
  rw [mod_two_m_ofRank] at heven hotherEven
  -- Both are even, so a third interval lies between the two.
  have hnext := high_le_low (show rank + 1 < other by omega)
  exact absurd (low_lt_high (ofRank (rank + 1)))
    (not_lt.mpr (hnext.trans (hlow.trans (hhigh.trans (high_ofRank rank).le))))

theorem rank_eq_of_covers {rank other : Nat} {v : ℚ} (h : (ofRank rank).Covers v)
    (hother : (ofRank other).Covers v) : rank = other :=
  Nat.le_antisymm (rank_le_of_covers hother h) (rank_le_of_covers h hother)

/-- Finite floats of one sign whose shortest decimals are the same number have the same rank. -/
theorem rank_eq_of_shortest {bits others : UInt64} {tie otherTie : Tie}
    (h : ((ofBits bits).shortest tie).value = ((ofBits others).shortest otherTie).value) :
    rank bits = rank others := by
  have hbits := covers_shortest (ofBits bits) tie
  have hothers := covers_shortest (ofBits others) otherTie
  rw [← h] at hothers
  rw [ofBits_eq_ofRank bits] at hbits
  rw [ofBits_eq_ofRank others] at hothers
  refine rank_eq_of_covers hbits ?_
  rwa [ofBits_eq_ofRank bits] at hothers

end Magnitude

end SchemaLang.Decimal
