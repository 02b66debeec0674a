import SpellPack.Proofs.RereadNumbers

/-! Numbers of at most fifteen digits, of which no more than twenty places stand behind the
point, are read back as they were up to `10 ^ 14`. The search for the fewest digits stops
at their own grid at the latest, so they are written with a significand of 53 bits. -/

namespace SpellPack.Proofs.ShortNumbers
open Binary64 Decimal NearestRank ShortestDecimal WrittenNumerals NumberDrift RereadNumbers

/-- A decimal that is short enough to be scaled in one step, even if it is written with a zero
more behind the point. -/
structure Short (coefficient : Nat) (exponent : Int) : Prop where
  digits : coefficient ≤ 10 ^ 15
  places : -20 ≤ exponent
  small : amount coefficient exponent ≤ 10 ^ 14

section Numerals

variable {rank coefficient : Nat} {exponent : Int}

/-- A number that is not too small is rounded at the last of 53 bits. -/
theorem abs_size_sub_le (rounds : rounded (amount coefficient exponent * unitsPerOne) = rank) (nonzero : rank ≠ 0)
    (places : -20 ≤ exponent) :
    |size rank - amount coefficient exponent| ≤ amount coefficient exponent / 2 ^ 53 := by
  have one := unitsPerOne_cast_pos
  have some : (1 : ℚ) ≤ coefficient := by exact_mod_cast coefficient_pos rounds nonzero
  have power : (10 : ℚ) ^ (-20 : Int) ≤ 10 ^ exponent := zpow_le_zpow_right₀ (by norm_num) places
  have least : (10 : ℚ) ^ (-20 : Int) ≤ amount coefficient exponent := by
    rw [amount]
    exact power.trans (le_mul_of_one_le_left (by positivity) some)
  have large : (2 : ℚ) ^ 53 ≤ amount coefficient exponent * unitsPerOne := by
    have units := @two_pow_le_unitsPerOne 127 (by decide)
    calc (2 : ℚ) ^ 53 ≤ 10 ^ (-20 : Int) * 2 ^ 127 := by norm_num
      _ ≤ amount coefficient exponent * unitsPerOne :=
        mul_le_mul least units (by positivity) (amount_nonneg _ _)
  have close := abs_units_rounded_sub_le (mul_nonneg (amount_nonneg coefficient exponent) one.le)
  rw [rounds] at close
  rcases close with ⟨short, _⟩ | bits
  · exact absurd short (not_lt.mpr large)
  · rw [← size_mul_unitsPerOne, ← sub_mul, abs_mul, abs_of_pos one, mul_div_right_comm] at bits
    exact le_of_mul_le_mul_right bits one

/-- Written out on one of the grids that the search tries, which is the first of them if its
own is coarser, the number keeps to fifteen digits. -/
theorem exists_multiple (short : Short coefficient exponent)
    (reads : Decimal.rank coefficient exponent = rank) (nonzero : rank ≠ 0) (inside : rank < rankLimit) :
    ∃ multiple grid, multiple ≤ 10 ^ 15 ∧ grid ≤ coarsestGrid rank ∧ -22 ≤ grid ∧
      amount multiple grid = amount coefficient exponent ∧ Decimal.rank multiple grid = rank := by
  have least := short.places
  rcases le_or_gt exponent (coarsestGrid rank) with fine | coarse
  · exact ⟨coefficient, exponent, short.digits, fine, by omega, rfl, reads⟩
  obtain ⟨more, rfl⟩ : ∃ more : Nat, exponent = coarsestGrid rank + more :=
    ⟨(exponent - coarsestGrid rank).toNat, by omega⟩
  have rounds := rounded_of_rank reads nonzero inside
  obtain ⟨above, below⟩ := amount_near rounds nonzero
  obtain ⟨_, first⟩ := coarsestGrid_bounds nonzero inside
  have power : (0 : ℚ) < 10 ^ coarsestGrid rank := by positivity
  have positive := coefficient_pos rounds nonzero
  have few : coefficient * 10 ^ more < 200 := by
    have steps :
        ((coefficient * 10 ^ more : Nat) : ℚ) * 10 ^ coarsestGrid rank < 200 * 10 ^ coarsestGrid rank := by
      rw [← amount, amount_mul_pow]
      linarith
    exact_mod_cast lt_of_mul_lt_mul_right steps power.le
  have next : more < 3 := by
    have tens : 10 ^ more < 10 ^ 3 :=
      Nat.lt_of_le_of_lt (Nat.le_mul_of_pos_left _ positive) (Nat.lt_trans few (by decide))
    exact (Nat.pow_lt_pow_iff_right (by decide)).mp tens
  refine ⟨_, _, by omega, Int.le_refl _, by omega, amount_mul_pow _ _ _, ?_⟩
  obtain ⟨low, high⟩ := size_reach nonzero inside
  have reach : (0 : ℚ) < 10 ^ Decimal.exponentReach := by positivity
  have scaled := mul_le_mul_of_nonneg_right above reach.le
  rw [rank_eq_rounded (Nat.mul_pos positive (Nat.pow_pos (by decide))).ne' (by rw [amount_mul_pow]; linarith)
    (by rw [amount_mul_pow]; linarith), amount_mul_pow, rounds]

/-- The digits that are written are about as few. -/
theorem decimal_short (short : Short coefficient exponent) (reads : Decimal.rank coefficient exponent = rank)
    (nonzero : rank ≠ 0) (inside : rank < rankLimit) :
    (decimal rank).1 < 2 ^ 53 ∧ -22 ≤ (decimal rank).2 ∧
      amount (decimal rank).1 (decimal rank).2 ≤ 4 * 10 ^ 14 := by
  obtain ⟨multiple, grid, digits, coarse, least, same, back⟩ := exists_multiple short reads nonzero inside
  have rounds := rounded_of_rank reads nonzero inside
  have power : (0 : ℚ) < 10 ^ grid := by positivity
  have near : |(multiple : ℚ) - size rank / 10 ^ grid| < 1 / 2 := by
    have close := abs_size_sub_le rounds nonzero short.places
    have few : (multiple : ℚ) ≤ 10 ^ 15 := by exact_mod_cast digits
    rw [← same, amount, abs_sub_comm] at close
    have scaled : |(multiple : ℚ) - size rank / 10 ^ grid| ≤ multiple / 2 ^ 53 := by
      apply le_of_mul_le_mul_right _ power
      rwa [← abs_of_pos power, ← abs_mul, abs_of_pos power, sub_mul, div_mul_cancel₀ _ power.ne',
        div_mul_eq_mul_div]
    linarith
  have found := found_on nonzero coarse (readsBackOn?_close back near)
  have fewer := stripZeros_le (Decimal.shortest rank).1 (Decimal.shortest rank).2
  have coarser := le_stripZeros (Decimal.shortest rank).1 (Decimal.shortest rank).2
  refine ⟨?_, ?_, ?_⟩
  · have steps : size rank / 10 ^ (Decimal.shortest rank).2 ≤ size rank / 10 ^ grid :=
      div_le_div_of_nonneg_left (size_nonneg rank) power (zpow_le_zpow_right₀ (by norm_num) found.coarse)
    have bound : ((Decimal.shortest rank).1 : ℚ) < multiple + 2 := by
      linarith [found.close, (abs_lt.mp near).1]
    have bound : (Decimal.shortest rank).1 < multiple + 2 := by exact_mod_cast bound
    rw [decimal]
    omega
  · have coarse := found.coarse
    rw [decimal]
    omega
  · have above := (amount_decimal nonzero inside).2
    have below := (amount_near rounds nonzero).1
    linarith [short.small]

/-- Then what is read has 53 bits and a small exponent too, also if a zero was added. -/
theorem numeral_short {coefficient : Nat} {exponent : Int} (some : 0 < coefficient) (digits : coefficient < 2 ^ 53)
    (least : -22 ≤ exponent) (small : amount coefficient exponent ≤ 4 * 10 ^ 14) :
    (numeral coefficient exponent).1 < 2 ^ 53 ∧ -22 ≤ (numeral coefficient exponent).2 ∧
      (numeral coefficient exponent).2 ≤ 22 := by
  rw [numeral]
  split
  · next whole =>
    obtain ⟨places, rfl⟩ := Int.eq_ofNat_of_zero_le whole.1
    have few : coefficient * 10 ^ places ≤ 4 * 10 ^ 14 := by
      have same := amount_ofNat coefficient places
      rw [Int.ofNat_eq_natCast] at same
      rw [same] at small
      exact_mod_cast small
    simp only [Int.toNat_natCast, Nat.pow_succ, ← Nat.mul_assoc]
    omega
  · refine ⟨digits, least, ?_⟩
    by_contra large
    have power : (10 : ℚ) ^ (23 : Int) ≤ 10 ^ exponent := zpow_le_zpow_right₀ (by norm_num) (by omega)
    have whole : (1 : ℚ) ≤ coefficient := by exact_mod_cast some
    have tens : (10 : ℚ) ^ exponent ≤ amount coefficient exponent := by
      rw [amount]
      exact le_mul_of_one_le_left (by positivity) whole
    norm_num at power small
    linarith

theorem rereadRank_short (short : Short coefficient exponent) (reads : Decimal.rank coefficient exponent = rank)
    (inside : rank < rankLimit) : rereadRank rank = rank := by
  by_cases nonzero : rank = 0
  · rw [nonzero, rereadRank_zero]
  obtain ⟨digits, least, small⟩ := decimal_short short reads nonzero inside
  obtain ⟨bits, low, high⟩ := numeral_short (decimal_pos nonzero inside) digits least small
  apply rereadRank_exact inside <;> rwa [numeralOf, if_neg nonzero]

end Numerals

end SpellPack.Proofs.ShortNumbers
