import SpellPack.Proofs.NumberDrift
import SpellPack.Proofs.ValueReading

/-! What a written double is read as. It always is a number of the same sign at most five
ranks away, and the number itself if its digits are few and its exponent is small. -/

namespace SpellPack.Proofs.RereadNumbers
open Json Binary64 ExactNumbers NearestRank ShortestDecimal NumeralReading NumeralText WrittenNumerals NumberDrift
  ValueReading

section Ranks

variable {rank : Nat}

theorem rounded_numeralOf (nonzero : rank ≠ 0) (inside : rank < rankLimit) :
    rounded (amount (numeralOf rank).1 (numeralOf rank).2 * unitsPerOne) = rank := by
  rw [numeralOf, if_neg nonzero, amount_numeral, rounded_decimal nonzero inside]

theorem numeralOf_pos (nonzero : rank ≠ 0) (inside : rank < rankLimit) : 0 < (numeralOf rank).1 := by
  have positive := decimal_pos nonzero inside
  rw [numeralOf, if_neg nonzero, numeral]
  split
  · exact Nat.mul_pos positive (Nat.pow_pos (by decide))
  · exact positive

theorem numeralOf_exponent (nonzero : rank ≠ 0) (inside : rank < rankLimit) :
    -343 ≤ (numeralOf rank).2 ∧ (numeralOf rank).2 ≤ 308 := by
  have exponent := decimal_exponent nonzero inside
  rw [numeralOf, if_neg nonzero, numeral]
  split
  · constructor <;> simp
  · exact exponent

def rereadRank (rank : Nat) : Nat := scaledRank (numeralOf rank).1 (numeralOf rank).2

theorem rereadRank_zero : rereadRank 0 = 0 := by decide +kernel

theorem near_rereadRank_zero {count : Nat} (zero : rank = 0) : Near count (rereadRank rank) rank := by
  rw [zero, rereadRank_zero]
  exact ⟨Nat.zero_le _, Nat.zero_le _⟩

/-- One scaling step is enough down to this exponent. -/
theorem near_rereadRank_exponent (inside : rank < rankLimit) (few : -308 ≤ (numeralOf rank).2) :
    Near 3 (rereadRank rank) rank := by
  by_cases nonzero : rank = 0
  · exact near_rereadRank_zero nonzero
  have some := numeralOf_pos nonzero inside
  have same := rounded_numeralOf nonzero inside
  rw [rereadRank]
  generalize (numeralOf rank).1 = significand at *
  generalize (numeralOf rank).2 = exponent at *
  cases exponent with
  | ofNat places =>
    have near := near_mul some places
    rwa [same] at near
  | negSucc places =>
    have near := @near_div significand some places (by simp only [greatestPower]; omega)
    rwa [same] at near

theorem near_rereadRank (inside : rank < rankLimit) : Near 5 (rereadRank rank) rank := by
  by_cases nonzero : rank = 0
  · exact near_rereadRank_zero nonzero
  by_cases few : -308 ≤ (numeralOf rank).2
  · exact (near_rereadRank_exponent inside few).mono (by decide)
  have some := numeralOf_pos nonzero inside
  have same := rounded_numeralOf nonzero inside
  obtain ⟨least, _⟩ := numeralOf_exponent nonzero inside
  rw [rereadRank]
  generalize (numeralOf rank).1 = significand at *
  generalize (numeralOf rank).2 = exponent at *
  obtain ⟨more, rfl⟩ : ∃ more : Nat, exponent = -(greatestPower + more : Nat) := by
    refine ⟨(-exponent).toNat - greatestPower, ?_⟩
    simp only [greatestPower]
    omega
  obtain ⟨places, split⟩ : ∃ places, greatestPower + more = places + 1 :=
    ⟨307 + more, by simp only [greatestPower]; omega⟩
  have near := @near_div_twice significand some more (by simp only [greatestPower] at few; omega)
    (by simp only [greatestPower] at least ⊢; omega)
  rw [amount, zpow_neg, zpow_natCast, ← div_eq_mul_inv] at same
  rw [same] at near
  rw [split] at near ⊢
  exact near

/-- Only numbers below this are written with smaller exponents. -/
theorem near_rereadRank_large (inside : rank < rankLimit) (large : 1 ≤ size rank * 10 ^ 288) :
    Near 3 (rereadRank rank) rank := by
  by_cases nonzero : rank = 0
  · exact near_rereadRank_zero nonzero
  apply near_rereadRank_exponent inside
  by_contra low
  have exponent : (decimal rank).2 ≤ -309 := by
    rw [numeralOf, if_neg nonzero, numeral] at low
    split at low
    · exact absurd low (by simp)
    · omega
  have word : ((decimal rank).1 : ℚ) < 2 ^ 64 := by exact_mod_cast decimal_lt nonzero inside
  have power : (0 : ℚ) < 10 ^ (decimal rank).2 := by positivity
  have places : (10 : ℚ) ^ (decimal rank).2 * 10 ^ 288 ≤ 10 ^ (-21 : Int) := by
    rw [← zpow_natCast, ← zpow_add₀ (by norm_num)]
    exact zpow_le_zpow_right₀ (by norm_num) (by push_cast; omega)
  have above := (amount_decimal nonzero inside).1
  have positive : (0 : ℚ) < 10 ^ 288 := by positivity
  rw [amount] at above
  generalize (10 : ℚ) ^ 288 = tens at large places positive
  have small : (1 : ℚ) < 1 :=
    calc (1 : ℚ) ≤ size rank * tens := large
      _ ≤ 2 * ((decimal rank).1 * 10 ^ (decimal rank).2) * tens := mul_le_mul_of_nonneg_right above positive.le
      _ < 2 * (2 ^ 64 * 10 ^ (decimal rank).2) * tens :=
        mul_lt_mul_of_pos_right (mul_lt_mul_of_pos_left (mul_lt_mul_of_pos_right word power) two_pos) positive
      _ = 2 ^ 65 * (10 ^ (decimal rank).2 * tens) := by ring
      _ ≤ 2 ^ 65 * 10 ^ (-21 : Int) := mul_le_mul_of_nonneg_left places (by positivity)
      _ < 1 := by norm_num
  exact lt_irrefl _ small

/-- The greatest doubles are not read as infinite, and the least not as zero. -/
theorem rereadRank_ends :
    (∀ back < 3, rereadRank (rankLimit - 1 - back) < rankLimit) ∧ ∀ ahead < 5, rereadRank (ahead + 1) ≠ 0 := by
  decide +kernel

theorem one_le_size (large : natRank 1 ≤ rank) : 1 ≤ size rank := by
  have grows : (units (natRank 1) : ℚ) ≤ units rank := by exact_mod_cast units_strictMono.monotone large
  rw [units_natRank (by decide), Nat.one_mul] at grows
  rwa [size, one_le_div unitsPerOne_cast_pos]

theorem rereadRank_lt (inside : rank < rankLimit) : rereadRank rank < rankLimit := by
  have one : natRank 1 + 5 < rankLimit := by decide +kernel
  by_cases top : rankLimit ≤ rank + 3
  · obtain ⟨back, few, rfl⟩ : ∃ back < 3, rank = rankLimit - 1 - back := ⟨rankLimit - 1 - rank, by omega, by omega⟩
    exact rereadRank_ends.1 back few
  rcases Nat.lt_or_ge rank (natRank 1) with small | large
  · have near := (near_rereadRank inside).1
    omega
  · have whole := one_le_size large
    have tens : (1 : ℚ) ≤ 10 ^ 288 := one_le_pow₀ (by norm_num)
    have near := (near_rereadRank_large inside (one_le_mul_of_one_le_of_one_le whole tens)).1
    omega

theorem rereadRank_eq_zero (inside : rank < rankLimit) : rereadRank rank = 0 ↔ rank = 0 := by
  constructor
  · intro zero
    by_contra nonzero
    by_cases least : rank ≤ 5
    · obtain ⟨ahead, few, rfl⟩ : ∃ ahead < 5, rank = ahead + 1 := ⟨rank - 1, by omega, by omega⟩
      exact rereadRank_ends.2 ahead few zero
    · have near := (near_rereadRank inside).2
      omega
  · rintro rfl
    exact rereadRank_zero

/-- Powers of ten up to this one are doubles. -/
theorem size_powerRank {places : Nat} (few : places ≤ 22) : size (powerRank places) = 10 ^ places := by
  have exact : ∀ places ≤ 22, units (powerRank places) = 10 ^ places * unitsPerOne := by decide +kernel
  rw [size, exact places few, Nat.cast_mul, mul_div_cancel_right₀ _ unitsPerOne_cast_pos.ne']
  exact_mod_cast rfl

/-- A short numeral with a small exponent is scaled with a single rounding. -/
theorem scaledRank_exact {significand : Nat} (short : significand < 2 ^ 53) {exponent : Int} (least : -22 ≤ exponent)
    (greatest : exponent ≤ 22) :
    scaledRank significand exponent = rounded (amount significand exponent * unitsPerOne) := by
  cases exponent with
  | ofNat places =>
    have few : places ≤ 22 := Int.ofNat_le.mp greatest
    rw [scaledRank, mulRank_eq, size_natRank short, size_powerRank few, amount, Int.ofNat_eq_natCast, zpow_natCast]
  | negSucc places =>
    have few : places + 1 ≤ 22 := by omega
    rw [scaledRank, descend_few (Nat.le_trans few (by decide)), divRank_eq _ (size_powerRank_pos _), size_natRank short,
      size_powerRank few, amount, zpow_negSucc, ← div_eq_mul_inv]

theorem rereadRank_exact (inside : rank < rankLimit) (short : (numeralOf rank).1 < 2 ^ 53)
    (least : -22 ≤ (numeralOf rank).2) (greatest : (numeralOf rank).2 ≤ 22) : rereadRank rank = rank := by
  by_cases nonzero : rank = 0
  · rw [nonzero, rereadRank_zero]
  rw [rereadRank, scaledRank_exact short least greatest, rounded_numeralOf nonzero inside]

end Ranks

/-- What a document's text makes of a double: the same sign, and the rank it is read as. -/
def reread (x : Finite) : Finite := ⟨x.negative, rereadRank x.rank, rereadRank_lt x.rank_lt⟩

theorem real_reread (x : Finite) : ReadsAs readNumber (Number.text (.real x)).toList (.real (reread x)) := by
  intro rest ends
  have small : (numeralOf x.rank).2 ≤ 308 := by
    by_cases zero : x.rank = 0
    · rw [numeralOf, if_pos zero]
      decide
    · exact (numeralOf_exponent zero x.rank_lt).2
  have scaled : scale? x.negative (numeralOf x.rank).1 (numeralOf x.rank).2 = some (reread x) := by
    rw [scale?_eq small, Finite.ofRank?]
    exact dif_pos (rereadRank_lt x.rank_lt)
  rw [Number.text, readNumber_finite x ends, realNumber, scaled]

end SpellPack.Proofs.RereadNumbers
