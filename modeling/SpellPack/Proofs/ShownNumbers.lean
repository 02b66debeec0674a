import SpellPack.Proofs.DoubleReading

/-! What a number's text in commands shows is a count of hundredths, from which the text is
made. Below `2 ^ 53` the count is what a hundred times the number rounds to, and from there
on all doubles are integers, so the count never falls when the number rises, and a double
nearest to what is shown has the same count. -/

namespace SpellPack.Proofs.ShownNumbers
open Binary64 ExactNumbers NearestInteger NearestRank ShortestDecimal CommandNumbers DoubleReading

def shownCount : Binary64 → ℤ
  | .finite x => if x.negative then -(shownHundredths x : ℤ) else shownHundredths x
  | _ => 0

def countText (count : ℤ) : String :=
  let unsigned := hundredthsText count.natAbs
  if count < 0 then "-" ++ unsigned else unsigned

theorem commandText_eq (x : Binary64) : x.commandText = countText (shownCount x) := by
  have zero : "0" = countText 0 := by decide
  cases x with
  | nan => exact zero
  | infinite negative => exact zero
  | finite x =>
    change (if x.negative && shownHundredths x ≠ 0 then "-" ++ hundredthsText (shownHundredths x)
      else hundredthsText (shownHundredths x)) = countText (shownCount (.finite x))
    rw [countText, shownCount]
    cases x.negative with
    | true =>
      rw [if_pos rfl, Int.natAbs_neg, Int.natAbs_natCast]
      by_cases none : shownHundredths x = 0 <;> simp [none]
    | false => simp

theorem shown_eq (x : Binary64) : shown x = shownCount x / 100 := by
  cases x with
  | nan | infinite negative => simp [shown, shownCount]
  | finite x =>
    rw [shown, shownCount]
    cases x.negative with
    | true => simp [signed, neg_div]
    | false => simp [signed]

section Magnitudes

variable {x y : Finite}

/-- The digits of an integer are exact below `2 ^ 53`, and do not fall below that beyond. -/
theorem wholeDigits_cases (integral : x.isIntegral = true) :
    (x.wholeDigits : ℚ) = size x.rank ∨ 2 ^ 53 ≤ x.wholeDigits ∧ 2 ^ 53 ≤ size x.rank := by
  have one := unitsPerOne_cast_pos
  have rank : natRank x.wholeDigits = x.rank := by rw [natRank_eq, rounded_wholeDigits integral]
  rcases Nat.lt_or_ge x.wholeDigits (2 ^ 53) with small | large
  · left
    have exact := units_natRank small
    rw [rank] at exact
    rw [size, exact, Nat.cast_mul, mul_div_cancel_right₀ _ one.ne']
  · right
    have reaches := le_units_natRank large
    rw [rank] at reaches
    refine ⟨large, ?_⟩
    rw [size, le_div_iff₀ one]
    exact_mod_cast reaches

theorem size_lt_of_fractional (fractional : x.isIntegral = false) : size x.rank < 2 ^ 52 := by
  have one := unitsPerOne_cast_pos
  by_contra large
  rw [not_lt, size, le_div_iff₀ one] at large
  have integral : x.isIntegral = true := by
    obtain ⟨places, _, power⟩ := unitsPerOne_eq
    have long : 2 ^ (52 + places) ≤ units x.rank := by
      rw [Nat.pow_add, ← power, ← Nat.cast_le (α := ℚ), Nat.cast_mul, Nat.cast_pow]
      exact large
    rw [isIntegral_iff, power]
    exact Nat.mod_eq_zero_of_dvd (dvd_units long)
  rw [fractional] at integral
  cases integral

theorem halfEven_shownHundredths (small : size x.rank < 2 ^ 53) : HalfEven (size x.rank * 100) (shownHundredths x) := by
  rw [shownHundredths]
  split
  · next integral =>
    rcases wholeDigits_cases integral with exact | ⟨_, large⟩
    · have count : size x.rank * 100 = ((x.wholeDigits * 100 : Nat) : ℤ) := by
        rw [← exact]
        push_cast
        rfl
      rw [count]
      exact HalfEven.self _
    · exact absurd small (not_lt.mpr large)
  · exact halfEven_hundredths x

/-- From `2 ^ 53` on there are only integers, and what is shown does not fall below that. -/
theorem shownHundredths_large (large : 2 ^ 53 ≤ size x.rank) :
    x.isIntegral = true ∧ 2 ^ 53 * 100 ≤ shownHundredths x := by
  cases integral : x.isIntegral with
  | false =>
    have small := size_lt_of_fractional integral
    linarith
  | true =>
    refine ⟨rfl, ?_⟩
    rw [shownHundredths, if_pos integral]
    apply Nat.mul_le_mul_right
    rcases wholeDigits_cases integral with exact | ⟨digits, _⟩
    · rw [← exact] at large
      exact_mod_cast large
    · exact digits

theorem wholeDigits_mono (whole : x.isIntegral = true) (integral : y.isIntegral = true) (le : x.rank ≤ y.rank) :
    x.wholeDigits ≤ y.wholeDigits := by
  by_contra less
  have ordered := rounded_mono (mul_nonneg (Nat.cast_nonneg y.wholeDigits) unitsPerOne_cast_pos.le)
    (mul_le_mul_of_nonneg_right (Nat.cast_le.mpr (Nat.le_of_not_le less)) unitsPerOne_cast_pos.le)
  rw [rounded_wholeDigits whole, rounded_wholeDigits integral] at ordered
  have same : x.wholeDigits = y.wholeDigits := by
    rw [Finite.wholeDigits, Finite.wholeDigits, Nat.le_antisymm le ordered]
  exact less same.le

theorem shownHundredths_mono (le : size x.rank ≤ size y.rank) : shownHundredths x ≤ shownHundredths y := by
  -- Below `2 ^ 53` both are rounded alike, beyond it both are integers, and across it lies `2 ^ 53` itself.
  rcases lt_or_ge (size y.rank) (2 ^ 53) with small | large
  · have rounds := (halfEven_shownHundredths (le.trans_lt small)).mono (halfEven_shownHundredths small) (by linarith)
    exact_mod_cast rounds
  obtain ⟨integral, reaches⟩ := shownHundredths_large large
  rcases lt_or_ge (size x.rank) (2 ^ 53) with small | larger
  · have less : size x.rank * 100 ≤ ((2 ^ 53 * 100 : Nat) : ℤ) := by
      push_cast
      linarith
    have rounds := (halfEven_shownHundredths small).mono (HalfEven.self _) less
    have below : shownHundredths x ≤ 2 ^ 53 * 100 := by exact_mod_cast rounds
    exact below.trans reaches
  · have whole := (shownHundredths_large larger).1
    rw [shownHundredths, shownHundredths, if_pos whole, if_pos integral]
    exact Nat.mul_le_mul_right _ (wholeDigits_mono whole integral (size_strictMono.le_iff_le.mp le))

end Magnitudes

section Signed

variable {x y : Finite}

theorem halfEven_shownCount (small : size x.rank < 2 ^ 53) : HalfEven (value x * 100) (shownCount (.finite x)) := by
  have rounds := halfEven_shownHundredths small
  rw [value, shownCount]
  cases x.negative with
  | true =>
    rw [signed, if_pos rfl, if_pos rfl, neg_mul]
    exact rounds.neg
  | false => exact rounds

theorem shownCount_mono (le : value x ≤ value y) : shownCount (.finite x) ≤ shownCount (.finite y) := by
  rw [value, value] at le
  rw [shownCount, shownCount]
  have low := size_nonneg x.rank
  have high := size_nonneg y.rank
  cases below : x.negative with
  | true =>
    cases above : y.negative with
    | true =>
      simp only [below, above, signed, if_true, neg_le_neg_iff] at le ⊢
      exact_mod_cast shownHundredths_mono le
    | false =>
      simp only [Bool.false_eq_true, if_true, if_false]
      omega
  | false =>
    cases above : y.negative with
    | true =>
      simp only [below, above, signed, Bool.false_eq_true, if_true, if_false] at le ⊢
      have first := (shownHundredths_eq_zero_iff x).mpr (by linarith)
      have second := (shownHundredths_eq_zero_iff y).mpr (by linarith)
      rw [first, second]
      decide
    | false =>
      simp only [below, above, signed, Bool.false_eq_true, if_false] at le ⊢
      exact_mod_cast shownHundredths_mono le

end Signed

section Reading

variable {x y : Finite}

theorem abs_shown (x : Finite) : |shown (.finite x)| = shownHundredths x / 100 := abs_signed (by positivity)

theorem rounded_shown (integral : x.isIntegral = true) :
    rounded ((shownHundredths x / 100 : ℚ) * unitsPerOne) = x.rank := by
  have whole : (shownHundredths x / 100 : ℚ) = x.wholeDigits := by
    rw [shownHundredths, if_pos integral, Nat.cast_mul, Nat.cast_ofNat, mul_div_cancel_right₀ _ (by norm_num)]
  rw [whole, rounded_wholeDigits integral]

theorem abs_shownHundredths_sub_le (fractional : x.isIntegral = false) :
    |(shownHundredths x / 100 : ℚ) - size x.rank| ≤ 1 / 200 := by
  rw [shownHundredths, if_neg (by rw [fractional]; decide)]
  exact abs_hundredths_sub_le x

theorem rounded_shown_lt (x : Finite) : rounded ((shownHundredths x / 100 : ℚ) * unitsPerOne) < rankLimit := by
  cases integral : x.isIntegral with
  | true =>
    rw [rounded_shown integral]
    exact x.rank_lt
  | false =>
    have small := size_lt_of_fractional integral
    obtain ⟨_, near⟩ := abs_le.mp (abs_shownHundredths_sub_le integral)
    have below : (shownHundredths x / 100 : ℚ) ≤ (2 ^ 53 : Nat) := by
      push_cast
      linarith
    have ordered := rounded_mono (mul_nonneg (by positivity) unitsPerOne_cast_pos.le)
      (mul_le_mul_of_nonneg_right below unitsPerOne_cast_pos.le)
    rw [← natRank_eq] at ordered
    exact ordered.trans_lt (natRank_lt_rankLimit (by decide))

/-- What rounds to the hundredths that are shown is shown as the same. -/
theorem shownHundredths_rounded (rank : y.rank = rounded ((shownHundredths x / 100 : ℚ) * unitsPerOne)) :
    shownHundredths y = shownHundredths x := by
  cases integral : x.isIntegral with
  | true =>
    rw [rounded_shown integral] at rank
    simp only [shownHundredths, Finite.isIntegral, Finite.magnitude, Finite.wholeDigits, Finite.hundredths, rank]
  | false =>
    have small := size_lt_of_fractional integral
    have nonneg : (0 : ℚ) ≤ shownHundredths x / 100 := by positivity
    have nearest := (nearestEven_size nonneg).nearest x.rank
    rw [← rank] at nearest
    have rounds : HalfEven (size y.rank * 100) (shownHundredths x) := by
      apply (halfEven_shownHundredths (small.trans (by norm_num))).closer
      rw [abs_sub_comm, abs_sub_comm _ (size x.rank * 100), abs_mul_sub (by norm_num), abs_mul_sub (by norm_num)]
      exact mul_le_mul_of_nonneg_right nearest (by norm_num)
    have near : size y.rank < 2 ^ 53 := by
      obtain ⟨_, off⟩ := abs_le.mp (abs_shownHundredths_sub_le integral)
      obtain ⟨below, _⟩ := abs_le.mp rounds.near
      rw [Int.cast_natCast] at below
      linarith
    exact_mod_cast (halfEven_shownHundredths near).unique rounds

theorem ofText?_commandText (x : Binary64) : ∃ y : Finite, ofText? x.commandText = some (.finite y) ∧
    y.rank = rounded (abs (shown x) * unitsPerOne) ∧ shown x = signed y.negative (abs (shown x)) := by
  apply ofText?_nearest (denotes_commandText x)
  · intro some
    have far : (10 : ℚ) ^ 2 ≤ 10 ^ Decimal.exponentReach := pow_le_pow_right₀ (by norm_num) (by decide)
    have count : (1 : ℚ) ≤ |(shownCount x : ℚ)| := by
      rw [shown_eq] at some
      exact_mod_cast Int.one_le_abs (by rintro none; simp [none] at some)
    rw [shown_eq, abs_div, abs_of_pos (show (0 : ℚ) < 100 by norm_num), div_mul_eq_mul_div, one_le_div (by norm_num)]
    calc (100 : ℚ) = 1 * 10 ^ 2 := by norm_num
      _ ≤ |(shownCount x : ℚ)| * 10 ^ Decimal.exponentReach := mul_le_mul count far (by norm_num) (abs_nonneg _)
  · cases x with
    | nan | infinite negative =>
      simp only [shown, abs_zero, zero_mul, rounded_zero]
      decide
    | finite x =>
      rw [abs_shown]
      exact rounded_shown_lt x

/-- The text of a number, the double that it is read as, and the text of that. -/
structure Reread (x : Binary64) (y : Finite) : Prop where
  denotes : Denotes x.commandText.toList (shown x)
  read : ofText? x.commandText = some (.finite y)
  nearest : NearestDouble (shown x) y
  again : (Binary64.finite y).commandText = x.commandText

theorem shownCount_read {x : Binary64} {y : Finite} (rank : y.rank = rounded (abs (shown x) * unitsPerOne))
    (sign : shown x = signed y.negative (abs (shown x))) : shownCount (.finite y) = shownCount x := by
  have magnitude : (shownHundredths y / 100 : ℚ) = abs (shown x) := by
    cases x with
    | nan | infinite negative =>
      simp only [shown, abs_zero, zero_mul, rounded_zero] at rank ⊢
      rw [(shownHundredths_eq_zero_iff y).mpr (by rw [rank, size_zero]; norm_num), Nat.cast_zero, zero_div]
    | finite x =>
      rw [abs_shown] at rank ⊢
      rw [shownHundredths_rounded rank]
  rw [← magnitude] at sign
  have same : shown (.finite y) = shown x := sign.symm
  rw [shown_eq, shown_eq, div_left_inj' (by norm_num)] at same
  exact_mod_cast same

/-- Reading what is shown and showing it again changes nothing. -/
theorem commandText_reread (x : Binary64) : ∃ y, Reread x y := by
  obtain ⟨y, read, rank, sign⟩ := ofText?_commandText x
  have nearest := nearestDouble_of_rank (abs_nonneg (shown x)) rank
  rw [← sign] at nearest
  exact ⟨y, denotes_commandText x, read, nearest, by rw [commandText_eq, commandText_eq, shownCount_read rank sign]⟩

end Reading

end SpellPack.Proofs.ShownNumbers
