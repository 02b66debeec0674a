import Mathlib.Algebra.Group.Nat.Defs
import Mathlib.Algebra.Ring.Int.Defs
import SpellPack.Binary64.Rounding

/-! Rounding leaves what is already a double alone. A magnitude is a significand of
53 bits times a power of two, and its rank is read off the two, so integers below
`2 ^ 53` become doubles and back without loss; greater ones never fall below it. -/

namespace SpellPack.Proofs.ExactNumbers
open Binary64

theorem divHalfEven_mul (quotient : Nat) {den : Nat} (positive : 0 < den) :
    divHalfEven (quotient * den) den = quotient := by
  have noRest : quotient * den % den = 0 := Nat.mul_mod_left quotient den
  have whole : quotient * den / den = quotient := Nat.mul_div_cancel quotient positive
  simp only [divHalfEven, noRest, whole, Nat.mul_zero, if_pos positive]

theorem divHalfEven_bounds (num den : Nat) :
    num / den ≤ divHalfEven num den ∧ divHalfEven num den ≤ num / den + 1 := by
  simp only [divHalfEven]
  split
  · omega
  split
  · omega
  · omega

theorem divHalfEven_of_dvd {num den : Nat} (divides : den ∣ num) (positive : 0 < den) :
    divHalfEven num den = num / den := by
  obtain ⟨quotient, rfl⟩ := divides
  rw [Nat.mul_div_cancel_left _ positive, Nat.mul_comm, divHalfEven_mul quotient positive]

/-- One half is a tie, which goes to zero. -/
theorem divHalfEven_eq_zero_iff {num den : Nat} (positive : 0 < den) : divHalfEven num den = 0 ↔ 2 * num ≤ den := by
  rcases Nat.lt_or_ge num den with below | above
  · simp only [divHalfEven, Nat.div_eq_of_lt below, Nat.mod_eq_of_lt below]
    split
    · omega
    split <;> simp <;> omega
  · have some := Nat.div_pos above positive
    have low := (divHalfEven_bounds num den).1
    omega

theorem blockSize_eq : blockSize = 2 ^ 52 := rfl

theorem nearestRank_one (num : Nat) :
    nearestRank num 1 = (num.log2 - 52) * blockSize + divHalfEven num (2 ^ (num.log2 - 52)) := by
  simp [nearestRank]

/-- Below the second block magnitudes are their own ranks. -/
theorem nearestRank_small {num : Nat} (small : num < 2 ^ 53) : nearestRank num 1 = num := by
  have shift : num.log2 - 52 = 0 := by
    by_cases zero : num = 0
    · simp [zero]
    · have := (Nat.log2_lt zero).mpr small
      omega
  have whole := divHalfEven_mul num (show 0 < 1 by decide)
  rw [nearestRank_one, shift]
  simpa using whole

theorem nearestRank_scaled {significand : Nat} (shift : Nat) (least : 2 ^ 52 ≤ significand)
    (greatest : significand < 2 ^ 53) :
    nearestRank (significand * 2 ^ shift) 1 = shift * blockSize + significand := by
  have positive : 0 < 2 ^ shift := Nat.two_pow_pos shift
  have log : (significand * 2 ^ shift).log2 = 52 + shift := by
    apply (Nat.log2_eq_iff (Nat.mul_ne_zero (by omega) (by omega))).mpr
    constructor
    · rw [Nat.pow_add]
      exact Nat.mul_le_mul_right _ least
    · rw [show 52 + shift + 1 = 53 + shift by omega, Nat.pow_add]
      exact Nat.mul_lt_mul_of_pos_right greatest positive
  have back : 52 + shift - 52 = shift := by omega
  rw [nearestRank_one, log, back, divHalfEven_mul significand positive]

/-- Past the first block a rank is a block and an offset in it. -/
theorem units_block (block : Nat) {offset : Nat} (inside : offset < 2 ^ 52) :
    units ((block + 1) * blockSize + offset) = (2 ^ 52 + offset) * 2 ^ block := by
  have quotient : ((block + 1) * blockSize + offset) / blockSize = block + 1 := by
    rw [blockSize_eq]
    omega
  have rest : ((block + 1) * blockSize + offset) % blockSize = offset := by
    rw [blockSize_eq]
    omega
  simp only [units, quotient, rest, if_neg (Nat.succ_ne_zero block), Nat.add_sub_cancel, Nat.pow_eq]
  rfl

theorem units_small {rank : Nat} (small : rank < 2 ^ 53) : units rank = rank := by
  by_cases first : rank < 2 ^ 52
  · have block : rank / blockSize = 0 := Nat.div_eq_of_lt first
    simp only [units, block, if_true]
  · have block := units_block 0 (show rank - 2 ^ 52 < 2 ^ 52 by omega)
    have split : (0 + 1) * blockSize + (rank - 2 ^ 52) = rank := by
      rw [blockSize_eq]
      omega
    rw [split] at block
    omega

theorem units_scaled {significand : Nat} (shift : Nat) (least : 2 ^ 52 ≤ significand)
    (greatest : significand ≤ 2 ^ 53) :
    units (shift * blockSize + significand) = significand * 2 ^ shift := by
  rcases Nat.lt_or_eq_of_le greatest with below | rfl
  · have block := units_block shift (show significand - 2 ^ 52 < 2 ^ 52 by omega)
    have split : (shift + 1) * blockSize + (significand - 2 ^ 52) = shift * blockSize + significand := by
      rw [blockSize_eq]
      omega
    have whole : 2 ^ 52 + (significand - 2 ^ 52) = significand := by omega
    rw [split, whole] at block
    exact block
  · have block := units_block (shift + 1) (show 0 < 2 ^ 52 by decide)
    have split : (shift + 1 + 1) * blockSize + 0 = shift * blockSize + 2 ^ 53 := by
      rw [blockSize_eq]
      omega
    rw [split] at block
    rw [block, Nat.pow_succ]
    omega

/-- A rank is below the second block, or a significand and a shift. -/
theorem rank_cases (rank : Nat) :
    rank < 2 ^ 53 ∨ ∃ shift significand, rank = shift * blockSize + significand ∧
      2 ^ 52 ≤ significand ∧ significand < 2 ^ 53 := by
  rw [blockSize_eq]
  by_cases small : rank < 2 ^ 53
  · exact .inl small
  · refine .inr ⟨rank / 2 ^ 52 - 1, 2 ^ 52 + rank % 2 ^ 52, ?_, ?_, ?_⟩ <;> omega

theorem nearestRank_units (rank : Nat) : nearestRank (units rank) 1 = rank := by
  rcases rank_cases rank with small | ⟨shift, significand, rfl, least, greatest⟩
  · rw [units_small small, nearestRank_small small]
  · rw [units_scaled shift least (Nat.le_of_lt greatest), nearestRank_scaled shift least greatest]

/-- The nearest rank is a block and a rounded significand, which may carry. -/
theorem nearestRank_cases (num : Nat) :
    (num < 2 ^ 53 ∧ nearestRank num 1 = num) ∨
      ∃ significand, nearestRank num 1 = (num.log2 - 52) * blockSize + significand ∧
        52 ≤ num.log2 ∧ 2 ^ 52 ≤ significand ∧ significand ≤ 2 ^ 53 := by
  by_cases small : num < 2 ^ 53
  · exact .inl ⟨small, nearestRank_small small⟩
  · have some : num ≠ 0 := by omega
    have long : 52 ≤ num.log2 := (Nat.le_log2 some).mpr (by omega)
    obtain ⟨low, high⟩ := divHalfEven_bounds num (2 ^ (num.log2 - 52))
    have positive : 0 < 2 ^ (num.log2 - 52) := Nat.two_pow_pos _
    refine .inr ⟨_, nearestRank_one num, long, Nat.le_trans ?_ low, Nat.le_trans high ?_⟩
    · rw [Nat.le_div_iff_mul_le positive, ← Nat.pow_add, show 52 + (num.log2 - 52) = num.log2 by omega]
      exact Nat.log2_self_le some
    · rw [Nat.succ_le_iff, Nat.div_lt_iff_lt_mul positive, ← Nat.pow_add,
        show 53 + (num.log2 - 52) = num.log2 + 1 by omega]
      exact Nat.lt_log2_self

/-- Rounding does not fall below the power of two under a magnitude. -/
theorem two_pow_le_units_nearestRank {num places : Nat} (reaches : 2 ^ places ≤ num) :
    2 ^ places ≤ units (nearestRank num 1) := by
  rcases nearestRank_cases num with ⟨small, same⟩ | ⟨significand, same, long, least, greatest⟩
  · rwa [same, units_small small]
  · have some : num ≠ 0 := by
      have := Nat.two_pow_pos places
      omega
    have log : places ≤ num.log2 := (Nat.le_log2 some).mpr reaches
    rw [same, units_scaled _ least greatest]
    calc 2 ^ places ≤ 2 ^ num.log2 := Nat.pow_le_pow_right (by decide) log
      _ = 2 ^ 52 * 2 ^ (num.log2 - 52) := by rw [← Nat.pow_add, show 52 + (num.log2 - 52) = num.log2 by omega]
      _ ≤ significand * 2 ^ (num.log2 - 52) := Nat.mul_le_mul_right _ least

theorem nearestRank_lt_rankLimit {num : Nat} (small : num < 2 ^ 2000) : nearestRank num 1 < rankLimit := by
  have limit : rankLimit = 2047 * 2 ^ 52 := rfl
  rcases nearestRank_cases num with ⟨below, same⟩ | ⟨significand, same, long, least, greatest⟩
  · omega
  · have log : num.log2 < 2000 := by
      by_cases zero : num = 0
      · simp [zero]
      · exact (Nat.log2_lt zero).mpr small
    rw [same, limit, blockSize_eq]
    have shifts : (num.log2 - 52) * 2 ^ 52 ≤ 1947 * 2 ^ 52 := Nat.mul_le_mul_right _ (by omega)
    omega

/-- The exponent is kept as a variable, since its power is better not computed. -/
theorem unitsPerOne_eq : ∃ places, places = 1074 ∧ unitsPerOne = 2 ^ places :=
  ⟨_, rfl, Nat.pow_eq⟩

theorem unitsPerOne_pos : 0 < unitsPerOne := by
  obtain ⟨places, _, power⟩ := unitsPerOne_eq
  rw [power]
  exact Nat.two_pow_pos places

theorem natRank_lt_rankLimit {n : Nat} (small : n < 2 ^ 64) : natRank n < rankLimit := by
  obtain ⟨places, same, power⟩ := unitsPerOne_eq
  apply nearestRank_lt_rankLimit
  calc n * unitsPerOne < 2 ^ 64 * unitsPerOne := Nat.mul_lt_mul_of_pos_right small unitsPerOne_pos
    _ = 2 ^ (64 + places) := by rw [power, ← Nat.pow_add]
    _ ≤ 2 ^ 2000 := Nat.pow_le_pow_right (by decide) (by omega)

/-- An integer of at most 53 bits is a double. -/
theorem units_natRank {n : Nat} (small : n < 2 ^ 53) : units (natRank n) = n * unitsPerOne := by
  by_cases zero : n = 0
  · subst zero
    simp [natRank, nearestRank_small, units_small]
  · obtain ⟨places, same, power⟩ := unitsPerOne_eq
    have log : n.log2 < 53 := (Nat.log2_lt zero).mpr small
    have least : 2 ^ 52 ≤ n * 2 ^ (52 - n.log2) := by
      calc 2 ^ 52 = 2 ^ n.log2 * 2 ^ (52 - n.log2) := by
            rw [← Nat.pow_add, show n.log2 + (52 - n.log2) = 52 by omega]
        _ ≤ n * 2 ^ (52 - n.log2) := Nat.mul_le_mul_right _ (Nat.log2_self_le zero)
    have greatest : n * 2 ^ (52 - n.log2) < 2 ^ 53 := by
      calc n * 2 ^ (52 - n.log2) < 2 ^ (n.log2 + 1) * 2 ^ (52 - n.log2) :=
            Nat.mul_lt_mul_of_pos_right Nat.lt_log2_self (Nat.two_pow_pos _)
        _ = 2 ^ 53 := by rw [← Nat.pow_add, show n.log2 + 1 + (52 - n.log2) = 53 by omega]
    have split : n * unitsPerOne = n * 2 ^ (52 - n.log2) * 2 ^ (1022 + n.log2) := by
      rw [Nat.mul_assoc, ← Nat.pow_add, power, show 52 - n.log2 + (1022 + n.log2) = places by omega]
    rw [natRank, split, nearestRank_scaled _ least greatest, units_scaled _ least (Nat.le_of_lt greatest)]

/-- Greater integers may be rounded, but not below the first that is not a double. -/
theorem le_units_natRank {n : Nat} (large : 2 ^ 53 ≤ n) : 2 ^ 53 * unitsPerOne ≤ units (natRank n) := by
  obtain ⟨places, _, power⟩ := unitsPerOne_eq
  have reaches : 2 ^ (53 + places) ≤ n * unitsPerOne := by
    rw [Nat.pow_add, ← power]
    exact Nat.mul_le_mul_right _ large
  have stays := two_pow_le_units_nearestRank reaches
  rwa [pow_add, ← power] at stays

/-- Only zero has two signs. -/
theorem sameNumber_iff {x : Binary64} {negative : Bool} {rank : Nat} {inside : rank < rankLimit} (nonzero : rank ≠ 0) :
    x.sameNumber (.finite ⟨negative, rank, inside⟩) = true ↔ x = .finite ⟨negative, rank, inside⟩ := by
  cases x with
  | finite x =>
    rw [finite.injEq, Finite.mk.injEq]
    simp only [sameNumber, Bool.and_eq_true, Bool.or_eq_true, beq_iff_eq]
    constructor
    · rintro ⟨same, zero | sign⟩
      · exact absurd (same.symm.trans zero) nonzero
      · exact ⟨sign, same⟩
    · rintro ⟨sign, same⟩
      exact ⟨same, .inr sign⟩
  | _ => simp [sameNumber]

theorem ofInt_finite {n : Int} (small : n.natAbs < 2 ^ 64) :
    Binary64.ofInt n = .finite ⟨n < 0, natRank n.natAbs, natRank_lt_rankLimit small⟩ := by
  simp only [Binary64.ofInt, ofRank, dif_pos (natRank_lt_rankLimit small)]

def IsInt (x : Finite) (n : Int) : Prop := x.isIntegral = true ∧ x.truncate = n

theorem isInt_of_units {n : Int} {rank : Nat} (inside : rank < rankLimit)
    (exact : units rank = n.natAbs * unitsPerOne) : IsInt ⟨n < 0, rank, inside⟩ n := by
  have whole : units rank / unitsPerOne = n.natAbs := by rw [exact, Nat.mul_div_cancel _ unitsPerOne_pos]
  constructor
  · simp only [Finite.isIntegral, Finite.magnitude, exact, Nat.mul_mod_left, beq_self_eq_true]
  · simp only [Finite.truncate, Finite.magnitude, whole, decide_eq_true_eq]
    split <;> omega

theorem ofInt_isInt {n : Int} (small : n.natAbs < 2 ^ 53) : ∃ x, Binary64.ofInt n = .finite x ∧ IsInt x n :=
  ⟨_, ofInt_finite (by omega), isInt_of_units _ (units_natRank small)⟩

theorem le_truncate_ofInt {n : Nat} (large : 2 ^ 53 ≤ n) (word : n < 2 ^ 64) :
    ∃ x, Binary64.ofInt n = .finite x ∧ 2 ^ 53 ≤ x.truncate := by
  refine ⟨_, ofInt_finite (by simpa using word), ?_⟩
  have whole : 2 ^ 53 ≤ units (natRank n) / unitsPerOne :=
    (Nat.le_div_iff_mul_le unitsPerOne_pos).mpr (le_units_natRank large)
  have positive : ¬ (n : Int) < 0 := by omega
  simp only [Finite.truncate, Finite.magnitude, Int.natAbs_natCast, positive, decide_false, Bool.false_eq_true, if_false]
  exact_mod_cast whole

theorem natAbs_truncate (x : Finite) : x.truncate.natAbs = units x.rank / unitsPerOne := by
  simp only [Finite.truncate, Finite.magnitude]
  generalize units x.rank / unitsPerOne = whole
  split <;> omega

/-- An integer that is a double becomes that double. -/
theorem ofInt_of_isInt {x : Finite} {n : Int} (same : IsInt x n) :
    ∃ y, Binary64.ofInt n = .finite y ∧ IsInt y n := by
  obtain ⟨integral, rfl⟩ := same
  have exact : units x.rank = x.truncate.natAbs * unitsPerOne := by
    have rest : units x.rank % unitsPerOne = 0 := by simpa [Finite.isIntegral, Finite.magnitude] using integral
    rw [natAbs_truncate, Nat.div_mul_cancel (Nat.dvd_of_mod_eq_zero rest)]
  have same : natRank x.truncate.natAbs = x.rank := by rw [natRank, ← exact, nearestRank_units]
  have inside : natRank x.truncate.natAbs < rankLimit := by rw [same]; exact x.rank_lt
  refine ⟨⟨x.truncate < 0, natRank x.truncate.natAbs, inside⟩, ?_, ?_⟩
  · simp only [Binary64.ofInt, ofRank, dif_pos inside]
  · exact isInt_of_units inside (by rw [same, exact])

/-- What remains of a double without its fraction is a double. From 53 bits on there
is no fraction to lose. -/
theorem truncate_isInt (x : Finite) : ∃ y, IsInt y x.truncate := by
  by_cases small : x.truncate.natAbs < 2 ^ 53
  · obtain ⟨y, _, same⟩ := ofInt_isInt small
    exact ⟨y, same⟩
  · refine ⟨x, ?_, rfl⟩
    rw [natAbs_truncate, Nat.not_lt, Nat.le_div_iff_mul_le unitsPerOne_pos] at small
    obtain ⟨places, _, power⟩ := unitsPerOne_eq
    have positive := unitsPerOne_pos
    rcases rank_cases x.rank with below | ⟨shift, significand, split, least, greatest⟩
    · rw [units_small below] at small
      omega
    · rw [split, units_scaled shift least (Nat.le_of_lt greatest), power] at small
      have longer : 2 ^ places < 2 ^ shift := by
        apply Nat.lt_of_mul_lt_mul_left (a := 2 ^ 53)
        exact Nat.lt_of_le_of_lt small (Nat.mul_lt_mul_of_pos_right greatest (Nat.two_pow_pos shift))
      have divides : 2 ^ places ∣ significand * 2 ^ shift :=
        Nat.dvd_mul_left_of_dvd (Nat.pow_dvd_pow 2 (Nat.le_of_lt ((Nat.pow_lt_pow_iff_right (by decide)).mp longer))) _
      simp only [Finite.isIntegral, Finite.magnitude]
      rw [split, units_scaled shift least (Nat.le_of_lt greatest), power, Nat.mod_eq_zero_of_dvd divides]
      rfl

end SpellPack.Proofs.ExactNumbers
