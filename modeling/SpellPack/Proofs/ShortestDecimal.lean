import Mathlib.Algebra.Order.Field.Power
import Mathlib.Data.Nat.Cast.Order.Field
import SpellPack.Decimal.Notation
import SpellPack.Proofs.NearestRank

/-! The decimal with the fewest digits rounds back to the double that it was made for, and
its digits fit into 64 bits: eighteen grids below the coarsest one, half a step is less
than half of the last of 53 bits, so the search ends there at the latest. -/

namespace SpellPack.Proofs.ShortestDecimal
open Binary64 ExactNumbers NearestInteger NearestRank Decimal

def amount (coefficient : Nat) (exponent : Int) : ℚ := coefficient * 10 ^ exponent

theorem amount_nonneg (coefficient : Nat) (exponent : Int) : 0 ≤ amount coefficient exponent := by
  rw [amount]
  positivity

theorem amount_ofNat (coefficient places : Nat) :
    amount coefficient (.ofNat places) = (coefficient * 10 ^ places : Nat) := by
  simp [amount]

theorem amount_negSucc (coefficient places : Nat) :
    amount coefficient (.negSucc places) = coefficient / (10 ^ (places + 1) : Nat) := by
  simp [amount, zpow_negSucc, div_eq_mul_inv]

/-- Zeros at the end of the coefficient count as places of the exponent. -/
theorem amount_mul_pow (coefficient places : Nat) (exponent : Int) :
    amount (coefficient * 10 ^ places) exponent = amount coefficient (exponent + places) := by
  rw [amount, amount, zpow_add₀ (by norm_num), zpow_natCast]
  push_cast
  ring

/-! Powers of two and of ten, compared through close ratios of their logarithms. -/

theorem two_pow_le_ten_pow {twos tens : Nat} (fewer : 28 * twos ≤ 93 * tens) : 2 ^ twos ≤ 10 ^ tens := by
  have ratio : 2 ^ 93 ≤ 10 ^ 28 := by decide
  apply (Nat.pow_le_pow_iff_left (show 93 ≠ 0 by decide)).mp
  calc (2 ^ twos) ^ 93 = (2 ^ 93) ^ twos := by rw [← Nat.pow_mul, Nat.mul_comm, Nat.pow_mul]
    _ ≤ (10 ^ 28) ^ twos := Nat.pow_le_pow_left ratio twos
    _ = 10 ^ (28 * twos) := (Nat.pow_mul ..).symm
    _ ≤ 10 ^ (93 * tens) := Nat.pow_le_pow_right (by decide) fewer
    _ = (10 ^ tens) ^ 93 := by rw [Nat.mul_comm, Nat.pow_mul]

theorem ten_pow_le_two_pow {tens twos : Nat} (fewer : 196 * tens ≤ 59 * twos) : 10 ^ tens ≤ 2 ^ twos := by
  have ratio : 10 ^ 59 ≤ 2 ^ 196 := by decide
  apply (Nat.pow_le_pow_iff_left (show 59 ≠ 0 by decide)).mp
  calc (10 ^ tens) ^ 59 = (10 ^ 59) ^ tens := by rw [← Nat.pow_mul, Nat.mul_comm, Nat.pow_mul]
    _ ≤ (2 ^ 196) ^ tens := Nat.pow_le_pow_left ratio tens
    _ = 2 ^ (196 * tens) := (Nat.pow_mul ..).symm
    _ ≤ 2 ^ (59 * twos) := Nat.pow_le_pow_right (by decide) fewer
    _ = (2 ^ twos) ^ 59 := by rw [Nat.mul_comm, Nat.pow_mul]

/-- Within reach, a decimal is rounded to the nearest double. -/
theorem rank_eq_rounded {coefficient : Nat} {exponent : Int} (some : coefficient ≠ 0)
    (least : 1 ≤ amount coefficient exponent * 10 ^ exponentReach)
    (greatest : amount coefficient exponent < 10 ^ exponentReach) :
    rank coefficient exponent = rounded (amount coefficient exponent * unitsPerOne) := by
  cases exponent with
  | ofNat places =>
    rw [amount_ofNat] at greatest ⊢
    have few : ¬ exponentReach < places := by
      have bound : coefficient * 10 ^ places < 10 ^ exponentReach := by exact_mod_cast greatest
      have power : 10 ^ places < 10 ^ exponentReach :=
        Nat.lt_of_le_of_lt (Nat.le_mul_of_pos_left _ (Nat.pos_of_ne_zero some)) bound
      have := (Nat.pow_lt_pow_iff_right (by decide)).mp power
      omega
    rw [rank, if_neg some, if_neg few, nearestRank_eq_rounded _ (by decide), Nat.cast_one, div_one, Nat.cast_mul]
    rfl
  | negSucc places =>
    rw [amount_negSucc] at least ⊢
    have few : ¬ exponentReach + coefficient.log2 < places := by
      intro many
      have tens : (0 : ℚ) < (10 ^ (places + 1) : Nat) := by positivity
      rw [div_mul_eq_mul_div, le_div_iff₀ tens, one_mul] at least
      have bound : 10 ^ (places + 1) ≤ coefficient * 10 ^ exponentReach := by exact_mod_cast least
      have short : coefficient < 10 ^ (coefficient.log2 + 1) :=
        Nat.lt_of_lt_of_le Nat.lt_log2_self (Nat.pow_le_pow_left (by decide) _)
      have less : 10 ^ (places + 1) < 10 ^ (coefficient.log2 + 1 + exponentReach) := by
        rw [Nat.pow_add 10 _ exponentReach]
        exact Nat.lt_of_le_of_lt bound (Nat.mul_lt_mul_of_pos_right short (Nat.pow_pos (by decide)))
      have := (Nat.pow_lt_pow_iff_right (by decide)).mp less
      omega
    rw [rank, if_neg few, Nat.pow_eq, nearestRank_eq_rounded _ (Nat.pow_pos (by decide)), Nat.cast_mul,
      div_mul_eq_mul_div]

/-- A decimal that is taken for neither zero nor infinity is within reach. -/
theorem rounded_of_rank {coefficient : Nat} {exponent : Int} {read : Nat} (reads : rank coefficient exponent = read)
    (nonzero : read ≠ 0) (inside : read < rankLimit) :
    rounded (amount coefficient exponent * unitsPerOne) = read := by
  subst reads
  symm
  cases exponent with
  | ofNat places =>
    rw [amount_ofNat]
    rw [rank] at nonzero inside ⊢
    split at nonzero
    · exact absurd rfl nonzero
    next some =>
    rw [if_neg some] at inside ⊢
    split at inside
    · exact absurd inside (Nat.lt_irrefl _)
    next few =>
    rw [if_neg few, nearestRank_eq_rounded _ (by decide), Nat.cast_one, div_one, Nat.cast_mul]
    rfl
  | negSucc places =>
    rw [amount_negSucc]
    rw [rank] at nonzero ⊢
    split at nonzero
    · exact absurd rfl nonzero
    next few =>
    rw [if_neg few, Nat.pow_eq, nearestRank_eq_rounded _ (Nat.pow_pos (by decide)), Nat.cast_mul, div_mul_eq_mul_div]

section Size

variable {rank : Nat}

theorem units_pos (nonzero : rank ≠ 0) : 0 < units rank :=
  Nat.lt_of_le_of_lt (Nat.zero_le _) (units_strictMono (Nat.pos_of_ne_zero nonzero))

theorem size_pos (nonzero : rank ≠ 0) : 0 < size rank :=
  div_pos (Nat.cast_pos.mpr (units_pos nonzero)) unitsPerOne_cast_pos

/-- Again the exponent is better not computed with. -/
theorem units_lt (inside : rank < rankLimit) :
    ∃ places, places = 1024 ∧ units rank < 2 ^ places * unitsPerOne := by
  obtain ⟨ones, same, power⟩ := unitsPerOne_eq
  obtain ⟨shift, last⟩ : ∃ shift, shift = 2045 := ⟨_, rfl⟩
  obtain ⟨places, limit⟩ : ∃ places, places = 1024 := ⟨_, rfl⟩
  have top : rankLimit = shift * blockSize + 2 ^ 53 := by
    rw [last]
    decide
  refine ⟨places, limit, ?_⟩
  calc units rank < units rankLimit := units_strictMono inside
    _ = 2 ^ 53 * 2 ^ shift := by rw [top, units_scaled shift (by decide) (by decide)]
    _ = 2 ^ places * unitsPerOne := by
      rw [power, ← Nat.pow_add, ← Nat.pow_add, show 53 + shift = places + ones by omega]

/-- The power of two next above a magnitude, with as many factors as the magnitude has
places before the point, or at the other side if it has none. -/
theorem size_binary (nonzero : rank ≠ 0) (inside : rank < rankLimit) :
    (∃ places : Nat, ((units rank).log2 + 1 - 1074 : Int) = places ∧ places ≤ 1024 ∧
        size rank < 2 ^ places ∧ 2 ^ places ≤ 2 * size rank) ∨
      ∃ places : Nat, ((units rank).log2 + 1 - 1074 : Int) = -(places + 1 : Nat) ∧ places ≤ 1074 ∧
        size rank * 2 ^ (places + 1) < 1 ∧ 1 ≤ 2 * size rank * 2 ^ (places + 1) := by
  obtain ⟨ones, same, power⟩ := unitsPerOne_eq
  have some : units rank ≠ 0 := (units_pos nonzero).ne'
  have least := Nat.log2_self_le some
  have greatest : units rank < 2 ^ ((units rank).log2 + 1) := Nat.lt_log2_self
  have one := unitsPerOne_cast_pos
  have bits : (units rank).log2 < 1024 + ones := by
    obtain ⟨places, limit, below⟩ := units_lt inside
    rw [power, ← Nat.pow_add] at below
    exact limit ▸ (Nat.log2_lt some).mpr below
  rcases Nat.lt_or_ge ((units rank).log2 + 1) ones with small | large
  · right
    obtain ⟨places, split⟩ : ∃ places, (units rank).log2 + 1 + (places + 1) = ones :=
      ⟨ones - (units rank).log2 - 2, by omega⟩
    refine ⟨places, by omega, by omega, ?_, ?_⟩
    · rw [size, div_mul_eq_mul_div, div_lt_one one, power, ← split, Nat.pow_add]
      exact_mod_cast Nat.mul_lt_mul_of_pos_right greatest (Nat.two_pow_pos _)
    · rw [size, mul_div_assoc', div_mul_eq_mul_div, one_le_div one, power, ← split, Nat.pow_add, Nat.pow_succ']
      exact_mod_cast Nat.mul_le_mul_right _ (Nat.mul_le_mul_left 2 least)
  · left
    obtain ⟨places, split⟩ : ∃ places, (units rank).log2 + 1 = places + ones := ⟨(units rank).log2 + 1 - ones, by omega⟩
    refine ⟨places, by omega, by omega, ?_, ?_⟩
    · rw [size, div_lt_iff₀ one, power]
      rw [split, Nat.pow_add] at greatest
      exact_mod_cast greatest
    · rw [size, mul_div_assoc', le_div_iff₀ one, power]
      have twice := Nat.mul_le_mul_left 2 least
      rw [← Nat.pow_succ', Nat.succ_eq_add_one, split, Nat.pow_add] at twice
      exact_mod_cast twice

end Size

section Rounded

variable {rank coefficient : Nat} {exponent : Int} (rounds : rounded (amount coefficient exponent * unitsPerOne) = rank)
  (nonzero : rank ≠ 0)
include rounds nonzero

/-- Rounding that does not yield zero moves a number by a factor of two at most. -/
theorem amount_near : size rank ≤ 2 * amount coefficient exponent ∧ amount coefficient exponent ≤ 2 * size rank := by
  have one := unitsPerOne_cast_pos
  have some : (1 : ℚ) ≤ units rank := by exact_mod_cast units_pos nonzero
  have close := abs_units_rounded_sub_le (mul_nonneg (amount_nonneg coefficient exponent) one.le)
  rw [rounds] at close
  rw [size, div_le_iff₀ one, mul_div_assoc', le_div_iff₀ one, mul_assoc]
  generalize amount coefficient exponent * (unitsPerOne : ℚ) = written at close ⊢
  rcases close with ⟨_, half⟩ | bits
  · rw [abs_le] at half
    constructor <;> linarith only [half.1, half.2, some]
  · rw [abs_le] at bits
    constructor <;> linarith only [bits.1, bits.2, some]

theorem coefficient_pos : 0 < coefficient := by
  apply Nat.pos_of_ne_zero
  rintro rfl
  have above := (amount_near rounds nonzero).1
  rw [amount, Nat.cast_zero, zero_mul, mul_zero] at above
  exact absurd (size_pos nonzero) (not_lt.mpr above)

end Rounded

/-- On the coarsest grid the value is no less than a quarter of a step and less than a
hundred steps. -/
theorem coarsestGrid_bounds {rank : Nat} (nonzero : rank ≠ 0) (inside : rank < rankLimit) :
    (10 : ℚ) ^ coarsestGrid rank ≤ 4 * size rank ∧ size rank < 100 * 10 ^ coarsestGrid rank := by
  have compare : ∀ {twos tens : Nat}, 28 * twos ≤ 93 * tens → (2 : ℚ) ^ twos ≤ 10 ^ tens :=
    fun fewer => by exact_mod_cast two_pow_le_ten_pow fewer
  have back : ∀ {tens twos : Nat}, 196 * tens ≤ 59 * twos → (10 : ℚ) ^ tens ≤ 2 ^ twos :=
    fun fewer => by exact_mod_cast ten_pow_le_two_pow fewer
  rcases size_binary nonzero inside with ⟨places, bits, few, below, least⟩ | ⟨places, bits, few, below, least⟩
  · have grid : coarsestGrid rank = (places * 30103 / 100000 : Nat) := by
      simp only [coarsestGrid, bits, if_pos (Int.natCast_nonneg places), Int.toNat_natCast]
      norm_cast
    obtain ⟨tens, same⟩ : ∃ tens, tens = places * 30103 / 100000 := ⟨_, rfl⟩
    rw [grid, ← same, zpow_natCast]
    have lower := back (show 196 * tens ≤ 59 * (places + 1) by omega)
    have upper := compare (show 28 * places ≤ 93 * (tens + 2) by omega)
    rw [pow_succ] at lower
    rw [pow_add] at upper
    constructor <;> linarith
  · have grid : coarsestGrid rank = -(((places + 1) * 30102 / 100000 + 1 : Nat) : Int) := by
      have negative : ¬ (0 : Int) ≤ -(places + 1 : Nat) := by omega
      simp only [coarsestGrid, bits, if_neg negative, neg_neg, Int.toNat_natCast]
      push_cast
      ring
    obtain ⟨tens, same⟩ : ∃ tens, tens = (places + 1) * 30102 / 100000 := ⟨_, rfl⟩
    have lower := compare (show 28 * places ≤ 93 * (tens + 1) by omega)
    have upper := back (show 196 * tens ≤ 59 * (places + 2) by omega)
    have power : (0 : ℚ) < 10 ^ (tens + 1) := by positivity
    have size_some := size_pos nonzero
    rw [grid, ← same, zpow_neg, zpow_natCast]
    rw [pow_succ] at below least
    rw [pow_add] at upper
    constructor
    · rw [inv_le_iff_one_le_mul₀ power]
      nlinarith
    · rw [← div_eq_mul_inv, lt_div_iff₀ power, pow_succ]
      nlinarith

/-- All doubles are well within reach. -/
theorem size_reach {rank : Nat} (nonzero : rank ≠ 0) (inside : rank < rankLimit) :
    2 ≤ size rank * 10 ^ exponentReach ∧ 2 * size rank < 10 ^ exponentReach := by
  obtain ⟨ones, same, power⟩ := unitsPerOne_eq
  obtain ⟨places, limit, below⟩ := units_lt inside
  obtain ⟨reach, far⟩ : ∃ reach, reach = exponentReach := ⟨_, rfl⟩
  have one := unitsPerOne_cast_pos
  have value : reach = 400 := far
  have least : 2 ^ (ones + 1) ≤ 10 ^ reach := two_pow_le_ten_pow (by omega)
  have greatest : 2 ^ (places + 1) ≤ 10 ^ reach := two_pow_le_ten_pow (by omega)
  have some : (1 : ℚ) ≤ units rank := by exact_mod_cast units_pos nonzero
  have below : (units rank : ℚ) < 2 ^ places * unitsPerOne := by exact_mod_cast below
  have least : (2 : ℚ) ^ ones * 2 ≤ 10 ^ reach := by exact_mod_cast least
  have greatest : (2 : ℚ) ^ places * 2 ≤ 10 ^ reach := by exact_mod_cast greatest
  have cast : (unitsPerOne : ℚ) = 2 ^ ones := by exact_mod_cast power
  rw [← far, size]
  rw [cast] at below one ⊢
  constructor
  · rw [div_mul_eq_mul_div, le_div_iff₀ one, mul_comm 2]
    exact least.trans (le_mul_of_one_le_left (by positivity) some)
  · rw [mul_div_assoc', div_lt_iff₀ one]
    calc 2 * (units rank : ℚ) < 2 * (2 ^ places * 2 ^ ones) := mul_lt_mul_of_pos_left below two_pos
      _ = 2 ^ places * 2 * 2 ^ ones := by ring
      _ ≤ 10 ^ reach * 2 ^ ones := mul_le_mul_of_nonneg_right greatest one.le

section Grids

variable {rank : Nat} {grid : Int}

theorem onGrid_eq (rank : Nat) (grid : Int) :
    0 < (onGrid rank grid).2 ∧
      ((onGrid rank grid).1 : ℚ) / (onGrid rank grid).2 = size rank / 10 ^ grid := by
  cases grid with
  | ofNat places =>
    constructor
    · exact Nat.mul_pos unitsPerOne_pos (Nat.pow_pos (by decide))
    · simp only [onGrid, Nat.pow_eq, Nat.cast_mul, Nat.cast_pow, Nat.cast_ofNat, Int.ofNat_eq_natCast, zpow_natCast,
        size, div_div]
  | negSucc places =>
    constructor
    · simp only [onGrid, unitsPerOne_pos]
    · simp only [onGrid, Nat.pow_eq, Nat.cast_mul, Nat.cast_pow, Nat.cast_ofNat, zpow_negSucc, size, div_inv_eq_mul,
        div_mul_eq_mul_div]

theorem floor_onGrid_le (rank : Nat) (grid : Int) :
    (((onGrid rank grid).1 / (onGrid rank grid).2 : Nat) : ℚ) ≤ size rank / 10 ^ grid := by
  rw [← (onGrid_eq rank grid).2]
  exact Nat.cast_div_le

theorem readsBackOn?_eq (rank : Nat) (grid : Int) :
    readsBackOn? rank grid =
      let floor := (onGrid rank grid).1 / (onGrid rank grid).2
      let near := divHalfEven (onGrid rank grid).1 (onGrid rank grid).2
      [near, if near = floor then near + 1 else floor].find? fun multiple => Decimal.rank multiple grid == rank := rfl

/-- Either multiple that is tried lies at most one step above the value. -/
theorem readsBackOn?_some {multiple : Nat} (found : readsBackOn? rank grid = some multiple) :
    Decimal.rank multiple grid = rank ∧ (multiple : ℚ) ≤ size rank / 10 ^ grid + 1 := by
  have floor := floor_onGrid_le rank grid
  have near := (divHalfEven_bounds (onGrid rank grid).1 (onGrid rank grid).2).2
  rw [readsBackOn?_eq] at found
  have member := List.mem_of_find?_eq_some found
  have reads := List.find?_some found
  refine ⟨by simpa using reads, ?_⟩
  have next : multiple ≤ (onGrid rank grid).1 / (onGrid rank grid).2 + 1 := by
    simp only [List.mem_cons, List.not_mem_nil, or_false] at member
    rcases member with rfl | rfl
    · exact near
    · split <;> omega
  have next : (multiple : ℚ) ≤ ((onGrid rank grid).1 / (onGrid rank grid).2 : Nat) + 1 := by exact_mod_cast next
  linarith

theorem readsBackOn?_nearest
    (reads : Decimal.rank (divHalfEven (onGrid rank grid).1 (onGrid rank grid).2) grid = rank) :
    ∃ multiple, readsBackOn? rank grid = some multiple := by
  apply Option.isSome_iff_exists.mp
  rw [readsBackOn?_eq, List.find?_isSome]
  exact ⟨_, List.mem_cons_self, beq_iff_eq.mpr reads⟩

/-- So does a multiple within half a step, which then is the nearest one. -/
theorem readsBackOn?_close {multiple : Nat} (reads : Decimal.rank multiple grid = rank)
    (close : |(multiple : ℚ) - size rank / 10 ^ grid| < 1 / 2) : ∃ found, readsBackOn? rank grid = some found := by
  obtain ⟨positive, same⟩ := onGrid_eq rank grid
  have rounds := halfEven_divHalfEven (onGrid rank grid).1 positive
  rw [same] at rounds
  have nearest : divHalfEven (onGrid rank grid).1 (onGrid rank grid).2 = multiple := by
    exact_mod_cast rounds.unique (HalfEven.of_lt close)
  exact readsBackOn?_nearest (by rwa [nearest])

/-- On a grid this fine the nearest multiple reads back. -/
theorem readsBackOn?_fine (nonzero : rank ≠ 0) (inside : rank < rankLimit)
    (fine : 10 ^ 17 * 10 ^ grid ≤ 4 * size rank) :
    ∃ multiple, readsBackOn? rank grid = some multiple := by
  obtain ⟨positive, same⟩ := onGrid_eq rank grid
  have half := abs_divHalfEven_sub_le (onGrid rank grid).1 positive
  rw [same] at half
  obtain ⟨near, found⟩ : ∃ near, near = divHalfEven (onGrid rank grid).1 (onGrid rank grid).2 := ⟨_, rfl⟩
  rw [← found] at half
  have power : (0 : ℚ) < 10 ^ grid := by positivity
  have one := unitsPerOne_cast_pos
  have some := size_pos nonzero
  have step : |amount near grid - size rank| ≤ 10 ^ grid / 2 := by
    have scaled := mul_le_mul_of_nonneg_right half power.le
    rw [← abs_of_pos power, ← abs_mul, abs_of_pos power, sub_mul, div_mul_cancel₀ _ power.ne'] at scaled
    rw [amount]
    linarith
  obtain ⟨low, high⟩ := abs_le.mp step
  obtain ⟨least, greatest⟩ := size_reach nonzero inside
  have reads : Decimal.rank near grid = rank := by
    have nonzero : near ≠ 0 := by
      rintro rfl
      rw [amount, Nat.cast_zero, zero_mul] at low
      linarith
    have reach : (0 : ℚ) < 10 ^ exponentReach := by positivity
    rw [rank_eq_rounded nonzero (by nlinarith) (by linarith)]
    apply (nearest_rounded (mul_nonneg (amount_nonneg near grid) one.le)).eq_of_close
    rw [← size_mul_unitsPerOne, ← sub_mul, abs_mul, abs_of_pos one, ← mul_assoc, abs_sub_comm]
    apply mul_lt_mul_of_pos_right _ one
    linarith
  exact readsBackOn?_nearest (found ▸ reads)

/-- What the search yields reads back, is not much greater than the value, and stands on
a grid that is not finer than needed. -/
structure Found (rank : Nat) (finest : Int) (found : Nat × Int) : Prop where
  reads : Decimal.rank found.1 found.2 = rank
  close : (found.1 : ℚ) ≤ size rank / 10 ^ found.2 + 1
  coarse : finest ≤ found.2

theorem found_shortestFrom {steps tries : Nat} (sure : ∃ multiple, readsBackOn? rank (grid - tries) = some multiple)
    (last : Decimal.rank ((onGrid rank (grid - steps)).1 / (onGrid rank (grid - steps)).2) (grid - steps) = rank) :
    Found rank (grid - tries) (shortestFrom rank steps grid) := by
  induction steps generalizing grid tries with
  | zero =>
    rw [Nat.cast_zero, Int.sub_zero] at last
    have floor := floor_onGrid_le rank grid
    refine ⟨last, ?_, ?_⟩
    · rw [shortestFrom]
      linarith
    · change grid - tries ≤ grid
      omega
  | succ steps ih =>
    rw [shortestFrom]
    split
    next multiple found =>
      obtain ⟨reads, close⟩ := readsBackOn?_some found
      exact ⟨reads, close, by omega⟩
    next none =>
      cases tries with
      | zero =>
        rw [Nat.cast_zero, Int.sub_zero] at sure
        obtain ⟨multiple, found⟩ := sure
        rw [none] at found
        cases found
      | succ tries =>
        have onward : ∀ count : Nat, grid - (count + 1 : Nat) = grid - 1 - count := by
          intro count
          omega
        rw [onward] at sure last ⊢
        exact ih sure last

end Grids

theorem finestGrid_le {rank : Nat} (nonzero : rank ≠ 0) : finestGrid rank ≤ coarsestGrid rank := by
  rw [finestGrid]
  split
  next whole =>
    obtain ⟨ones, same, power⟩ := unitsPerOne_eq
    have some := units_pos nonzero
    have large : 2 ^ ones ≤ units rank := by
      rw [← power]
      exact Nat.le_of_dvd some (Nat.dvd_of_mod_eq_zero whole)
    have bits : ones ≤ (units rank).log2 := (Nat.le_log2 some.ne').mpr large
    rw [coarsestGrid, if_pos (by omega)]
    exact Int.natCast_nonneg _
  next =>
    rw [coarsestGrid]
    split <;> omega

/-- On the finest grid the value is a multiple and reads back exactly. -/
theorem finestGrid_reads {rank : Nat} (nonzero : rank ≠ 0) :
    Decimal.rank ((onGrid rank (finestGrid rank)).1 / (onGrid rank (finestGrid rank)).2) (finestGrid rank) = rank := by
  have some := units_pos nonzero
  rw [finestGrid]
  split
  next whole =>
    have divides := Nat.dvd_of_mod_eq_zero whole
    have quotient : (onGrid rank (.ofNat 0)).1 / (onGrid rank (.ofNat 0)).2 = units rank / unitsPerOne := by
      simp only [onGrid, Nat.pow_eq, Nat.pow_zero, Nat.mul_one]
    have positive : units rank / unitsPerOne ≠ 0 :=
      (Nat.div_pos (Nat.le_of_dvd some divides) unitsPerOne_pos).ne'
    rw [show (0 : Int) = .ofNat 0 from rfl, quotient, Decimal.rank, if_neg positive, if_neg (Nat.not_lt_zero _),
      Nat.pow_eq, Nat.pow_zero, Nat.mul_one,
      Nat.div_mul_cancel divides, nearestRank_units]
  next =>
    obtain ⟨ones, same, power⟩ := unitsPerOne_eq
    obtain ⟨less, rfl⟩ : ∃ less, ones = less + 1 := ⟨ones - 1, by omega⟩
    have grid : (-1074 : Int) = .negSucc less := by omega
    have tens : units rank * 10 ^ (less + 1) = units rank * 5 ^ (less + 1) * unitsPerOne := by
      rw [power, Nat.mul_assoc, ← Nat.mul_pow]
    have quotient :
        (onGrid rank (.negSucc less)).1 / (onGrid rank (.negSucc less)).2 = units rank * 5 ^ (less + 1) := by
      simp only [onGrid, Nat.pow_eq]
      rw [tens, Nat.mul_div_cancel _ unitsPerOne_pos]
    have bits : less + 1 ≤ (units rank * 5 ^ (less + 1)).log2 := by
      rw [Nat.le_log2 (Nat.mul_pos some (Nat.pow_pos (by decide))).ne']
      exact Nat.le_trans (Nat.pow_le_pow_left (by decide) _) (Nat.le_mul_of_pos_left _ some)
    have reach : ¬ exponentReach + (units rank * 5 ^ (less + 1)).log2 < less := by omega
    rw [grid, quotient, Decimal.rank, if_neg reach, ← tens, Nat.pow_eq, Nat.mul_comm]
    have exact := @nearestRank_mul_left (10 ^ (less + 1)) (Nat.pow_pos (by decide)) (units rank) 1
    rwa [Nat.mul_one, nearestRank_units] at exact

/-- The search goes no further than a grid on which some multiple reads back. -/
theorem found_on {rank : Nat} (nonzero : rank ≠ 0) {grid : Int} (le : grid ≤ coarsestGrid rank)
    (sure : ∃ multiple, readsBackOn? rank grid = some multiple) : Found rank grid (shortest rank) := by
  have below := finestGrid_le nonzero
  obtain ⟨tries, rfl⟩ : ∃ tries : Nat, grid = coarsestGrid rank - tries := ⟨(coarsestGrid rank - grid).toNat, by omega⟩
  apply found_shortestFrom sure
  rw [Int.toNat_of_nonneg (by omega), Int.sub_sub_self]
  exact finestGrid_reads nonzero

theorem found_shortest {rank : Nat} (nonzero : rank ≠ 0) (inside : rank < rankLimit) :
    Found rank (coarsestGrid rank - 17) (shortest rank) := by
  obtain ⟨coarse, _⟩ := coarsestGrid_bounds nonzero inside
  apply found_on nonzero (by omega) (readsBackOn?_fine nonzero inside _)
  rw [zpow_sub₀ (by norm_num)]
  norm_num
  linarith

section Zeros

variable (coefficient : Nat) (exponent : Int)

theorem amount_stripZeros :
    amount (stripZeros coefficient exponent).1 (stripZeros coefficient exponent).2 = amount coefficient exponent := by
  fun_induction stripZeros with
  | case1 coefficient exponent trailing ih =>
    have tens : coefficient / 10 * 10 ^ 1 = coefficient := by omega
    have same := amount_mul_pow (coefficient / 10) 1 exponent
    rw [tens] at same
    exact ih.trans same.symm
  | case2 => rfl

theorem stripZeros_le : (stripZeros coefficient exponent).1 ≤ coefficient := by
  fun_induction stripZeros with
  | case1 coefficient exponent trailing ih => exact Nat.le_trans ih (Nat.div_le_self _ _)
  | case2 => exact Nat.le_refl _

theorem le_stripZeros : exponent ≤ (stripZeros coefficient exponent).2 := by
  fun_induction stripZeros with
  | case1 coefficient exponent trailing ih => omega
  | case2 => exact Int.le_refl _

end Zeros

def decimal (rank : Nat) : Nat × Int := stripZeros (shortest rank).1 (shortest rank).2

section Written

variable {rank : Nat}

theorem rounded_decimal (nonzero : rank ≠ 0) (inside : rank < rankLimit) :
    rounded (amount (decimal rank).1 (decimal rank).2 * unitsPerOne) = rank := by
  rw [decimal, amount_stripZeros]
  exact rounded_of_rank (found_shortest nonzero inside).reads nonzero inside

/-- The digits fit into 64 bits. -/
theorem decimal_lt (nonzero : rank ≠ 0) (inside : rank < rankLimit) : (decimal rank).1 < 2 ^ 64 := by
  obtain ⟨_, close, coarse⟩ := found_shortest nonzero inside
  obtain ⟨_, below⟩ := coarsestGrid_bounds nonzero inside
  have powers : (10 : ℚ) ^ coarsestGrid rank ≤ 10 ^ 17 * 10 ^ (shortest rank).2 := by
    rw [← zpow_natCast, ← zpow_add₀ (by norm_num)]
    exact zpow_le_zpow_right₀ (by norm_num) (by push_cast; omega)
  have power : (0 : ℚ) < 10 ^ (shortest rank).2 := by positivity
  have few : size rank / 10 ^ (shortest rank).2 ≤ 10 ^ 19 := by
    rw [div_le_iff₀ power]
    linarith
  have short : ((shortest rank).1 : ℚ) ≤ (10 ^ 19 + 1 : Nat) := by
    push_cast
    linarith
  have short : (shortest rank).1 ≤ 10 ^ 19 + 1 := by exact_mod_cast short
  have less := stripZeros_le (shortest rank).1 (shortest rank).2
  rw [decimal]
  omega

theorem decimal_pos (nonzero : rank ≠ 0) (inside : rank < rankLimit) : 0 < (decimal rank).1 :=
  coefficient_pos (rounded_decimal nonzero inside) nonzero

theorem amount_decimal (nonzero : rank ≠ 0) (inside : rank < rankLimit) :
    size rank ≤ 2 * amount (decimal rank).1 (decimal rank).2 ∧
      amount (decimal rank).1 (decimal rank).2 ≤ 2 * size rank :=
  amount_near (rounded_decimal nonzero inside) nonzero

/-- What is written lies between a quarter of the least double and twice the greatest, so
its exponent is small. -/
theorem decimal_exponent (nonzero : rank ≠ 0) (inside : rank < rankLimit) :
    -343 ≤ (decimal rank).2 ∧ (decimal rank).2 ≤ 308 := by
  obtain ⟨least, greatest⟩ := amount_decimal nonzero inside
  have some : (1 : ℚ) ≤ (decimal rank).1 := by exact_mod_cast decimal_pos nonzero inside
  have power : (0 : ℚ) < 10 ^ (decimal rank).2 := by positivity
  have one := unitsPerOne_cast_pos
  rw [amount] at least greatest
  constructor
  · obtain ⟨ones, same, binary⟩ := unitsPerOne_eq
    obtain ⟨tens, last⟩ : ∃ tens, tens = 344 := ⟨_, rfl⟩
    by_contra low
    have short : ((decimal rank).1 : ℚ) < 2 ^ 64 := by exact_mod_cast decimal_lt nonzero inside
    have unit : (1 : ℚ) ≤ size rank * unitsPerOne := by
      rw [size_mul_unitsPerOne]
      exact_mod_cast units_pos nonzero
    have digits : 2 ^ (65 + ones) ≤ 10 ^ tens := two_pow_le_ten_pow (by omega)
    have digits : (2 : ℚ) ^ 65 * unitsPerOne ≤ 10 ^ tens := by
      rw [binary]
      exact_mod_cast (Nat.pow_add 2 65 ones).symm ▸ digits
    have places : (10 : ℚ) ^ (decimal rank).2 * 10 ^ tens ≤ 1 := by
      rw [← zpow_natCast, ← zpow_add₀ (by norm_num)]
      exact zpow_le_one_of_nonpos₀ (by norm_num) (by omega)
    have small : (1 : ℚ) < 1 :=
      calc (1 : ℚ) ≤ size rank * unitsPerOne := unit
        _ ≤ 2 * ((decimal rank).1 * 10 ^ (decimal rank).2) * unitsPerOne := mul_le_mul_of_nonneg_right least one.le
        _ < 2 * (2 ^ 64 * 10 ^ (decimal rank).2) * unitsPerOne :=
          mul_lt_mul_of_pos_right (mul_lt_mul_of_pos_left (mul_lt_mul_of_pos_right short power) two_pos) one
        _ = 10 ^ (decimal rank).2 * (2 ^ 65 * unitsPerOne) := by ring
        _ ≤ 10 ^ (decimal rank).2 * 10 ^ tens := mul_le_mul_of_nonneg_left digits power.le
        _ ≤ 1 := places
    exact lt_irrefl _ small
  · obtain ⟨places, limit, below⟩ := units_lt inside
    obtain ⟨tens, last⟩ : ∃ tens, tens = 309 := ⟨_, rfl⟩
    by_contra high
    have digits : 2 ^ (places + 1) ≤ 10 ^ tens := two_pow_le_ten_pow (by omega)
    have digits : (2 : ℚ) ^ places * 2 ≤ 10 ^ tens := by exact_mod_cast digits
    have below : size rank < 2 ^ places := by
      rw [size, div_lt_iff₀ one]
      exact_mod_cast below
    have places : (10 : ℚ) ^ tens ≤ 10 ^ (decimal rank).2 := by
      rw [← zpow_natCast]
      exact zpow_le_zpow_right₀ (by norm_num) (by omega)
    have whole := le_mul_of_one_le_left power.le some
    linarith only [digits, below, places, whole, greatest]

end Written

end SpellPack.Proofs.ShortestDecimal
