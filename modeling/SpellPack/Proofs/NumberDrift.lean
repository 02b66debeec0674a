import Mathlib.Tactic.IntervalCases
import SpellPack.Proofs.WrittenNumerals

/-! Scaling a significand rounds two or three times before the last rounding. Each time the
number moves by at most the last of 53 bits, so what a written double is read as is at
most a few ranks away from it. -/

namespace SpellPack.Proofs.NumberDrift
open Json Binary64 ExactNumbers NearestRank ShortestDecimal NumeralReading WrittenNumerals

/-- The factor by which one rounding to 53 bits can move a number. -/
def slack : ℚ := 2 ^ 53 / (2 ^ 53 - 1)

theorem slack_pos : 0 < slack := by norm_num [slack]

/-- One number is the other one after so many roundings, at most. -/
def Within (times : Nat) (x y : ℚ) : Prop := x ≤ slack ^ times * y ∧ y ≤ slack ^ times * x

namespace Within

variable {times more : Nat} {a b x y : ℚ}

theorem symm (within : Within times x y) : Within times y x := ⟨within.2, within.1⟩

theorem pos (within : Within times x y) (positive : 0 < y) : 0 < x :=
  (mul_pos_iff_of_pos_left (pow_pos slack_pos times)).mp (positive.trans_le within.2)

theorem trans {z : ℚ} (first : Within times x y) (second : Within more y z) : Within (times + more) x z := by
  have power := pow_pos slack_pos
  constructor
  · calc x ≤ slack ^ times * y := first.1
      _ ≤ slack ^ times * (slack ^ more * z) := mul_le_mul_of_nonneg_left second.1 (power _).le
      _ = slack ^ (times + more) * z := by rw [pow_add, mul_assoc]
  · calc z ≤ slack ^ more * y := second.2
      _ ≤ slack ^ more * (slack ^ times * x) := mul_le_mul_of_nonneg_left first.2 (power _).le
      _ = slack ^ (times + more) * x := by rw [pow_add, mul_left_comm, mul_assoc]

theorem mul (first : Within times x y) (second : Within more a b) (nonneg : 0 ≤ x ∧ 0 ≤ y ∧ 0 ≤ a ∧ 0 ≤ b) :
    Within (times + more) (x * a) (y * b) := by
  obtain ⟨hx, hy, ha, hb⟩ := nonneg
  have power := pow_pos slack_pos
  constructor
  · calc x * a ≤ (slack ^ times * y) * (slack ^ more * b) :=
          mul_le_mul first.1 second.1 ha (mul_nonneg (power _).le hy)
      _ = slack ^ (times + more) * (y * b) := by rw [pow_add]; ring
  · calc y * b ≤ (slack ^ times * x) * (slack ^ more * a) :=
          mul_le_mul first.2 second.2 hb (mul_nonneg (power _).le hx)
      _ = slack ^ (times + more) * (x * a) := by rw [pow_add]; ring

theorem inv (within : Within times x y) (hx : 0 < x) (hy : 0 < y) : Within times x⁻¹ y⁻¹ := by
  constructor
  · rw [← div_eq_mul_inv, le_div_iff₀ hy, inv_mul_le_iff₀ hx, mul_comm]
    exact within.2
  · rw [← div_eq_mul_inv, le_div_iff₀ hx, inv_mul_le_iff₀ hy, mul_comm]
    exact within.1

theorem div (first : Within times x y) (second : Within more a b) (hx : 0 ≤ x) (hy : 0 ≤ y) (ha : 0 < a) (hb : 0 < b) :
    Within (times + more) (x / a) (y / b) := by
  rw [div_eq_mul_inv, div_eq_mul_inv]
  exact first.mul (second.inv ha hb) ⟨hx, hy, (inv_pos.mpr ha).le, (inv_pos.mpr hb).le⟩

theorem mul_right (within : Within times x y) (ha : 0 ≤ a) : Within times (x * a) (y * a) := by
  constructor
  · rw [← mul_assoc]
    exact mul_le_mul_of_nonneg_right within.1 ha
  · rw [← mul_assoc]
    exact mul_le_mul_of_nonneg_right within.2 ha

/-- Up to four roundings move a number by less than five times the last bit. -/
theorem sub_lt (within : Within times x y) (few : times ≤ 4) (hy : 0 < y) : x - y < (times + 1) * (y / 2 ^ 53) := by
  have above := within.1
  have factor : slack ^ times < 1 + (times + 1) / 2 ^ 53 := by
    interval_cases times <;> norm_num [slack]
  have scaled := mul_lt_mul_of_pos_right factor hy
  linarith

theorem rounded_le_add (within : Within times x y) (few : times ≤ 4) (hx : 0 ≤ x) (hy : 0 < y) :
    rounded x ≤ rounded y + (times + 1) := by
  apply (nearest_rounded hy.le).le_add (nearest_rounded hx)
  have most := mul_le_mul_of_nonneg_left (le_max_right 1 (y / 2 ^ 53)) (Nat.cast_nonneg (α := ℚ) (times + 1))
  have near := within.sub_lt few hy
  push_cast at most ⊢
  linarith

end Within

theorem within_of_abs_sub_le {x y : ℚ} (close : |x - y| ≤ y / 2 ^ 53) : Within 1 x y := by
  obtain ⟨low, high⟩ := abs_le.mp close
  have nonneg : 0 ≤ y := by linarith [abs_nonneg (x - y)]
  rw [Within, pow_one, slack]
  constructor
  · norm_num
    linarith
  · norm_num
    linarith

/-- Whole numbers are far above the least doubles, so rounding keeps their 53 bits. -/
theorem within_size_natRank {n : Nat} (some : 0 < n) : Within 1 (size (natRank n)) n := by
  have one := unitsPerOne_cast_pos
  have whole : (1 : ℚ) ≤ n := by exact_mod_cast some
  have large : (2 ^ 53 : ℚ) ≤ n * unitsPerOne :=
    (two_pow_le_unitsPerOne (by decide)).trans (le_mul_of_one_le_left one.le whole)
  have nonneg : (0 : ℚ) ≤ n * unitsPerOne := le_trans (by positivity) large
  rcases abs_units_rounded_sub_le nonneg with ⟨small, _⟩ | bits
  · exact absurd small (not_lt.mpr large)
  · have within := (within_of_abs_sub_le bits).mul_right (inv_pos.mpr one).le
    rwa [← div_eq_mul_inv, mul_inv_cancel_right₀ one.ne', ← natRank_eq] at within

theorem within_size_powerRank (places : Nat) : Within 1 (size (powerRank places)) (10 ^ places) := by
  have within := within_size_natRank (n := 10 ^ places) (Nat.pow_pos (by decide))
  rw [Nat.cast_pow, Nat.cast_ofNat] at within
  exact within

theorem size_powerRank_gt (places : Nat) : (9 / 10 : ℚ) * 10 ^ places < size (powerRank places) := by
  have below := (within_size_powerRank places).2
  have power : (0 : ℚ) < 10 ^ places := by positivity
  rw [pow_one, slack] at below
  norm_num at below
  linarith

def scaledRank (significand : Nat) : Int → Nat
  | .ofNat places => mulRank (natRank significand) (powerRank places)
  | .negSucc places => descend (natRank significand) (places + 1)

theorem scale?_eq {negative : Bool} {significand : Nat} {exponent : Int} (few : exponent ≤ 308) :
    scale? negative significand exponent = Finite.ofRank? negative (scaledRank significand exponent) := by
  cases exponent with
  | ofNat places =>
    have fits : places ≤ greatestPower := Int.ofNat_le.mp few
    rw [scale?, if_pos fits]
    rfl
  | negSucc places => rfl

def Near (count first second : Nat) : Prop := first ≤ second + count ∧ second ≤ first + count

theorem Within.near {times : Nat} {x y : ℚ} (within : Within times x y) (few : times ≤ 4) (hx : 0 < x) (hy : 0 < y) :
    Near (times + 1) (rounded x) (rounded y) :=
  ⟨within.rounded_le_add few hx.le hy, within.symm.rounded_le_add few hy.le hx⟩

theorem Near.mono {count more first second : Nat} (near : Near count first second) (le : count ≤ more) :
    Near more first second :=
  ⟨Nat.le_trans near.1 (Nat.add_le_add_left le _), Nat.le_trans near.2 (Nat.add_le_add_left le _)⟩

section Scaling

variable {significand : Nat}

theorem size_natRank_pos (some : 0 < significand) : 0 < size (natRank significand) :=
  (within_size_natRank some).pos (by exact_mod_cast some)

theorem size_powerRank_pos (places : Nat) : 0 < size (powerRank places) :=
  size_natRank_pos (Nat.pow_pos (by decide))

theorem descend_few {rank places : Nat} (few : places ≤ greatestPower) :
    descend rank places = divRank rank (powerRank places) := by
  rw [descend, dif_pos few]

/-- A single step rounds three times in all. -/
theorem near_mul (some : 0 < significand) (places : Nat) :
    Near 3 (scaledRank significand (.ofNat places)) (rounded (amount significand (.ofNat places) * unitsPerOne)) := by
  have one := unitsPerOne_cast_pos
  have whole : (0 : ℚ) < significand := by exact_mod_cast some
  have power : (0 : ℚ) < 10 ^ places := by positivity
  have first := size_natRank_pos some
  have second := size_powerRank_pos places
  have within := ((within_size_natRank some).mul (within_size_powerRank places)
    ⟨first.le, whole.le, second.le, power.le⟩).mul_right one.le
  rw [scaledRank, mulRank_eq, amount, Int.ofNat_eq_natCast, zpow_natCast]
  exact within.near (by decide) (mul_pos (mul_pos first second) one) (mul_pos (mul_pos whole power) one)

/-- A quotient before it is rounded. -/
theorem within_quotient (some : 0 < significand) (places : Nat) :
    Within 2 (size (natRank significand) / size (powerRank places)) (significand / 10 ^ places) := by
  have within := (within_size_natRank some).div (within_size_powerRank places) (size_nonneg _) (Nat.cast_nonneg _)
    (size_powerRank_pos places) (by positivity)
  exact within

theorem near_div (some : 0 < significand) {places : Nat} (few : places + 1 ≤ greatestPower) :
    Near 3 (scaledRank significand (.negSucc places))
      (rounded (amount significand (.negSucc places) * unitsPerOne)) := by
  have one := unitsPerOne_cast_pos
  have whole : (0 : ℚ) < significand := by exact_mod_cast some
  have power : (0 : ℚ) < 10 ^ (places + 1) := by positivity
  have first := size_natRank_pos some
  have second := size_powerRank_pos (places + 1)
  have within := (within_quotient some (places + 1)).mul_right one.le
  rw [scaledRank, descend_few few, divRank_eq _ second, amount, zpow_negSucc, ← div_eq_mul_inv]
  exact within.near (by decide) (mul_pos (div_pos first second) one) (mul_pos (div_pos whole power) one)

theorem descend_more {rank more : Nat} (nonzero : rank ≠ 0) (some : 0 < more) (few : more ≤ greatestPower) :
    descend rank (greatestPower + more) =
      divRank (divRank rank (powerRank greatestPower)) (powerRank more) := by
  have many : ¬ greatestPower + more ≤ greatestPower := by omega
  rw [descend, dif_neg many, if_neg nonzero, Nat.add_sub_cancel_left, descend_few few]

theorem natRank_ne_zero (some : 0 < significand) : natRank significand ≠ 0 := by
  intro none
  have positive := size_natRank_pos some
  rw [none, size_zero] at positive
  exact lt_irrefl _ positive

/-- Numbers less than a unit apart are rounded to the same rank or to neighbours. -/
theorem near_one {x y : ℚ} (hx : 0 ≤ x) (hy : 0 ≤ y) (close : |x - y| < 1) : Near 1 (rounded x) (rounded y) := by
  obtain ⟨low, high⟩ := abs_lt.mp close
  have first := le_max_left 1 (x / 2 ^ 53)
  have second := le_max_left 1 (y / 2 ^ 53)
  constructor
  · apply (nearest_rounded hy).le_add (nearest_rounded hx)
    push_cast
    linarith
  · apply (nearest_rounded hx).le_add (nearest_rounded hy)
    push_cast
    linarith

/-- Where a second division is needed, the first one may have a result with fewer than 53
bits. It is then rounded by up to half a unit, of which the second leaves a tenth. -/
theorem near_div_twice (some : 0 < significand) {more : Nat} (least : 0 < more) (few : more ≤ greatestPower) :
    Near 5 (descend (natRank significand) (greatestPower + more))
      (rounded (significand / 10 ^ (greatestPower + more) * unitsPerOne)) := by
  have one := unitsPerOne_cast_pos
  have whole : (0 : ℚ) < significand := by exact_mod_cast some
  have power : (0 : ℚ) < 10 ^ (greatestPower + more) := by positivity
  have first := size_powerRank_pos greatestPower
  have second := size_powerRank_pos more
  have quotient := div_pos (size_natRank_pos some) first
  obtain ⟨between, same⟩ : ∃ between, between = divRank (natRank significand) (powerRank greatestPower) := ⟨_, rfl⟩
  rw [descend_more (natRank_ne_zero some) least few, ← same, divRank_eq _ second]
  rw [divRank_eq _ first] at same
  have target := mul_pos (div_pos whole power) one
  have rest : Within 3 (size (natRank significand) / size (powerRank greatestPower) / size (powerRank more))
      (significand / 10 ^ (greatestPower + more)) := by
    have within := (within_quotient some greatestPower).div (within_size_powerRank more) quotient.le (by positivity)
      second (by positivity)
    rw [pow_add, ← div_div]
    exact within
  generalize size (natRank significand) / size (powerRank greatestPower) = x at *
  rcases abs_units_rounded_sub_le (mul_pos quotient one).le with ⟨short, half⟩ | bits
  · have tens : (9 : ℚ) < size (powerRank more) := by
      have power : (10 : ℚ) ^ 1 ≤ 10 ^ more := pow_le_pow_right₀ (by norm_num) least
      linarith [size_powerRank_gt more]
    have exact := rest.mul_right one.le
    have small : x / size (powerRank more) * unitsPerOne < 2 ^ 53 / 9 := by
      rw [div_mul_eq_mul_div, div_lt_div_iff₀ second (by norm_num)]
      linarith
    have moved : |size between / size (powerRank more) * unitsPerOne -
        x / size (powerRank more) * unitsPerOne| < 1 / 18 := by
      rw [← same, ← size_mul_unitsPerOne] at half
      rw [div_mul_eq_mul_div, div_mul_eq_mul_div, ← sub_div, abs_div, abs_of_pos second, div_lt_iff₀ second]
      linarith
    have above := exact.sub_lt (by decide) target
    have below := exact.symm.sub_lt (by decide) (mul_pos (div_pos quotient second) one)
    apply (near_one (mul_nonneg (div_nonneg (size_nonneg _) second.le) one.le) target.le _).mono (by decide)
    rw [abs_lt] at moved ⊢
    push_cast at above below
    constructor <;> linarith [moved.1, moved.2]
  · have exact := (within_of_abs_sub_le bits).mul_right (inv_pos.mpr one).le
    rw [← same, ← size_mul_unitsPerOne, mul_inv_cancel_right₀ one.ne', mul_inv_cancel_right₀ one.ne'] at exact
    have divided := exact.mul_right (inv_pos.mpr second).le
    rw [← div_eq_mul_inv, ← div_eq_mul_inv] at divided
    exact ((divided.trans rest).mul_right one.le).near (by decide)
      (mul_pos (div_pos (exact.pos quotient) second) one) target

end Scaling

end SpellPack.Proofs.NumberDrift
