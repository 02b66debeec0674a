import Mathlib.Algebra.Order.Field.Basic
import Mathlib.Algebra.Ring.Int.Parity
import Mathlib.Data.Rat.Cast.Order
import Mathlib.Tactic.FieldSimp
import Mathlib.Tactic.Linarith
import Mathlib.Tactic.Positivity
import Mathlib.Tactic.Ring
import SpellPack.Proofs.ExactNumbers

/-! Rounding to the nearest integer, in the middle between two to the even one. It keeps
the order of numbers, and a number that is as near to the integer rounds to it as well. -/

namespace SpellPack.Proofs.NearestInteger
open ExactNumbers

/-- No point is nearer to the number than the chosen one, which is even if another is as near. -/
structure NearestEven {α : Type} (point : α → ℚ) (isEven : α → Prop) (number : ℚ) (chosen : α) : Prop where
  nearest : ∀ other, |point chosen - number| ≤ |point other - number|
  even : ∀ other, point other ≠ point chosen → |point other - number| = |point chosen - number| → isEven chosen

structure HalfEven (number : ℚ) (integer : ℤ) : Prop where
  near : |(integer : ℚ) - number| ≤ 1 / 2
  tie : |(integer : ℚ) - number| = 1 / 2 → Even integer

namespace HalfEven

variable {number : ℚ} {integer : ℤ}

theorem of_lt (close : |(integer : ℚ) - number| < 1 / 2) : HalfEven number integer where
  near := close.le
  tie half := absurd half close.ne

theorem self (integer : ℤ) : HalfEven integer integer := of_lt (by norm_num)

theorem neg (rounds : HalfEven number integer) : HalfEven (-number) (-integer) := by
  have same : |((-integer : ℤ) : ℚ) - -number| = |(integer : ℚ) - number| := by
    rw [← abs_neg]
    push_cast
    ring_nf
  constructor
  · rw [same]
    exact rounds.near
  · rw [same]
    exact fun half => (rounds.tie half).neg

theorem closer (rounds : HalfEven number integer) {other : ℚ}
    (near : |(integer : ℚ) - other| ≤ |(integer : ℚ) - number|) : HalfEven other integer where
  near := near.trans rounds.near
  tie half := rounds.tie (le_antisymm rounds.near (half ▸ near))

theorem mono {other : ℚ} {greater : ℤ} (rounds : HalfEven number integer) (above : HalfEven other greater)
    (le : number ≤ other) : integer ≤ greater := by
  by_contra less
  have apart : (greater : ℚ) + 1 ≤ integer := by exact_mod_cast Int.add_one_le_of_lt (not_le.mp less)
  obtain ⟨_, low⟩ := abs_le.mp rounds.near
  obtain ⟨high, _⟩ := abs_le.mp above.near
  have next : (integer : ℚ) = greater + 1 := by linarith
  have next : integer = greater + 1 := by exact_mod_cast next
  have upper : Even integer := rounds.tie (abs_eq (by norm_num) |>.mpr (.inl (by linarith)))
  have lower : Even greater := above.tie (abs_eq (by norm_num) |>.mpr (.inr (by linarith)))
  rw [next, Int.even_add_one] at upper
  exact upper lower

theorem unique {other : ℤ} (rounds : HalfEven number integer) (again : HalfEven number other) : integer = other :=
  le_antisymm (rounds.mono again le_rfl) (again.mono rounds le_rfl)

/-- Other integers are at least one away, so only one more is as near, and that in the middle. -/
theorem nearestEven (rounds : HalfEven number integer) : NearestEven (fun n : ℤ => (n : ℚ)) Even number integer := by
  have far : ∀ other : ℤ, other ≠ integer → 1 - |(integer : ℚ) - number| ≤ |(other : ℚ) - number| := by
    intro other apart
    have step : (1 : ℚ) ≤ |(integer : ℚ) - other| := by
      exact_mod_cast Int.one_le_abs (sub_ne_zero.mpr apart.symm)
    have triangle := abs_sub_le (integer : ℚ) number other
    rw [abs_sub_comm number] at triangle
    linarith
  have near := rounds.near
  constructor
  · intro other
    rcases eq_or_ne other integer with rfl | apart
    · exact le_rfl
    · have away := far other apart
      linarith
  · intro other apart asNear
    have away := far other fun same => apart (congrArg _ same)
    exact rounds.tie (by linarith)

end HalfEven

theorem abs_mul_sub {scale : ℚ} (positive : 0 < scale) (a b : ℚ) : |a * scale - b| = |a - b / scale| * scale := by
  rw [← abs_of_pos positive, ← abs_mul, abs_of_pos positive, sub_mul, div_mul_cancel₀ _ positive.ne']

/-- Nearness does not depend on the scale. -/
theorem NearestEven.scaled {α : Type} {point : α → ℚ} {isEven : α → Prop} {number scale : ℚ} {chosen : α}
    (nearest : NearestEven point isEven (number / scale) chosen) (positive : 0 < scale) :
    NearestEven (fun a => point a * scale) isEven number chosen := by
  constructor
  · intro other
    rw [abs_mul_sub positive, abs_mul_sub positive]
    exact mul_le_mul_of_nonneg_right (nearest.nearest other) positive.le
  · intro other apart asNear
    rw [abs_mul_sub positive, abs_mul_sub positive] at asNear
    exact nearest.even other (fun same => apart (congrArg (· * scale) same)) (mul_right_cancel₀ positive.ne' asNear)

/-- What the quotient is rounded to is at most half a denominator off, and even if it is that far off. -/
theorem divHalfEven_near (num : Nat) {den : Nat} (positive : 0 < den) :
    2 * num ≤ 2 * (den * divHalfEven num den) + den ∧ 2 * (den * divHalfEven num den) ≤ 2 * num + den ∧
      (2 * num = 2 * (den * divHalfEven num den) + den ∨ 2 * (den * divHalfEven num den) = 2 * num + den →
        Even (divHalfEven num den)) := by
  have split := Nat.div_add_mod num den
  have rest := Nat.mod_lt num positive
  simp only [divHalfEven, Nat.even_iff]
  split_ifs
  · omega
  · rw [Nat.mul_add]
    omega
  · rcases Nat.mod_two_eq_zero_or_one (num / den) with even | odd
    · rw [even, Nat.add_zero]
      omega
    · rw [odd, Nat.mul_add]
      omega

theorem halfEven_divHalfEven (num : Nat) {den : Nat} (positive : 0 < den) :
    HalfEven (num / den) (divHalfEven num den) := by
  obtain ⟨above, below, tie⟩ := divHalfEven_near num positive
  generalize divHalfEven num den = integer at above below tie ⊢
  have some : (0 : ℚ) < den := by exact_mod_cast positive
  have counted : (num : ℚ) / den * den = num := div_mul_cancel₀ _ some.ne'
  have above : (2 : ℚ) * num ≤ 2 * (den * integer) + den := by exact_mod_cast above
  have below : (2 : ℚ) * (den * integer) ≤ 2 * num + den := by exact_mod_cast below
  rw [← counted] at above below
  constructor
  · rw [Int.cast_natCast, abs_le]
    constructor <;> nlinarith
  · intro half
    rw [Int.cast_natCast, abs_eq (by norm_num)] at half
    rw [Int.even_coe_nat]
    apply tie
    rcases half with high | low
    · right
      have same : (2 : ℚ) * (den * integer) = 2 * num + den := by
        rw [← counted, eq_add_of_sub_eq high]
        ring
      exact_mod_cast same
    · left
      have same : (2 : ℚ) * num = 2 * (den * integer) + den := by
        rw [← counted, eq_add_of_sub_eq low]
        ring
      exact_mod_cast same

/-- Ties that go up are half off as well. -/
theorem divHalfUp_near (num : Nat) {den : Nat} (positive : 0 < den) :
    |(divHalfUp num den : ℚ) - num / den| ≤ 1 / 2 := by
  have low := Nat.div_mul_le_self (2 * num + den) (2 * den)
  have high := Nat.lt_div_mul_add (a := 2 * num + den) (show 0 < 2 * den by omega)
  rw [divHalfUp]
  generalize (2 * num + den) / (2 * den) = integer at low high ⊢
  have some : (0 : ℚ) < den := by exact_mod_cast positive
  have low : (integer : ℚ) * (2 * den) ≤ 2 * num + den := by exact_mod_cast low
  have high : (2 : ℚ) * num + den < integer * (2 * den) + 2 * den := by exact_mod_cast high
  have counted : (num : ℚ) / den * den = num := div_mul_cancel₀ _ some.ne'
  rw [← counted] at low high
  rw [abs_le]
  constructor <;> nlinarith

end SpellPack.Proofs.NearestInteger
