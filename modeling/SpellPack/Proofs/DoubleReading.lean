import SpellPack.Proofs.CommandNumbers

/-! A numeral is read as the double nearest to its number, and as one of even rank if
another is as near. -/

namespace SpellPack.Proofs.DoubleReading
open Binary64 Decimal NearestInteger NearestRank ShortestDecimal CommandNumbers

def value (x : Finite) : ℚ := signed x.negative (size x.rank)

/-- The double is one nearest to the number. An even rank is that of an even last bit. -/
abbrev NearestDouble (number : ℚ) (x : Finite) : Prop := NearestEven value (fun x => Even x.rank) number x

section Signs

variable {negative : Bool} {magnitude : ℚ}

theorem abs_signed (nonneg : 0 ≤ magnitude) : |signed negative magnitude| = magnitude := by
  cases negative with
  | true => rw [signed, if_pos rfl, abs_neg, abs_of_nonneg nonneg]
  | false => rw [signed, if_neg Bool.false_ne_true, abs_of_nonneg nonneg]

theorem abs_signed_sub (negative : Bool) (one other : ℚ) :
    |signed negative one - signed negative other| = |one - other| := by
  cases negative with
  | true => rw [signed, if_pos rfl, signed, if_pos rfl, neg_sub_neg, abs_sub_comm]
  | false => rfl

theorem sign_unique {other : Bool} (some : magnitude ≠ 0) (same : signed negative magnitude = signed other magnitude) :
    negative = other := by
  cases negative <;> cases other
  · rfl
  · exact absurd (self_eq_neg.mp same) some
  · exact absurd (neg_eq_self.mp same) some
  · rfl

/-- Only zero is as near to both signs of a number. -/
theorem eq_zero_between {one other number : ℚ} (opposite : |other| = |one|) (apart : other ≠ one)
    (asNear : |other - number| = |one - number|) : number = 0 := by
  have sign := (abs_eq_abs.mp opposite).resolve_left apart
  rcases abs_eq_abs.mp asNear with same | same
  · exact absurd (sub_left_injective same) apart
  · linarith

theorem abs_value (x : Finite) : |value x| = size x.rank := abs_signed (size_nonneg x.rank)

/-- Signs only take numbers further apart. -/
theorem abs_size_sub_le (x : Finite) (number : ℚ) : |size x.rank - abs number| ≤ |value x - number| := by
  rw [← abs_value]
  exact abs_abs_sub_abs_le (value x) number

end Signs

section Rounding

variable {amount : ℚ}

theorem nearestEven_size (nonneg : 0 ≤ amount) : NearestEven size Even amount (rounded (amount * unitsPerOne)) := by
  have one := unitsPerOne_cast_pos
  have nearest := nearestEven_rounded (mul_nonneg nonneg one.le)
  have ones : amount * unitsPerOne = amount / (unitsPerOne : ℚ)⁻¹ := by rw [div_inv_eq_mul]
  rw [ones] at nearest ⊢
  exact nearest.scaled (inv_pos.mpr one)

/-- With the sign of the number in front, what its magnitude is rounded to is the double
nearest to it. -/
theorem nearestDouble_of_rank (nonneg : 0 ≤ amount) {x : Finite} (rank : x.rank = rounded (amount * unitsPerOne)) :
    NearestDouble (signed x.negative amount) x := by
  have nearest := nearestEven_size nonneg
  rw [← rank] at nearest
  have distance : |value x - signed x.negative amount| = |size x.rank - amount| := abs_signed_sub x.negative _ _
  have magnitudes : ∀ other : Finite, |size other.rank - amount| ≤ |value other - signed x.negative amount| := by
    intro other
    have le := abs_size_sub_le other (signed x.negative amount)
    rwa [abs_signed nonneg] at le
  constructor
  · intro other
    rw [distance]
    exact (nearest.nearest other.rank).trans (magnitudes other)
  · intro other apart asNear
    by_cases same : size other.rank = size x.rank
    · rw [← abs_value, ← abs_value] at same
      have zero := eq_zero_between same apart asNear
      have none : |signed x.negative amount| = amount := abs_signed nonneg
      rw [zero, abs_zero] at none
      rw [← none, zero_mul, rounded_zero] at rank
      rw [rank]
      exact Even.zero
    · rw [distance] at asNear
      exact nearest.even other.rank same (le_antisymm (asNear ▸ magnitudes other) (nearest.nearest other.rank))

end Rounding

section Reading

variable {coefficient : Nat} {exponent : Int}

theorem amount_pos (some : coefficient ≠ 0) : 0 < amount coefficient exponent :=
  mul_pos (Nat.cast_pos.mpr (Nat.pos_of_ne_zero some)) (zpow_pos (by norm_num) exponent)

theorem rank_zero (exponent : Int) : Decimal.rank 0 exponent = 0 := by
  cases exponent with
  | ofNat places => rfl
  | negSucc places =>
    rw [Decimal.rank]
    split
    · rfl
    · rw [Nat.zero_mul, Nat.pow_eq, nearestRank_eq_rounded 0 (Nat.pow_pos (by decide)), Nat.cast_zero, zero_div,
        rounded_zero]

theorem amount_lt_of_inside (inside : rounded (amount coefficient exponent * unitsPerOne) < rankLimit) :
    amount coefficient exponent < 10 ^ exponentReach := by
  by_cases zero : rounded (amount coefficient exponent * unitsPerOne) = 0
  · have one := unitsPerOne_cast_pos
    have nearest := nearest_rounded (mul_nonneg (amount_nonneg coefficient exponent) one.le)
    rw [zero] at nearest
    have half := nearest.le_middle Nat.zero_lt_one
    rw [ExactNumbers.units_small (by decide), ExactNumbers.units_small (by decide), Nat.cast_zero, zero_add,
      Nat.cast_one] at half
    have unit : (1 : ℚ) ≤ unitsPerOne := by exact_mod_cast ExactNumbers.unitsPerOne_pos
    have far : (1 : ℚ) < 10 ^ exponentReach := one_lt_pow₀ (by norm_num) (by decide)
    have small := le_mul_of_one_le_right (amount_nonneg coefficient exponent) unit
    linarith
  · have near := (amount_near rfl zero).2
    have reach := (size_reach zero inside).2
    exact near.trans_lt reach

/-- A numeral that is not too great and not beyond reach near zero is rounded. -/
theorem rank_eq_rounded_of_inside (least : coefficient ≠ 0 → 1 ≤ amount coefficient exponent * 10 ^ exponentReach)
    (inside : rounded (amount coefficient exponent * unitsPerOne) < rankLimit) :
    Decimal.rank coefficient exponent = rounded (amount coefficient exponent * unitsPerOne) := by
  by_cases none : coefficient = 0
  · rw [none, rank_zero, amount, Nat.cast_zero, zero_mul, zero_mul, rounded_zero]
  · exact rank_eq_rounded none (least none) (amount_lt_of_inside inside)

theorem toBinary64_of_inside (d : Decimal) (inside : Decimal.rank d.coefficient d.exponent < rankLimit) :
    ∃ x : Finite, d.toBinary64 = .finite x ∧ x.negative = d.negative ∧ x.rank = Decimal.rank d.coefficient d.exponent :=
  ⟨⟨d.negative, _, inside⟩, by rw [toBinary64, ofRank, dif_pos inside], rfl, rfl⟩

theorem ofText?_nearest {text : String} {number : ℚ} (denotes : Denotes text.toList number)
    (least : number ≠ 0 → 1 ≤ abs number * 10 ^ exponentReach)
    (inside : rounded (abs number * unitsPerOne) < rankLimit) :
    ∃ x : Finite, ofText? text = some (.finite x) ∧ x.rank = rounded (abs number * unitsPerOne) ∧
      number = signed x.negative (abs number) := by
  obtain ⟨numeral, read, rfl⟩ := denotes
  have nonneg := amount_nonneg numeral.coefficient numeral.exponent
  rw [abs_signed nonneg] at least inside ⊢
  have reaches : numeral.coefficient ≠ 0 → 1 ≤ amount numeral.coefficient numeral.exponent * 10 ^ exponentReach := by
    intro some
    apply least
    rw [← abs_ne_zero, abs_signed nonneg]
    exact (amount_pos some).ne'
  have rank := rank_eq_rounded_of_inside reaches inside
  obtain ⟨x, same, sign, ranks⟩ := toBinary64_of_inside numeral (rank ▸ inside)
  exact ⟨x, by simp only [ofText?, read, same], ranks.trans rank, by rw [sign]⟩

end Reading

end SpellPack.Proofs.DoubleReading
