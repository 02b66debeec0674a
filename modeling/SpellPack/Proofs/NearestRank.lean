import SpellPack.Proofs.NearestInteger

/-! Rounding yields a double that no other double is nearer than, and one of even rank if
another is as near. Consecutive magnitudes
are at least one unit apart, and at least as far as the last of 53 bits, so a bound on
the distance of two numbers bounds how many ranks lie between what they round to. -/

namespace SpellPack.Proofs.NearestRank
open Binary64 ExactNumbers NearestInteger

/-- No magnitude is nearer to the number of units than that of the rank. -/
def Nearest (rank : Nat) (amount : ℚ) : Prop :=
  ∀ other, |(units rank : ℚ) - amount| ≤ |(units other : ℚ) - amount|

theorem abs_divHalfEven_sub_le (num : Nat) {den : Nat} (positive : 0 < den) :
    |(divHalfEven num den : ℚ) - num / den| ≤ 1 / 2 := by
  exact_mod_cast (halfEven_divHalfEven num positive).near

/-- A quotient of at most 53 bits is rounded to an integer. -/
theorem nearestRank_short {num den : Nat} (short : num / den < 2 ^ 53) :
    nearestRank num den = divHalfEven num den := by
  have none : (num / den).log2 - 52 = 0 := by
    by_cases zero : num / den = 0
    · simp [zero]
    · have := (Nat.log2_lt zero).mpr short
      omega
  simp [nearestRank, none]

/-- A longer one keeps 53 bits, which may carry. -/
theorem nearestRank_long {num den : Nat} (long : 2 ^ 53 ≤ num / den) :
    ∃ shift, nearestRank num den = shift * blockSize + divHalfEven num (den * 2 ^ shift) ∧
      2 ^ (52 + shift) ≤ num / den ∧ num / den < 2 ^ (53 + shift) := by
  have some : num / den ≠ 0 := by omega
  have bits : 52 ≤ (num / den).log2 := (Nat.le_log2 some).mpr (by omega)
  refine ⟨(num / den).log2 - 52, rfl, ?_, ?_⟩
  · rw [show 52 + ((num / den).log2 - 52) = (num / den).log2 by omega]
    exact Nat.log2_self_le some
  · rw [show 53 + ((num / den).log2 - 52) = (num / den).log2 + 1 by omega]
    exact Nat.lt_log2_self

/-- What rounding yields is the integer nearest to the number with some low bits cut off, as
many as its length beyond 53 bits. -/
theorem units_nearestRank (num : Nat) {den : Nat} (positive : 0 < den) :
    ∃ shift significand, nearestRank num den = shift * blockSize + significand ∧
      units (nearestRank num den) = significand * 2 ^ shift ∧
      HalfEven ((num / den : ℚ) / 2 ^ shift) significand ∧
      (shift = 0 ∧ num < 2 ^ 53 * den ∨ 2 ^ (52 + shift) * den ≤ num) := by
  rcases Nat.lt_or_ge (num / den) (2 ^ 53) with short | long
  · have whole := nearestRank_short short
    refine ⟨0, divHalfEven num den, by rw [whole, Nat.zero_mul, Nat.zero_add], ?_, ?_,
      .inl ⟨rfl, (Nat.div_lt_iff_lt_mul positive).mp short⟩⟩
    · have greatest := (divHalfEven_bounds num den).2
      rw [whole, Nat.pow_zero, Nat.mul_one]
      rcases Nat.lt_or_ge (divHalfEven num den) (2 ^ 53) with small | carried
      · exact units_small small
      · simpa using @units_scaled (divHalfEven num den) 0 (by omega) (by omega)
    · simpa using halfEven_divHalfEven num positive
  · obtain ⟨shift, same, least, greatest⟩ := nearestRank_long long
    have power : 0 < 2 ^ shift := Nat.two_pow_pos shift
    have rounds := halfEven_divHalfEven num (Nat.mul_pos positive power)
    obtain ⟨low, high⟩ := divHalfEven_bounds num (den * 2 ^ shift)
    rw [← Nat.div_div_eq_div_mul] at low high
    push_cast at rounds
    rw [← div_div] at rounds
    refine ⟨shift, _, same, ?_, rounds, .inr ((Nat.le_div_iff_mul_le positive).mp least)⟩
    rw [same]
    apply units_scaled
    · refine Nat.le_trans ?_ low
      rwa [Nat.le_div_iff_mul_le power, ← Nat.pow_add]
    · refine Nat.le_trans high ?_
      rwa [Nat.succ_le_iff, Nat.div_lt_iff_lt_mul power, ← Nat.pow_add]

/-- Magnitudes of a length beyond 53 bits end in that many zeros. -/
theorem dvd_units {rank shift : Nat} (long : 2 ^ (52 + shift) ≤ units rank) : 2 ^ shift ∣ units rank := by
  rcases rank_cases rank with small | ⟨block, significand, rfl, least, greatest⟩
  · rw [units_small small] at long
    have none : shift = 0 := by
      have := (Nat.pow_lt_pow_iff_right (by decide)).mp (Nat.lt_of_le_of_lt long small)
      omega
    simp [none]
  · rw [units_scaled block least (Nat.le_of_lt greatest)] at long ⊢
    have shorter : 52 + shift < 53 + block := by
      apply (Nat.pow_lt_pow_iff_right (show 1 < 2 by decide)).mp
      rw [Nat.pow_add 2 53]
      exact Nat.lt_of_le_of_lt long (Nat.mul_lt_mul_of_pos_right greatest (Nat.two_pow_pos block))
    exact Nat.dvd_mul_left_of_dvd (Nat.pow_dvd_pow 2 (by omega)) _

theorem even_significand {shift significand : Nat} (even : Even (significand : ℤ)) :
    Even (shift * blockSize + significand) := by
  have blocks : Even (shift * blockSize) := Nat.even_mul.mpr (.inr (by decide))
  exact blocks.add ((Int.even_coe_nat significand).mp even)

theorem nearestEven_nearestRank (num : Nat) {den : Nat} (positive : 0 < den) :
    NearestEven (fun rank => (units rank : ℚ)) Even (num / den) (nearestRank num den) := by
  obtain ⟨shift, significand, rank, same, rounds, length⟩ := units_nearestRank num positive
  have some : (0 : ℚ) < den := by exact_mod_cast positive
  have power : (0 : ℚ) < 2 ^ shift := by positivity
  have same : (units (nearestRank num den) : ℚ) = ((significand : ℤ) : ℚ) * 2 ^ shift := by exact_mod_cast same
  have multiples := rounds.nearestEven.scaled power
  have others : ∀ other, (∃ multiple : ℤ, (units other : ℚ) = multiple * 2 ^ shift) ∨
      |(units (nearestRank num den) : ℚ) - num / den| < |(units other : ℚ) - num / den| := by
    intro other
    by_cases long : shift = 0 ∨ 2 ^ (52 + shift) ≤ units other
    · left
      have divides : 2 ^ shift ∣ units other := by
        rcases long with rfl | long
        · simp
        · exact dvd_units long
      refine ⟨(units other / 2 ^ shift : Nat), ?_⟩
      exact_mod_cast (Nat.div_mul_cancel divides).symm
    · right
      push Not at long
      have least : 2 ^ (52 + shift) * den ≤ num := length.resolve_left fun short => long.1 short.1
      have above : (2 ^ (52 + shift) : ℚ) ≤ num / den := by
        rw [le_div_iff₀ some]
        exact_mod_cast least
      have below : (units other : ℚ) < 2 ^ (52 + shift) := by exact_mod_cast long.2
      have next := multiples.nearest (2 ^ 52 : Nat)
      rw [← same, Int.cast_natCast, Nat.cast_pow, Nat.cast_ofNat, ← pow_add] at next
      rw [abs_of_nonpos (sub_nonpos.mpr above)] at next
      rw [abs_of_nonpos (sub_nonpos.mpr (below.le.trans above))]
      linarith
  constructor
  · intro other
    rcases others other with ⟨multiple, written⟩ | farther
    · rw [same, written]
      exact multiples.nearest multiple
    · exact farther.le
  · intro other apart asNear
    rcases others other with ⟨multiple, written⟩ | farther
    · rw [same, written] at apart asNear
      rw [rank]
      exact even_significand (multiples.even multiple apart asNear)
    · exact absurd asNear farther.ne'

/-- Rounding moves a number by half a unit, or by half of the last of 53 bits. -/
theorem abs_units_nearestRank_sub_le (num : Nat) {den : Nat} (positive : 0 < den) :
    ((num / den : ℚ) < 2 ^ 53 ∧ |(units (nearestRank num den) : ℚ) - num / den| ≤ 1 / 2) ∨
      |(units (nearestRank num den) : ℚ) - num / den| ≤ num / den / 2 ^ 53 := by
  obtain ⟨shift, significand, _, same, rounds, length⟩ := units_nearestRank num positive
  have some : (0 : ℚ) < den := by exact_mod_cast positive
  have power : (0 : ℚ) < 2 ^ shift := by positivity
  have half := rounds.near
  rw [same]
  push_cast at half ⊢
  rw [abs_mul_sub power]
  rcases length with ⟨rfl, short⟩ | long
  · left
    constructor
    · rw [div_lt_iff₀ some]
      exact_mod_cast short
    · simpa using half
  · right
    have above : (2 ^ (52 + shift) : ℚ) ≤ num / den := by
      rw [le_div_iff₀ some]
      exact_mod_cast long
    rw [pow_add] at above
    have scaled := mul_le_mul_of_nonneg_right half power.le
    linarith

/-- Ranks are in the order of their magnitudes, and those next to each other differ by a
unit and by the last of 53 bits. -/
theorem units_succ (rank : Nat) :
    units rank < units (rank + 1) ∧ units (rank + 1) + 2 ^ 53 * units rank ≤ 2 ^ 53 * units (rank + 1) := by
  rcases rank_cases (rank + 1) with small | ⟨shift, significand, split, least, greatest⟩
  · rw [units_small small, units_small (by omega)]
    omega
  · have after := units_scaled shift least (Nat.le_of_lt greatest)
    have power : 0 < 2 ^ shift := Nat.two_pow_pos shift
    rw [split, after]
    by_cases first : significand = 2 ^ 52
    · subst first
      cases shift with
      | zero =>
        rw [Nat.zero_mul] at split
        rw [units_small (by omega)]
        omega
      | succ shift =>
        have before : rank = shift * blockSize + (2 ^ 53 - 1) := by
          rw [blockSize_eq] at split ⊢
          omega
        rw [before, units_scaled shift (by decide) (by decide), Nat.pow_succ]
        rw [Nat.pow_succ] at power
        omega
    · have before : rank = shift * blockSize + (significand - 1) := by omega
      rw [before, units_scaled shift (by omega) (by omega)]
      obtain ⟨less, rfl⟩ : ∃ less, significand = less + 1 := ⟨significand - 1, by omega⟩
      rw [Nat.add_sub_cancel, Nat.add_mul, Nat.one_mul]
      have bound : less * 2 ^ shift + 2 ^ shift ≤ 2 ^ 53 * 2 ^ shift := by
        rw [← Nat.succ_mul]
        exact Nat.mul_le_mul_right _ (by omega)
      omega

theorem units_strictMono : StrictMono units := strictMono_nat_of_lt_succ fun rank => (units_succ rank).1

/-- Magnitudes that are `count` ranks apart are as many times the least distance apart. -/
theorem mul_le_units_sub (rank count : Nat) :
    (count : ℚ) * max 1 ((units rank : ℚ) / 2 ^ 53) ≤ (units (rank + count) : ℚ) - units rank := by
  induction count with
  | zero => simp
  | succ count ih =>
    obtain ⟨step, bits⟩ := units_succ (rank + count)
    have grows : units rank ≤ units (rank + count) := units_strictMono.monotone (by omega)
    have step : (units (rank + count) : ℚ) + 1 ≤ units (rank + count + 1) := by exact_mod_cast step
    have bits : (units (rank + count + 1) : ℚ) + 2 ^ 53 * units (rank + count) ≤
        2 ^ 53 * units (rank + count + 1) := by exact_mod_cast bits
    have grows : (units rank : ℚ) ≤ units (rank + count) := by exact_mod_cast grows
    have least : max 1 ((units rank : ℚ) / 2 ^ 53) ≤ (units (rank + count + 1) : ℚ) - units (rank + count) := by
      apply max_le
      · linarith
      · rw [div_le_iff₀ (by positivity)]
        linarith
    rw [← Nat.add_assoc]
    push_cast
    linarith

section Middles

variable {rank other : Nat} {amount : ℚ}

theorem Nearest.le_middle (nearest : Nearest rank amount) (above : rank < other) :
    2 * amount ≤ units rank + units other := by
  have apart : (units rank : ℚ) < units other := by exact_mod_cast units_strictMono above
  have closer := nearest other
  by_contra beyond
  rw [abs_of_nonpos (by linarith)] at closer
  rcases abs_cases ((units other : ℚ) - amount) with ⟨same, _⟩ | ⟨same, _⟩ <;> linarith

theorem Nearest.middle_le (nearest : Nearest rank amount) (below : other < rank) :
    (units other : ℚ) + units rank ≤ 2 * amount := by
  have apart : (units other : ℚ) < units rank := by exact_mod_cast units_strictMono below
  have closer := nearest other
  by_contra beyond
  rw [abs_of_nonneg (by linarith)] at closer
  rcases abs_cases ((units other : ℚ) - amount) with ⟨same, _⟩ | ⟨same, _⟩ <;> linarith

theorem Nearest.mono {high : Nat} {greater : ℚ} (nearest : Nearest rank amount) (upper : Nearest high greater)
    (less : amount < greater) : rank ≤ high := by
  by_contra above
  have top := nearest.middle_le (not_le.mp above)
  have bottom := upper.le_middle (not_le.mp above)
  linarith

end Middles

/-- Numbers less than `count` least distances apart round to ranks that are at most
`count` apart. -/
theorem Nearest.le_add {low high count : Nat} {x y : ℚ} (lower : Nearest low x) (upper : Nearest high y)
    (near : y - x < count * max 1 (x / 2 ^ 53)) : high ≤ low + count := by
  by_contra far
  have bottom := lower.le_middle (Nat.lt_succ_self low)
  have top := upper.middle_le (show high - 1 < high by omega)
  have first := mul_le_units_sub low count
  have second := mul_le_units_sub (low + 1) count
  have last : (units (low + 1 + count) : ℚ) ≤ units high := by
    exact_mod_cast units_strictMono.monotone (show low + 1 + count ≤ high by omega)
  have before : (units (low + count) : ℚ) ≤ units (high - 1) := by
    exact_mod_cast units_strictMono.monotone (show low + count ≤ high - 1 by omega)
  have least : max 1 (x / 2 ^ 53) ≤
      (max 1 ((units low : ℚ) / 2 ^ 53) + max 1 ((units (low + 1) : ℚ) / 2 ^ 53)) / 2 := by
    have ones := le_max_left 1 ((units low : ℚ) / 2 ^ 53)
    have others := le_max_left 1 ((units (low + 1) : ℚ) / 2 ^ 53)
    have bits := le_max_right 1 ((units low : ℚ) / 2 ^ 53)
    have moreBits := le_max_right 1 ((units (low + 1) : ℚ) / 2 ^ 53)
    apply max_le
    · linarith
    · linarith
  have scaled := mul_le_mul_of_nonneg_left least (Nat.cast_nonneg (α := ℚ) count)
  rw [Nat.succ_eq_add_one] at bottom
  linarith

/-- A number strictly within half of the last of 53 bits rounds to the rank. -/
theorem Nearest.eq_of_close {rank close : Nat} {amount : ℚ} (nearest : Nearest rank amount)
    (near : 2 ^ 54 * |(units close : ℚ) - amount| < units close) : rank = close := by
  have closer := nearest close
  rcases lt_trichotomy rank close with below | same | above
  · have last : (units rank : ℚ) ≤ units (close - 1) := by
      exact_mod_cast units_strictMono.monotone (show rank ≤ close - 1 by omega)
    have bits := (units_succ (close - 1)).2
    rw [show close - 1 + 1 = close by omega] at bits
    have bits : (units close : ℚ) + 2 ^ 53 * units (close - 1) ≤ 2 ^ 53 * units close := by exact_mod_cast bits
    have triangle := abs_sub_le (units close : ℚ) amount (units rank)
    rw [abs_sub_comm amount] at triangle
    have apart := le_abs_self ((units close : ℚ) - units rank)
    linarith
  · exact same
  · have next : (units (close + 1) : ℚ) ≤ units rank := by
      exact_mod_cast units_strictMono.monotone (show close + 1 ≤ rank by omega)
    obtain ⟨step, bits⟩ := units_succ close
    have step : (units close : ℚ) < units (close + 1) := by exact_mod_cast step
    have bits : (units (close + 1) : ℚ) + 2 ^ 53 * units close ≤ 2 ^ 53 * units (close + 1) := by exact_mod_cast bits
    have triangle := abs_sub_le (units rank : ℚ) amount (units close)
    rw [abs_sub_comm amount] at triangle
    have apart := le_abs_self ((units rank : ℚ) - units close)
    linarith

/-- Rounding looks at the quotient only. -/
theorem nearestRank_mul_left {factor : Nat} (positive : 0 < factor) (num den : Nat) :
    nearestRank (factor * num) (factor * den) = nearestRank num den := by
  have quotient : ∀ bottom, factor * num / (factor * bottom) = num / bottom :=
    fun bottom => Nat.mul_div_mul_left num bottom positive
  have rest : ∀ bottom, factor * num % (factor * bottom) = factor * (num % bottom) :=
    fun bottom => Nat.mul_mod_mul_left factor num bottom
  have rounded : ∀ bottom, divHalfEven (factor * num) (factor * bottom) = divHalfEven num bottom := by
    intro bottom
    have twice : 2 * (factor * (num % bottom)) = factor * (2 * (num % bottom)) := by
      rw [Nat.mul_left_comm]
    simp only [divHalfEven, quotient, rest, twice, Nat.mul_lt_mul_left positive]
  simp only [nearestRank, quotient, Nat.mul_assoc, rounded]

/-- The rank of the double nearest to a number of units. -/
def rounded (amount : ℚ) : Nat := nearestRank amount.num.natAbs amount.den

theorem nearestRank_eq_rounded (num : Nat) {den : Nat} (positive : 0 < den) :
    nearestRank num den = rounded (num / den) := by
  have some : (den : ℚ) ≠ 0 := by exact_mod_cast positive.ne'
  have nonneg : 0 ≤ (num / den : ℚ) := by positivity
  have least : 0 ≤ (num / den : ℚ).num := Rat.num_nonneg.mpr nonneg
  have same : num * (num / den : ℚ).den = (num / den : ℚ).num.natAbs * den := by
    have fraction : (num / den : ℚ) = (num / den : ℚ).num / (num / den : ℚ).den := (Rat.num_div_den _).symm
    rw [div_eq_div_iff some (by exact_mod_cast (num / den : ℚ).den_nz)] at fraction
    zify
    rw [abs_of_nonneg least]
    exact_mod_cast fraction
  rw [rounded, ← nearestRank_mul_left (num / den : ℚ).den_pos num den, Nat.mul_comm _ num, same,
    Nat.mul_comm _ den, Nat.mul_comm _ den, nearestRank_mul_left positive]

theorem rounded_eq (amount : ℚ) (nonneg : 0 ≤ amount) :
    (amount.num.natAbs : ℚ) / amount.den = amount := by
  conv_rhs => rw [← Rat.num_div_den amount]
  congr 1
  rw [Nat.cast_natAbs, abs_of_nonneg (Rat.num_nonneg.mpr nonneg)]

theorem nearestEven_rounded {amount : ℚ} (nonneg : 0 ≤ amount) :
    NearestEven (fun rank => (units rank : ℚ)) Even amount (rounded amount) := by
  have nearest := nearestEven_nearestRank amount.num.natAbs amount.den_pos
  rwa [rounded_eq amount nonneg] at nearest

theorem nearest_rounded {amount : ℚ} (nonneg : 0 ≤ amount) : Nearest (rounded amount) amount :=
  (nearestEven_rounded nonneg).nearest

theorem rounded_mono {amount greater : ℚ} (nonneg : 0 ≤ amount) (le : amount ≤ greater) :
    rounded amount ≤ rounded greater := by
  rcases le.eq_or_lt with rfl | less
  · exact le_rfl
  · exact (nearest_rounded nonneg).mono (nearest_rounded (nonneg.trans le)) less

theorem abs_units_rounded_sub_le {amount : ℚ} (nonneg : 0 ≤ amount) :
    (amount < 2 ^ 53 ∧ |(units (rounded amount) : ℚ) - amount| ≤ 1 / 2) ∨
      |(units (rounded amount) : ℚ) - amount| ≤ amount / 2 ^ 53 := by
  have close := abs_units_nearestRank_sub_le amount.num.natAbs amount.den_pos
  rwa [rounded_eq amount nonneg] at close

@[simp] theorem rounded_units (rank : Nat) : rounded (units rank) = rank := by
  have same := nearestRank_eq_rounded (units rank) Nat.one_pos
  rw [Nat.cast_one, div_one, nearestRank_units] at same
  exact same.symm

theorem rounded_zero : rounded 0 = 0 := by
  have exact := rounded_units 0
  rwa [units_small (by decide), Nat.cast_zero] at exact

/-! What the operations on doubles round, with magnitudes counted in ones. -/

def size (rank : Nat) : ℚ := units rank / unitsPerOne

theorem unitsPerOne_cast_pos : (0 : ℚ) < unitsPerOne := by exact_mod_cast unitsPerOne_pos

theorem two_pow_le_unitsPerOne {places : Nat} (few : places ≤ 1074) : (2 : ℚ) ^ places ≤ unitsPerOne := by
  obtain ⟨ones, same, power⟩ := unitsPerOne_eq
  rw [power]
  exact_mod_cast Nat.pow_le_pow_right (show 0 < 2 by decide) (show places ≤ ones by omega)

theorem size_mul_unitsPerOne (rank : Nat) : size rank * unitsPerOne = units rank :=
  div_mul_cancel₀ _ unitsPerOne_cast_pos.ne'

theorem size_nonneg (rank : Nat) : 0 ≤ size rank :=
  div_nonneg (Nat.cast_nonneg _) unitsPerOne_cast_pos.le

theorem size_zero : size 0 = 0 := by
  rw [size, units_small (by decide), Nat.cast_zero, zero_div]

theorem size_strictMono : StrictMono size := fun _ _ less =>
  div_lt_div_of_pos_right (by exact_mod_cast units_strictMono less) unitsPerOne_cast_pos

theorem natRank_eq (n : Nat) : natRank n = rounded (n * unitsPerOne) := by
  rw [natRank, nearestRank_eq_rounded _ (by decide)]
  push_cast
  rw [div_one]

theorem size_natRank {n : Nat} (small : n < 2 ^ 53) : size (natRank n) = n := by
  rw [size, units_natRank small, Nat.cast_mul, mul_div_cancel_right₀ _ unitsPerOne_cast_pos.ne']

theorem mulRank_eq (a b : Nat) : mulRank a b = rounded (size a * size b * unitsPerOne) := by
  rw [mulRank, nearestRank_eq_rounded _ unitsPerOne_pos]
  push_cast
  rw [mul_assoc, size_mul_unitsPerOne, size, div_mul_eq_mul_div]

theorem divRank_eq (a : Nat) {b : Nat} (positive : 0 < size b) :
    divRank a b = rounded (size a / size b * unitsPerOne) := by
  have units_pos : 0 < units b := by
    have some : (0 : ℚ) < units b := by
      rw [← size_mul_unitsPerOne]
      exact mul_pos positive unitsPerOne_cast_pos
    exact_mod_cast some
  rw [divRank, nearestRank_eq_rounded _ units_pos]
  push_cast
  rw [← size_mul_unitsPerOne, ← size_mul_unitsPerOne, mul_div_mul_right _ _ unitsPerOne_cast_pos.ne',
    div_mul_eq_mul_div]

/-- Up to a limit of at least one, rounding moves a number by the last of 53 bits of the limit. -/
theorem abs_size_rounded_sub_le {amount limit : ℚ} (nonneg : 0 ≤ amount) (bounded : amount ≤ limit) (one : 1 ≤ limit) :
    |size (rounded (amount * unitsPerOne)) - amount| ≤ limit / 2 ^ 53 := by
  have ones := unitsPerOne_cast_pos
  have distance : |size (rounded (amount * unitsPerOne)) - amount| =
      |(units (rounded (amount * unitsPerOne)) : ℚ) - amount * unitsPerOne| / unitsPerOne := by
    rw [size, ← abs_of_pos ones, ← abs_div, abs_of_pos ones, sub_div, mul_div_cancel_right₀ _ ones.ne']
  rw [distance, div_le_iff₀ ones, div_mul_eq_mul_div]
  rcases abs_units_rounded_sub_le (mul_nonneg nonneg ones.le) with ⟨_, half⟩ | bits
  · have unit := two_pow_le_unitsPerOne (show 53 ≤ 1074 by decide)
    have least := le_mul_of_one_le_left ones.le one
    refine half.trans ?_
    rw [div_le_div_iff₀ (by norm_num) (by norm_num)]
    linarith
  · refine bits.trans ?_
    gcongr

end SpellPack.Proofs.NearestRank
