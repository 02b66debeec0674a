import SpellPack.Proofs.ShownNumbers
import SpellPack.Proofs.TextForms

/-! Every number has one spelling in commands: digits without zeros in front, and at most
two more behind a point, the last of which is no zero. -/

namespace SpellPack.Proofs.CanonicalNumbers
open Binary64 NumeralReading NumeralText NearestInteger NearestRank CommandNumbers DoubleReading ShownNumbers
open TextForms
open scoped Computability

def nonzeroDigit (c : Char) : Bool := c.isDigit && c != '0'

/-- Digits of an integer, without zeros in front. -/
def wholeForm : Language Char := {['0']} + character nonzeroDigit * (character Char.isDigit)∗

/-- A point and one or two digits behind it, without a zero at the end. -/
def pointForm : Language Char := {['.']} * (optional (character Char.isDigit) * character nonzeroDigit)

def numberForm : Language Char := optional {['-']} * (wholeForm * optional pointForm)

section Form

theorem leads_mem {digits : List Char} (leads : Leads digits) : digits ∈ wholeForm := by
  obtain ⟨some, all, zero⟩ := leads
  obtain ⟨first, later, rfl⟩ := List.exists_cons_of_ne_nil some
  rw [List.forall_mem_cons] at all
  by_cases null : first = '0'
  · exact .inl (zero (congrArg Option.some null))
  · have nonzero : nonzeroDigit first = true := by simp [nonzeroDigit, all.1, null]
    exact .inr ⟨[first], ⟨first, nonzero, rfl⟩, later, mem_character_star.mpr all.2, rfl⟩

theorem nonzeroDigit_digitChar {digit : Nat} (few : digit < 10) (nonzero : digit ≠ 0) :
    nonzeroDigit digit.digitChar = true := by
  have all : ∀ digit < 10, digit ≠ 0 → nonzeroDigit digit.digitChar = true := by decide
  exact all digit few nonzero

theorem fractionText_mem (count : Nat) : fractionText (fractionDigits count) ∈ optional pointForm := by
  have tenths : count % 100 / 10 < 10 := by omega
  have rest : count % 10 < 10 := by omega
  simp only [fractionDigits]
  split
  · next some =>
    have last := nonzeroDigit_digitChar rest some
    have first : [(count % 100 / 10).digitChar] ∈ character Char.isDigit := ⟨_, isDigit_digitChar tenths, rfl⟩
    exact mem_optional ⟨['.'], rfl, _, ⟨_, mem_optional first, [_], ⟨_, last, rfl⟩, rfl⟩, rfl⟩
  split
  · next some =>
    have last := nonzeroDigit_digitChar tenths some
    exact mem_optional ⟨['.'], rfl, _, ⟨[], nil_mem_optional _, [_], ⟨_, last, rfl⟩, rfl⟩, rfl⟩
  · exact nil_mem_optional pointForm

theorem countText_mem (count : ℤ) : (countText count).toList ∈ numberForm := by
  have unsigned : (hundredthsText count.natAbs).toList ∈ wholeForm * optional pointForm := by
    rw [toList_hundredthsText]
    exact ⟨_, leads_mem (leads_toDigits _), _, fractionText_mem _, rfl⟩
  rw [countText]
  split
  · rw [String.toList_append]
    exact ⟨['-'], mem_optional rfl, _, unsigned, rfl⟩
  · exact ⟨[], nil_mem_optional _, _, unsigned, rfl⟩

end Form

section Whole

variable {x : Finite}

theorem fractionDigits_hundred (count : Nat) : fractionDigits (count * 100) = [] := by
  have rest : count * 100 % 10 = 0 := by omega
  have tenths : count * 100 % 100 / 10 = 0 := by omega
  simp only [fractionDigits, rest, tenths, ne_eq, not_true_eq_false, if_false]

theorem pointless_hundredthsText (count : Nat) : '.' ∉ (hundredthsText (count * 100)).toList := by
  rw [toList_hundredthsText, fractionDigits_hundred, fractionText, List.append_nil]
  intro point
  exact absurd (isDigit_toDigits point) (by decide)

theorem pointless_commandText (integral : x.isIntegral = true) : '.' ∉ x.commandText.toList := by
  have unsigned := pointless_hundredthsText x.wholeDigits
  simp only [Finite.commandText, if_pos integral]
  split
  · rw [String.toList_append, List.mem_append, not_or]
    exact ⟨by decide, unsigned⟩
  · exact unsigned

theorem nearestDouble_shown (integral : x.isIntegral = true) : NearestDouble (shown (.finite x)) x :=
  nearestDouble_of_rank (by positivity) (rounded_shown integral).symm

theorem value_read (integral : x.isIntegral = true) :
    ∃ y : Finite, ofText? (Binary64.finite x).commandText = some (.finite y) ∧ value y = value x := by
  obtain ⟨y, read, rank, sign⟩ := ofText?_commandText (.finite x)
  rw [abs_shown] at rank sign
  rw [rounded_shown integral] at rank
  refine ⟨y, read, ?_⟩
  rw [value, value, rank]
  by_cases zero : x.rank = 0
  · rw [zero, size_zero]
    simp only [signed, neg_zero, ite_self]
  · have some : (shownHundredths x / 100 : ℚ) ≠ 0 := by
      rw [ne_eq, div_eq_zero_iff, Nat.cast_eq_zero, shownHundredths_eq_zero_iff]
      have one := one_le_size_of_integral zero integral
      rintro (small | hundred)
      · linarith
      · norm_num at hundred
    rw [sign_unique some (show signed x.negative _ = _ from sign)]

end Whole

/-- An integer is shown without a point, and is the double nearest to what is shown. -/
structure ShownWhole (x : Finite) : Prop where
  pointless : '.' ∉ x.commandText.toList
  nearest : NearestDouble (shown (.finite x)) x
  read : ∃ y : Finite, ofText? x.commandText = some (.finite y) ∧ value y = value x

/-- Any other number is shown as the hundredth nearest to it, the even one of two. -/
structure ShownRounded (x : Finite) : Prop where
  nearest : ∃ count : ℤ, shown (.finite x) = count / 100 ∧
    NearestEven (fun count : ℤ => (count / 100 : ℚ)) Even (value x) count
  near : |shown (.finite x) - value x| ≤ 1 / 200

structure Canonical (x : Binary64) : Prop where
  form : x.commandText.toList ∈ numberForm
  unsigned : x.commandText ≠ "-0"
  denotes : Denotes x.commandText.toList (shown x)
  same : ∀ y, shown y = shown x → y.commandText = x.commandText
  unbounded : x.finite? = none → x.commandText = "0"
  whole : ∀ y, x = .finite y → y.isIntegral = true → ShownWhole y
  rounded : ∀ y, x = .finite y → y.isIntegral = false → ShownRounded y

theorem shownRounded {x : Finite} (fractional : x.isIntegral = false) : ShownRounded x := by
  have rounds := halfEven_shownCount ((size_lt_of_fractional fractional).trans (by norm_num))
  constructor
  · refine ⟨shownCount (.finite x), shown_eq (.finite x), ?_⟩
    have nearest := rounds.nearestEven
    rw [← div_inv_eq_mul] at nearest
    exact nearest.scaled (by norm_num)
  · obtain ⟨low, high⟩ := abs_le.mp rounds.near
    rw [shown_eq, abs_le]
    constructor <;> linarith

theorem commandText_ne_negativeZero {x : Binary64} : x.commandText ≠ "-0" := by
  intro zero
  have negative : Denotes "-0".toList 0 := ⟨⟨true, 0, 0⟩, by decide, by simp [signed, ShortestDecimal.amount]⟩
  have none := (denotes_commandText x).unique (zero ▸ negative)
  rw [shown_eq, div_eq_zero_iff, Int.cast_eq_zero, or_iff_left (by norm_num)] at none
  rw [commandText_eq, none] at zero
  exact absurd zero (by decide)

theorem commandText_same {x y : Binary64} (same : shown y = shown x) : y.commandText = x.commandText := by
  rw [shown_eq, shown_eq, div_left_inj' (by norm_num), Int.cast_inj] at same
  rw [commandText_eq, commandText_eq, same]

/-- Numbers are spelled in one way each, and shown in their order. -/
theorem commandText_canonical : (∀ x, Canonical x) ∧
    ∀ x y : Finite, value x ≤ value y → ∀ low high,
      Denotes x.commandText.toList low → Denotes y.commandText.toList high → low ≤ high := by
  constructor
  · intro x
    refine ⟨?_, ?_, denotes_commandText x, ?_, ?_, ?_, ?_⟩
    · rw [commandText_eq]
      exact countText_mem (shownCount x)
    · exact commandText_ne_negativeZero
    · exact fun y => commandText_same
    · cases x with
      | finite x => exact fun none => nomatch none
      | nan | infinite negative => exact fun _ => rfl
    · rintro y rfl integral
      exact ⟨pointless_commandText integral, nearestDouble_shown integral, value_read integral⟩
    · rintro y rfl fractional
      exact shownRounded fractional
  · intro x y le low high first second
    rw [first.unique (denotes_commandText (.finite x)), second.unique (denotes_commandText (.finite y)), shown_eq,
      shown_eq]
    have ordered : (shownCount (.finite x) : ℚ) ≤ shownCount (.finite y) := by exact_mod_cast shownCount_mono le
    linarith

def lastFraction : Finite := ⟨false, 4841369599423283199, by decide⟩

/-- The least number from which on integers are missing. -/
def firstSparse : Finite := ⟨false, 4845873199050653696, by decide⟩

theorem ordered_lastFraction : value lastFraction ≤ value firstSparse ∧
    Denotes lastFraction.commandText.toList (45035996273704955 / 10) ∧
    Denotes firstSparse.commandText.toList 9007199254740992 ∧ (45035996273704955 / 10 : ℚ) ≤ 9007199254740992 := by
  have le : value lastFraction ≤ value firstSparse := size_strictMono.monotone (by decide)
  have first : Denotes lastFraction.commandText.toList (45035996273704955 / 10) :=
    ⟨⟨false, 45035996273704955, -1⟩, by decide +kernel, by norm_num [signed, ShortestDecimal.amount]⟩
  have second : Denotes firstSparse.commandText.toList 9007199254740992 :=
    ⟨⟨false, 9007199254740992, 0⟩, by decide +kernel, by norm_num [signed, ShortestDecimal.amount]⟩
  exact ⟨le, first, second, commandText_canonical.2 lastFraction firstSparse le _ _ first second⟩

/-- A tie goes to the even hundredth. -/
example : (ofText? "0.125").map commandText = some "0.12" ∧ (ofText? "-0.375").map commandText = some "-0.38" := by
  decide +kernel

end SpellPack.Proofs.CanonicalNumbers
