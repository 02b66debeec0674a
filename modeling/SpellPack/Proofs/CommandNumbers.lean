import SpellPack.Decimal.Numeral
import SpellPack.Proofs.NumeralText
import SpellPack.Proofs.ShortestDecimal

/-! Numbers in commands are numerals. That of an integer is read back as the integer; any
other number is shown to the nearest hundredth, so what is small enough is shown as zero. -/

namespace SpellPack.Proofs.CommandNumbers
open Binary64 ExactNumbers NearestInteger NearestRank ShortestDecimal NumeralReading NumeralText

def signed (negative : Bool) (magnitude : ℚ) : ℚ := if negative then -magnitude else magnitude

def Denotes (text : List Char) (number : ℚ) : Prop :=
  ∃ numeral, Decimal.ofChars? text = some numeral ∧
    signed numeral.negative (amount numeral.coefficient numeral.exponent) = number

theorem Denotes.unique {text : List Char} {first second : ℚ} (one : Denotes text first) (other : Denotes text second) :
    first = second := by
  obtain ⟨numeral, read, rfl⟩ := one
  obtain ⟨again, reread, rfl⟩ := other
  rw [Option.some.inj (read.symm.trans reread)]

section Numerals

/-- Digits behind a point, which is left out with them. -/
def fractionText : List Char → List Char
  | [] => []
  | digits => '.' :: digits

theorem readSign_signText {digits : List Char} (some : digits ≠ []) (all : ∀ c ∈ digits, c.isDigit = true)
    (negative : Bool) (rest : List Char) :
    Decimal.readSign (signText negative ++ (digits ++ rest)) = (negative, digits ++ rest) := by
  cases negative with
  | true => rfl
  | false =>
    obtain ⟨digit, later, rfl⟩ := List.exists_cons_of_ne_nil some
    exact readSign_digit (all digit List.mem_cons_self) (later ++ rest)

variable {whole fraction : List Char}

theorem ofChars?_digits (some : whole ≠ []) (allWhole : ∀ c ∈ whole, c.isDigit = true)
    (allFraction : ∀ c ∈ fraction, c.isDigit = true) (negative : Bool) :
    Decimal.ofChars? (signText negative ++ (whole ++ fractionText fraction)) =
      Option.some ⟨negative, Decimal.ofDigits (whole ++ fraction), -fraction.length⟩ := by
  have visible : whole.isEmpty = false := List.isEmpty_eq_false_iff.mpr some
  have ends : EndsDigits (fractionText fraction) := by
    intro c first
    cases fraction with
    | nil => cases first
    | cons digit later =>
      cases first
      decide
  simp only [Decimal.ofChars?, readSign_signText some allWhole, takeWhile_digits allWhole ends,
    dropWhile_digits allWhole ends, visible, Bool.false_and, Bool.false_eq_true, if_false]
  cases fraction with
  | nil => rfl
  | cons digit later =>
    have nothing : EndsDigits [] := by simp [EndsDigits]
    have front := takeWhile_digits allFraction nothing
    have back := dropWhile_digits allFraction nothing
    rw [List.append_nil] at front back
    simp only [fractionText, front, back]
    rfl

end Numerals

section Hundredths

theorem digitChar_value {digit : Nat} (few : digit < 10) : digit.digitChar.toNat - '0'.toNat = digit := by
  have all : ∀ digit < 10, digit.digitChar.toNat - '0'.toNat = digit := by decide
  exact all digit few

theorem toList_toString (n : Nat) : (toString n).toList = Nat.toDigits 10 n := by
  rw [Nat.toString_eq_repr, Nat.toList_repr]

theorem toList_toString_digit {digit : Nat} (few : digit < 10) : (toString digit).toList = [digit.digitChar] := by
  rw [toList_toString, Nat.toDigits_of_lt_base few]

theorem isDigit_digitChar {digit : Nat} (few : digit < 10) : digit.digitChar.isDigit = true := by
  apply isDigit_toDigits (n := digit)
  rw [Nat.toDigits_of_lt_base few]
  exact List.mem_singleton_self _

/-- The digits of a count of hundredths behind the point, without zeros at the end. -/
def fractionDigits (count : Nat) : List Char :=
  let tenths := count % 100 / 10
  let rest := count % 10
  if rest ≠ 0 then [tenths.digitChar, rest.digitChar] else if tenths ≠ 0 then [tenths.digitChar] else []

theorem toList_hundredthsText (count : Nat) :
    (hundredthsText count).toList = Nat.toDigits 10 (count / 100) ++ fractionText (fractionDigits count) := by
  have tenths : count % 100 / 10 < 10 := by omega
  have rest : count % 10 < 10 := by omega
  simp only [hundredthsText, fractionDigits]
  split
  · simp only [String.toList_append, toList_toString_digit tenths, toList_toString_digit rest, toList_toString,
      List.append_assoc]
    rfl
  split
  · simp only [String.toList_append, toList_toString_digit tenths, toList_toString, List.append_assoc]
    rfl
  · rw [toList_toString, fractionText, List.append_nil]

theorem isDigit_fractionDigits (count : Nat) : ∀ c ∈ fractionDigits count, c.isDigit = true := by
  have tenths : count % 100 / 10 < 10 := by omega
  have rest : count % 10 < 10 := by omega
  simp only [fractionDigits]
  split
  · exact List.forall_mem_cons.mpr ⟨isDigit_digitChar tenths, List.forall_mem_singleton.mpr (isDigit_digitChar rest)⟩
  split
  · exact List.forall_mem_singleton.mpr (isDigit_digitChar tenths)
  · exact List.forall_mem_nil _

theorem ofDigits_fractionDigits (count : Nat) :
    Decimal.ofDigits (Nat.toDigits 10 (count / 100) ++ fractionDigits count) * 100 =
      count * 10 ^ (fractionDigits count).length := by
  have tenths : count % 100 / 10 < 10 := by omega
  have rest : count % 10 < 10 := by omega
  simp only [fractionDigits, Decimal.ofDigits, Nat.ofDigitChars_append, Nat.ofDigitChars_ten_toDigits]
  split
  · simp only [Nat.ofDigitChars_cons, Nat.ofDigitChars_nil, digitChar_value tenths, digitChar_value rest,
      List.length_cons, List.length_nil]
    omega
  split
  · simp only [Nat.ofDigitChars_cons, Nat.ofDigitChars_nil, digitChar_value tenths, List.length_cons,
      List.length_nil]
    omega
  · simp only [Nat.ofDigitChars_nil, List.length_nil]
    omega

theorem denotes_hundredthsText (negative : Bool) (count : Nat) :
    Denotes (signText negative ++ (hundredthsText count).toList) (signed negative (count / 100)) := by
  have read := @ofChars?_digits (Nat.toDigits 10 (count / 100)) (fractionDigits count) Nat.toDigits_ne_nil
    (fun c => isDigit_toDigits) (isDigit_fractionDigits count) negative
  refine ⟨_, toList_hundredthsText count ▸ read, congrArg (signed negative) ?_⟩
  have places : (0 : ℚ) < 10 ^ (fractionDigits count).length := by positivity
  have same : (Decimal.ofDigits (Nat.toDigits 10 (count / 100) ++ fractionDigits count) : ℚ) * 100 =
      count * 10 ^ (fractionDigits count).length := by exact_mod_cast ofDigits_fractionDigits count
  rw [amount, zpow_neg, zpow_natCast, ← div_eq_mul_inv, div_eq_div_iff places.ne' (by norm_num), same]

end Hundredths

section Shown

variable {x : Finite}

def shownHundredths (x : Finite) : Nat := if x.isIntegral then x.wholeDigits * 100 else x.hundredths

def shown : Binary64 → ℚ
  | .finite x => signed x.negative (shownHundredths x / 100)
  | _ => 0

theorem denotes_commandText (x : Binary64) : Denotes x.commandText.toList (shown x) := by
  have zero : Denotes "0".toList 0 := by
    simpa [signText, hundredthsText, signed] using denotes_hundredthsText false 0
  cases x with
  | nan => exact zero
  | infinite negative => exact zero
  | finite x =>
    change Denotes (if x.negative && shownHundredths x ≠ 0 then "-" ++ hundredthsText (shownHundredths x)
      else hundredthsText (shownHundredths x)).toList (signed x.negative (shownHundredths x / 100))
    have written := denotes_hundredthsText (x.negative && shownHundredths x ≠ 0) (shownHundredths x)
    have unsigned : signed (x.negative && shownHundredths x ≠ 0) (shownHundredths x / 100) =
        signed x.negative (shownHundredths x / 100) := by
      by_cases nothing : shownHundredths x = 0
      · simp [nothing, signed]
      · simp [nothing]
    rw [unsigned] at written
    split
    · next below =>
      rw [below] at written
      simpa [signText] using written
    · next above =>
      rw [Bool.not_eq_true] at above
      rw [above] at written
      simpa [signText] using written

theorem isIntegral_iff : x.isIntegral = true ↔ units x.rank % unitsPerOne = 0 := by
  rw [Finite.isIntegral, Finite.magnitude, beq_iff_eq]

/-- The search for the digits of an integer ends before the point. -/
theorem found_whole (nonzero : x.rank ≠ 0) (integral : x.isIntegral = true) :
    Found x.rank 0 (Decimal.shortest x.rank) := by
  have whole := isIntegral_iff.mp integral
  have finest : Decimal.finestGrid x.rank = 0 := by rw [Decimal.finestGrid, if_pos whole]
  have below := finestGrid_le nonzero
  have reads := finestGrid_reads nonzero
  rw [finest] at below reads
  have divides : (Decimal.onGrid x.rank 0).2 ∣ (Decimal.onGrid x.rank 0).1 := by
    simpa only [Decimal.onGrid, Nat.pow_eq, Nat.pow_zero, Nat.mul_one] using Nat.dvd_of_mod_eq_zero whole
  rw [← divHalfEven_of_dvd divides (onGrid_eq x.rank 0).1] at reads
  exact found_on nonzero below (readsBackOn?_nearest reads)

/-- The digits of an integer are those of a number that rounds to it. -/
theorem rounded_wholeDigits (integral : x.isIntegral = true) : rounded (x.wholeDigits * unitsPerOne) = x.rank := by
  by_cases zero : x.rank = 0
  · rw [Finite.wholeDigits, if_pos zero, Nat.cast_zero, zero_mul, rounded_zero, zero]
  · obtain ⟨reads, _, coarse⟩ := found_whole zero integral
    obtain ⟨places, same⟩ := Int.eq_ofNat_of_zero_le coarse
    have written : (x.wholeDigits : ℚ) = amount (Decimal.shortest x.rank).1 (Decimal.shortest x.rank).2 := by
      simp only [Finite.wholeDigits, if_neg zero, same, Int.toNat_natCast, amount, Nat.pow_eq, zpow_natCast]
      push_cast
      rfl
    rw [written]
    exact rounded_of_rank reads zero x.rank_lt

theorem wholeDigits_pos (nonzero : x.rank ≠ 0) (integral : x.isIntegral = true) : 0 < x.wholeDigits := by
  have rounds := rounded_wholeDigits integral
  rw [show (x.wholeDigits : ℚ) = amount x.wholeDigits 0 by simp [amount]] at rounds
  exact coefficient_pos rounds nonzero

/-- What is no integer is shown to the nearest hundredth. -/
theorem halfEven_hundredths (x : Finite) : HalfEven (size x.rank * 100) x.hundredths := by
  have rounds := halfEven_divHalfEven (x.magnitude * 100) unitsPerOne_pos
  have counted : ((x.magnitude * 100 : Nat) : ℚ) / unitsPerOne = size x.rank * 100 := by
    rw [Finite.magnitude, size]
    push_cast
    ring
  rwa [counted] at rounds

theorem abs_hundredths_sub_le (x : Finite) : |(x.hundredths / 100 : ℚ) - size x.rank| ≤ 1 / 200 := by
  have half := (halfEven_hundredths x).near
  rw [Int.cast_natCast, abs_le] at half
  rw [abs_le]
  constructor <;> linarith

theorem hundredths_eq_zero_iff (x : Finite) : x.hundredths = 0 ↔ size x.rank ≤ 1 / 200 := by
  have small : size x.rank ≤ 1 / 200 ↔ 200 * units x.rank ≤ unitsPerOne := by
    rw [size, div_le_iff₀ unitsPerOne_cast_pos, one_div, ← div_eq_inv_mul, le_div_iff₀ (by norm_num), mul_comm]
    exact_mod_cast Iff.rfl
  rw [small, Finite.hundredths, Finite.magnitude, divHalfEven_eq_zero_iff unitsPerOne_pos]
  omega

theorem one_le_size_of_integral (nonzero : x.rank ≠ 0) (integral : x.isIntegral = true) : 1 ≤ size x.rank := by
  have divides := Nat.dvd_of_mod_eq_zero (isIntegral_iff.mp integral)
  rw [size, one_le_div unitsPerOne_cast_pos]
  exact_mod_cast Nat.le_of_dvd (units_pos nonzero) divides

/-- A number is shown as zero exactly if it is at most half a hundredth in size. -/
theorem shownHundredths_eq_zero_iff (x : Finite) : shownHundredths x = 0 ↔ size x.rank ≤ 1 / 200 := by
  rw [shownHundredths]
  split
  · next integral =>
    by_cases zero : x.rank = 0
    · rw [Finite.wholeDigits, if_pos zero, zero, size_zero, Nat.zero_mul]
      norm_num
    · have digits := wholeDigits_pos zero integral
      have large := one_le_size_of_integral zero integral
      constructor
      · omega
      · intro small
        linarith
  · exact hundredths_eq_zero_iff x

end Shown

end SpellPack.Proofs.CommandNumbers
