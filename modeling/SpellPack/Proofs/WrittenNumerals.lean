import SpellPack.Proofs.NumeralText
import SpellPack.Proofs.ShortestDecimal

/-! The text of a double is read as a significand and an exponent: those it was written
with, or with one more digit where a whole number ends in `.0`. -/

namespace SpellPack.Proofs.WrittenNumerals
open Json NumeralReading NumeralText ShortestDecimal

/-- The digits before and behind a point make up one significand, as long as it has room. -/
theorem readNumber_point {negative : Bool} {whole fraction rest : List Char} (leads : Leads whole)
    (some : fraction ≠ []) (all : ∀ c ∈ fraction, c.isDigit = true) (ends : EndsDigits rest)
    (fits : Nat.ofDigitChars 10 (whole ++ fraction) 0 < significandLimit) :
    readNumber (signText negative ++ whole ++ '.' :: (fraction ++ rest)) =
      endFraction negative (Nat.ofDigitChars 10 (whole ++ fraction) 0) (-fraction.length) rest := by
  rw [Nat.ofDigitChars_append] at fits ⊢
  have before := Nat.lt_of_le_of_lt (le_ofDigitChars fraction _) fits
  have point : EndsDigits ('.' :: (fraction ++ rest)) := by
    intro c first
    cases first
    decide
  rw [readNumber_digits leads point, absorb_eq before]
  simp only [endDigits]
  rw [readFraction_digits some all ends, absorb_eq fits]
  simp

/-- An exponent is read as it is written. -/
theorem readExponent_signed {negative : Bool} {significand : Nat} {places : Int} (below : Bool) {count : Nat}
    (few : count < 2 ^ 31) {rest : List Char} (ends : EndsDigits rest) :
    readExponent negative significand places ((if below then '-' else '+') :: (Nat.toDigits 10 count ++ rest)) =
      realNumber negative significand (if below then places - count else places + count) rest := by
  obtain ⟨digit, later, digits⟩ := List.exists_cons_of_ne_nil (@Nat.toDigits_ne_nil count 10)
  have all : ∀ c ∈ digit :: later, c.isDigit = true := by
    rw [← digits]
    exact fun c => isDigit_toDigits
  have signed : ∀ text, Decimal.readSign ([if below then '-' else '+'] ++ text) = (below, text) := by
    cases below <;> exact fun text => rfl
  have read := @readExponent_digits negative significand places [if below then '-' else '+'] below digit later rest
    (signed _) all ends
  have value : Nat.ofDigitChars 10 (digit :: later) 0 = count := by rw [← digits, Nat.ofDigitChars_ten_toDigits]
  have room : Nat.ofDigitChars 10 (digit :: later) 0 < exponentLimit := by
    rw [value]
    exact few
  rw [digits]
  refine read.trans ?_
  rw [scaledBy, absorb_eq room, value]

/-- What is read where `coefficient * 10 ^ exponent` is written. -/
def numeral (coefficient : Nat) (exponent : Int) : Nat × Int :=
  let scientific := exponent + ((Nat.toDigits 10 coefficient).length - 1 : Nat)
  if 0 ≤ exponent ∧ scientific ≤ Decimal.greatestPositional then (coefficient * 10 ^ (exponent.toNat + 1), -1)
  else (coefficient, exponent)

theorem amount_numeral (coefficient : Nat) (exponent : Int) :
    amount (numeral coefficient exponent).1 (numeral coefficient exponent).2 = amount coefficient exponent := by
  rw [numeral]
  split
  · next whole =>
    obtain ⟨places, rfl⟩ := Int.eq_ofNat_of_zero_le whole.1
    rw [amount_mul_pow, Int.toNat_natCast, Nat.cast_add, Nat.cast_one, add_comm, add_neg_cancel_right]
  · rfl

section Digits

variable {coefficient : Nat}

theorem leads_append (positive : 0 < coefficient) {more : List Char} (all : ∀ c ∈ more, c.isDigit = true) :
    Leads (Nat.toDigits 10 coefficient ++ more) := by
  obtain ⟨some, digits, zero⟩ := leads_toDigits coefficient
  refine ⟨by simp, List.forall_mem_append.mpr ⟨digits, all⟩, fun first => ?_⟩
  rw [List.head?_append_of_ne_nil _ some] at first
  have value : Nat.ofDigitChars 10 ['0'] 0 = coefficient := zero first ▸ Nat.ofDigitChars_ten_toDigits
  exact absurd value positive.ne

theorem leads_take (positive : 0 < coefficient) {count : Nat} (some : 0 < count) :
    Leads ((Nat.toDigits 10 coefficient).take count) := by
  obtain ⟨_, digits, zero⟩ := @leads_append coefficient positive [] (by simp)
  rw [List.append_nil] at digits zero
  refine ⟨?_, fun c member => digits c (List.mem_of_mem_take member), fun first => ?_⟩
  · simpa using some.ne'
  · rw [List.head?_take, if_neg some.ne'] at first
    rw [zero first]
    exact List.take_of_length_le some

theorem digits_fit (word : coefficient < 2 ^ 64) :
    Nat.ofDigitChars 10 (Nat.toDigits 10 coefficient) 0 < significandLimit := by
  rw [Nat.ofDigitChars_ten_toDigits]
  exact word

theorem take_append_drop_fit (word : coefficient < 2 ^ 64) (count : Nat) :
    Nat.ofDigitChars 10 ((Nat.toDigits 10 coefficient).take count ++ (Nat.toDigits 10 coefficient).drop count) 0 <
      significandLimit := by
  rw [List.take_append_drop]
  exact digits_fit word

theorem isDigit_drop (count : Nat) : ∀ c ∈ (Nat.toDigits 10 coefficient).drop count, c.isDigit = true :=
  fun _ member => isDigit_toDigits (List.mem_of_mem_drop member)

end Digits

/-- Two ways of writing end in an exponent, with and without a point. -/
theorem readNumber_scientific {negative : Bool} {coefficient : Nat} (positive : 0 < coefficient)
    (word : coefficient < 2 ^ 64) {exponent scientific : Int}
    (same : scientific = exponent + ((Nat.toDigits 10 coefficient).length - 1 : Nat)) (few : scientific.natAbs < 2 ^ 31)
    {rest : List Char} (ends : EndsDigits rest) :
    let lead := (Nat.toDigits 10 coefficient).take 1
    let later := (Nat.toDigits 10 coefficient).drop 1
    readNumber (signText negative ++ lead ++ ((if later.isEmpty then [] else '.' :: later) ++
        'e' :: (if scientific < 0 then '-' else '+') :: (Nat.toDigits 10 scientific.natAbs ++ rest))) =
      realNumber negative coefficient exponent rest := by
  intro lead later
  have tail : ∀ places, places = -(later.length : Int) →
      readExponent negative coefficient places
        ((if scientific < 0 then '-' else '+') :: (Nat.toDigits 10 scientific.natAbs ++ rest)) =
      realNumber negative coefficient exponent rest := by
    intro places count
    have read := @readExponent_signed negative coefficient places (scientific < 0) scientific.natAbs few rest ends
    simp only [decide_eq_true_eq] at read
    have length : later.length = (Nat.toDigits 10 coefficient).length - 1 := List.length_drop
    have total : (if scientific < 0 then places - scientific.natAbs else places + scientific.natAbs) = exponent := by
      split <;> omega
    rw [read, total]
  have mark : ∀ more, EndsDigits ('e' :: more) := by
    intro more c first
    cases first
    decide
  have digits : lead ++ later = Nat.toDigits 10 coefficient := List.take_append_drop 1 _
  have leads : Leads lead := leads_take positive Nat.one_pos
  cases empty : later.isEmpty with
  | true =>
    rw [List.isEmpty_iff] at empty
    rw [empty, List.append_nil] at digits
    rw [if_pos rfl, List.nil_append, readNumber_digits leads (mark _), digits, absorb_eq (digits_fit word),
      Nat.ofDigitChars_ten_toDigits]
    exact tail 0 (by simp [empty])
  | false =>
    rw [List.isEmpty_eq_false_iff] at empty
    rw [if_neg Bool.false_ne_true, List.cons_append, readNumber_point leads empty (isDigit_drop 1) (mark _)
      (take_append_drop_fit word 1), digits, Nat.ofDigitChars_ten_toDigits]
    exact tail _ rfl

/-- A whole number below `10 ^ 16` leaves room for one more digit. -/
theorem whole_fits {coefficient places : Nat} (few : (Nat.toDigits 10 coefficient).length + places ≤ 16) :
    coefficient * 10 ^ (places + 1) < significandLimit := by
  have some : 0 < (Nat.toDigits 10 coefficient).length := Nat.length_toDigits_pos
  have short := (Nat.length_toDigits_le_iff (by decide) some).mp (Nat.le_refl _)
  calc coefficient * 10 ^ (places + 1)
      < 10 ^ (Nat.toDigits 10 coefficient).length * 10 ^ (places + 1) :=
        Nat.mul_lt_mul_of_pos_right short (Nat.pow_pos (by decide))
    _ = 10 ^ ((Nat.toDigits 10 coefficient).length + (places + 1)) := (Nat.pow_add ..).symm
    _ ≤ 10 ^ 17 := Nat.pow_le_pow_right (by decide) (by omega)
    _ < significandLimit := by decide

section Positional

variable {negative : Bool} {coefficient : Nat} {rest : List Char}

/-- All digits stand before the point, and zeros fill up what is missing there. -/
theorem readNumber_whole (positive : 0 < coefficient) {places : Nat}
    (fits : coefficient * 10 ^ (places + 1) < significandLimit) (ends : EndsNumeral rest) :
    readNumber (signText negative ++ (Nat.toDigits 10 coefficient ++ List.replicate places '0') ++ '.' :: '0' :: rest) =
      realNumber negative (coefficient * 10 ^ (places + 1)) (-1) rest := by
  have value : Nat.ofDigitChars 10 (Nat.toDigits 10 coefficient ++ List.replicate places '0' ++ ['0']) 0 =
      coefficient * 10 ^ (places + 1) := by
    rw [Nat.ofDigitChars_append, Nat.ofDigitChars_append, Nat.ofDigitChars_ten_toDigits,
      Nat.ofDigitChars_replicate_zero, Nat.pow_succ]
    simp only [Nat.ofDigitChars_cons, Nat.ofDigitChars_nil]
    rw [Nat.sub_self, Nat.add_zero]
    ring
  have read := @readNumber_point negative (Nat.toDigits 10 coefficient ++ List.replicate places '0') ['0'] rest
    (leads_append positive (isDigit_zeros places)) (by simp) isDigit_zero ends.digits (by rwa [value])
  rwa [value, endFraction_end ends] at read

/-- The point stands between the digits. -/
theorem readNumber_between (positive : 0 < coefficient) (word : coefficient < 2 ^ 64) {count : Nat} (some : 0 < count)
    (inside : count < (Nat.toDigits 10 coefficient).length) (ends : EndsNumeral rest) :
    readNumber (signText negative ++ (Nat.toDigits 10 coefficient).take count ++
        '.' :: ((Nat.toDigits 10 coefficient).drop count ++ rest)) =
      realNumber negative coefficient (count - (Nat.toDigits 10 coefficient).length) rest := by
  have later : (Nat.toDigits 10 coefficient).drop count ≠ [] := by simpa using inside
  have read := @readNumber_point negative ((Nat.toDigits 10 coefficient).take count)
    ((Nat.toDigits 10 coefficient).drop count) rest (leads_take positive some) later (isDigit_drop _) ends.digits
    (take_append_drop_fit word _)
  have places : -(((Nat.toDigits 10 coefficient).drop count).length : Int) =
      count - (Nat.toDigits 10 coefficient).length := by
    rw [List.length_drop]
    omega
  rwa [List.take_append_drop, Nat.ofDigitChars_ten_toDigits, endFraction_end ends, places] at read

/-- All digits stand behind the point, and zeros come first. -/
theorem readNumber_behind (word : coefficient < 2 ^ 64) (count : Nat) (ends : EndsNumeral rest) :
    readNumber (signText negative ++ ['0'] ++
        '.' :: ((List.replicate count '0' ++ Nat.toDigits 10 coefficient) ++ rest)) =
      realNumber negative coefficient (-(count + (Nat.toDigits 10 coefficient).length : Nat)) rest := by
  have value : Nat.ofDigitChars 10 (['0'] ++ (List.replicate count '0' ++ Nat.toDigits 10 coefficient)) 0 =
      coefficient := by
    rw [Nat.ofDigitChars_append, Nat.ofDigitChars_append, Nat.ofDigitChars_cons, Nat.ofDigitChars_nil,
      Nat.ofDigitChars_replicate_zero, Nat.sub_self, Nat.mul_zero, Nat.ofDigitChars_ten_toDigits]
  have read := @readNumber_point negative ['0'] (List.replicate count '0' ++ Nat.toDigits 10 coefficient) rest
    ⟨by simp, isDigit_zero, fun _ => rfl⟩ (by simp)
    (List.forall_mem_append.mpr ⟨isDigit_zeros _, fun _ => isDigit_toDigits⟩) ends.digits (by rw [value]; exact word)
  rwa [value, endFraction_end ends, List.length_append, List.length_replicate] at read

end Positional

/-- The reader finds the numeral that was written, whatever follows it. -/
theorem readNumber_documentText {negative : Bool} {coefficient : Nat} (positive : 0 < coefficient)
    (word : coefficient < 2 ^ 64) {exponent : Int} (few : exponent.natAbs < 2 ^ 30) {rest : List Char}
    (ends : EndsNumeral rest) :
    readNumber (signText negative ++ ((Decimal.documentText coefficient exponent).toList ++ rest)) =
      realNumber negative (numeral coefficient exponent).1 (numeral coefficient exponent).2 rest := by
  obtain ⟨scientific, same⟩ :
    ∃ scientific, scientific = exponent + ((Nat.toDigits 10 coefficient).length - 1 : Nat) := ⟨_, rfl⟩
  have length : (Nat.toDigits 10 coefficient).length ≤ 20 :=
    (Nat.length_toDigits_le_iff (by decide) (by decide)).mpr (Nat.lt_trans word (by decide))
  have some : 0 < (Nat.toDigits 10 coefficient).length := Nat.length_toDigits_pos
  simp only [Decimal.documentText, numeral, ← same, Decimal.leastPositional, Decimal.greatestPositional]
  by_cases positional : -5 ≤ scientific ∧ scientific ≤ 15
  · rw [if_pos positional]
    by_cases whole : 0 ≤ exponent
    · obtain ⟨places, rfl⟩ := Int.eq_ofNat_of_zero_le whole
      have read := @readNumber_whole negative coefficient rest positive places (whole_fits (by omega)) ends
      rw [if_pos whole, if_pos ⟨whole, positional.2⟩]
      simpa [Decimal.zeros] using read
    · have fraction : ¬ (0 ≤ exponent ∧ scientific ≤ 15) := by omega
      rw [if_neg whole, if_neg fraction]
      split
      · next front =>
        have read := @readNumber_between negative coefficient rest positive word (scientific.toNat + 1)
          (Nat.succ_pos _) (by omega) ends
        have places : ((scientific.toNat + 1 : Nat) : Int) - (Nat.toDigits 10 coefficient).length = exponent := by omega
        rw [places] at read
        simpa using read
      · next behind =>
        have read := @readNumber_behind negative coefficient rest word (-scientific - 1).toNat ends
        have places : -(((-scientific - 1).toNat + (Nat.toDigits 10 coefficient).length : Nat) : Int) = exponent := by
          omega
        rw [places] at read
        simpa [Decimal.zeros] using read
  · have scaled : ¬ (0 ≤ exponent ∧ scientific ≤ 15) := by omega
    have read := @readNumber_scientific negative coefficient positive word exponent scientific same (by omega) rest
      ends.digits
    rw [if_neg positional, if_neg scaled]
    dsimp only at read ⊢
    rw [← read]
    congr 1
    split <;> split <;> simp_all

def numeralOf (rank : Nat) : Nat × Int :=
  if rank = 0 then (0, -1) else numeral (decimal rank).1 (decimal rank).2

theorem readNumber_finite (x : Binary64.Finite) {rest : List Char} (ends : EndsNumeral rest) :
    readNumber (x.documentText.toList ++ rest) =
      realNumber x.negative (numeralOf x.rank).1 (numeralOf x.rank).2 rest := by
  have signed : ∀ unsigned : String, (if x.negative then "-" ++ unsigned else unsigned).toList =
      signText x.negative ++ unsigned.toList := by
    intro unsigned
    cases x.negative <;> simp [signText]
  rw [Binary64.Finite.documentText, signed, List.append_assoc, numeralOf]
  by_cases zero : x.rank = 0
  · rw [if_pos zero, if_pos zero]
    have read := @readNumber_point x.negative ['0'] ['0'] rest ⟨by simp, isDigit_zero, fun _ => rfl⟩ (by simp)
      isDigit_zero ends.digits (by decide)
    rw [endFraction_end ends, show Nat.ofDigitChars 10 (['0'] ++ ['0']) 0 = 0 from rfl] at read
    simpa using read
  · obtain ⟨least, greatest⟩ := decimal_exponent zero x.rank_lt
    have few : (decimal x.rank).2.natAbs < 2 ^ 30 := by omega
    rw [if_neg zero, if_neg zero]
    exact readNumber_documentText (decimal_pos zero x.rank_lt) (decimal_lt zero x.rank_lt) few ends

end SpellPack.Proofs.WrittenNumerals
