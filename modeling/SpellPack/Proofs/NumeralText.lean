import Mathlib.Algebra.Group.Nat.Defs
import Mathlib.Algebra.Ring.Int.Defs
import SpellPack.Json.Reader
import SpellPack.Proofs.NumeralReading

/-! Written numbers are read back: integers of 64 bits always, a double whenever its
own text reads back. The text of a double has a point or an exponent, so it is never
taken for an integer. -/

namespace SpellPack.Proofs.NumeralText
open Json NumeralReading

theorem le_ofDigitChars (digits : List Char) (start : Nat) : start ≤ Nat.ofDigitChars 10 digits start := by
  induction digits generalizing start with
  | nil => simp
  | cons digit later ih =>
    rw [Nat.ofDigitChars_cons]
    exact Nat.le_trans (by omega) (ih _)

theorem absorb_eq {limit start : Nat} {digits : List Char}
    (fits : Nat.ofDigitChars 10 digits start < limit) :
    absorb limit start digits = (Nat.ofDigitChars 10 digits start, []) := by
  induction digits generalizing start with
  | nil => simp [absorb]
  | cons digit later ih =>
    have split : Nat.ofDigitChars 10 (digit :: later) start =
        Nat.ofDigitChars 10 later (Nat.ofDigitChars 10 [digit] start) := by
      simp [Nat.ofDigitChars_cons]
    rw [split] at fits ⊢
    have within := Nat.lt_of_le_of_lt (le_ofDigitChars later _) fits
    simp only [absorb, if_pos within]
    exact ih fits

theorem leads_toDigits (n : Nat) : Leads (Nat.toDigits 10 n) := by
  refine ⟨Nat.toDigits_ne_nil, fun c => Nat.isDigit_of_mem_toDigits (by decide) (by decide), ?_⟩
  induction n using Nat.strongRecOn with
  | ind n ih =>
    intro zero
    by_cases small : n < 10
    · rw [Nat.toDigits_of_lt_base small] at zero ⊢
      simpa using zero
    · have tens : 10 ≤ n := Nat.le_of_not_lt small
      obtain ⟨first, later, digits⟩ := List.exists_cons_of_ne_nil (@Nat.toDigits_ne_nil (n / 10) 10)
      rw [Nat.toDigits_of_base_le (by decide) tens, digits] at zero
      have none := ih (n / 10) (by omega) (by simpa [digits] using zero)
      have value : Nat.ofDigitChars 10 ['0'] 0 = n / 10 := none ▸ Nat.ofDigitChars_ten_toDigits
      have nothing : n / 10 = 0 := value.symm
      omega

theorem readNumber_integer {negative : Bool} {n : Nat} {number : Number} (word : n < UInt64.size)
    (whole : wholeNumber? negative n = some number) :
    ReadsAs readNumber (signText negative ++ Nat.toDigits 10 n) number := by
  intro rest ends
  rw [readNumber_digits (leads_toDigits n) ends.digits, endDigits_end ends,
    absorb_eq (by rw [Nat.ofDigitChars_ten_toDigits]; exact word), Nat.ofDigitChars_ten_toDigits]
  simp [wholeOrReal, whole]

/-- Every integer of 64 bits, with or without sign, is read as it was written. -/
theorem integer_readsAs {value : Int} (least : -(2 ^ 63) ≤ value) (greatest : value < 2 ^ 64) :
    ReadsAs readNumber (Number.text (.integer value)).toList (.integer value) := by
  cases value with
  | ofNat n =>
    have word : n < UInt64.size := by
      simp only [Int.ofNat_eq_natCast] at greatest
      simp only [UInt64.size]
      omega
    have read := @readNumber_integer false n (.integer n) word rfl
    simpa [Number.text, signText, toString, Int.repr] using read
  | negSucc n =>
    have whole : wholeNumber? true (n + 1) = some (.integer (-(n + 1 : Nat))) := by
      simp only [wholeNumber?, Bool.not_true, Bool.false_eq_true, if_false]
      rw [if_pos ⟨by omega, by simp; omega⟩]
    have word : n + 1 < UInt64.size := by
      simp only [UInt64.size]
      omega
    have read := readNumber_integer word whole
    have text : (Number.text (.integer (Int.negSucc n))).toList = signText true ++ Nat.toDigits 10 (n + 1) := by
      simp [Number.text, signText, toString, Int.repr]
    rw [text]
    exact read

def WritesReal (text : List Char) : Prop :=
  ∃ digits mark tail, text = digits ++ mark :: tail ∧ digits ≠ [] ∧ (∀ c ∈ digits, c.isDigit = true) ∧
    (mark = '.' ∨ mark = 'e') ∧ ∀ c ∈ tail, isSpace c = false

theorem isSpace_digit {c : Char} (digit : c.isDigit = true) : isSpace c = false := by
  cases space : isSpace c with
  | false => rfl
  | true =>
    simp only [isSpace, Bool.or_eq_true, beq_iff_eq] at space
    rcases space with ((rfl | rfl) | rfl) | rfl <;> exact absurd digit (by decide)

theorem isDigit_zero : ∀ c ∈ ['0'], c.isDigit = true := List.forall_mem_singleton.mpr rfl

theorem isDigit_zeros (count : Nat) : ∀ c ∈ List.replicate count '0', c.isDigit = true :=
  fun _ member => isDigit_zero _ (List.mem_singleton.mpr (List.eq_of_mem_replicate member))

theorem isSpace_zero : ∀ c ∈ ['0'], isSpace c = false := List.forall_mem_singleton.mpr rfl

theorem isDigit_toDigits {n : Nat} {c : Char} (member : c ∈ Nat.toDigits 10 n) : c.isDigit = true :=
  Nat.isDigit_of_mem_toDigits (by decide) (by decide) member

private theorem digit_zeros {count : Nat} {c : Char} (member : c ∈ (Decimal.zeros count).toList) :
    c.isDigit = true := by
  rw [Decimal.zeros, String.toList_ofList] at member
  exact isDigit_zeros count c member

private theorem noSpace_exponent (below : Prop) [Decidable below] (n : Nat) :
    ∀ c ∈ (if below then "-" else "+").toList ++ Nat.toDigits 10 n, isSpace c = false := by
  intro c member
  rcases List.mem_append.mp member with sign | digit
  · split at sign <;> simp at sign <;> subst sign <;> decide
  · exact isSpace_digit (isDigit_toDigits digit)

private theorem writesReal_scientific {lead rest : List Char} (some : lead ≠ [])
    (digits : ∀ c ∈ lead, c.isDigit = true) (more : ∀ c ∈ rest, c.isDigit = true)
    (below : Prop) [Decidable below] (n : Nat) :
    WritesReal ((if rest.isEmpty then String.ofList lead else String.ofList lead ++ "." ++ String.ofList rest) ++
      "e" ++ (if below then "-" else "+") ++ toString n).toList := by
  have spaceless := noSpace_exponent below n
  cases rest with
  | nil =>
    refine ⟨lead, 'e', _, ?_, some, digits, .inr rfl, spaceless⟩
    simp
  | cons digit later =>
    refine ⟨lead, '.', digit :: later ++ 'e' :: ((if below then "-" else "+").toList ++ Nat.toDigits 10 n),
      ?_, some, digits, .inl rfl, ?_⟩
    · simp
    · intro c member
      rcases List.mem_append.mp member with inside | behind
      · exact isSpace_digit (more c inside)
      · rcases List.mem_cons.mp behind with rfl | inside
        · decide
        · exact spaceless c inside

theorem writesReal_documentText (coefficient : Nat) (exponent : Int) :
    WritesReal (Decimal.documentText coefficient exponent).toList := by
  have front : ∀ count, 0 < count → (Nat.toDigits 10 coefficient).take count ≠ [] := by
    intro count positive none
    rcases List.take_eq_nil_iff.mp none with zero | empty
    · omega
    · exact Nat.toDigits_ne_nil empty
  have inFront : ∀ count, ∀ c ∈ (Nat.toDigits 10 coefficient).take count, c.isDigit = true :=
    fun count c member => isDigit_toDigits (List.mem_of_mem_take member)
  have behind : ∀ count, ∀ c ∈ (Nat.toDigits 10 coefficient).drop count, c.isDigit = true :=
    fun count c member => isDigit_toDigits (List.mem_of_mem_drop member)
  simp only [Decimal.documentText]
  split
  · split
    · refine ⟨Nat.toDigits 10 coefficient ++ (Decimal.zeros exponent.toNat).toList, '.', ['0'],
        by simp, by simp, ?_, .inl rfl, isSpace_zero⟩
      intro c member
      rcases List.mem_append.mp member with inside | inside
      · exact isDigit_toDigits inside
      · exact digit_zeros inside
    split
    · exact ⟨_, '.', _, by simp; rfl, front _ (by omega), inFront _, .inl rfl,
        fun c member => isSpace_digit (behind _ c member)⟩
    · refine ⟨['0'], '.', _, by simp; rfl, by simp, isDigit_zero, .inl rfl, ?_⟩
      intro c member
      rcases List.mem_append.mp member with inside | inside
      · exact isSpace_digit (digit_zeros inside)
      · exact isSpace_digit (isDigit_toDigits inside)
  · exact writesReal_scientific (front 1 (by decide)) (inFront 1) (behind 1) _ _

/-- The text of a double is its sign and a numeral that reading takes for a double. -/
theorem toList_documentText (x : Binary64.Finite) :
    ∃ unsigned, x.documentText.toList = signText x.negative ++ unsigned ∧ WritesReal unsigned := by
  have zero : WritesReal "0.0".toList :=
    ⟨['0'], '.', ['0'], rfl, by simp, isDigit_zero, .inl rfl, isSpace_zero⟩
  have unsigned : ∃ text, x.documentText = (if x.negative then "-" ++ text else text) ∧ WritesReal text.toList := by
    refine ⟨_, rfl, ?_⟩
    split
    · exact zero
    · exact writesReal_documentText _ _
  obtain ⟨text, same, writes⟩ := unsigned
  refine ⟨text.toList, ?_, writes⟩
  rw [same]
  cases x.negative <;> simp [signText]

theorem readNumber_real {negative text number rest} (writes : WritesReal text)
    (read : readNumber (signText negative ++ text) = .ok (number, rest)) : ∃ value, number = .real value := by
  obtain ⟨digits, mark, tail, rfl, some, all, marked, _⟩ := writes
  have ends : EndsDigits (mark :: tail) := by
    intro c first
    cases first
    rcases marked with rfl | rfl <;> decide
  rw [readNumber_signed some all] at read
  simp only [readUnsigned, takeWhile_digits all ends, dropWhile_digits all ends] at read
  split at read
  · cases read
  · cases read
  · rcases marked with rfl | rfl
    · exact readFraction_real read
    · exact readExponent_real read

end SpellPack.Proofs.NumeralText
