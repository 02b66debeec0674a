import SpellPack.Json.Quoted
import SpellPack.Json.Text

/-! Quoting and reading a string are inverse. Every escape is undone character by
character, so the text may hold anything. -/

namespace SpellPack.Proofs.QuotedText
open Json

private theorem hexUnit_of_control : ∀ code < 0x20,
    hexUnit? '0' '0' (Nat.digitChar (code / 16)) (Nat.digitChar (code % 16)) = some code := by
  decide

private theorem readEscape_unicode (c : Char) (control : c.toNat < 0x20) (rest : List Char) :
    readEscape ('u' :: '0' :: '0' :: Nat.digitChar (c.toNat / 16) :: Nat.digitChar (c.toNat % 16) :: rest) =
      .ok (c, rest) := by
  have unit := hexUnit_of_control c.toNat control
  have plain : isTrailing c.toNat = false ∧ isLeading c.toNat = false := by
    simp only [isTrailing, isLeading, Bool.and_eq_false_iff, decide_eq_false_iff_not]
    omega
  simp [readEscape, readUnit, unit, plain]

/-- A character is written as itself or behind a backslash, and then read back. -/
theorem escapeChar_cases (c : Char) :
    (escapeChar c = [c] ∧ c ≠ '"' ∧ c ≠ '\\' ∧ ¬ c.toNat < 0x20) ∨
      ∃ code, escapeChar c = '\\' :: code ∧ ∀ rest, readEscape (code ++ rest) = .ok (c, rest) := by
  unfold escapeChar
  split
  · next same => exact .inr ⟨['"'], rfl, fun rest => by simp [readEscape, same]⟩
  split
  · next same => exact .inr ⟨['\\'], rfl, fun rest => by simp [readEscape, same]⟩
  split
  · next same => exact .inr ⟨['b'], rfl, fun rest => by simp [readEscape, same]⟩
  split
  · next same => exact .inr ⟨['t'], rfl, fun rest => by simp [readEscape, same]⟩
  split
  · next same => exact .inr ⟨['n'], rfl, fun rest => by simp [readEscape, same]⟩
  split
  · next same => exact .inr ⟨['f'], rfl, fun rest => by simp [readEscape, same]⟩
  split
  · next same => exact .inr ⟨['r'], rfl, fun rest => by simp [readEscape, same]⟩
  split
  · next control => exact .inr ⟨_, rfl, fun rest => readEscape_unicode c control rest⟩
  · next quote slash _ _ _ _ _ printable => exact .inl ⟨rfl, quote, slash, printable⟩

theorem readChars_escaped (text rest : List Char) {size : Nat} (fits : text.length ≤ size) :
    readChars size (text.flatMap escapeChar ++ '"' :: rest) = .ok (text, rest) := by
  induction text generalizing size with
  | nil => cases size <;> simp [readChars]
  | cons c later ih =>
    obtain ⟨size, rfl⟩ : ∃ smaller, size = smaller + 1 := Nat.exists_eq_succ_of_ne_zero (by
      intro empty
      simp [empty] at fits)
    have read := @ih size (by simpa using fits)
    rcases escapeChar_cases c with ⟨same, quote, slash, printable⟩ | ⟨code, same, escape⟩
    · simp [same, readChars, printable, read]
    · simp [same, readChars, escape, read]

theorem toList_quote (text : String) :
    (quote text).toList = '"' :: text.toList.flatMap escapeChar ++ ['"'] := by
  simp [quote]

theorem readString_quoted (text : String) (rest : List Char) {size : Nat}
    (fits : text.toList.length ≤ size) :
    readString size (text.toList.flatMap escapeChar ++ '"' :: rest) = .ok (text, rest) := by
  simp [readString, readChars_escaped text.toList rest fits]

theorem quote_injective {a b : String} (same : quote a = quote b) : a = b := by
  have chars := congrArg String.toList same
  simp only [toList_quote, List.cons_append, List.cons.injEq, true_and] at chars
  have first := readChars_escaped a.toList [] (Nat.le_max_left _ b.toList.length)
  have second := readChars_escaped b.toList [] (Nat.le_max_right a.toList.length _)
  simp only [chars, second, Except.ok.injEq, Prod.mk.injEq, and_true] at first
  exact (String.toList_inj.mp first).symm

def isLow (c : Char) : Bool := c.toNat < 0x20

private theorem low_unit : ∀ code < 0x20,
    ['\\', 'u', '0', '0', Nat.digitChar (code / 16), Nat.digitChar (code % 16)].any isLow = false := by
  decide

theorem low_escapeChar (c : Char) : (escapeChar c).any isLow = false := by
  unfold escapeChar
  iterate 7 (split; · rfl)
  split
  · next control => exact low_unit c.toNat control
  · next printable => simpa [isLow] using printable

/-- A quoted text stands on one line whatever it holds. -/
theorem not_mem_quote {c : Char} (low : isLow c = true) (text : String) : c ∉ (quote text).toList := by
  have printable : (quote text).toList.any isLow = false := by
    rw [toList_quote, List.any_append, List.any_cons, List.any_flatMap]
    simp only [low_escapeChar]
    simp [isLow]
  intro member
  rw [List.any_eq_true.mpr ⟨c, member, low⟩] at printable
  cases printable

end SpellPack.Proofs.QuotedText
