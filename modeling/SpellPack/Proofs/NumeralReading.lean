import SpellPack.Json.Numeral
import SpellPack.Json.Text

/-! Reading a number where it stands in a document is reading it alone: what follows
the numeral only has to end it. Integers of 64 bits are read exactly; of doubles it is
a property of the single number whether its text reads back. -/

namespace SpellPack.Proofs.NumeralReading
open Json

/-- What may follow a numeral: anything that neither continues nor extends it. -/
def EndsNumeral (rest : List Char) : Prop :=
  ∀ c ∈ rest.head?, c.isDigit = false ∧ c ≠ '.' ∧ c ≠ 'e' ∧ c ≠ 'E'

theorem endsNumeral_nil : EndsNumeral [] := by simp [EndsNumeral]

/-- The reader takes this text, whatever follows it, and gives the value. -/
def ReadsAs (reader : Reader α) (text : List Char) (value : α) : Prop :=
  ∀ rest, EndsNumeral rest → reader (text ++ rest) = .ok (value, rest)

/-- Whatever the reader takes could be followed by any other end of a numeral. -/
def Local (reader : Reader α) : Prop :=
  ∀ text value rest, reader text = .ok (value, rest) →
    ∃ taken, text = taken ++ rest ∧ ReadsAs reader taken value

def EndsDigits (rest : List Char) : Prop := ∀ c ∈ rest.head?, c.isDigit = false

theorem EndsNumeral.digits {rest : List Char} (ends : EndsNumeral rest) : EndsDigits rest :=
  fun c first => (ends c first).1

theorem takeWhile_digits {digits rest : List Char} (all : ∀ c ∈ digits, c.isDigit = true)
    (ends : EndsDigits rest) : (digits ++ rest).takeWhile Char.isDigit = digits := by
  rw [List.takeWhile_append_of_pos all]
  cases rest with
  | nil => simp
  | cons c later => simp [ends c (by simp)]

theorem dropWhile_digits {digits rest : List Char} (all : ∀ c ∈ digits, c.isDigit = true)
    (ends : EndsDigits rest) : (digits ++ rest).dropWhile Char.isDigit = rest := by
  rw [List.dropWhile_append_of_pos all]
  cases rest with
  | nil => simp
  | cons c later => simp [ends c (by simp)]

theorem splitDigits (text : List Char) :
    ∃ digits rest, text = digits ++ rest ∧ (∀ c ∈ digits, c.isDigit = true) ∧ EndsDigits rest := by
  refine ⟨text.takeWhile Char.isDigit, text.dropWhile Char.isDigit,
    List.takeWhile_append_dropWhile.symm, ?_, ?_⟩
  · exact List.all_eq_true.mp List.all_takeWhile
  · intro c first
    have stopped := List.head?_dropWhile_not Char.isDigit text
    rw [Option.mem_def.mp first] at stopped
    simpa using stopped

/-- A reader that hands on what stands behind a character is local if the other one is. -/
theorem Local.behindChar {tail : Reader α} (inner : Local tail) {whole : Reader α} {c : Char}
    (step : ∀ rest, whole (c :: rest) = tail rest) {text value rest}
    (read : whole (c :: text) = .ok (value, rest)) :
    ∃ taken, c :: text = taken ++ rest ∧ ReadsAs whole taken value := by
  obtain ⟨taken, same, reads⟩ := inner text value rest (by rw [← step, read])
  refine ⟨c :: taken, by rw [same, List.cons_append], fun other ends => ?_⟩
  rw [List.cons_append, step]
  exact reads other ends

/-- So is a reader that hands on what stands behind some digits. -/
theorem Local.behindDigits {tail : Reader α} (inner : Local tail) {whole : Reader α} {start : List Char}
    (step : ∀ rest, EndsDigits rest → whole (start ++ rest) = tail rest) {text value rest}
    (ends : EndsDigits text) (read : whole (start ++ text) = .ok (value, rest)) :
    ∃ taken, start ++ text = taken ++ rest ∧ ReadsAs whole taken value := by
  obtain ⟨taken, same, reads⟩ := inner text value rest (by rw [← step text ends, read])
  refine ⟨start ++ taken, by rw [same, List.append_assoc], fun other endsOther => ?_⟩
  have stops : EndsDigits (taken ++ other) := by
    cases taken with
    | nil => exact endsOther.digits
    | cons c later =>
      intro first head
      exact ends first (by simpa [same] using head)
  rw [List.append_assoc, step _ stops]
  exact reads other endsOther

theorem realNumber_ok {negative significand exponent text number rest}
    (read : realNumber negative significand exponent text = .ok (number, rest)) :
    rest = text ∧ (∃ value, number = .real value) ∧
      ∀ other, realNumber negative significand exponent other = .ok (number, other) := by
  cases scaled : scale? negative significand exponent with
  | none => simp [realNumber, scaled] at read
  | some value =>
    simp only [realNumber, scaled, Except.ok.injEq, Prod.mk.injEq] at read
    obtain ⟨rfl, rfl⟩ := read
    exact ⟨rfl, ⟨value, rfl⟩, fun other => by simp [realNumber, scaled]⟩

theorem realNumber_local (negative : Bool) (significand : Nat) (exponent : Int) :
    Local (realNumber negative significand exponent) := by
  intro text number rest read
  obtain ⟨rfl, _, reads⟩ := realNumber_ok read
  exact ⟨[], rfl, fun other _ => reads other⟩

theorem readSign_digit {digit : Char} (isDigit : digit.isDigit = true) (later : List Char) :
    Decimal.readSign (digit :: later) = (false, digit :: later) := by
  unfold Decimal.readSign
  split
  · next same => cases same; exact absurd isDigit (by decide)
  · next same => cases same; exact absurd isDigit (by decide)
  · rfl

/-- A sign is split off the same way whatever digits follow it. -/
theorem readSign_split (text : List Char) :
    ∃ sign below unsigned, text = sign ++ unsigned ∧ Decimal.readSign text = (below, unsigned) ∧
      ∀ digit later, digit.isDigit = true →
        Decimal.readSign (sign ++ digit :: later) = (below, digit :: later) := by
  unfold Decimal.readSign
  split
  · next rest => exact ⟨['-'], true, rest, rfl, rfl, fun digit later _ => rfl⟩
  · next rest => exact ⟨['+'], false, rest, rfl, rfl, fun digit later _ => rfl⟩
  · exact ⟨[], false, text, rfl, rfl, fun digit later isDigit => readSign_digit isDigit later⟩

def scaledBy (negative : Bool) (significand : Nat) (places : Int) (below : Bool) (digits : List Char) :
    Reader Number := fun rest =>
  match absorb exponentLimit 0 digits with
  | (exponent, []) =>
    realNumber negative significand (if below then places - exponent else places + exponent) rest
  | (_, _ :: excess) =>
    if significand ≠ 0 ∧ !below then .error (.after .numberOutOfRange (excess ++ rest))
    else realNumber negative 0 0 rest

theorem readExponent_digits {negative significand places sign below digit later rest}
    (signed : Decimal.readSign (sign ++ digit :: (later ++ rest)) = (below, digit :: (later ++ rest)))
    (all : ∀ c ∈ digit :: later, c.isDigit = true) (ends : EndsDigits rest) :
    readExponent negative significand places (sign ++ digit :: (later ++ rest)) =
      scaledBy negative significand places below (digit :: later) rest := by
  have front := takeWhile_digits all ends
  have back := dropWhile_digits all ends
  rw [List.cons_append] at front back
  simp only [readExponent, signed, front, back]
  rfl

theorem scaledBy_local (negative : Bool) (significand : Nat) (places : Int) (below : Bool)
    (digits : List Char) : Local (scaledBy negative significand places below digits) := by
  intro text number rest read
  unfold scaledBy at read ⊢
  split at read
  · next exponent absorbed =>
    simpa only [absorbed] using realNumber_local _ _ _ text number rest read
  · next exponent excess absorbed =>
    split at read
    · cases read
    · next bounded =>
      simpa only [absorbed, if_neg bounded] using realNumber_local _ _ _ text number rest read

theorem readExponent_local (negative : Bool) (significand : Nat) (places : Int) :
    Local (readExponent negative significand places) := by
  intro text number rest read
  obtain ⟨sign, below, unsigned, rfl, signed, again⟩ := readSign_split text
  obtain ⟨digits, after, rfl, all, ends⟩ := splitDigits unsigned
  cases digits with
  | nil =>
    simp only [readExponent, signed, takeWhile_digits all ends] at read
    cases after <;> simp at read
  | cons digit later =>
    have step : ∀ other, EndsDigits other →
        readExponent negative significand places (sign ++ digit :: later ++ other) =
          scaledBy negative significand places below (digit :: later) other := by
      intro other endsOther
      rw [List.append_assoc, List.cons_append]
      exact readExponent_digits (again digit (later ++ other) (all digit (by simp))) all endsOther
    rw [← List.append_assoc] at read ⊢
    exact (scaledBy_local negative significand places below (digit :: later)).behindDigits step ends read

theorem readExponent_real {negative significand places text number rest}
    (read : readExponent negative significand places text = .ok (number, rest)) :
    ∃ value, number = .real value := by
  simp only [readExponent] at read
  split at read
  · cases read
  split at read
  · cases read
  split at read
  · exact (realNumber_ok read).2.1
  split at read
  · cases read
  · exact (realNumber_ok read).2.1

def endFraction (negative : Bool) (significand : Nat) (places : Int) : Reader Number
  | 'e' :: rest | 'E' :: rest => readExponent negative significand places rest
  | rest => realNumber negative significand places rest

theorem endFraction_end {negative significand places rest} (ends : EndsNumeral rest) :
    endFraction negative significand places rest = realNumber negative significand places rest := by
  unfold endFraction
  split
  · exact absurd rfl (ends _ rfl).2.2.1
  · exact absurd rfl (ends _ rfl).2.2.2
  · rfl

theorem endFraction_local (negative : Bool) (significand : Nat) (places : Int) :
    Local (endFraction negative significand places) := by
  intro text number rest read
  have inner := readExponent_local negative significand places
  unfold endFraction at read
  split at read
  · exact inner.behindChar (c := 'e') (fun _ => rfl) read
  · exact inner.behindChar (c := 'E') (fun _ => rfl) read
  · obtain ⟨rfl, _, reads⟩ := realNumber_ok read
    exact ⟨[], rfl, fun other ends => (endFraction_end ends).trans (reads other)⟩

theorem endFraction_real {negative significand places text number rest}
    (read : endFraction negative significand places text = .ok (number, rest)) :
    ∃ value, number = .real value := by
  unfold endFraction at read
  split at read
  · exact readExponent_real read
  · exact readExponent_real read
  · exact (realNumber_ok read).2.1

theorem readFraction_digits {negative significand places digits rest}
    (some : digits ≠ []) (all : ∀ c ∈ digits, c.isDigit = true) (ends : EndsDigits rest) :
    readFraction negative significand places (digits ++ rest) =
      endFraction negative (absorb significandLimit significand digits).1
        (places - (digits.length - (absorb significandLimit significand digits).2.length : Nat)) rest := by
  simp only [readFraction, takeWhile_digits all ends, dropWhile_digits all ends, List.isEmpty_iff, some,
    if_false]
  rfl

theorem readFraction_local (negative : Bool) (significand : Nat) (places : Int) :
    Local (readFraction negative significand places) := by
  intro text number rest read
  obtain ⟨digits, after, rfl, all, ends⟩ := splitDigits text
  by_cases some : digits = []
  · simp only [readFraction, takeWhile_digits all ends] at read
    simp [some] at read
  · exact (endFraction_local _ _ _).behindDigits (fun other => readFraction_digits some all) ends read

theorem readFraction_real {negative significand places text number rest}
    (read : readFraction negative significand places text = .ok (number, rest)) :
    ∃ value, number = .real value := by
  obtain ⟨digits, after, rfl, all, ends⟩ := splitDigits text
  by_cases some : digits = []
  · simp only [readFraction, takeWhile_digits all ends] at read
    simp [some] at read
  · rw [readFraction_digits some all ends] at read
    exact endFraction_real read

/-- A numeral that is over after its digits, of which `excess` did not fit. -/
def wholeOrReal (negative : Bool) (significand : Nat) (excess : List Char) : Reader Number := fun rest =>
  if excess.isEmpty then
    match wholeNumber? negative significand with
    | some number => .ok (number, rest)
    | none => .error (.after .numberOutOfRange rest)
  else realNumber negative significand excess.length rest

def endDigits (negative : Bool) (significand : Nat) (excess : List Char) : Reader Number
  | '.' :: rest => readFraction negative significand excess.length rest
  | 'e' :: rest | 'E' :: rest => readExponent negative significand excess.length rest
  | rest => wholeOrReal negative significand excess rest

theorem endDigits_end {negative significand excess rest} (ends : EndsNumeral rest) :
    endDigits negative significand excess rest = wholeOrReal negative significand excess rest := by
  unfold endDigits
  split
  · exact absurd rfl (ends _ rfl).2.1
  · exact absurd rfl (ends _ rfl).2.2.1
  · exact absurd rfl (ends _ rfl).2.2.2
  · rfl

theorem wholeOrReal_ok {negative significand excess text number rest}
    (read : wholeOrReal negative significand excess text = .ok (number, rest)) :
    rest = text ∧ ∀ other, wholeOrReal negative significand excess other = .ok (number, other) := by
  unfold wholeOrReal at read ⊢
  split at read
  · next fits =>
    cases whole : wholeNumber? negative significand with
    | none => simp [whole] at read
    | some value =>
      simp only [whole, Except.ok.injEq, Prod.mk.injEq] at read
      obtain ⟨rfl, rfl⟩ := read
      exact ⟨rfl, fun other => by simp [fits]⟩
  · next exceeds =>
    obtain ⟨done, _, reads⟩ := realNumber_ok read
    exact ⟨done, fun other => by simpa only [if_neg exceeds] using reads other⟩

theorem endDigits_local (negative : Bool) (significand : Nat) (excess : List Char) :
    Local (endDigits negative significand excess) := by
  intro text number rest read
  unfold endDigits at read
  split at read
  · exact (readFraction_local _ _ _).behindChar (c := '.') (fun _ => rfl) read
  · exact (readExponent_local _ _ _).behindChar (c := 'e') (fun _ => rfl) read
  · exact (readExponent_local _ _ _).behindChar (c := 'E') (fun _ => rfl) read
  · obtain ⟨rfl, reads⟩ := wholeOrReal_ok read
    exact ⟨[], rfl, fun other ends => (endDigits_end ends).trans (reads other)⟩

/-- Digits with which a numeral may begin: only a single zero begins with zero. -/
def Leads (digits : List Char) : Prop :=
  digits ≠ [] ∧ (∀ c ∈ digits, c.isDigit = true) ∧ (digits.head? = some '0' → digits = ['0'])

theorem readUnsigned_digits {negative digits rest} (leads : Leads digits) (ends : EndsDigits rest) :
    readUnsigned negative (digits ++ rest) =
      endDigits negative (absorb significandLimit 0 digits).1 (absorb significandLimit 0 digits).2 rest := by
  obtain ⟨some, all, zero⟩ := leads
  simp only [readUnsigned, takeWhile_digits all ends, dropWhile_digits all ends]
  split
  · exact absurd rfl some
  · simp at zero
  · rfl

theorem readUnsigned_ok {negative text number rest}
    (read : readUnsigned negative text = .ok (number, rest)) :
    ∃ digits after, text = digits ++ after ∧ Leads digits ∧ EndsDigits after := by
  obtain ⟨digits, after, rfl, all, ends⟩ := splitDigits text
  simp only [readUnsigned, takeWhile_digits all ends] at read
  refine ⟨digits, after, rfl, ?_, ends⟩
  split at read
  · cases read
  · cases read
  next some single =>
  refine ⟨some, all, fun zero => ?_⟩
  obtain ⟨later, rfl⟩ := List.head?_eq_some_iff.mp zero
  cases later with
  | nil => rfl
  | cons digit later => exact absurd rfl (single digit later)

def signText (negative : Bool) : List Char := if negative then ['-'] else []

theorem readNumber_signed {negative digits rest} (some : digits ≠ [])
    (all : ∀ c ∈ digits, c.isDigit = true) :
    readNumber (signText negative ++ (digits ++ rest)) = readUnsigned negative (digits ++ rest) := by
  cases negative with
  | true => rfl
  | false =>
    obtain ⟨digit, later, rfl⟩ := List.exists_cons_of_ne_nil some
    simp only [signText, Bool.false_eq_true, if_false, List.nil_append, List.cons_append]
    unfold readNumber
    split
    · next same => cases same; exact absurd (all '-' (by simp)) (by decide)
    · rfl

theorem readNumber_digits {negative digits rest} (leads : Leads digits) (ends : EndsDigits rest) :
    readNumber (signText negative ++ digits ++ rest) =
      endDigits negative (absorb significandLimit 0 digits).1 (absorb significandLimit 0 digits).2 rest := by
  rw [List.append_assoc, readNumber_signed leads.1 leads.2.1, readUnsigned_digits leads ends]

theorem readNumber_ok {text number rest} (read : readNumber text = .ok (number, rest)) :
    ∃ negative digits after, text = signText negative ++ digits ++ after ∧ Leads digits ∧ EndsDigits after := by
  unfold readNumber at read
  split at read
  · obtain ⟨digits, after, rfl, leads, ends⟩ := readUnsigned_ok read
    exact ⟨true, digits, after, rfl, leads, ends⟩
  · obtain ⟨digits, after, rfl, leads, ends⟩ := readUnsigned_ok read
    exact ⟨false, digits, after, rfl, leads, ends⟩

theorem readNumber_local : Local readNumber := by
  intro text number rest read
  obtain ⟨negative, digits, after, rfl, leads, ends⟩ := readNumber_ok read
  exact (endDigits_local _ _ _).behindDigits (fun other => readNumber_digits leads) ends read

end SpellPack.Proofs.NumeralReading
