import Mathlib.Data.List.Forall2
import SpellPack.Proofs.NumeralText
import SpellPack.Proofs.QuotedText

/-! The indented form of a value is read back as that value, but for its numbers, of which
each is read as it would be alone. The conditions are those of the format: an object
names each field once, and brackets are not nested too deep. -/

namespace SpellPack.Proofs.ValueReading
open Json NumeralReading NumeralText QuotedText

theorem skipSpace_cons {c : Char} (solid : isSpace c = false) (rest : List Char) :
    skipSpace (c :: rest) = c :: rest := by
  simp [skipSpace, solid]

theorem skipSpace_append {gap : List Char} (blank : ∀ c ∈ gap, isSpace c = true) (rest : List Char) :
    skipSpace (gap ++ rest) = skipSpace rest :=
  List.dropWhile_append_of_pos blank

theorem starts_numeral {c : Char} (starts : c = '-' ∨ c.isDigit = true) :
    isSpace c = false ∧ c ≠ 'n' ∧ c ≠ 't' ∧ c ≠ 'f' ∧ c ≠ '"' ∧ c ≠ '[' ∧ c ≠ '{' ∧ c ≠ ']' := by
  rcases starts with rfl | digit
  · decide
  · refine ⟨isSpace_digit digit, ?_⟩
    refine ⟨?_, ?_, ?_, ?_, ?_, ?_, ?_⟩ <;> rintro rfl <;> exact absurd digit (by decide)

theorem readValue_number {size depth : Nat} {c : Char} {rest : List Char}
    (starts : c = '-' ∨ c.isDigit = true) :
    readValue size depth (c :: rest) =
      (do let (value, rest) ← readNumber (c :: rest); pure (.number value, rest)) := by
  obtain ⟨solid, n, t, f, quoted, list, object, _⟩ := starts_numeral starts
  have numeral : (c == '-' || c.isDigit) = true := by simpa using starts
  rw [readValue]
  simp [skipSpace_cons solid, numeral]

/-- Alone, the written number is read as the number that it was. -/
def ReadsBack (x : Binary64.Finite) : Prop :=
  ∃ number, Value.ofText x.documentText = .ok (.number number) ∧ number.toBinary64 = .finite x

def readsBack (x : Binary64.Finite) : Bool :=
  match Value.ofText x.documentText with
  | .ok (.number number) => number.toBinary64 == .finite x
  | _ => false

theorem readsBack_iff {x : Binary64.Finite} : readsBack x = true ↔ ReadsBack x := by
  unfold readsBack ReadsBack
  split
  · next number read => simp [read]
  · next other =>
    simp only [Bool.false_eq_true, false_iff]
    rintro ⟨number, read, _⟩
    exact other number read

instance (x : Binary64.Finite) : Decidable (ReadsBack x) := decidable_of_iff _ readsBack_iff

theorem ofText_ok {source : String} {value : Value} (read : Value.ofText source = .ok value) :
    ∃ rest, readValue source.toList.length maxDepth source.toList = .ok (value, rest) ∧ skipSpace rest = [] := by
  rw [Value.ofText, mapError_eq_ok, readAll, bind_eq_ok] at read
  obtain ⟨⟨found, rest⟩, first, read⟩ := read
  dsimp only at read
  split at read
  · next blank =>
    cases read
    exact ⟨rest, first, blank⟩
  · cases read

theorem starts_documentText (x : Binary64.Finite) :
    ∃ c later, x.documentText.toList = c :: later ∧ (c = '-' ∨ c.isDigit = true) := by
  obtain ⟨unsigned, text, digits, mark, tail, rfl, some, all, _⟩ := toList_documentText x
  obtain ⟨digit, later, rfl⟩ := List.exists_cons_of_ne_nil some
  rw [text]
  cases x.negative with
  | true => exact ⟨_, _, rfl, .inl rfl⟩
  | false => exact ⟨_, _, rfl, .inr (all digit (by simp))⟩

theorem noSpace_documentText (x : Binary64.Finite) : ∀ c ∈ x.documentText.toList, isSpace c = false := by
  obtain ⟨unsigned, text, digits, mark, tail, rfl, some, all, marked, spaceless⟩ := toList_documentText x
  rw [text]
  intro c member
  rcases List.mem_append.mp member with sign | member
  · obtain ⟨_, rfl⟩ : x.negative = true ∧ c = '-' := by simpa [signText] using sign
    decide
  rcases List.mem_append.mp member with digit | member
  · exact isSpace_digit (all c digit)
  rcases List.mem_cons.mp member with rfl | inside
  · rcases marked with rfl | rfl <;> decide
  · exact spaceless c inside

private theorem nil_of_skipSpace {rest : List Char} (blank : skipSpace rest = [])
    (spaceless : ∀ c ∈ rest, isSpace c = false) : rest = [] := by
  cases rest with
  | nil => rfl
  | cons c later =>
    rw [skipSpace_cons (spaceless c (by simp))] at blank
    cases blank

theorem real_readsAs {x : Binary64.Finite} (survives : ReadsBack x) :
    ReadsAs readNumber (Number.text (.real x)).toList (.real x) := by
  obtain ⟨number, read, same⟩ := survives
  obtain ⟨rest, value, blank⟩ := ofText_ok read
  obtain ⟨c, later, starts, numeral⟩ := starts_documentText x
  rw [starts, readValue_number numeral, bind_eq_ok] at value
  obtain ⟨⟨found, remaining⟩, first, value⟩ := value
  simp only [pure_eq_ok, Except.ok.injEq, Prod.mk.injEq, Value.number.injEq] at value
  obtain ⟨rfl, rfl⟩ := value
  obtain ⟨taken, split, reads⟩ := readNumber_local _ _ _ first
  have nothing : remaining = [] := by
    apply nil_of_skipSpace blank
    intro space member
    apply noSpace_documentText x space
    rw [starts, split]
    exact List.mem_append_right taken member
  obtain ⟨unsigned, text, writes⟩ := toList_documentText x
  obtain ⟨y, rfl⟩ := readNumber_real writes (by rw [← text, starts, first])
  obtain rfl : y = x := by simpa [Number.toBinary64] using same
  rw [nothing, List.append_nil, ← starts] at split
  rw [Number.text, split]
  exact reads

/-- The first value is written so that reading gives the second, which differs from it in
numbers at most. Brackets are nested at most that deep. -/
inductive Legible : Nat → Value → Value → Prop where
  | null {depth} : Legible depth .null .null
  | bool {depth} (value : Bool) : Legible depth (.bool value) (.bool value)
  | number {depth} {value other : Number} (reads : ReadsAs readNumber value.text.toList other) :
      Legible depth (.number value) (.number other)
  | string {depth} (text : String) : Legible depth (.string text) (.string text)
  | array {depth} {items : List (Value × Value)} (each : ∀ item ∈ items, Legible depth item.1 item.2) :
      Legible (depth + 1) (.array (items.map Prod.fst)) (.array (items.map Prod.snd))
  | object {depth} {fields : List (String × Value × Value)} (distinct : (fields.map Prod.fst).Nodup)
      (each : ∀ field ∈ fields, Legible depth field.2.1 field.2.2) :
      Legible (depth + 1) (.object (fields.map fun field => (field.1, field.2.1)))
        (.object (fields.map fun field => (field.1, field.2.2)))

theorem legible_word {depth n : Nat} (word : n < 2 ^ 64) :
    Legible depth (.number (.integer n)) (.number (.integer n)) :=
  .number (integer_readsAs (by omega) (by omega))

/-- Fields of the same names, paired. -/
theorem exists_pairs {related : Value → Value → Prop} {written read : Fields}
    (names : written.map Prod.fst = read.map Prod.fst)
    (each : List.Forall₂ related (written.map Prod.snd) (read.map Prod.snd)) :
    ∃ fields : List (String × Value × Value), written = fields.map (fun field => (field.1, field.2.1)) ∧
      read = fields.map (fun field => (field.1, field.2.2)) ∧ ∀ field ∈ fields, related field.2.1 field.2.2 := by
  induction written generalizing read with
  | nil =>
    obtain rfl : read = [] := by simpa using names
    exact ⟨[], rfl, rfl, by simp⟩
  | cons first written ih =>
    obtain ⟨second, read, rfl⟩ : ∃ second later, read = second :: later := by
      cases read with
      | nil => simp at names
      | cons second later => exact ⟨second, later, rfl⟩
    simp only [List.map_cons, List.cons.injEq, List.forall₂_cons] at names each
    obtain ⟨fields, rfl, rfl, rest⟩ := ih names.2 each.2
    refine ⟨(first.1, first.2, second.2) :: fields, rfl, ?_, List.forall_mem_cons.mpr ⟨each.1, rest⟩⟩
    rw [List.map_cons, names.1]

theorem legible_fields {depth : Nat} {written read : Fields} (names : written.map Prod.fst = read.map Prod.fst)
    (distinct : (written.map Prod.fst).Nodup)
    (each : List.Forall₂ (Legible depth) (written.map Prod.snd) (read.map Prod.snd)) :
    Legible (depth + 1) (.object written) (.object read) := by
  obtain ⟨fields, rfl, rfl, related⟩ := exists_pairs names each
  rw [List.map_map] at distinct
  exact .object distinct related

def Opens (text : List Char) : Prop := ∃ c later, text = c :: later ∧ isSpace c = false ∧ c ≠ ']'

theorem Opens.skipSpace {text : List Char} (opens : Opens text) {gap : List Char}
    (blank : ∀ c ∈ gap, isSpace c = true) (rest : List Char) :
    skipSpace (gap ++ (text ++ rest)) = text ++ rest := by
  obtain ⟨c, later, rfl, solid, _⟩ := opens
  rw [skipSpace_append blank, List.cons_append, skipSpace_cons solid]

theorem endsNumeral_cons {c : Char} (stops : c = ',' ∨ c = ']' ∨ c = '}' ∨ isSpace c = true) (rest : List Char) :
    EndsNumeral (c :: rest) := by
  intro first head
  cases head
  rcases stops with rfl | rfl | rfl | space
  · decide
  · decide
  · decide
  · refine ⟨?_, ?_, ?_, ?_⟩
    · cases digit : c.isDigit with
      | false => rfl
      | true => simp [isSpace_digit digit] at space
    all_goals rintro rfl; exact absurd space (by decide)

theorem endsNumeral_gap {gap : List Char} (blank : ∀ c ∈ gap, isSpace c = true) {c : Char}
    (stops : c = ',' ∨ c = ']' ∨ c = '}') (rest : List Char) : EndsNumeral (gap ++ c :: rest) := by
  cases gap with
  | nil => rcases stops with rfl | rfl | rfl <;> exact endsNumeral_cons (by decide) rest
  | cons space later => exact endsNumeral_cons (.inr (.inr (.inr (blank space (by simp))))) _

theorem Opens.not_close {text : List Char} (opens : Opens text) (rest other : List Char) :
    text ++ rest ≠ ']' :: other := by
  obtain ⟨c, later, rfl, _, notClose⟩ := opens
  simp [notClose]

section Lists

variable {α : Type} {readItem : Reader Value} {written : α → List Char} {value : α → Value} {gap close : List Char}

def laterItems (written : α → List Char) (gap : List Char) (items : List α) : List Char :=
  items.flatMap fun item => ',' :: (gap ++ written item)

theorem endsNumeral_laterItems (closing : ∀ c ∈ close, isSpace c = true) (items : List α) (rest : List Char) :
    EndsNumeral (laterItems written gap items ++ (close ++ ']' :: rest)) := by
  cases items with
  | nil => exact endsNumeral_gap closing (.inr (.inl rfl)) rest
  | cons item later => exact endsNumeral_cons (.inl rfl) _

theorem readLaterItems_written (blank : ∀ c ∈ gap, isSpace c = true) (closing : ∀ c ∈ close, isSpace c = true)
    {items : List α} {size : Nat} (room : items.length < size)
    (reads : ∀ item ∈ items, ReadsAs readItem (written item) (value item))
    (opens : ∀ item ∈ items, Opens (written item)) (rest : List Char) :
    readLaterItems readItem size (laterItems written gap items ++ (close ++ ']' :: rest)) =
      .ok (items.map value, rest) := by
  induction items generalizing size with
  | nil =>
    obtain ⟨size, rfl⟩ := Nat.exists_eq_succ_of_ne_zero (Nat.ne_of_gt room)
    have stop : skipSpace (close ++ ']' :: rest) = ']' :: rest := by
      rw [skipSpace_append closing, skipSpace_cons (by decide)]
    simp [laterItems, readLaterItems, stop]
  | cons item later ih =>
    obtain ⟨size, rfl⟩ := Nat.exists_eq_succ_of_ne_zero (Nat.ne_of_gt (Nat.zero_lt_of_lt room))
    have opening := opens item (by simp)
    have remaining := @ih size (by simpa using room) (fun other member => reads other (by simp [member]))
      (fun other member => opens other (by simp [member]))
    have first := reads item (by simp) (laterItems written gap later ++ (close ++ ']' :: rest))
      (endsNumeral_laterItems closing later rest)
    have text : laterItems written gap (item :: later) ++ (close ++ ']' :: rest) =
        ',' :: (gap ++ (written item ++ (laterItems written gap later ++ (close ++ ']' :: rest)))) := by
      simp [laterItems]
    rw [text, readLaterItems]
    simp only [skipSpace_cons (show isSpace ',' = false by decide), opening.skipSpace blank]
    split
    · next same => exact absurd same (opening.not_close _ _)
    · simp only [first, remaining, ok_bind, pure_eq_ok, List.map_cons]

theorem readItems_written (blank : ∀ c ∈ gap, isSpace c = true) (closing : ∀ c ∈ close, isSpace c = true)
    {item : α} {later : List α} {size : Nat} (room : later.length < size)
    (reads : ∀ other ∈ item :: later, ReadsAs readItem (written other) (value other))
    (opens : ∀ other ∈ item :: later, Opens (written other)) (rest : List Char) :
    readItems readItem size (gap ++ (written item ++ (laterItems written gap later ++ (close ++ ']' :: rest)))) =
      .ok ((item :: later).map value, rest) := by
  have opening := opens item (by simp)
  have first := reads item (by simp) (laterItems written gap later ++ (close ++ ']' :: rest))
    (endsNumeral_laterItems closing later rest)
  have remaining := readLaterItems_written blank closing room (fun other member => reads other (by simp [member]))
    (fun other member => opens other (by simp [member])) rest
  simp only [readItems, opening.skipSpace blank]
  split
  · next none =>
    obtain ⟨c, text, same, _⟩ := opening
    simp [same] at none
  · next same => exact absurd same (opening.not_close _ _)
  · simp only [first, remaining, ok_bind, pure_eq_ok, List.map_cons]

def fieldText (written : α → List Char) (field : String × α) : List Char :=
  (quote field.1).toList ++ ':' :: written field.2

def laterFields (written : α → List Char) (gap : List Char) (fields : List (String × α)) : List Char :=
  fields.flatMap fun field => ',' :: (gap ++ fieldText written field)

def readAs (value : α → Value) (field : String × α) : String × Value := (field.1, value field.2)

theorem endsNumeral_laterFields (written : α → List Char) (gap : List Char)
    (closing : ∀ c ∈ close, isSpace c = true) (fields : List (String × α)) (rest : List Char) :
    EndsNumeral (laterFields written gap fields ++ (close ++ '}' :: rest)) := by
  cases fields with
  | nil => exact endsNumeral_gap closing (.inr (.inr rfl)) rest
  | cons field later => exact endsNumeral_cons (.inl rfl) _

theorem setField_new {key : String} {value : Value} {known : Fields} (fresh : key ∉ known.map Prod.fst) :
    setField key value known = known ++ [(key, value)] := by
  induction known with
  | nil => rfl
  | cons field later ih =>
    obtain ⟨name, held⟩ := field
    simp only [List.map_cons, List.mem_cons, not_or] at fresh
    rw [setField, if_neg (Ne.symm fresh.1), ih fresh.2, List.cons_append]

theorem readField_written {field : String × α} {size : Nat} (fits : field.1.toList.length ≤ size)
    (reads : ReadsAs readItem (written field.2) (value field.2)) {rest : List Char} (ends : EndsNumeral rest) :
    readField readItem size (field.1.toList.flatMap escapeChar ++ '"' :: ':' :: (written field.2 ++ rest)) =
      .ok (readAs value field, rest) := by
  have read := reads rest ends
  simp only [readField, readString_quoted field.1 _ fits, ok_bind,
    skipSpace_cons (show isSpace ':' = false by decide), read, pure_eq_ok, readAs]

theorem readLaterFields_written (blank : ∀ c ∈ gap, isSpace c = true) (closing : ∀ c ∈ close, isSpace c = true)
    {fields : List (String × α)} {known : Fields} {size rounds : Nat} (room : fields.length < rounds)
    (fits : ∀ field ∈ fields, field.1.toList.length ≤ size)
    (distinct : (known.map Prod.fst ++ fields.map Prod.fst).Nodup)
    (reads : ∀ field ∈ fields, ReadsAs readItem (written field.2) (value field.2)) (rest : List Char) :
    readLaterFields readItem size known rounds (laterFields written gap fields ++ (close ++ '}' :: rest)) =
      .ok (known ++ fields.map (readAs value), rest) := by
  induction fields generalizing known rounds with
  | nil =>
    obtain ⟨rounds, rfl⟩ := Nat.exists_eq_succ_of_ne_zero (Nat.ne_of_gt room)
    have stop : skipSpace (close ++ '}' :: rest) = '}' :: rest := by
      rw [skipSpace_append closing, skipSpace_cons (by decide)]
    simp [laterFields, readLaterFields, stop]
  | cons field later ih =>
    obtain ⟨rounds, rfl⟩ := Nat.exists_eq_succ_of_ne_zero (Nat.ne_of_gt (Nat.zero_lt_of_lt room))
    have fresh : field.1 ∉ known.map Prod.fst := by
      intro member
      exact (List.nodup_append.mp distinct).2.2 _ member _ (by simp) rfl
    have remaining := @ih (known ++ [readAs value field]) rounds (by simpa using room)
      (fun other member => fits other (by simp [member])) (by simpa [readAs] using distinct)
      (fun other member => reads other (by simp [member]))
    have first := readField_written (fits field (by simp)) (reads field (by simp))
      (endsNumeral_laterFields written gap closing later rest)
    have text : laterFields written gap (field :: later) ++ (close ++ '}' :: rest) =
        ',' :: (gap ++ ('"' :: (field.1.toList.flatMap escapeChar ++ '"' :: ':' ::
          (written field.2 ++ (laterFields written gap later ++ (close ++ '}' :: rest)))))) := by
      simp [laterFields, fieldText, toList_quote]
    rw [text, readLaterFields]
    simp only [skipSpace_cons (show isSpace ',' = false by decide), skipSpace_append blank,
      skipSpace_cons (show isSpace '"' = false by decide), first, ok_bind]
    rw [show (readAs value field).1 = field.1 from rfl, setField_new fresh]
    exact remaining.trans (by simp)

theorem readFields_written (blank : ∀ c ∈ gap, isSpace c = true) (closing : ∀ c ∈ close, isSpace c = true)
    {field : String × α} {later : List (String × α)} {size : Nat} (room : later.length < size)
    (fits : ∀ other ∈ field :: later, other.1.toList.length ≤ size)
    (distinct : ((field :: later).map Prod.fst).Nodup)
    (reads : ∀ other ∈ field :: later, ReadsAs readItem (written other.2) (value other.2)) (rest : List Char) :
    readFields readItem size
        (gap ++ (fieldText written field ++ (laterFields written gap later ++ (close ++ '}' :: rest)))) =
      .ok ((field :: later).map (readAs value), rest) := by
  have first := readField_written (fits field (by simp)) (reads field (by simp))
    (endsNumeral_laterFields written gap closing later rest)
  have apart : (([readAs value field] : Fields).map Prod.fst ++ later.map Prod.fst).Nodup := distinct
  have remaining := readLaterFields_written blank closing room (fun other member => fits other (by simp [member])) apart
    (fun other member => reads other (by simp [member])) rest
  have text : fieldText written field ++ (laterFields written gap later ++ (close ++ '}' :: rest)) =
      '"' :: (field.1.toList.flatMap escapeChar ++ '"' :: ':' ::
        (written field.2 ++ (laterFields written gap later ++ (close ++ '}' :: rest)))) := by
    simp [fieldText, toList_quote]
  rw [text, readFields]
  simp only [skipSpace_append blank, skipSpace_cons (show isSpace '"' = false by decide), first, ok_bind, remaining,
    List.singleton_append, List.map_cons]

end Lists

end SpellPack.Proofs.ValueReading
