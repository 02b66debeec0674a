import SpellPack.Proofs.ValueReading
import SpellPack.Text.Pieces

/-! The indented form of a value is read as the value that it stands for, with nothing but
space allowed behind it. Sizes matter only since loops are bounded by the length of the text. -/

namespace SpellPack.Proofs.IndentedReading
open Json NumeralReading NumeralText QuotedText ValueReading

theorem indentedItems_eq_map (level : Nat) (items : List Value) :
    Value.indentedItems level items = items.map (Value.indented level) := by
  induction items with
  | nil => simp [Value.indentedItems]
  | cons item later ih => simp [Value.indentedItems, ih]

def fieldEntry (level : Nat) (field : String × Value) : String :=
  quote field.1 ++ ": " ++ field.2.indented level

theorem indentedFields_eq_map (level : Nat) (fields : Fields) :
    Value.indentedFields level fields = fields.map (fieldEntry level) := by
  induction fields with
  | nil => simp [Value.indentedFields]
  | cons field later ih => simp [Value.indentedFields, fieldEntry, ih]

def newLine (level : Nat) : List Char := '\n' :: List.replicate (2 * level) ' '

theorem isSpace_newLine (level : Nat) : ∀ c ∈ newLine level, isSpace c = true := by
  intro c member
  rcases List.mem_cons.mp member with rfl | space
  · decide
  · rw [List.eq_of_mem_replicate space]
    decide

theorem toList_block (left right : String) (level : Nat) (first : String) (later : List String) :
    (Value.block left right level (first :: later)).toList =
      left.toList ++ (newLine (level + 1) ++ (first.toList ++
        (later.flatMap (fun entry => ',' :: (newLine (level + 1) ++ entry.toList)) ++
          (newLine level ++ right.toList)))) := by
  simp [Value.block, Value.indent, newLine, String.toList_intercalate, Text.intercalate_cons, List.flatMap_map]

theorem length_le_flatMap {f : α → List β} (some : ∀ item, f item ≠ []) (items : List α) :
    items.length ≤ (items.flatMap f).length := by
  induction items with
  | nil => simp
  | cons item later ih =>
    have first := List.length_pos_iff.mpr (some item)
    simp only [List.flatMap_cons, List.length_append, List.length_cons]
    omega

theorem length_le_flatMap_of_mem {f : α → List β} {items : List α} {item : α} (member : item ∈ items) :
    (f item).length ≤ (items.flatMap f).length := by
  rw [List.flatMap_def]
  exact (List.sublist_flatten_of_mem (List.mem_map_of_mem member)).length_le

section Blocks

variable {left right : String} {level : Nat} {entries : List String}

theorem length_le_block : entries.length ≤ (Value.block left right level entries).toList.length := by
  cases entries with
  | nil => simp
  | cons first later =>
    have some := length_le_flatMap (f := fun entry : String => ',' :: (newLine (level + 1) ++ entry.toList))
      (by simp) later
    rw [toList_block]
    simp only [List.length_append, List.length_cons, newLine] at some ⊢
    omega

theorem length_le_block_of_mem {entry : String} (member : entry ∈ entries) :
    entry.toList.length ≤ (Value.block left right level entries).toList.length := by
  cases entries with
  | nil => simp at member
  | cons first later =>
    rw [toList_block]
    rcases List.mem_cons.mp member with rfl | inside
    · simp only [List.length_append]
      omega
    · have long := length_le_flatMap_of_mem
        (f := fun entry : String => ',' :: (newLine (level + 1) ++ entry.toList)) inside
      simp only [List.length_append, List.length_cons] at long ⊢
      omega

end Blocks

theorem escapeChar_ne_nil (c : Char) : escapeChar c ≠ [] := by
  rcases escapeChar_cases c with ⟨same, _⟩ | ⟨code, same, _⟩ <;> simp [same]

theorem opens_numeral {text : List Char} {number : Number} (reads : ReadsAs readNumber text number) :
    ∃ c later, text = c :: later ∧ (c = '-' ∨ c.isDigit = true) := by
  have alone := reads [] endsNumeral_nil
  rw [List.append_nil] at alone
  obtain ⟨negative, digits, after, rfl, ⟨some, all, _⟩, _⟩ := readNumber_ok alone
  obtain ⟨digit, later, rfl⟩ := List.exists_cons_of_ne_nil some
  cases negative with
  | true => exact ⟨_, _, rfl, .inl rfl⟩
  | false => exact ⟨_, _, rfl, .inr (all digit (by simp))⟩

theorem opens_indented {depth : Nat} {value other : Value} (legible : Legible depth value other) (level : Nat) :
    Opens (value.indented level).toList := by
  cases legible with
  | null => exact ⟨'n', ['u', 'l', 'l'], by simp [Value.indented], by decide, by decide⟩
  | bool value =>
    cases value with
    | false => exact ⟨'f', ['a', 'l', 's', 'e'], by simp [Value.indented, boolText], by decide, by decide⟩
    | true => exact ⟨'t', ['r', 'u', 'e'], by simp [Value.indented, boolText], by decide, by decide⟩
  | number reads =>
    obtain ⟨c, later, text, starts⟩ := opens_numeral reads
    obtain ⟨solid, _, _, _, _, _, _, close⟩ := starts_numeral starts
    exact ⟨c, later, text, solid, close⟩
  | string text => exact ⟨'"', _, toList_quote text, by decide, by decide⟩
  | array each =>
    rename_i items
    rw [Value.indented, indentedItems_eq_map]
    cases items with
    | nil => exact ⟨'[', [']'], by simp [Value.block], by decide, by decide⟩
    | cons item later =>
      rw [List.map_cons, List.map_cons, toList_block]
      exact ⟨'[', _, rfl, by decide, by decide⟩
  | object distinct each =>
    rename_i fields
    rw [Value.indented, indentedFields_eq_map]
    cases fields with
    | nil => exact ⟨'{', ['}'], by simp [Value.block], by decide, by decide⟩
    | cons field later =>
      rw [List.map_cons, List.map_cons, toList_block]
      exact ⟨'{', _, rfl, by decide, by decide⟩

theorem readValue_space (size depth : Nat) (text : List Char) :
    readValue size depth (' ' :: text) = readValue size depth text := by
  have space : skipSpace (' ' :: text) = skipSpace text := @skipSpace_append [' '] (by simp [isSpace]) text
  rw [readValue, space, ← readValue]

/-- What is written of an item that comes with the value it is read as. -/
def itemText (level : Nat) (item : Value × Value) : String := item.1.indented level

def fieldLine (level : Nat) (field : String × Value × Value) : String := fieldEntry level (field.1, field.2.1)

theorem indentedItems_pairs (level : Nat) (items : List (Value × Value)) :
    Value.indentedItems level (items.map Prod.fst) = items.map (itemText level) := by
  rw [indentedItems_eq_map, List.map_map]
  rfl

theorem indentedFields_pairs (level : Nat) (fields : List (String × Value × Value)) :
    Value.indentedFields level (fields.map fun field => (field.1, field.2.1)) = fields.map (fieldLine level) := by
  rw [indentedFields_eq_map, List.map_map]
  rfl

/-- A field's value stands one space behind its colon. -/
def spaced (level : Nat) (item : Value × Value) : List Char := ' ' :: (itemText level item).toList

theorem length_le_escaped (text : String) : text.toList.length ≤ (text.toList.flatMap escapeChar).length :=
  length_le_flatMap escapeChar_ne_nil text.toList

section Cases

variable {depth level size : Nat}

theorem readValue_bool (value : Bool) :
    ReadsAs (readValue size depth) ((Value.bool value).indented level).toList (.bool value) := by
  intro rest ends
  cases value <;>
    simp [Value.indented, boolText, readValue, skipSpace_cons (show isSpace 't' = false by decide),
      skipSpace_cons (show isSpace 'f' = false by decide), readWord]

theorem readValue_numeral {value other : Number} (reads : ReadsAs readNumber value.text.toList other) :
    ReadsAs (readValue size depth) ((Value.number value).indented level).toList (.number other) := by
  intro rest ends
  obtain ⟨c, later, text, starts⟩ := opens_numeral reads
  have read := reads rest ends
  simp only [Value.indented]
  rw [text] at read ⊢
  rw [List.cons_append] at read ⊢
  rw [readValue_number starts, read]
  simp

theorem readValue_string {text : String} (fits : ((Value.string text).indented level).toList.length ≤ size) :
    ReadsAs (readValue size depth) ((Value.string text).indented level).toList (.string text) := by
  intro rest ends
  have escaped := length_le_escaped text
  have room : text.toList.length ≤ size := by
    simp only [Value.indented, toList_quote, List.cons_append, List.length_cons, List.length_append] at fits
    omega
  simp only [Value.indented, toList_quote, List.cons_append, List.append_assoc, List.nil_append]
  rw [readValue]
  simp [skipSpace_cons (show isSpace '"' = false by decide), readString_quoted text rest room]

/-- Brackets around items that are read one by one. -/
theorem readValue_array {items : List (Value × Value)}
    (fits : (Value.block "[" "]" level (items.map (itemText (level + 1)))).toList.length ≤ size)
    (opens : ∀ item ∈ items, Opens (itemText (level + 1) item).toList)
    (reads : ∀ item ∈ items, ReadsAs (readValue size depth) (itemText (level + 1) item).toList item.2) :
    ReadsAs (readValue size (depth + 1)) (Value.block "[" "]" level (items.map (itemText (level + 1)))).toList
      (.array (items.map Prod.snd)) := by
  intro rest ends
  cases items with
  | nil =>
    have text : (Value.block "[" "]" level ([].map (itemText (level + 1)))).toList ++ rest = '[' :: ']' :: rest := by
      simp [Value.block]
    rw [text, readValue]
    simp only [skipSpace_cons (show isSpace '[' = false by decide), readItems,
      skipSpace_cons (show isSpace ']' = false by decide), ok_bind, pure_eq_ok, List.map_nil]
  | cons item later =>
    have room := Nat.le_trans length_le_block fits
    have inside := readItems_written (isSpace_newLine (level + 1)) (isSpace_newLine level)
      (Nat.lt_of_succ_le (by simpa using room)) reads opens rest
    have text : (Value.block "[" "]" level ((item :: later).map (itemText (level + 1)))).toList ++ rest =
        '[' :: (newLine (level + 1) ++ ((itemText (level + 1) item).toList ++
          (laterItems (fun item => (itemText (level + 1) item).toList) (newLine (level + 1)) later ++
            (newLine level ++ ']' :: rest)))) := by
      simp [toList_block, laterItems, List.flatMap_map]
    rw [text, readValue]
    simp only [skipSpace_cons (show isSpace '[' = false by decide), inside, ok_bind, pure_eq_ok]

theorem toList_fieldLine (field : String × Value × Value) :
    (fieldLine level field).toList = fieldText (spaced level) field := by
  simp [fieldLine, fieldEntry, fieldText, spaced, itemText]

theorem length_le_fieldText (field : String × Value × Value) :
    field.1.toList.length ≤ (fieldText (spaced level) field).length ∧
      (itemText level field.2).toList.length ≤ (fieldText (spaced level) field).length := by
  have escaped := length_le_escaped field.1
  simp only [fieldText, toList_quote, spaced, List.length_append, List.length_cons]
  omega

/-- Braces around fields with distinct names, of which each value is read. -/
theorem readValue_object {fields : List (String × Value × Value)} (distinct : (fields.map Prod.fst).Nodup)
    (fits : (Value.block "\x7b" "\x7d" level (fields.map (fieldLine (level + 1)))).toList.length ≤ size)
    (reads : ∀ field ∈ fields, ReadsAs (readValue size depth) (itemText (level + 1) field.2).toList field.2.2) :
    ReadsAs (readValue size (depth + 1)) (Value.block "\x7b" "\x7d" level (fields.map (fieldLine (level + 1)))).toList
      (.object (fields.map (readAs Prod.snd))) := by
  intro rest ends
  cases fields with
  | nil =>
    have text : (Value.block "\x7b" "\x7d" level ([].map (fieldLine (level + 1)))).toList ++ rest =
        '{' :: '}' :: rest := by simp [Value.block]
    rw [text, readValue]
    simp only [skipSpace_cons (show isSpace '{' = false by decide), readFields,
      skipSpace_cons (show isSpace '}' = false by decide), ok_bind, pure_eq_ok, List.map_nil]
  | cons field later =>
    have names : ∀ other ∈ field :: later, other.1.toList.length ≤ size := by
      intro other member
      have long := Nat.le_trans (length_le_block_of_mem (List.mem_map_of_mem member)) fits
      rw [toList_fieldLine] at long
      exact Nat.le_trans (length_le_fieldText other).1 long
    have values : ∀ other ∈ field :: later, ReadsAs (readValue size depth) (spaced (level + 1) other.2) other.2.2 := by
      intro other member after endsAfter
      rw [spaced, List.cons_append, readValue_space]
      exact reads other member after endsAfter
    have room := Nat.le_trans length_le_block fits
    have inside := readFields_written (isSpace_newLine (level + 1)) (isSpace_newLine level)
      (Nat.lt_of_succ_le (by simpa using room)) names distinct values rest
    have text : (Value.block "\x7b" "\x7d" level ((field :: later).map (fieldLine (level + 1)))).toList ++ rest =
        '{' :: (newLine (level + 1) ++ (fieldText (spaced (level + 1)) field ++
          (laterFields (spaced (level + 1)) (newLine (level + 1)) later ++
            (newLine level ++ '}' :: rest)))) := by
      simp [toList_block, toList_fieldLine, laterFields, List.flatMap_map]
    rw [text, readValue]
    simp only [skipSpace_cons (show isSpace '{' = false by decide), inside, ok_bind, pure_eq_ok]

end Cases

/-- Reading takes exactly the indented form of a legible value. -/
theorem readValue_indented {depth : Nat} {value other : Value} (legible : Legible depth value other) (level size : Nat)
    (fits : (value.indented level).toList.length ≤ size) :
    ReadsAs (readValue size depth) (value.indented level).toList other := by
  induction legible generalizing level with
  | null =>
    intro rest ends
    simp [Value.indented, readValue, skipSpace_cons (show isSpace 'n' = false by decide), readWord]
  | bool value => exact readValue_bool value
  | number reads => exact readValue_numeral reads
  | string text => exact readValue_string fits
  | @array depth items each ih =>
    rw [Value.indented, indentedItems_pairs] at fits ⊢
    refine readValue_array fits (fun item member => opens_indented (each item member) (level + 1)) ?_
    intro item member
    have room := Nat.le_trans (length_le_block_of_mem (List.mem_map_of_mem member)) fits
    exact ih item member (level + 1) room
  | @object depth fields distinct each ih =>
    rw [Value.indented, indentedFields_pairs] at fits ⊢
    refine readValue_object distinct fits ?_
    intro field member
    have room := Nat.le_trans (length_le_block_of_mem (List.mem_map_of_mem member)) fits
    rw [toList_fieldLine] at room
    exact ih field member (level + 1) (Nat.le_trans (length_le_fieldText field).2 room)

theorem ofText_of_reads {source : String} {value : Value} {rest : List Char}
    (read : readValue source.toList.length maxDepth source.toList = .ok (value, rest))
    (blank : skipSpace rest = []) : Value.ofText source = .ok value := by
  simp only [Value.ofText, readAll, read, ok_bind, blank, pure_eq_ok]
  rfl

/-- A text in indented form may end in line breaks and other space. -/
theorem ofText_indented {value other : Value} (legible : Legible maxDepth value other) {tail : String}
    (blank : ∀ c ∈ tail.toList, isSpace c = true) : Value.ofText (value.indented 0 ++ tail) = .ok other := by
  have ends : EndsNumeral tail.toList := by
    cases text : tail.toList with
    | nil => exact endsNumeral_nil
    | cons space later => exact endsNumeral_cons (.inr (.inr (.inr (blank space (by simp [text]))))) later
  have nothing : skipSpace tail.toList = [] := by
    simpa [skipSpace] using skipSpace_append blank []
  have read := readValue_indented legible 0 (value.indented 0 ++ tail).toList.length (by simp) tail.toList ends
  rw [← String.toList_append] at read
  exact ofText_of_reads read nothing

end SpellPack.Proofs.IndentedReading
