import SpellPack.Document.Reading
import SpellPack.Proofs.FileLines
import SpellPack.Proofs.ValueReading

/-! The compact form of a value stands on one line with nothing to trim. Words and numbers hold no
white space, and at any depth names and strings are quoted. -/

namespace SpellPack.Proofs.CompactText
open Json Text FileLines QuotedText

section Numbers

variable {c : Char} (blank : isBlank c = true)

include blank

theorem blank_documentDigits (coefficient : Nat) (exponent : Int) :
    c ∉ (Decimal.documentText coefficient exponent).toList := by
  have digits : c ∉ Nat.toDigits 10 coefficient := by
    have absent := foreign_digits (foreign_blank blank) coefficient
    rwa [Nat.toString_eq_repr, Nat.toList_repr] at absent
  have front (count : Nat) : c ∉ (String.ofList ((Nat.toDigits 10 coefficient).take count)).toList := by
    rw [String.toList_ofList]
    exact fun member => digits (List.mem_of_mem_take member)
  have behind (count : Nat) : c ∉ (String.ofList ((Nat.toDigits 10 coefficient).drop count)).toList := by
    rw [String.toList_ofList]
    exact fun member => digits (List.mem_of_mem_drop member)
  have zeros (count : Nat) : c ∉ (Decimal.zeros count).toList := by
    rw [Decimal.zeros, String.toList_ofList]
    intro member
    rw [List.eq_of_mem_replicate member] at blank
    exact absurd blank (by decide)
  have whole : c ∉ (String.ofList (Nat.toDigits 10 coefficient)).toList := by rwa [String.toList_ofList]
  simp only [Decimal.documentText]
  split
  · split
    · exact not_mem_append (not_mem_append whole (zeros _)) (not_mem_fixed blank rfl)
    split
    · exact not_mem_append (not_mem_append (front _) (not_mem_fixed blank rfl)) (behind _)
    · exact not_mem_append (not_mem_append (not_mem_fixed blank rfl) (zeros _)) whole
  · apply not_mem_append _ (foreign_digits (foreign_blank blank) _)
    apply not_mem_append
    · apply not_mem_append _ (not_mem_fixed blank rfl)
      split
      · exact front 1
      · exact not_mem_append (not_mem_append (front 1) (not_mem_fixed blank rfl)) (behind 1)
    · split <;> exact not_mem_fixed blank rfl

theorem blank_documentText (x : Binary64.Finite) : c ∉ x.documentText.toList := by
  have unsigned : c ∉ (if x.rank = 0 then "0.0" else
      Decimal.documentText (Decimal.stripZeros (Decimal.shortest x.rank).1 (Decimal.shortest x.rank).2).1
        (Decimal.stripZeros (Decimal.shortest x.rank).1 (Decimal.shortest x.rank).2).2).toList := by
    split
    · exact not_mem_fixed blank rfl
    · exact blank_documentDigits blank _ _
  rw [Binary64.Finite.documentText]
  split
  · exact not_mem_append (not_mem_fixed blank rfl) unsigned
  · exact unsigned

theorem blank_numberText (number : Number) : c ∉ number.text.toList := by
  cases number with
  | integer value => exact foreign_integer (foreign_blank blank) value
  | real value => exact blank_documentText blank value

end Numbers

theorem digits_ne_empty (n : Nat) : toString n ≠ "" := by
  rw [Nat.toString_eq_repr, ne_eq, ← String.toList_eq_nil_iff, Nat.toList_repr]
  exact Nat.toDigits_ne_nil

theorem numberText_ne_empty (number : Number) : number.text ≠ "" := by
  cases number with
  | integer value =>
    cases value with
    | ofNat n => exact digits_ne_empty n
    | negSucc n => exact @append_ne_empty "-" (by decide) (toString (n + 1))
  | real value =>
    obtain ⟨c, later, text, _⟩ := ValueReading.starts_documentText value
    rw [Number.text, ne_eq, ← String.toList_eq_nil_iff, text]
    exact List.cons_ne_nil c later

/-- A text on one line with nothing to trim. -/
structure Whole (text : String) : Prop where
  nonempty : text ≠ ""
  unbroken : '\n' ∉ text.toList
  first : ∀ c, text.toList.head? = some c → isBlank c = false
  last : ∀ c, text.toList.getLast? = some c → isBlank c = false

section Whole

variable {text : String}

theorem whole_of_solid (nonempty : text ≠ "") (solid : ∀ c, isBlank c = true → c ∉ text.toList) : Whole text where
  nonempty := nonempty
  unbroken := solid '\n' rfl
  first c head := Bool.eq_false_iff.mpr fun blank => solid c blank (List.mem_of_head? head)
  last c final := Bool.eq_false_iff.mpr fun blank => solid c blank (List.mem_of_getLast? final)

theorem whole_enclosed {left right : Char} {inside : List Char} (enclosed : text.toList = left :: inside ++ [right])
    (first : isBlank left = false) (last : isBlank right = false) (unbroken : '\n' ∉ text.toList) : Whole text where
  nonempty := by
    rw [ne_eq, ← String.toList_eq_nil_iff, enclosed]
    simp
  unbroken := unbroken
  first c head := by
    rw [enclosed] at head
    cases head
    exact first
  last c final := by
    rw [enclosed, List.getLast?_concat] at final
    cases final
    exact last

theorem Whole.trim_eq (whole : Whole text) : trim text = text := by
  have kept : TextEnds.Trims text.toList text.toList := ⟨⟨[], [], by simp⟩, whole.first, whole.last⟩
  rw [← String.toList_inj, toList_trim, kept.eq]

end Whole

section Values

theorem unbroken_joined {parts : List String} (unbroken : ∀ part ∈ parts, '\n' ∉ part.toList) :
    '\n' ∉ (",".intercalate parts).toList := by
  rw [String.toList_intercalate]
  apply not_mem_intercalate (by decide)
  intro chars member
  obtain ⟨part, inside, rfl⟩ := List.mem_map.mp member
  exact unbroken part inside

theorem solid_boolText (value : Bool) {c : Char} (blank : isBlank c = true) : c ∉ (boolText value).toList := by
  rw [boolText]
  split <;> exact not_mem_fixed blank rfl

mutual

/-- By recursion over the value, as it is written. -/
theorem unbroken_compact (value : Value) : '\n' ∉ value.compact.toList := by
  cases value with
  | null =>
    rw [Value.compact]
    exact not_mem_literal (by decide)
  | bool value =>
    rw [Value.compact]
    exact solid_boolText value rfl
  | number value =>
    rw [Value.compact]
    exact blank_numberText rfl value
  | string text =>
    rw [Value.compact]
    exact not_mem_quote (by decide) text
  | array items =>
    rw [Value.compact]
    apply not_mem_append _ (not_mem_literal (by decide))
    exact not_mem_append (not_mem_literal (by decide)) (unbroken_joined (unbroken_compactItems items))
  | object fields =>
    rw [Value.compact]
    apply not_mem_append _ (not_mem_literal (by decide))
    apply not_mem_append (not_mem_literal (by decide))
    apply unbroken_joined
    intro part member
    obtain ⟨field, sorted, rfl⟩ := List.mem_map.mp member
    apply not_mem_append _ (unbroken_compactFields fields field (List.mem_mergeSort.mp sorted))
    exact not_mem_append (not_mem_quote (by decide) field.1) (not_mem_literal (by decide))

theorem unbroken_compactItems (items : List Value) : ∀ text ∈ Value.compactItems items, '\n' ∉ text.toList := by
  cases items with
  | nil =>
    rw [Value.compactItems]
    exact List.forall_mem_nil _
  | cons item later =>
    rw [Value.compactItems]
    exact List.forall_mem_cons.mpr ⟨unbroken_compact item, unbroken_compactItems later⟩

theorem unbroken_compactFields (fields : Fields) :
    ∀ field ∈ Value.compactFields fields, '\n' ∉ field.2.toList := by
  cases fields with
  | nil =>
    rw [Value.compactFields]
    exact List.forall_mem_nil _
  | cons field later =>
    obtain ⟨name, value⟩ := field
    rw [Value.compactFields]
    exact List.forall_mem_cons.mpr ⟨unbroken_compact value, unbroken_compactFields later⟩

end

theorem whole_compact (value : Value) : Whole value.compact := by
  have unbroken := unbroken_compact value
  cases value with
  | null =>
    rw [Value.compact]
    exact whole_of_solid (by decide) fun c blank => not_mem_fixed blank rfl
  | bool value =>
    rw [Value.compact]
    exact whole_of_solid (by cases value <;> decide) fun c => solid_boolText value
  | number value =>
    rw [Value.compact]
    exact whole_of_solid (numberText_ne_empty value) fun c blank => blank_numberText blank value
  | string text =>
    rw [Value.compact] at unbroken ⊢
    exact whole_enclosed (toList_quote text) (by decide) (by decide) unbroken
  | array items =>
    rw [Value.compact] at unbroken ⊢
    generalize ",".intercalate (Value.compactItems items) = inside at unbroken ⊢
    have enclosed : ("[" ++ inside ++ "]").toList = '[' :: inside.toList ++ [']'] := by simp
    exact whole_enclosed enclosed (by decide) (by decide) unbroken
  | object fields =>
    rw [Value.compact] at unbroken ⊢
    generalize ",".intercalate _ = inside at unbroken ⊢
    have enclosed : ("\x7b" ++ inside ++ "\x7d").toList = '{' :: inside.toList ++ ['}'] := by simp
    exact whole_enclosed enclosed (by decide) (by decide) unbroken

end Values

end SpellPack.Proofs.CompactText
