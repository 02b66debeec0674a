import SpellPack.Document.Reading
import SpellPack.Proofs.ExactNumbers
import SpellPack.Proofs.IndentedReading

/-! Reading the fields of a written object. Texts and flags come back as they were, as do
integers that are doubles, and what is not finite comes back as zero. -/

namespace SpellPack.Proofs.FieldReading
open Json Binary64 NumeralReading NumeralText ValueReading IndentedReading ExactNumbers

section Objects

variable {fields : Fields} {key : String}

theorem text_read {text : String} (found : fields.lookup key = some (.string text)) : fields.text key = text := by
  simp [Fields.text, found, Value.stringify]

theorem texts_read {texts : List String} (found : fields.lookup key = some (.ofTexts texts)) :
    fields.texts key = texts := by
  simp [Fields.texts, Fields.array, found, Value.ofTexts, Value.items?, Value.stringify, Function.comp_def]

theorem flag_read {flag : Bool} (found : fields.lookup key = some (.bool flag)) : fields.flag? key = some flag := by
  simp [Fields.flag?, found, Value.bool?]

theorem objects_read {items : List α} {toJson : α → Value} {read : Fields → β} {repair : α → β}
    (found : fields.lookup key = some (.array (items.map toJson)))
    (each : ∀ item, (toJson item).fields?.map read = some (repair item)) :
    (fields.objects key).map read = items.map repair := by
  have found : fields.objects key = items.filterMap fun item => (toJson item).fields? := by
    rw [Fields.objects, Fields.array, found, Option.bind_some, Value.items?, Option.getD_some, List.filterMap_map]
    rfl
  rw [found, List.map_filterMap]
  simp [each]

end Objects

/-- What is not finite is written as nothing and read as zero. -/
def repairedNumber : Binary64 → Binary64
  | .finite x => .finite x
  | _ => .zero

theorem lenient_ofBinary64 (x : Binary64) : (Value.ofBinary64 x).lenientNumber? = x.finite? := by
  cases x <;> rfl

theorem number_read {fields : Fields} {key : String} {x : Binary64}
    (found : fields.lookup key = some (.ofBinary64 x)) : fields.number key = repairedNumber x := by
  rw [Fields.number, Fields.number?, found, Option.bind_some, lenient_ofBinary64]
  cases x <;> rfl

theorem lenient_ofInt {n : Int} {x : Finite} (exact : Binary64.ofInt n = .finite x) :
    (Value.ofInt n).lenientNumber? = some x := by
  rw [Value.ofInt, Value.lenientNumber?, Number.toBinary64, exact]
  rfl

theorem lenient_count (count : UInt32) :
    ∃ x, (Value.ofInt count.toNat).lenientNumber? = some x ∧ countOf x = count := by
  have word : count.toNat < 2 ^ 32 := count.toNat_lt
  have small : count.toNat ≤ UInt32.size - 1 := Nat.le_pred_of_lt word
  obtain ⟨x, exact, _, whole⟩ := ofInt_isInt (n := count.toNat) (by omega)
  refine ⟨x, lenient_ofInt exact, ?_⟩
  rw [countOf, whole, Int.toNat_natCast, Nat.min_eq_left small, UInt32.ofNat_toNat]

/-- A selection may be rounded on its way, but not to a place below the last point. -/
theorem index_read {fields : Fields} {key : String} {index last : Nat}
    (found : fields.lookup key = some (.ofInt index)) (word : index < 2 ^ 64) (few : last < 2 ^ 53) :
    min (fields.index key) last = min index last := by
  by_cases small : index < 2 ^ 53
  · obtain ⟨x, exact, _, whole⟩ := ofInt_isInt (n := index) (by omega)
    rw [Fields.index, Fields.number?, found, Option.bind_some, lenient_ofInt exact]
    simp only [whole, UInt64.size]
    omega
  · obtain ⟨x, rounded, large⟩ := le_truncate_ofInt (Nat.le_of_not_lt small) word
    rw [Fields.index, Fields.number?, found, Option.bind_some, lenient_ofInt rounded]
    simp only [UInt64.size]
    omega

section Delays

/-- The delays that survive a document: the doubles among the integers of 64 bits, and
the greatest of these integers, since reading comes down to it from what it is rounded to. -/
def DelayKept (delay : Int64) : Prop := (∃ x, IsInt x delay.toInt) ∨ delay = Int64.maxValue

theorem toInt_minValue : Int64.minValue.toInt = -2 ^ 63 := by decide

theorem toInt_maxValue : Int64.maxValue.toInt = 2 ^ 63 - 1 := by decide

theorem delayKept_default : DelayKept defaultDelay := by
  obtain ⟨x, _, same⟩ := ofInt_isInt (n := defaultDelay.toInt) (by decide)
  exact .inl ⟨x, same⟩

theorem minValue_isInt : ∃ x, IsInt x Int64.minValue.toInt :=
  ⟨_, isInt_of_units (natRank_lt_rankLimit (n := 2 ^ 63) (by decide)) (by decide +kernel)⟩

theorem lenient_maxValue :
    ∃ x, (Value.ofInt Int64.maxValue.toInt).lenientNumber? = some x ∧ x.truncate = 2 ^ 63 := by
  have exact := ofInt_finite (n := Int64.maxValue.toInt) (by decide)
  refine ⟨_, lenient_ofInt exact, ?_⟩
  decide +kernel

theorem delay_read {fields : Fields} {key : String} {delay : Int64} (kept : DelayKept delay)
    (found : fields.lookup key = some (.ofInt delay.toInt)) : fields.integer? key = some delay := by
  rw [Fields.integer?, Fields.number?, found, Option.bind_some]
  rcases kept with ⟨x, same⟩ | rfl
  · obtain ⟨y, exact, _, whole⟩ := ofInt_of_isInt same
    have least := delay.minValue_le_toInt
    have greatest := delay.toInt_le
    rw [lenient_ofInt exact, Option.map_some, whole, Int.min_eq_left greatest, Int.max_eq_right least, Int64.ofInt_toInt]
  · obtain ⟨y, exact, whole⟩ := lenient_maxValue
    rw [exact, Option.map_some, whole]
    rfl

/-- Whatever a field holds, the delay read from it survives. -/
theorem delayKept_read {fields : Fields} {key : String} {delay : Int64}
    (read : fields.integer? key = some delay) : DelayKept delay := by
  simp only [Fields.integer?, Option.map_eq_some_iff] at read
  obtain ⟨x, _, rfl⟩ := read
  have least := toInt_minValue
  have greatest := toInt_maxValue
  by_cases above : Int64.maxValue.toInt ≤ x.truncate
  · right
    rw [Int.min_eq_right above, Int.max_eq_right (by omega), Int64.ofInt_toInt]
  left
  rw [Int.min_eq_left (by omega)]
  by_cases below : x.truncate < Int64.minValue.toInt
  · rw [Int.max_eq_left (by omega), Int64.ofInt_toInt]
    exact minValue_isInt
  · rw [Int.max_eq_right (by omega), Int64.toInt_ofInt_of_le (by omega) (by omega)]
    exact truncate_isInt x

end Delays

end SpellPack.Proofs.FieldReading
