import SpellPack.Pack.Layout
import SpellPack.Proofs.IndentedReading
import SpellPack.Proofs.TextEnds

/-! The manifest is written line by line and not as a value, yet it is the indented form of
one. Reading it gives the author back as given, but for the blanks around the name. -/

namespace SpellPack.Proofs.ManifestReading
open Json Text Layout NumeralText QuotedText ValueReading IndentedReading TextEnds

def formatsValue : Value :=
  .object [("min_inclusive", .number (.integer 45)), ("max_inclusive", .number (.integer 81))]

def packValue (stated : String) : Value :=
  .object [("pack_format", .number (.integer 81)), ("description", .string stated),
    ("supported_formats", formatsValue)]

def manifestValue (stated : String) : Value := .object [("pack", packValue stated)]

/-- What is to be said of an author, of whom the name is what the outermost blanks enclose. -/
inductive Describes (author : String) : String → Prop where
  | unsigned (blank : ∀ c ∈ author.toList, isBlank c = true) : Describes author "Spellcasting extension pack"
  | signed {name : String} (trims : Trims author.toList name.toList) (some : name ≠ "") :
      Describes author ("Spellcasting extension pack by " ++ name)

theorem description_of_blank {author : String} (blank : isBlankText author = true) :
    description author = packDescription := by
  rw [description, if_pos blank]

theorem description_of_signed {author : String} (signed : ¬ isBlankText author = true) :
    description author = packDescription ++ " by " ++ trim author := by
  rw [description, if_neg signed]

theorem opening_eq : packDescription ++ " by " = "Spellcasting extension pack by " := by simp [packDescription]

theorem describes_description (author : String) : Describes author (description author) := by
  by_cases blank : isBlankText author = true
  · rw [description_of_blank blank]
    exact .unsigned (List.all_eq_true.mp blank)
  · rw [description_of_signed blank, opening_eq]
    exact .signed (trims_trim author) (by rwa [ne_eq, trim_eq_empty_iff])

/-- There is one way only to describe the pack of an author. -/
theorem describes_iff {author stated : String} : Describes author stated ↔ stated = description author := by
  constructor
  · intro describes
    cases describes with
    | unsigned blank =>
      have blank : isBlankText author = true := List.all_eq_true.mpr blank
      rw [description_of_blank blank, packDescription]
    | signed trims some =>
      have name : trim author = _ := String.toList_inj.mp ((toList_trim author).trans trims.eq)
      have signed : ¬ isBlankText author = true := by rwa [← trim_eq_empty_iff, name]
      rw [description_of_signed signed, opening_eq, name]
  · rintro rfl
    exact describes_description author

/-- Where there is nothing to escape a text stands as it is. -/
theorem toList_quote_plain {name : String} (plain : name.toList.all fun c => escapeChar c == [c]) :
    (quote name).toList = '"' :: name.toList ++ ['"'] := by
  have same : ∀ c ∈ name.toList, escapeChar c = [c] := by simpa using plain
  rw [toList_quote, List.flatMap_congr same, List.flatMap_singleton']

theorem manifest_eq_indented (author : String) :
    manifest author = (manifestValue (description author)).indented 0 ++ "\n" := by
  have pack := @toList_quote_plain "pack" (by decide +kernel)
  have format := @toList_quote_plain "pack_format" (by decide +kernel)
  have described := @toList_quote_plain "description" (by decide +kernel)
  have supported := @toList_quote_plain "supported_formats" (by decide +kernel)
  have least := @toList_quote_plain "min_inclusive" (by decide +kernel)
  have greatest := @toList_quote_plain "max_inclusive" (by decide +kernel)
  have current : toString packFormat = Number.text (.integer 81) := rfl
  have oldest : toString leastFormat = Number.text (.integer 45) := rfl
  rw [← String.toList_inj]
  simp [manifest, manifestLines, manifestValue, packValue, formatsValue, Value.indented, Value.indentedFields,
    Value.block, Value.indent, *]

theorem legible_formatsValue {depth : Nat} : Legible (depth + 1) formatsValue formatsValue :=
  legible_fields rfl (by simp) (.cons (@legible_word _ 45 (by decide)) (.cons (@legible_word _ 81 (by decide)) .nil))

theorem legible_packValue {depth : Nat} (stated : String) :
    Legible (depth + 2) (packValue stated) (packValue stated) :=
  legible_fields rfl (by simp)
    (.cons (@legible_word _ 81 (by decide)) (.cons (.string stated) (.cons legible_formatsValue .nil)))

theorem legible_manifestValue {depth : Nat} (stated : String) :
    Legible (depth + 3) (manifestValue stated) (manifestValue stated) :=
  legible_fields rfl (by simp) (.cons (legible_packValue stated) .nil)

theorem ofText_eq (author : String) : Value.ofText (manifest author) = .ok (manifestValue (description author)) := by
  rw [manifest_eq_indented]
  exact ofText_indented (legible_manifestValue _) (by simp [isSpace])

/-- Whatever the author holds, the manifest is read as the one value that describes the pack. -/
theorem ofText_manifest (author : String) :
    ∃ stated, (∀ said, Describes author said ↔ said = stated) ∧
      Value.ofText (manifest author) = .ok (manifestValue stated) :=
  ⟨description author, fun _ => describes_iff, ofText_eq author⟩

theorem packDescription_ne (name : String) : packDescription ++ " by " ++ name ≠ packDescription := by
  intro same
  have long := congrArg String.length same
  simp only [String.length_append] at long
  have some : " by ".length = 4 := by decide
  omega

theorem description_eq_iff {author other : String} :
    description author = description other ↔ trim author = trim other := by
  constructor
  · intro same
    by_cases blank : isBlankText author = true <;> by_cases blankOther : isBlankText other = true
    · rw [(trim_eq_empty_iff author).mpr blank, (trim_eq_empty_iff other).mpr blankOther]
    · rw [description_of_blank blank, description_of_signed blankOther] at same
      exact absurd same.symm (packDescription_ne _)
    · rw [description_of_signed blank, description_of_blank blankOther] at same
      exact absurd same (packDescription_ne _)
    · rw [description_of_signed blank, description_of_signed blankOther] at same
      exact (String.append_right_inj _).mp same
  · intro same
    have alike : isBlankText author = isBlankText other := by
      rw [Bool.eq_iff_iff, ← trim_eq_empty_iff, ← trim_eq_empty_iff, same]
    rw [description, description, alike, same]

/-- A manifest tells authors apart unless they differ in their outermost blanks only. -/
theorem manifest_eq_iff {author other : String} : manifest author = manifest other ↔ trim author = trim other := by
  constructor
  · intro same
    have read := ofText_eq author
    rw [same, ofText_eq other] at read
    simp only [manifestValue, packValue, Except.ok.injEq, Value.object.injEq, List.cons.injEq, Prod.mk.injEq,
      Value.string.injEq, true_and, and_true] at read
    exact description_eq_iff.mp read.symm
  · intro same
    rw [manifest, manifest, manifestLines, manifestLines, description_eq_iff.mpr same]

end SpellPack.Proofs.ManifestReading
