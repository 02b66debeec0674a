import Mathlib.Computability.Language
import SpellPack.Text.Pieces

/-! Forms of texts, put together like regular expressions from characters of a kind, and
what it means for a text to have one. -/

namespace SpellPack.Proofs.TextForms
open Text
open scoped Computability

def character (kind : Char → Bool) : Language Char := {text | ∃ c, kind c = true ∧ text = [c]}

def optional (form : Language Char) : Language Char := 1 + form

def repeated (form : Language Char) : Language Char := form * form∗

variable {kind : Char → Bool} {form : Language Char} {separator text : List Char}

theorem nil_mem_optional (form : Language Char) : [] ∈ optional form :=
  (Language.mem_add 1 form []).mpr (.inl Language.nil_mem_one)

theorem mem_optional (member : text ∈ form) : text ∈ optional form :=
  (Language.mem_add 1 form text).mpr (.inr member)

theorem mem_character_star : text ∈ (character kind)∗ ↔ ∀ c ∈ text, kind c = true := by
  rw [Language.mem_kstar]
  constructor
  · rintro ⟨parts, rfl, all⟩ c member
    obtain ⟨part, inside, found⟩ := List.mem_flatten.mp member
    obtain ⟨d, fits, rfl⟩ := all part inside
    rwa [List.mem_singleton.mp found]
  · intro all
    refine ⟨text.map fun c => [c], ?_, ?_⟩
    · rw [← List.flatMap_def, List.flatMap_singleton']
    · intro part member
      obtain ⟨c, inside, rfl⟩ := List.mem_map.mp member
      exact ⟨c, all c inside, rfl⟩

theorem mem_repeated_character : text ∈ repeated (character kind) ↔ text ≠ [] ∧ ∀ c ∈ text, kind c = true := by
  rw [repeated, Language.mem_mul]
  constructor
  · rintro ⟨_, ⟨c, fits, rfl⟩, later, more, rfl⟩
    exact ⟨List.cons_ne_nil c later, List.forall_mem_cons.mpr ⟨fits, mem_character_star.mp more⟩⟩
  · rintro ⟨nonempty, all⟩
    obtain ⟨c, later, rfl⟩ := List.exists_cons_of_ne_nil nonempty
    rw [List.forall_mem_cons] at all
    exact ⟨[c], ⟨c, all.1, rfl⟩, later, mem_character_star.mpr all.2, rfl⟩

/-- Each time with the separator in front. -/
theorem mem_separated_star :
    text ∈ ({separator} * form)∗ ↔
      ∃ parts : List (List Char), (∀ part ∈ parts, part ∈ form) ∧ text = parts.flatMap (separator ++ ·) := by
  rw [Language.mem_kstar]
  constructor
  · rintro ⟨pieces, rfl, all⟩
    induction pieces with
    | nil => exact ⟨[], by simp, rfl⟩
    | cons piece pieces ih =>
      rw [List.forall_mem_cons, Language.mem_mul] at all
      obtain ⟨⟨_, rfl, part, fits, rfl⟩, others⟩ := all
      obtain ⟨parts, fit, same⟩ := ih others
      exact ⟨part :: parts, List.forall_mem_cons.mpr ⟨fits, fit⟩, by rw [List.flatten_cons, same, List.flatMap_cons]⟩
  · rintro ⟨parts, fit, rfl⟩
    refine ⟨parts.map (separator ++ ·), List.flatMap_def .., ?_⟩
    intro piece member
    obtain ⟨part, inside, rfl⟩ := List.mem_map.mp member
    exact Language.mem_mul.mpr ⟨separator, rfl, part, fit part inside, rfl⟩

/-- Parts of one form with separators between them. -/
theorem mem_separated : text ∈ form * ({separator} * form)∗ ↔
    ∃ parts, parts ≠ [] ∧ (∀ part ∈ parts, part ∈ form) ∧ text = separator.intercalate parts := by
  simp only [Language.mem_mul, mem_separated_star]
  constructor
  · rintro ⟨first, fits, _, ⟨later, fit, rfl⟩, rfl⟩
    exact ⟨first :: later, List.cons_ne_nil first later, List.forall_mem_cons.mpr ⟨fits, fit⟩,
      (intercalate_cons ..).symm⟩
  · rintro ⟨parts, nonempty, fit, rfl⟩
    obtain ⟨first, later, rfl⟩ := List.exists_cons_of_ne_nil nonempty
    rw [List.forall_mem_cons] at fit
    exact ⟨first, fit.1, _, ⟨later, fit.2, rfl⟩, (intercalate_cons ..).symm⟩

end SpellPack.Proofs.TextForms
