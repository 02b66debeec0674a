import SpellPack.Proofs.TextEnds
import SpellPack.Text.Slug

/-! Which characters a slug can hold. -/

namespace SpellPack.Proofs.SlugText
open Text TextEnds

def IsIdChar (c : Char) : Prop := isSlugChar c = true ∨ c = '_'

theorem isIdChar_underscored (text : List Char) : ∀ c ∈ underscored text, IsIdChar c := by
  induction text with
  | nil => simp [underscored]
  | cons first rest ih =>
    rw [underscored]
    split
    · next kept => exact List.forall_mem_cons.mpr ⟨.inl kept, ih⟩
    split
    · next later same =>
      rw [same] at ih
      exact ih
    · exact List.forall_mem_cons.mpr ⟨.inr rfl, ih⟩

theorem isIdChar_slug (name : String) : ∀ c ∈ (slug name).toList, IsIdChar c := by
  intro c member
  rw [slug] at member
  split at member
  · have letters : ∀ c ∈ defaultSlug.toList, isSlugChar c = true := by simp [defaultSlug, isSlugChar]
    exact .inl (letters c member)
  · rw [String.toList_ofList] at member
    exact isIdChar_underscored _ c ((List.dropWhile_sublist _).mem (mem_of_mem_dropEndWhile member))

theorem not_mem_slug {c : Char} (other : ¬ IsIdChar c) (name : String) : c ∉ (slug name).toList :=
  fun member => other (isIdChar_slug name c member)

end SpellPack.Proofs.SlugText
