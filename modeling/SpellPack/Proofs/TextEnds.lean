import Mathlib.Data.List.DropRight
import SpellPack.Text.Blank

/-! What is left of a text when characters of one kind are dropped at its ends. It does not
matter at which end the dropping begins, and a second time nothing is left to drop. -/

namespace SpellPack.Proofs.TextEnds
open Text

section Dropping

variable {drop : α → Bool} {items behind : List α} {item : α}

theorem dropEndWhile_eq (drop : α → Bool) (items : List α) : dropEndWhile drop items = items.rdropWhile drop := rfl

theorem mem_of_mem_dropEndWhile (member : item ∈ dropEndWhile drop items) : item ∈ items :=
  (List.rdropWhile_prefix drop items).subset member

theorem dropEndWhile_of_last (stays : ∀ item, items.getLast? = some item → drop item = false) :
    dropEndWhile drop items = items := by
  rw [dropEndWhile_eq, List.rdropWhile_eq_self_iff]
  intro nonempty
  simp [stays _ (List.getLast?_eq_some_getLast nonempty)]

theorem getLast?_dropEndWhile (last : (dropEndWhile drop items).getLast? = some item) : drop item = false := by
  have nonempty : dropEndWhile drop items ≠ [] := List.getLast?_isSome.mp (Option.isSome_of_eq_some last)
  rw [List.getLast?_eq_some_getLast nonempty, Option.some.injEq] at last
  rw [← last, ← Bool.not_eq_true]
  exact List.rdropWhile_last_not drop items nonempty

theorem dropEndWhile_split (items : List α) :
    ∃ dropped, items = dropEndWhile drop items ++ dropped ∧ ∀ item ∈ dropped, drop item = true :=
  ⟨items.rtakeWhile drop, List.rdropWhile_append_rtakeWhile.symm, fun _ => List.mem_rtakeWhile_imp⟩

theorem dropEndWhile_append (dropped : ∀ item ∈ behind, drop item = true) (items : List α) :
    dropEndWhile drop (items ++ behind) = dropEndWhile drop items := by
  rw [dropEndWhile, List.reverse_append, List.dropWhile_append_of_pos (by simpa using dropped), dropEndWhile]

theorem dropWhile_append_of_kept (kept : ∃ item ∈ items, drop item = false) (behind : List α) :
    (items ++ behind).dropWhile drop = items.dropWhile drop ++ behind := by
  rw [List.dropWhile_append, if_neg]
  obtain ⟨item, member, stays⟩ := kept
  rw [List.isEmpty_iff, List.dropWhile_eq_nil_iff]
  intro all
  rw [all item member] at stays
  cases stays

theorem dropEndWhile_append_of_kept (kept : ∃ item ∈ behind, drop item = false) (items : List α) :
    dropEndWhile drop (items ++ behind) = items ++ dropEndWhile drop behind := by
  rw [dropEndWhile, List.reverse_append, dropWhile_append_of_kept (by simpa using kept), List.reverse_append,
    List.reverse_reverse, dropEndWhile]

theorem dropEndWhile_cons (drop : α → Bool) (item : α) (items : List α) :
    dropEndWhile drop (item :: items) =
      if dropEndWhile drop items = [] ∧ drop item = true then [] else item :: dropEndWhile drop items := by
  simp only [dropEndWhile, List.reverse_cons, List.dropWhile_append, List.isEmpty_iff, List.reverse_eq_nil_iff]
  by_cases empty : items.reverse.dropWhile drop = []
  · by_cases dropped : drop item = true <;> simp [empty, dropped]
  · simp [empty]

theorem dropEndWhile_dropWhile (drop : α → Bool) (items : List α) :
    dropEndWhile drop (items.dropWhile drop) = (dropEndWhile drop items).dropWhile drop := by
  induction items with
  | nil => rfl
  | cons item items ih =>
    by_cases dropped : drop item = true
    · rw [List.dropWhile_cons_of_pos dropped, ih, dropEndWhile_cons]
      split
      · next empty => rw [empty.1]
      · rw [List.dropWhile_cons_of_pos dropped]
    · rw [List.dropWhile_cons_of_neg dropped, dropEndWhile_cons, if_neg (by simp [dropped]),
        List.dropWhile_cons_of_neg dropped]

end Dropping

section Trimming

theorem trimmed_append_blank {blanks : List Char} (blank : ∀ c ∈ blanks, isBlank c = true) (text : List Char) :
    trimmed (text ++ blanks) = trimmed text := by
  rw [trimmed, dropEndWhile_dropWhile, dropEndWhile_append blank, ← dropEndWhile_dropWhile, trimmed]

theorem trimmed_trimmed (text : List Char) : trimmed (trimmed text) = trimmed text := by
  have again : (trimmed text).dropWhile isBlank = trimmed text := by
    rw [trimmed, dropEndWhile_dropWhile, List.dropWhile_idempotent]
  rw [trimmed, again]
  exact List.rdropWhile_idempotent isBlank _

theorem trimmed_blank_append {blanks : List Char} (blank : ∀ c ∈ blanks, isBlank c = true) (text : List Char) :
    trimmed (blanks ++ text) = trimmed text := by
  rw [trimmed, List.dropWhile_append_of_pos blank, trimmed]

/-- What stands between the outermost blanks of a text. -/
structure Trims (text kept : List Char) : Prop where
  around : ∃ before after, text = before ++ kept ++ after ∧ (∀ c ∈ before, isBlank c = true) ∧
    ∀ c ∈ after, isBlank c = true
  first : ∀ c, kept.head? = some c → isBlank c = false
  last : ∀ c, kept.getLast? = some c → isBlank c = false

theorem trims_trimmed (text : List Char) : Trims text (trimmed text) := by
  obtain ⟨after, split, blank⟩ := @dropEndWhile_split _ isBlank (text.dropWhile isBlank)
  refine ⟨⟨text.takeWhile isBlank, after, ?_, fun c => List.mem_takeWhile_imp, blank⟩, ?_, ?_⟩
  · rw [trimmed, List.append_assoc, ← split, List.takeWhile_append_dropWhile]
  · intro c first
    rw [trimmed, dropEndWhile_dropWhile] at first
    simpa [first] using List.head?_dropWhile_not isBlank (dropEndWhile isBlank text)
  · intro c last
    exact getLast?_dropEndWhile last

theorem trims_trim (text : String) : Trims text.toList (trim text).toList := by
  rw [toList_trim]
  exact trims_trimmed text.toList

theorem Trims.eq {text kept : List Char} (trims : Trims text kept) : trimmed text = kept := by
  obtain ⟨before, after, rfl, blankBefore, blankAfter⟩ := trims.around
  rw [trimmed_append_blank blankAfter, trimmed_blank_append blankBefore, trimmed, List.dropWhile_eq_self_iff.mpr,
    dropEndWhile_of_last trims.last]
  intro long
  have first : kept.head? = some kept[0] := by rw [List.head?_eq_getElem?, List.getElem?_eq_getElem long]
  simpa using trims.first _ first

/-- Trimming leaves white space where something stands on both sides of it. -/
theorem mem_trimmed_iff {c : Char} (blank : isBlank c = true) {text : List Char} : c ∈ trimmed text ↔
    ∃ before after, text = before ++ c :: after ∧ (∃ d ∈ before, isBlank d = false) ∧
      ∃ d ∈ after, isBlank d = false := by
  have not_solid : isBlank c ≠ false := by simp [blank]
  constructor
  · intro member
    obtain ⟨⟨outerFront, outerBack, split, _, _⟩, first, last⟩ := trims_trimmed text
    obtain ⟨front, back, kept⟩ := List.append_of_mem member
    rw [kept] at split first last
    refine ⟨outerFront ++ front, back ++ outerBack, by simp [split], ?_, ?_⟩
    · cases front with
      | nil => exact absurd (first c rfl) not_solid
      | cons d later => exact ⟨d, by simp, first d rfl⟩
    · cases ending : back.getLast? with
      | none =>
        rw [List.getLast?_eq_none_iff.mp ending] at last
        exact absurd (last c (by simp)) not_solid
      | some d =>
        have final : (front ++ c :: back).getLast? = some d := by simp [List.getLast?_append, List.getLast?_cons, ending]
        exact ⟨d, List.mem_append_left _ (List.mem_of_getLast? ending), last d final⟩
  · rintro ⟨before, after, rfl, inFront, behind⟩
    rw [trimmed, dropWhile_append_of_kept inFront, List.append_cons, dropEndWhile_append_of_kept behind]
    simp

end Trimming

end SpellPack.Proofs.TextEnds
