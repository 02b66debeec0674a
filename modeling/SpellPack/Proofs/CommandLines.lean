import SpellPack.Proofs.FileLines

/-! The commands that a list of entries holds. Each stands on one line and is not blank, and
it does not matter whether a text was split into entries before. -/

namespace SpellPack.Proofs.CommandLines
open Text TextEnds

theorem unbroken_cons {c : Char} {line : List Char} (noBreak : c ≠ '\n') (unbroken : '\n' ∉ line) :
    '\n' ∉ c :: line := by
  rw [List.mem_cons, not_or]
  exact ⟨noBreak.symm, unbroken⟩

theorem unbroken_splitLines {text line : List Char} (member : line ∈ splitLines text) : '\n' ∉ line := by
  induction text using splitLines.induct generalizing line with
  | case1 => cases member
  | case2 rest ih | case3 rest ih =>
    rw [splitLines, List.mem_cons] at member
    rcases member with rfl | later
    · exact List.not_mem_nil
    · exact ih later
  | case4 c rest noBreak noReturn empty ih =>
    rw [splitLines.eq_4 c rest noBreak noReturn, empty, List.mem_singleton] at member
    subst member
    exact unbroken_cons noBreak List.not_mem_nil
  | case5 c rest noBreak noReturn first later split ih =>
    rw [split] at ih
    rw [splitLines.eq_4 c rest noBreak noReturn, split, List.mem_cons] at member
    rcases member with rfl | behind
    · exact unbroken_cons noBreak (ih List.mem_cons_self)
    · exact ih (List.mem_cons_of_mem first behind)

theorem splitLines_unbroken {line : List Char} (unbroken : '\n' ∉ line) :
    splitLines line = if line = [] then [] else [line] := by
  induction line with
  | nil => rfl
  | cons c rest ih =>
    rw [List.mem_cons, not_or] at unbroken
    have noReturn : ∀ behind, c = '\r' → rest = '\n' :: behind → False := by
      rintro behind _ rfl
      exact unbroken.2 List.mem_cons_self
    rw [splitLines.eq_4 c rest (Ne.symm unbroken.1) noReturn, ih unbroken.2, if_neg (List.cons_ne_nil c rest)]
    by_cases empty : rest = []
    · simp [empty]
    · simp [empty]

theorem unbroken_lines {text line : String} (member : line ∈ lines text) : '\n' ∉ line.toList := by
  obtain ⟨chars, inside, rfl⟩ := List.mem_map.mp member
  rw [String.toList_ofList]
  exact unbroken_splitLines inside

theorem lines_unbroken {line : String} (unbroken : '\n' ∉ line.toList) :
    lines line = if line = "" then [] else [line] := by
  rw [lines, splitLines_unbroken unbroken]
  by_cases empty : line = ""
  · simp [empty]
  · simp [empty]

/-- A command stands on one line and is not blank. -/
theorem unbroken_commandLines {entries : List String} {line : String} (member : line ∈ commandLines entries) :
    '\n' ∉ line.toList ∧ line ≠ "" := by
  obtain ⟨trimmedLine, visible⟩ := List.mem_filter.mp member
  obtain ⟨whole, inside, rfl⟩ := List.mem_map.mp trimmedLine
  obtain ⟨entry, _, lineOf⟩ := List.mem_flatMap.mp inside
  constructor
  · intro broken
    rw [toList_trim, trimmed] at broken
    exact unbroken_lines lineOf ((List.dropWhile_sublist _).mem (mem_of_mem_dropEndWhile broken))
  · simpa using visible

/-- Entries of one line each are only trimmed. -/
theorem commandLines_unbroken {entries : List String} (unbroken : ∀ entry ∈ entries, '\n' ∉ entry.toList) :
    commandLines entries = (entries.map trim).filter fun line => !line.isEmpty := by
  induction entries with
  | nil => rfl
  | cons entry later ih =>
    rw [List.forall_mem_cons] at unbroken
    have remaining := ih unbroken.2
    have first : ((lines entry).map trim).filter (fun line => !line.isEmpty) =
        ([entry].map trim).filter fun line => !line.isEmpty := by
      rw [lines_unbroken unbroken.1]
      split
      · next empty => simp [empty, trim, trimmed, dropEndWhile]
      · rfl
    rw [commandLines] at remaining ⊢
    rw [List.flatMap_cons, List.map_append, List.filter_append, first, remaining, ← List.filter_append,
      ← List.map_append, List.singleton_append]

/-- Entries may be split into lines before, since lines are split no further. -/
theorem commandLines_flatMap_lines (entries : List String) :
    commandLines (entries.flatMap lines) = commandLines entries := by
  apply commandLines_unbroken
  intro line member
  obtain ⟨_, _, inside⟩ := List.mem_flatMap.mp member
  exact unbroken_lines inside

theorem commandLines_lines (text : String) : commandLines (lines text) = commandLines [text] := by
  rw [← commandLines_flatMap_lines [text], List.flatMap_singleton]

end SpellPack.Proofs.CommandLines
