import SpellPack.Decimal.Notation
import SpellPack.Proofs.SlugText
import SpellPack.Text.Lines
import SpellPack.Text.Pieces

/-! Joined texts come apart into what was joined, as long as the separator does not stand
in the parts. Fields on one line, ids and numbers hold few of the characters that separate. -/

namespace SpellPack.Proofs.FileLines
open Text SlugText TextEnds

section Separators

variable {separator : Char} {front : List Char}

theorem bne_of_not_mem (plain : separator ∉ front) : ∀ c ∈ front, (c != separator) = true := by
  intro c member
  rw [bne_iff_ne]
  rintro rfl
  exact plain member

theorem takeWhile_until (plain : separator ∉ front) (rest : List Char) :
    (front ++ separator :: rest).takeWhile (· != separator) = front := by
  rw [List.takeWhile_append_of_pos (bne_of_not_mem plain), List.takeWhile_cons_of_neg (by simp), List.append_nil]

theorem dropWhile_until (plain : separator ∉ front) (rest : List Char) :
    (front ++ separator :: rest).dropWhile (· != separator) = separator :: rest := by
  rw [List.dropWhile_append_of_pos (bne_of_not_mem plain), List.dropWhile_cons_of_neg (by simp)]

theorem dropWhile_without (plain : separator ∉ front) : front.dropWhile (· != separator) = [] := by
  have alone := @List.dropWhile_append_of_pos _ _ _ [] (bne_of_not_mem plain)
  rwa [List.append_nil, List.dropWhile_nil] at alone

theorem splitAt_eq (separator : Char) (text : List Char) : splitAt separator text = text.splitOn separator := by
  induction text with
  | nil => rfl
  | cons c rest ih =>
    rw [splitAt, ih, List.splitOn_cons_eq_if_modifyHead]
    by_cases same : c = separator
    · rw [if_pos same, if_pos (beq_iff_eq.mpr same)]
    · rw [if_neg same, if_neg (by simpa using same)]
      cases pieces : rest.splitOn separator with
      | nil => exact absurd pieces (List.splitOn_ne_nil separator rest)
      | cons piece later => rfl

theorem splitAt_ne_nil (separator : Char) (text : List Char) : splitAt separator text ≠ [] := by
  rw [splitAt_eq]
  exact List.splitOn_ne_nil separator text

theorem splitAt_join (separator : Char) (front back : List Char) :
    splitAt separator (front ++ separator :: back) = splitAt separator front ++ splitAt separator back := by
  simp only [splitAt_eq]
  exact List.splitOn_append_cons_self front back

theorem intercalate_splitAt (separator : Char) (text : List Char) :
    [separator].intercalate (splitAt separator text) = text := by
  rw [splitAt_eq]
  exact List.intercalate_splitOn separator

theorem splitAt_cons_other {c : Char} (other : c ≠ separator) {text piece : List Char} {later : List (List Char)}
    (split : splitAt separator text = piece :: later) : splitAt separator (c :: text) = (c :: piece) :: later := by
  rw [splitAt, if_neg other, split]

theorem not_mem_splitAt (separator : Char) (text : List Char) :
    ∀ piece ∈ splitAt separator text, separator ∉ piece := by
  induction text with
  | nil => simp [splitAt]
  | cons c later ih =>
    by_cases same : c = separator
    · simpa [splitAt, same] using ih
    · obtain ⟨piece, others, pieces⟩ := List.exists_cons_of_ne_nil (splitAt_ne_nil separator later)
      rw [pieces, List.forall_mem_cons] at ih
      rw [splitAt_cons_other same pieces, List.forall_mem_cons, List.mem_cons, not_or]
      exact ⟨⟨Ne.symm same, ih.1⟩, ih.2⟩

theorem flatten_splitAt (separator : Char) (text : List Char) :
    (splitAt separator text).flatten = text.filter (· != separator) := by
  induction text with
  | nil => rfl
  | cons c rest ih =>
    by_cases ends : c = separator
    · rw [splitAt, if_pos ends, List.flatten_cons, ih, List.filter_cons_of_neg (by simpa using ends), List.nil_append]
    · obtain ⟨piece, later, split⟩ := List.exists_cons_of_ne_nil (splitAt_ne_nil separator rest)
      rw [List.filter_cons_of_pos (by simpa using ends), ← ih, split, splitAt_cons_other ends split]
      rfl

theorem splitAt_without (plain : separator ∉ front) : splitAt separator front = [front] := by
  rw [splitAt_eq]
  exact List.splitOn_eq_singleton plain

theorem splitAt_intercalate {parts : List (List Char)} (plain : ∀ part ∈ parts, separator ∉ part)
    (nonempty : parts ≠ []) : splitAt separator ([separator].intercalate parts) = parts := by
  rw [splitAt_eq]
  exact List.splitOn_intercalate separator plain nonempty

theorem not_mem_intercalate {c : Char} (different : c ≠ separator) {parts : List (List Char)}
    (plain : ∀ part ∈ parts, c ∉ part) : c ∉ [separator].intercalate parts := by
  cases parts with
  | nil => simp
  | cons first later =>
    rw [intercalate_cons]
    intro member
    rcases List.mem_append.mp member with inside | behind
    · exact plain first (by simp) inside
    · obtain ⟨part, joined, inside⟩ := List.mem_flatMap.mp behind
      rcases List.mem_cons.mp inside with same | inside
      · exact different same
      · exact plain part (List.mem_cons_of_mem first joined) inside

theorem not_mem_pieces {text piece : String} (member : piece ∈ pieces separator text) : separator ∉ piece.toList := by
  obtain ⟨chars, inside, rfl⟩ := List.mem_map.mp member
  rw [String.toList_ofList]
  exact not_mem_splitAt separator text.toList chars inside

theorem mem_pieces_iff {c : Char} (other : c ≠ separator) (text : String) :
    c ∈ text.toList ↔ ∃ piece ∈ pieces separator text, c ∈ piece.toList := by
  have inside : c ∈ text.toList ↔ c ∈ (splitAt separator text.toList).flatten := by
    rw [flatten_splitAt, List.mem_filter, bne_iff_ne, and_iff_left other]
  simp [inside, pieces, List.mem_flatten]

theorem pieces_without {text : String} (plain : separator ∉ text.toList) :
    pieces separator text = [text] := by
  rw [pieces, splitAt_without plain, List.map_singleton, String.ofList_toList]

theorem intercalate_pieces {gap : String} (single : gap.toList = [separator]) (text : String) :
    gap.intercalate (pieces separator text) = text := by
  apply String.toList_inj.mp
  simpa [pieces, String.toList_intercalate, single, Function.comp_def] using intercalate_splitAt separator text.toList

theorem pieces_join {gap : String} (single : gap.toList = [separator]) (front back : String) :
    pieces separator (front ++ gap ++ back) = pieces separator front ++ pieces separator back := by
  simp [pieces, single, splitAt_join]

theorem pieces_intercalate {gap : String} (single : gap.toList = [separator]) {parts : List String}
    (plain : ∀ part ∈ parts, separator ∉ part.toList) (nonempty : parts ≠ []) :
    pieces separator (gap.intercalate parts) = parts := by
  have apart : ∀ part ∈ parts.map String.toList, separator ∉ part := by
    intro chars member
    obtain ⟨part, inside, rfl⟩ := List.mem_map.mp member
    exact plain part inside
  rw [pieces, String.toList_intercalate, single, splitAt_intercalate apart (by simpa using nonempty), List.map_map]
  simp [Function.comp_def]

/-- A text of lines comes apart into them. -/
theorem pieces_joinLines {lines : List String} (plain : ∀ line ∈ lines, '\n' ∉ line.toList) (nonempty : lines ≠ []) :
    pieces '\n' (joinLines lines) = lines :=
  pieces_intercalate rfl plain nonempty

end Separators

section Closing

variable {lines : List String} {text : String}

def EndsOnce (text : String) : Prop := ∃ front, text = front ++ "\n" ∧ front.toList.getLast? ≠ some '\n'

theorem endsOnce_closeLines (text : String) : EndsOnce (closeLines text) := by
  refine ⟨_, rfl, ?_⟩
  rw [String.toList_ofList]
  intro last
  exact absurd (getLast?_dropEndWhile last) (by decide)

theorem closeLines_eq (unended : text.toList.getLast? ≠ some '\n') : closeLines text = text ++ "\n" := by
  rw [closeLines, dropEndWhile_of_last, String.ofList_toList]
  intro c last
  rw [beq_eq_false_iff_ne]
  rintro rfl
  exact unended last

theorem joinLines_cons_cons (first second : String) (later : List String) :
    joinLines (first :: second :: later) = first ++ "\n" ++ joinLines (second :: later) := by
  apply String.toList_inj.mp
  simp [joinLines, String.toList_intercalate]

theorem joinLines_append (nonempty : lines ≠ []) (last : String) :
    joinLines (lines ++ [last]) = joinLines lines ++ "\n" ++ last := by
  induction lines with
  | nil => exact absurd rfl nonempty
  | cons first later ih =>
    cases later with
    | nil => simp [joinLines]
    | cons second later =>
      rw [List.cons_append, List.cons_append, joinLines_cons_cons, joinLines_cons_cons, ← List.cons_append,
        ih (List.cons_ne_nil _ _)]
      simp only [String.append_assoc]

theorem unended_joinLines {last : String} (plain : '\n' ∉ last.toList) (visible : last ≠ "") (before : List String) :
    (joinLines (before ++ [last])).toList.getLast? ≠ some '\n' := by
  have ends : ∃ front : List Char, (joinLines (before ++ [last])).toList = front ++ last.toList := by
    by_cases empty : before = []
    · exact ⟨[], by simp [empty, joinLines]⟩
    · exact ⟨_, by rw [joinLines_append empty, String.toList_append]⟩
  obtain ⟨front, text⟩ := ends
  have nonempty : last.toList ≠ [] := by rwa [ne_eq, String.toList_eq_nil_iff]
  obtain ⟨c, final⟩ := Option.isSome_iff_exists.mp (List.getLast?_isSome.mpr nonempty)
  rw [text, List.getLast?_append, final, Option.some_or]
  rintro ⟨⟩
  exact plain (List.mem_of_getLast? final)

/-- Closing a text of lines takes none of them away if the last one is not empty. -/
theorem closeLines_joinLines (plain : ∀ line ∈ lines, '\n' ∉ line.toList) (nonempty : lines ≠ [])
    (visible : lines.getLast? ≠ some "") : closeLines (joinLines lines) = joinLines lines ++ "\n" := by
  rw [List.getLast?_eq_some_getLast nonempty, ne_eq, Option.some.injEq] at visible
  have unended := unended_joinLines (plain _ (List.getLast_mem nonempty)) visible lines.dropLast
  rw [List.dropLast_concat_getLast nonempty] at unended
  exact closeLines_eq unended

/-- A file of lines comes apart into them and an empty piece behind the last line feed. -/
theorem pieces_closed (plain : ∀ line ∈ lines, '\n' ∉ line.toList) (nonempty : lines ≠ []) :
    pieces '\n' (joinLines lines ++ "\n") = lines ++ [""] := by
  have closed := joinLines_append nonempty ""
  rw [String.append_empty] at closed
  rw [← closed]
  apply pieces_joinLines _ (by simp)
  intro line member
  rcases List.mem_append.mp member with inside | last
  · exact plain line inside
  · rw [List.mem_singleton.mp last]
    decide

theorem pieces_closeLines (plain : ∀ line ∈ lines, '\n' ∉ line.toList) (nonempty : lines ≠ [])
    (visible : lines.getLast? ≠ some "") : pieces '\n' (closeLines (joinLines lines)) = lines ++ [""] := by
  rw [closeLines_joinLines plain nonempty visible, pieces_closed plain nonempty]

end Closing

section Parts

variable {c : Char}

/-- For fixed texts, which are lists of characters by definition. -/
theorem not_mem_literal {chars : List Char} (plain : c ∉ chars) : c ∉ (String.ofList chars).toList := by
  rwa [String.toList_ofList]

/-- For a character of a kind that does not stand in a fixed text. -/
theorem not_mem_fixed {kind : Char → Bool} (fits : kind c = true) {chars : List Char}
    (plain : chars.any kind = false) : c ∉ (String.ofList chars).toList := by
  rw [String.toList_ofList]
  intro member
  rw [List.any_eq_true.mpr ⟨c, member, fits⟩] at plain
  cases plain

theorem not_mem_append {front back : String} (first : c ∉ front.toList) (second : c ∉ back.toList) :
    c ∉ (front ++ back).toList := by
  rw [String.toList_append, List.mem_append, not_or]
  exact ⟨first, second⟩

theorem append_ne_empty {front : String} (visible : front ≠ "") (back : String) : front ++ back ≠ "" := by
  intro empty
  exact visible (String.append_eq_empty_iff.mp empty).1

end Parts

/-- A character that neither ids nor numbers hold. -/
def foreign (c : Char) : Bool := !isSlugChar c && c != '_' && c != '.'

section Foreign

variable {c : Char}

theorem range_of_own (own : foreign c = false) : 0x2D ≤ c.toNat ∧ c.toNat ≤ 0x7A := by
  have letters : 'a'.val.toNat = 0x61 ∧ 'z'.val.toNat = 0x7A ∧ '0'.val.toNat = 0x30 ∧ '9'.val.toNat = 0x39 := by decide
  simp only [foreign, isSlugChar, Bool.and_eq_false_iff, Bool.not_eq_false', Bool.or_eq_true, Bool.and_eq_true,
    decide_eq_true_eq, beq_iff_eq, bne_eq_false_iff_eq, Char.le_def, UInt32.le_iff_toNat_le] at own
  rw [Char.toNat]
  rcases own with ((range | rfl) | rfl) | rfl
  · omega
  all_goals decide

theorem foreign_of_range (outside : c.toNat ≤ 0x20 ∨ 0x7F ≤ c.toNat) : foreign c = true := by
  cases own : foreign c with
  | true => rfl
  | false =>
    have range := range_of_own own
    omega

theorem foreign_slug (other : foreign c = true) (name : String) : c ∉ (slug name).toList := by
  apply not_mem_slug
  simp only [foreign, Bool.and_eq_true, Bool.not_eq_true', bne_iff_ne] at other
  rintro (kept | underscore)
  · rw [kept] at other
    exact absurd other.1.1 (by decide)
  · exact other.1.2 underscore

theorem isSlugChar_digit (digit : c.isDigit = true) : isSlugChar c = true := by
  rw [Char.isDigit, Bool.and_eq_true, decide_eq_true_eq, decide_eq_true_eq] at digit
  have least : '0' ≤ c := digit.1
  have greatest : c ≤ '9' := digit.2
  simp [isSlugChar, least, greatest]

theorem foreign_digits (other : foreign c = true) (n : Nat) : c ∉ (toString n).toList := by
  intro member
  rw [Nat.toString_eq_repr, Nat.toList_repr] at member
  have kept := isSlugChar_digit (Nat.isDigit_of_mem_toDigits (by decide) (by decide) member)
  simp [foreign, kept] at other

theorem foreign_hundredths (other : foreign c = true) (count : Nat) : c ∉ (Binary64.hundredthsText count).toList := by
  have point : c ∉ ".".toList := by
    intro member
    rw [List.mem_singleton.mp member] at other
    exact absurd other (by decide)
  unfold Binary64.hundredthsText
  dsimp only
  split
  · simp only [String.toList_append, List.mem_append, foreign_digits other, point, or_self, not_false_eq_true]
  split
  · simp only [String.toList_append, List.mem_append, foreign_digits other, point, or_self, not_false_eq_true]
  · exact foreign_digits other _

theorem foreign_sign (other : foreign c = true) : c ∉ "-".toList := by
  intro member
  rw [List.mem_singleton.mp member] at other
  exact absurd other (by decide)

theorem foreign_integer (other : foreign c = true) (n : Int) : c ∉ (toString n).toList := by
  cases n with
  | ofNat n => exact foreign_digits other n
  | negSucc n =>
    have text : toString (Int.negSucc n) = "-" ++ toString (n + 1) := rfl
    rw [text]
    exact not_mem_append (foreign_sign other) (foreign_digits other (n + 1))

theorem foreign_commandText (other : foreign c = true) (x : Binary64) : c ∉ x.commandText.toList := by
  have zero : c ∉ "0".toList := foreign_digits other 0
  cases x with
  | finite y =>
    simp only [Binary64.commandText, Binary64.Finite.commandText]
    generalize (if y.isIntegral = true then y.wholeDigits * 100 else y.hundredths) = count
    split
    · exact not_mem_append (foreign_sign other) (foreign_hundredths other _)
    · exact foreign_hundredths other _
  | nan => exact zero
  | infinite negative => exact zero

end Foreign

theorem foreign_blank {c : Char} (blank : isBlank c = true) : foreign c = true := by
  apply foreign_of_range
  simp only [isBlank, Bool.or_eq_true, Bool.and_eq_true, decide_eq_true_eq, beq_iff_eq] at blank
  omega

section Control

variable {c : Char}

theorem foreign_control (control : isControl c = true) : foreign c = true := by
  apply foreign_of_range
  simp only [isControl, Bool.or_eq_true, Bool.and_eq_true, decide_eq_true_eq] at control
  omega

/-- Nothing is left of the line breaks of a field, nor of its other control characters. -/
theorem control_singleLine (control : isControl c = true) (text : String) : c ∉ (singleLine text).toList := by
  intro member
  rw [singleLine, String.toList_ofList, trimmed] at member
  have mapped := (List.dropWhile_sublist _).mem (mem_of_mem_dropEndWhile member)
  obtain ⟨original, _, same⟩ := List.mem_map.mp mapped
  split at same
  · rw [← same] at control
    exact absurd control (by decide)
  · next visible =>
    rw [same] at visible
    exact visible control

end Control

end SpellPack.Proofs.FileLines
