import SpellPack.Pack.Assembly
import SpellPack.Proofs.CommandLines

/-! It does not matter how commands are grouped into entries. Lines end where pieces between
line feeds end, but for a carriage return, and that is trimmed away. -/

namespace SpellPack.Proofs.CommandGrouping
open Text TextEnds FileLines CommandLines

def commandsOf (pieces : List String) : List String := (pieces.filter fun piece => !isBlankText piece).map trim

section Pieces

theorem commandsOf_eq (pieces : List String) :
    commandsOf pieces = (pieces.map trim).filter fun line => !line.isEmpty := by
  have blank : ∀ piece, (trim piece).isEmpty = isBlankText piece := by
    intro piece
    rw [Bool.eq_iff_iff, String.isEmpty_iff, trim_eq_empty_iff]
  rw [commandsOf, List.filter_map]
  simp only [Function.comp_def, blank]

theorem commandsOf_append (front back : List String) :
    commandsOf (front ++ back) = commandsOf front ++ commandsOf back := by
  rw [commandsOf, List.filter_append, List.map_append]
  rfl

theorem commandsOf_flatMap {some other : String → List String}
    (same : ∀ entry, commandsOf (some entry) = commandsOf (other entry)) (entries : List String) :
    commandsOf (entries.flatMap some) = commandsOf (entries.flatMap other) := by
  induction entries with
  | nil => rfl
  | cons entry later ih => rw [List.flatMap_cons, commandsOf_append, same, ih, ← commandsOf_append, ← List.flatMap_cons]

/-- A line ends at a line feed and takes a carriage return in front of it away. -/
theorem splitLines_append {front : List Char} (unbroken : '\n' ∉ front) (rest : List Char) :
    ∃ line, (front = line ∨ front = line ++ ['\r']) ∧ splitLines (front ++ '\n' :: rest) = line :: splitLines rest := by
  induction front with
  | nil => exact ⟨[], .inl rfl, rfl⟩
  | cons c front ih =>
    rw [List.mem_cons, not_or] at unbroken
    by_cases ending : c = '\r' ∧ front = []
    · obtain ⟨rfl, rfl⟩ := ending
      exact ⟨[], .inr rfl, rfl⟩
    · have noReturn : ∀ behind, c = '\r' → front ++ '\n' :: rest = '\n' :: behind → False := by
        intro behind return_ same
        cases front with
        | nil => exact ending ⟨return_, rfl⟩
        | cons next front =>
          obtain ⟨rfl, _⟩ := List.cons.inj same
          exact unbroken.2 List.mem_cons_self
      obtain ⟨line, ends, split⟩ := ih unbroken.2
      refine ⟨c :: line, ?_, ?_⟩
      · rcases ends with rfl | rfl
        · exact .inl rfl
        · exact .inr rfl
      · rw [List.cons_append, splitLines.eq_4 c _ (Ne.symm unbroken.1) noReturn, split]

theorem lines_break {front : String} (unbroken : '\n' ∉ front.toList) (rest : String) :
    ∃ line, trim line = trim front ∧ lines (front ++ "\n" ++ rest) = line :: lines rest := by
  obtain ⟨line, ends, split⟩ := splitLines_append unbroken rest.toList
  refine ⟨String.ofList line, ?_, ?_⟩
  · apply String.toList_inj.mp
    rw [toList_trim, toList_trim, String.toList_ofList]
    rcases ends with same | same
    · rw [same]
    · rw [same, trimmed_append_blank (List.forall_mem_singleton.mpr rfl)]
  · simp [lines, split]

theorem commandsOf_lines_joinLines {parts : List String} (unbroken : ∀ part ∈ parts, '\n' ∉ part.toList) :
    commandsOf (lines (joinLines parts)) = commandsOf parts := by
  induction parts with
  | nil => rfl
  | cons part later ih =>
    rw [List.forall_mem_cons] at unbroken
    cases later with
    | nil =>
      have alone : joinLines [part] = part := by simp [joinLines]
      rw [alone, lines_unbroken unbroken.1]
      split
      · next empty => rw [empty]; rfl
      · rfl
    | cons second later =>
      obtain ⟨line, same, split⟩ := lines_break unbroken.1 (joinLines (second :: later))
      have remaining := ih unbroken.2
      rw [commandsOf_eq, commandsOf_eq] at remaining ⊢
      rw [joinLines_cons_cons, split, List.map_cons, List.map_cons, same, List.filter_cons, List.filter_cons, remaining]

theorem commandsOf_lines (text : String) : commandsOf (lines text) = commandsOf (pieces '\n' text) := by
  have whole : joinLines (pieces '\n' text) = text := intercalate_pieces rfl text
  rw [← commandsOf_lines_joinLines fun piece => not_mem_pieces, whole]

theorem commandsOf_pieces_joinLines (entries : List String) :
    commandsOf (pieces '\n' (joinLines entries)) = commandsOf (entries.flatMap (pieces '\n')) := by
  induction entries with
  | nil => rfl
  | cons entry later ih =>
    cases later with
    | nil => simp [joinLines]
    | cons second later =>
      rw [joinLines_cons_cons, pieces_join rfl, commandsOf_append, ih, ← commandsOf_append, ← List.flatMap_cons]

end Pieces

section Entries

variable (entries : List String)

theorem commandLines_eq : commandLines entries = commandsOf (entries.flatMap (pieces '\n')) := by
  rw [← commandsOf_flatMap commandsOf_lines, commandsOf_eq, commandLines]

theorem commandLines_joinLines : commandLines [joinLines entries] = commandLines entries := by
  rw [commandLines_eq, List.flatMap_singleton, commandsOf_pieces_joinLines, commandLines_eq]

theorem trim_commandLines : ∀ line ∈ commandLines entries, trim line = line := by
  intro line member
  obtain ⟨whole, _, rfl⟩ := List.mem_map.mp (List.mem_filter.mp member).1
  apply String.toList_inj.mp
  rw [toList_trim, toList_trim, trimmed_trimmed]

theorem commandLines_commandLines : commandLines (commandLines entries) = commandLines entries := by
  rw [commandLines_unbroken fun line member => (unbroken_commandLines member).1,
    List.map_congr_left (trim_commandLines entries), List.map_id', List.filter_eq_self]
  intro line member
  simpa using (unbroken_commandLines member).2

end Entries

structure Grouped (entries : List String) : Prop where
  pieces : commandLines entries = commandsOf (entries.flatMap (pieces '\n'))
  joined : commandLines [joinLines entries] = commandLines entries
  split : commandLines (entries.flatMap lines) = commandLines entries
  again : commandLines (commandLines entries) = commandLines entries

section Documents

def joinedPoint (point : Point) : Point := { point with commands := [joinLines point.commands] }

def joined (document : Document) : Document :=
  { document with
    points := document.points.map joinedPoint
    finishCommands := [joinLines document.finishCommands] }

variable (document : Document)

theorem pointText_joined (index : Nat) (point : Point) :
    (joined document).pointText index (joinedPoint point) = document.pointText index point := by
  simp only [Document.pointText, PointFile.text, PointFile.fileLines, joinedPoint, joined, commandLines_joinLines,
    List.length_map]
  rfl

theorem activationLines_joined : (joined document).activationLines = document.activationLines := by
  simp only [Document.activationLines, joined, commandLines_joinLines]
  rfl

theorem assemble_joined : (joined document).assemble = document.assemble := by
  have points : (joined document).pointFiles = document.pointFiles := by
    have mapped : (joined document).points = document.points.map joinedPoint := rfl
    rw [Document.pointFiles, mapped, List.zipIdx_map, List.map_map]
    apply List.map_congr_left
    intro ⟨point, index⟩ _
    simp only [Function.comp_apply, Prod.map_apply, id_eq, pointText_joined]
    rfl
  have activation : (joined document).activationFile = document.activationFile := by
    rw [Document.activationFile, activationLines_joined]
    rfl
  rw [Document.assemble, Document.packFiles, points, activation]
  rfl

theorem previewPoint_joined (index : Nat) : (joined document).previewPoint index = document.previewPoint index := by
  rw [Document.previewPoint, joined, List.getElem?_map, List.length_map, ← joined, Document.previewPoint]
  cases document.points[index]? with
  | none => rfl
  | some point => simp only [Option.map_some, pointText_joined]

/-- What is made of the commands of two documents does not tell them apart. -/
structure Indistinct (first second : Document) : Prop where
  packed : first.assemble = second.assemble
  previewed : ∀ index, first.previewPoint index = second.previewPoint index
  activated : first.activationLines = second.activationLines

end Documents

/-- Documents in which the same commands are grouped in two ways are equal once joined. -/
theorem grouping_free : (∀ entries, Grouped entries) ∧
    ∀ first second : Document, joined first = joined second → Indistinct first second := by
  constructor
  · intro entries
    exact ⟨commandLines_eq entries, commandLines_joinLines entries, commandLines_flatMap_lines entries,
      commandLines_commandLines entries⟩
  · intro first second same
    refine ⟨?_, fun index => ?_, ?_⟩
    · rw [← assemble_joined, same, assemble_joined]
    · rw [← previewPoint_joined, same, previewPoint_joined]
    · rw [← activationLines_joined, same, activationLines_joined]

def piecewiseDocument : Document where
  name := "Bolt"
  finishCommands := ["say a\r", "\n", " say b"]
  points := [{ commands := ["say one\nsay two", ""] }, { commands := [] }]

def wholeDocument : Document where
  name := "Bolt"
  finishCommands := ["say a\r\n\n\n say b"]
  points := [{ commands := ["say one", "say two\n"] }, { commands := [""] }]

theorem indistinct_wholeDocument :
    joined piecewiseDocument = joined wholeDocument ∧ Indistinct piecewiseDocument wholeDocument := by
  have same : joined piecewiseDocument = joined wholeDocument := by decide
  exact ⟨same, grouping_free.2 _ _ same⟩

end SpellPack.Proofs.CommandGrouping
