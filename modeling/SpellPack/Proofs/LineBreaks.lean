import Mathlib.Algebra.BigOperators.Group.List.Basic
import SpellPack.Proofs.CommandGrouping
import SpellPack.Proofs.PackContents
import SpellPack.Proofs.PackLines

/-! Readers differ in whether a carriage return ends a line. Of all that is typed into a document
only a carriage return inside a command reaches a file, so these decide whether all readers see
the same lines. -/

namespace SpellPack.Proofs.LineBreaks
open Text Layout Macro TextEnds FileLines CommandLines CommandGrouping MacroTokens RayMacros PackLines

/-- The lines for a reader to whom a line feed, a carriage return and the two together are one break each. -/
def splitBreaks : List Char → List (List Char)
  | [] => [[]]
  | '\r' :: '\n' :: rest => [] :: splitBreaks rest
  | c :: rest =>
    if c = '\n' ∨ c = '\r' then [] :: splitBreaks rest
    else
      match splitBreaks rest with
      | [] => [[c]]
      | line :: later => (c :: line) :: later

def readLines (text : String) : List String := (splitBreaks text.toList).map String.ofList

section Reading

/-- Where no line ends in a carriage return, each carriage return is a break of its own. -/
theorem splitBreaks_eq {text : List Char} (unended : ∀ piece ∈ splitAt '\n' text, piece.getLast? ≠ some '\r') :
    splitBreaks text = (splitAt '\n' text).flatMap (splitAt '\r') := by
  induction text with
  | nil => rfl
  | cons c rest ih =>
    have alone : ∀ behind, c = '\r' → rest = '\n' :: behind → False := by
      rintro behind rfl rfl
      exact unended ['\r'] (by simp [splitAt]) rfl
    by_cases feed : c = '\n'
    · subst feed
      have remaining := ih fun piece member => unended piece (List.mem_cons_of_mem [] member)
      rw [splitBreaks.eq_3 _ _ alone, if_pos (.inl rfl), splitAt, if_pos rfl, List.flatMap_cons, remaining]
      rfl
    · obtain ⟨piece, later, pieces⟩ := List.exists_cons_of_ne_nil (splitAt_ne_nil '\n' rest)
      have whole := splitAt_cons_other feed pieces
      rw [whole, List.forall_mem_cons] at unended
      rw [pieces] at ih
      have remaining := ih <| List.forall_mem_cons.mpr ⟨?_, unended.2⟩
      · rw [whole, splitBreaks.eq_3 _ _ alone, remaining, List.flatMap_cons, List.flatMap_cons]
        by_cases ends : c = '\r'
        · rw [if_pos (.inr ends), splitAt, if_pos ends, List.cons_append]
        · obtain ⟨front, behind, inner⟩ := List.exists_cons_of_ne_nil (splitAt_ne_nil '\r' piece)
          rw [if_neg (not_or.mpr ⟨feed, ends⟩), splitAt_cons_other ends inner, inner]
          rfl
      · intro last
        exact unended.1 (by rw [List.getLast?_cons, last, Option.getD_some])

/-- What a text is to readers who take a carriage return for a break too. -/
structure Read (text : String) : Prop where
  apart : readLines text = (pieces '\n' text).flatMap (pieces '\r')
  more : (readLines text).length = (pieces '\n' text).length + text.toList.count '\r'
  same : readLines text = pieces '\n' text ↔ '\r' ∉ text.toList

theorem read_of_unended {text : String} (unended : ∀ piece ∈ pieces '\n' text, piece.toList.getLast? ≠ some '\r') :
    Read text := by
  have split : splitBreaks text.toList = (splitAt '\n' text.toList).flatMap (splitAt '\r') := by
    apply splitBreaks_eq
    intro piece member
    rw [← @String.toList_ofList piece]
    exact unended _ (List.mem_map_of_mem member)
  have apart : readLines text = (pieces '\n' text).flatMap (pieces '\r') := by
    rw [readLines, split, List.map_flatMap, pieces, List.flatMap_map]
    simp [pieces]
  have more : (readLines text).length = (pieces '\n' text).length + text.toList.count '\r' := by
    have each : (splitAt '\n' text.toList).map (fun piece => (splitAt '\r' piece).length) =
        (splitAt '\n' text.toList).map fun piece => piece.count '\r' + 1 := by simp [length_splitAt]
    rw [readLines, List.length_map, split, List.length_flatMap, each, List.sum_map_add, ← List.count_flatten,
      flatten_splitAt, List.count_filter (by decide), pieces, List.length_map]
    simp [Nat.add_comm]
  refine ⟨apart, more, ?_, ?_⟩
  · intro same
    rw [same] at more
    exact List.count_eq_zero.mp (Nat.add_eq_left.mp more.symm)
  · intro none
    have whole : ∀ piece ∈ pieces '\n' text, pieces '\r' piece = [piece] := by
      intro piece member
      exact pieces_without fun found => none ((mem_pieces_iff (by decide) text).mpr ⟨piece, member, found⟩)
    rw [apart, List.flatMap_congr whole, List.flatMap_singleton']

end Reading

/-- A carriage return with something visible on both sides of it, on one line of an entry. -/
def HoldsReturn (entry : String) : Prop :=
  ∃ piece ∈ pieces '\n' entry, ∃ before after, piece.toList = before ++ '\r' :: after ∧
    (∃ c ∈ before, isBlank c = false) ∧ ∃ c ∈ after, isBlank c = false

section Commands

theorem return_trim (piece : String) : '\r' ∈ (trim piece).toList ↔
    ∃ before after, piece.toList = before ++ '\r' :: after ∧ (∃ c ∈ before, isBlank c = false) ∧
      ∃ c ∈ after, isBlank c = false := by
  rw [toList_trim]
  exact mem_trimmed_iff rfl

theorem return_commandLines {entries : List String} :
    (∃ line ∈ commandLines entries, '\r' ∈ line.toList) ↔ ∃ entry ∈ entries, HoldsReturn entry := by
  rw [commandLines_eq]
  constructor
  · rintro ⟨line, member, inside⟩
    obtain ⟨piece, kept, rfl⟩ := List.mem_map.mp member
    obtain ⟨entry, given, split⟩ := List.mem_flatMap.mp (List.mem_filter.mp kept).1
    exact ⟨entry, given, piece, split, (return_trim piece).mp inside⟩
  · rintro ⟨entry, given, piece, split, shown⟩
    have inside := (return_trim piece).mpr shown
    have visible : isBlankText piece = false := by
      rw [← Bool.not_eq_true, ← trim_eq_empty_iff]
      intro empty
      rw [empty] at inside
      cases inside
    refine ⟨trim piece, List.mem_map_of_mem (List.mem_filter.mpr ⟨List.mem_flatMap_of_mem given split, ?_⟩), inside⟩
    rw [visible, Bool.not_false]

/-- A carriage return is white space, so no command ends in one. -/
theorem unended_commandLines {entries : List String} {line : String} (member : line ∈ commandLines entries) :
    line.toList.getLast? ≠ some '\r' := by
  intro last
  rw [← trim_commandLines entries line member] at last
  exact absurd ((trims_trim line).last '\r' last) (by decide)

theorem unended_markLine {line : String} (unended : line.toList.getLast? ≠ some '\r') :
    (markLine line).toList.getLast? ≠ some '\r' := by
  rw [markLine]
  split
  · rw [String.toList_append, List.getLast?_append]
    cases last : line.toList.getLast? with
    | none => simp
    | some c => rwa [last] at unended
  · exact unended

theorem unended_of_plain {line : String} (plain : '\r' ∉ line.toList) : line.toList.getLast? ≠ some '\r' :=
  fun last => plain (List.mem_of_getLast? last)

end Commands

section Files

variable {document : Document} {package : Package}

theorem return_loadedSpellId (document : Document) : '\r' ∉ document.context.loadedSpellId.toList :=
  foreign_loadedSpellId rfl document

def pointLines (document : Document) (index : Nat) (point : Point) : List String :=
  PointFile.fileLines document.context point index (index == 0) (index + 1 == document.points.length)

theorem return_pointLines (index : Nat) (point : Point) :
    (∃ line ∈ pointLines document index point, '\r' ∈ line.toList) ↔ ∃ entry ∈ point.commands, HoldsReturn entry := by
  rw [← return_commandLines]
  constructor
  · rintro ⟨line, member, inside⟩
    rcases control_pointLines (by decide) (return_loadedSpellId document) line member with command | plain
    · exact ⟨line, command, inside⟩
    · exact absurd inside plain
  · rintro ⟨line, command, inside⟩
    exact ⟨line, by simp [pointLines, PointFile.fileLines, command], inside⟩

theorem unended_pointLines (index : Nat) (point : Point) :
    ∀ line ∈ pointLines document index point, line.toList.getLast? ≠ some '\r' := by
  intro line member
  rcases control_pointLines (by decide) (return_loadedSpellId document) line member with command | plain
  · exact unended_commandLines command
  · exact unended_of_plain plain

/-- A line of the activation is a marked command or holds no carriage return. -/
theorem activationLine_cases : ∀ line ∈ document.activationLines,
    (∃ command ∈ commandLines document.finishCommands, line = markLine command) ∨ '\r' ∉ line.toList := by
  intro line member
  rcases List.mem_append.mp member with finish | call
  · obtain ⟨command, given, rfl⟩ := List.mem_map.mp finish
    exact .inl ⟨command, given, rfl⟩
  · obtain ⟨⟨ray, index⟩, _, inside⟩ := List.mem_flatMap.mp call
    exact .inr (control_callLines (by decide) ray index document.name line inside)

theorem return_activationLines :
    (∃ line ∈ document.activationLines, '\r' ∈ line.toList) ↔ ∃ entry ∈ document.finishCommands, HoldsReturn entry := by
  rw [← return_commandLines]
  constructor
  · rintro ⟨line, member, inside⟩
    rcases activationLine_cases line member with ⟨command, given, rfl⟩ | plain
    · exact ⟨command, given, (mem_markLine (by decide)).mp inside⟩
    · exact absurd inside plain
  · rintro ⟨command, given, inside⟩
    exact ⟨markLine command, List.mem_append_left _ (List.mem_map_of_mem given), (mem_markLine (by decide)).mpr inside⟩

theorem unended_activationLines : ∀ line ∈ document.activationLines, line.toList.getLast? ≠ some '\r' := by
  intro line member
  rcases activationLine_cases line member with ⟨command, given, rfl⟩ | plain
  · exact unended_markLine (unended_commandLines given)
  · exact unended_of_plain plain

section Split

variable {text : String} {lines : List String} (split : pieces '\n' text = lines ++ [""])

include split

theorem return_iff : '\r' ∈ text.toList ↔ ∃ line ∈ lines, '\r' ∈ line.toList := by
  rw [mem_pieces_iff (show '\r' ≠ '\n' by decide), split]
  simp

theorem read_of_lines (unended : ∀ line ∈ lines, line.toList.getLast? ≠ some '\r') : Read text := by
  apply read_of_unended
  rw [split, List.forall_mem_append]
  exact ⟨unended, by simp⟩

end Split

theorem found_activation (assembled : document.assemble = .ok package) {text : String}
    (found : package.files.get? (activationPath document.loadedSpellId) = some text) :
    '\r' ∉ text.toList ∨ pieces '\n' text = document.activationLines ++ [""] := by
  by_cases none : document.activationLines = []
  · rw [get?_blankActivation assembled none, Option.some.injEq] at found
    subst found
    exact .inl (by decide)
  · obtain ⟨written, held, split⟩ := hasLines_activation assembled none
    rw [held, Option.some.injEq] at found
    subst found
    exact .inr split

/-- The files of the points and the activation are the only ones that commands go to. -/
theorem found_cases (assembled : document.assemble = .ok package) {path text : String}
    (found : package.files.get? path = some text) : '\r' ∉ text.toList ∨
      (path = activationPath document.loadedSpellId ∧ pieces '\n' text = document.activationLines ++ [""]) ∨
      ∃ index point, document.points[index]? = some point ∧ path = pointPath document.spellId index ∧
        pieces '\n' text = pointLines document index point ++ [""] := by
  have held : path ∈ package.files.paths := PackContents.mem_paths_iff.mpr (Option.isSome_of_eq_some found)
  rcases covered assembled path held with rfl | rfl | ⟨index, inRange, rfl⟩ | ⟨⟨ray, index⟩, enabled, rfl⟩
  · obtain ⟨written, held, split⟩ := hasLines_manifest assembled
    rw [held, Option.some.injEq] at found
    subst found
    rw [return_iff split]
    left
    rintro ⟨line, member, inside⟩
    exact low_manifestLines (by decide) document.author line member inside
  · exact (found_activation assembled found).imp_right fun split => .inl ⟨rfl, split⟩
  · obtain ⟨point, numbered⟩ : ∃ point, document.points[index]? = some point := ⟨_, List.getElem?_eq_getElem inRange⟩
    obtain ⟨written, held, split⟩ := hasLines_point assembled numbered
    rw [held, Option.some.injEq] at found
    subst found
    exact .inr (.inr ⟨index, point, numbered, rfl, split⟩)
  · by_cases meets : rayPath document.spellId index = activationPath document.loadedSpellId
    · rw [meets] at found
      exact (found_activation assembled found).imp_right fun split => .inl ⟨meets, split⟩
    · obtain ⟨written, held, split⟩ := hasLines_ray assembled enabled meets
      rw [held, Option.some.injEq] at found
      subst found
      rw [return_iff split]
      left
      rintro ⟨line, member, inside⟩
      exact (fileLine_sound member).1 '\r' (by decide) inside

theorem read_found (assembled : document.assemble = .ok package) {path text : String}
    (found : package.files.get? path = some text) : Read text := by
  rcases found_cases assembled found with plain | ⟨_, split⟩ | ⟨index, point, _, _, split⟩
  · apply read_of_unended
    intro piece member last
    exact plain ((mem_pieces_iff (by decide) text).mpr ⟨piece, member, List.mem_of_getLast? last⟩)
  · exact read_of_lines split unended_activationLines
  · exact read_of_lines split (unended_pointLines index point)

theorem return_point (assembled : document.assemble = .ok package) {index : Nat} {point : Point}
    (numbered : document.points[index]? = some point) :
    ∃ text, package.files.get? (pointPath document.spellId index) = some text ∧
      ('\r' ∈ text.toList ↔ ∃ entry ∈ point.commands, HoldsReturn entry) := by
  obtain ⟨text, held, split⟩ := hasLines_point assembled numbered
  exact ⟨text, held, (return_iff split).trans (return_pointLines index point)⟩

theorem return_activation (assembled : document.assemble = .ok package) :
    ∃ text, package.files.get? (activationPath document.loadedSpellId) = some text ∧
      ('\r' ∈ text.toList ↔ ∃ entry ∈ document.finishCommands, HoldsReturn entry) := by
  rw [← return_activationLines]
  by_cases none : document.activationLines = []
  · refine ⟨_, get?_blankActivation assembled none, ?_⟩
    rw [none]
    simp
  · obtain ⟨text, held, split⟩ := hasLines_activation assembled none
    exact ⟨text, held, return_iff split⟩

end Files

/-- How the files of a pack are read by those who take a carriage return for a break too, and
which entries decide whether these see other lines. -/
structure ReadPack (document : Document) (files : Files) : Prop where
  read : ∀ path text, files.get? path = some text → Read text
  points : ∀ index point, document.points[index]? = some point →
    ∃ text, files.get? (pointPath document.spellId index) = some text ∧
      ('\r' ∈ text.toList ↔ ∃ entry ∈ point.commands, HoldsReturn entry)
  activation : ∃ text, files.get? (activationPath document.loadedSpellId) = some text ∧
    ('\r' ∈ text.toList ↔ ∃ entry ∈ document.finishCommands, HoldsReturn entry)
  others : ∀ path text, files.get? path = some text → '\r' ∈ text.toList →
    path = activationPath document.loadedSpellId ∨
      ∃ index, index < document.points.length ∧ path = pointPath document.spellId index
  alike : (∀ path text, files.get? path = some text → readLines text = pieces '\n' text) ↔
    (∀ point ∈ document.points, ∀ entry ∈ point.commands, ¬ HoldsReturn entry) ∧
      ∀ entry ∈ document.finishCommands, ¬ HoldsReturn entry

section Packs

variable {document : Document} {package : Package}

theorem alike_iff (assembled : document.assemble = .ok package) :
    (∀ path text, package.files.get? path = some text → readLines text = pieces '\n' text) ↔
      (∀ point ∈ document.points, ∀ entry ∈ point.commands, ¬ HoldsReturn entry) ∧
        ∀ entry ∈ document.finishCommands, ¬ HoldsReturn entry := by
  constructor
  · intro alike
    constructor
    · intro point member entry given shown
      obtain ⟨index, numbered⟩ := List.mem_iff_getElem?.mp member
      obtain ⟨text, held, returns⟩ := return_point assembled numbered
      exact (read_found assembled held).same.mp (alike _ _ held) (returns.mpr ⟨entry, given, shown⟩)
    · intro entry given shown
      obtain ⟨text, held, returns⟩ := return_activation assembled
      exact (read_found assembled held).same.mp (alike _ _ held) (returns.mpr ⟨entry, given, shown⟩)
  · rintro ⟨points, finish⟩ path text found
    rw [(read_found assembled found).same]
    intro inside
    rcases found_cases assembled found with plain | ⟨_, split⟩ | ⟨index, point, numbered, _, split⟩
    · exact plain inside
    · obtain ⟨entry, given, shown⟩ := return_activationLines.mp ((return_iff split).mp inside)
      exact finish entry given shown
    · obtain ⟨entry, given, shown⟩ := (return_pointLines index point).mp ((return_iff split).mp inside)
      exact points point (List.mem_of_getElem? numbered) entry given shown

/-- A carriage return inside a command is the only one that comes into a pack, and each is read as
one more line. All readers see the same lines exactly of the packs without one. -/
theorem breaks_packed (assembled : document.assemble = .ok package) : ReadPack document package.files where
  read path text := read_found assembled
  points index point := return_point assembled
  activation := return_activation assembled
  others path text found inside := by
    rcases found_cases assembled found with plain | ⟨same, _⟩ | ⟨index, point, numbered, same, _⟩
    · exact absurd inside plain
    · exact .inl same
    · exact .inr ⟨index, (List.getElem?_eq_some_iff.mp numbered).1, same⟩
  alike := alike_iff assembled

end Packs

def returnDocument : Document where
  name := "Bolt\rsay one"
  author := "Ada\r"
  finishCommands := ["say a\r\nsay b\r", "say c\rsay d"]
  points := [{ commands := ["\rsay e"] }, { commands := ["say\r\rf"] }]
  rays := [{ name := "beam\rkill @e", particles := [{ name := "flame\rsay two" }] }]

theorem read_returnDocument :
    ∃ package, returnDocument.assemble = .ok package ∧ ReadPack returnDocument package.files := by
  obtain ⟨package, assembled⟩ := @PackFiles.assembled_of_named returnDocument (by decide +kernel)
  exact ⟨package, assembled, breaks_packed assembled⟩

/-- Two commands that only some readers take for two. -/
def joinedDocument : Document := { name := "Bolt", finishCommands := ["say a\rsay b"] }

theorem unalike_joinedDocument :
    ∃ package text, joinedDocument.assemble = .ok package ∧
      package.files.get? (activationPath joinedDocument.loadedSpellId) = some text ∧
      '\r' ∈ text.toList ∧ readLines text ≠ pieces '\n' text := by
  obtain ⟨package, assembled⟩ := @PackFiles.assembled_of_named joinedDocument (by decide +kernel)
  exact ⟨package, _, assembled, PackFiles.get?_activation assembled, by decide +kernel, by decide +kernel⟩

end SpellPack.Proofs.LineBreaks
