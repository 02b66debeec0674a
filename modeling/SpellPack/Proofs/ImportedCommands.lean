import SpellPack.Proofs.CommandGrouping
import SpellPack.Proofs.CompactText
import SpellPack.Proofs.DocumentImport

/-! The commands of a document that is read. An entry that is no text is one command, written as
the value that it is; a text is split into its lines. -/

namespace SpellPack.Proofs.ImportedCommands
open Json Text CommandLines CommandGrouping CompactText DocumentReopening DocumentImport

section Entries

theorem commandLines_whole {text : String} (whole : Whole text) : commandLines [text] = [text] := by
  rw [commandLines_unbroken (List.forall_mem_singleton.mpr whole.unbroken), List.map_singleton, whole.trim_eq,
    List.filter_eq_self, List.forall_mem_singleton]
  simpa using whole.nonempty

theorem commandLines_cons (entry : String) (later : List String) :
    commandLines (entry :: later) = commandLines [entry] ++ commandLines later := by
  simp [commandLines]

theorem stringify_eq {value : Value} (noText : ∀ text, value ≠ .string text) (some : value ≠ .null) :
    value.stringify = value.compact := by
  cases value with
  | null => exact absurd rfl some
  | string text => exact absurd rfl (noText text)
  | _ => rfl

/-- The commands for which an entry stands. -/
def entryCommands : Value → List String
  | .string text => commandsOf (lines text)
  | .null => []
  | other => [other.stringify]

theorem commandLines_stringify (value : Value) : commandLines [value.stringify] = entryCommands value := by
  cases value with
  | null => rfl
  | string text =>
    rw [entryCommands, commandsOf_eq, commandLines, List.flatMap_singleton]
    rfl
  | _ => exact commandLines_whole (whole_compact _)

/-- Entry by entry, since no command reaches from one into the next. -/
theorem commandLines_texts (entries : List Value) :
    commandLines (entries.map Value.stringify) = entries.flatMap entryCommands := by
  induction entries with
  | nil => rfl
  | cons entry later ih =>
    rw [List.map_cons, commandLines_cons, commandLines_stringify, ih, List.flatMap_cons]

end Entries

/-- The entries under which a point is given its commands. What is no list has none. -/
def entriesOf (item : Value) : List Value := ((item.fields?.bind (·.lookup "commands")).bind Value.items?).getD []

def pointItems (value : Value) : List Value := ((value.fields?.bind (·.lookup "points")).bind Value.items?).getD []

def entriesAt (value : Value) (index : Nat) : List Value := ((pointItems value)[index]?.map entriesOf).getD []

section Points

theorem commands_ofJson (item : Value) : (Point.ofJson item).commands = (entriesOf item).map Value.stringify := by
  rw [Point.ofJson, entriesOf]
  cases item.fields? with
  | none => rfl
  | some fields => rfl

theorem readPoints_ofJson {fields : Fields} {points : List Point} (read : Document.readPoints fields = .ok points) :
    points = (pointItems (.object fields)).map Point.ofJson ∨ pointItems (.object fields) = [] ∧ points = [{}] := by
  rw [Document.readPoints] at read
  simp only [pointItems, Value.fields?, Option.bind_some]
  cases written : fields.lookup "points" with
  | none =>
    rw [written] at read
    cases read
    exact .inr ⟨rfl, rfl⟩
  | some value =>
    rw [written] at read
    cases value with
    | array items =>
      cases read
      exact .inl rfl
    | _ => cases read

theorem ofJson_ok {value : Value} {document : Document} (read : Document.ofJson value = .ok document) :
    ∃ fields, ∃ before : Document, value = .object fields ∧ Document.readPoints fields = .ok before.points ∧
      document = before.normalize := by
  cases value with
  | object fields =>
    have known : Document.ofFields fields = .ok document := mapError_eq_ok.mp read
    have supported : ∀ version, fields.lookup "schemaVersion" = some version → Document.isCurrentVersion version := by
      intro version written
      by_contra other
      rw [ofFields_outdated written other] at known
      cases known
    have completed := completed_ofFields supported
    rw [known] at completed
    cases completed with
    | read points rays => exact ⟨fields, _, rfl, points, rfl⟩
  | _ => cases read

/-- The points are those that are listed, or a blank one if none are. -/
theorem points_imported {value : Value} {document : Document} (read : Document.ofJson value = .ok document) :
    document.points = (pointItems value).map Point.ofJson ∨ pointItems value = [] ∧ document.points = [{}] := by
  obtain ⟨fields, before, rfl, points, rfl⟩ := ofJson_ok read
  rw [show before.normalize.points = if before.points.isEmpty then [{}] else before.points from rfl]
  rcases readPoints_ofJson points with listed | ⟨none, blank⟩
  · cases items : pointItems (.object fields) with
    | nil => simp [listed, items]
    | cons item later => simp [listed, items]
  · simp [none, blank]

theorem stored_commands {value : Value} {document : Document} (read : Document.ofJson value = .ok document)
    {index : Nat} {point : Point} (numbered : document.points[index]? = some point) :
    point.commands = (entriesAt value index).map Value.stringify := by
  rw [entriesAt]
  rcases points_imported read with listed | ⟨none, blank⟩
  · rw [listed, List.getElem?_map, Option.map_eq_some_iff] at numbered
    obtain ⟨item, found, rfl⟩ := numbered
    rw [commands_ofJson, found]
    rfl
  · rw [blank] at numbered
    rw [List.mem_singleton.mp (List.mem_of_getElem? numbered), none]
    rfl

end Points

/-- The commands of each point are those of its entries, in order. -/
structure Commanded (value : Value) (document : Document) : Prop where
  stored : ∀ index point, document.points[index]? = some point →
    point.commands = (entriesAt value index).map Value.stringify
  commands : ∀ index point, document.points[index]? = some point →
    commandLines point.commands = (entriesAt value index).flatMap entryCommands

theorem commanded_ofJson {value : Value} {document : Document} (read : Document.ofJson value = .ok document) :
    Commanded value document where
  stored index point := stored_commands read
  commands index point numbered := by rw [stored_commands read numbered, commandLines_texts]

/-- A value that is neither a text nor null makes one command, and so it does in each document that is read. -/
theorem entries_commanded :
    (∀ value : Value, (∀ text, value ≠ .string text) → value ≠ .null →
      Whole value.stringify ∧ commandLines [value.stringify] = [value.stringify]) ∧
    (∀ value document, Document.ofJson value = .ok document → Commanded value document) ∧
    ∀ source document, Document.ofText source = .ok document →
      ∃ value, Value.ofText source = .ok value ∧ Commanded value document := by
  refine ⟨?_, fun value document => commanded_ofJson, ?_⟩
  · intro value noText some
    rw [stringify_eq noText some]
    have whole := whole_compact value
    exact ⟨whole, commandLines_whole whole⟩
  · intro source document read
    rw [Document.ofText, bind_eq_ok] at read
    obtain ⟨value, parsed, known⟩ := read
    exact ⟨value, mapError_eq_ok.mp parsed, commanded_ofJson known⟩

def nestedValue : Value := .object [("b\n", .array [.string "\r\n", .null]), ("a", .number (.integer (-1)))]

def mixedValue : Value := .object [
  ("points", .array [
    .null,
    .object [("commands", .array [nestedValue, .null, .bool true, .string " say a\r\n\n say b "])]])]

def writtenDocument : String := "\x7b\"points\":[\x7b\"commands\":[true]\x7d]\x7d"

theorem commanded_mixedValue :
    Whole nestedValue.stringify ∧
      (∃ document point, Document.ofJson mixedValue = .ok document ∧ document.points[1]? = some point ∧
        commandLines point.commands = [nestedValue.stringify, "true", "say a", "say b"]) ∧
      ∃ document value, Document.ofText writtenDocument = .ok document ∧
        Value.ofText writtenDocument = .ok value ∧ Commanded value document := by
  obtain ⟨wholes, read, opened⟩ := entries_commanded
  refine ⟨(wholes nestedValue nofun nofun).1, ?_, ?_⟩
  · have known : Document.ofJson mixedValue = .ok _ := rfl
    have say : commandsOf (lines " say a\r\n\n say b ") = ["say a", "say b"] := by decide +kernel
    refine ⟨_, _, known, rfl, ?_⟩
    rw [(read _ _ known).commands 1 _ rfl, ← say]
    rfl
  · have known : Document.ofText writtenDocument = .ok _ := rfl
    obtain ⟨value, parsed, commanded⟩ := opened _ _ known
    exact ⟨_, value, known, parsed, commanded⟩

end SpellPack.Proofs.ImportedCommands
