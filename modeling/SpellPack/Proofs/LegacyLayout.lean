import SpellPack.Pack.Assembly
import SpellPack.Proofs.CommandLines
import SpellPack.Proofs.DocumentReopening
import SpellPack.Proofs.FileTable

/-! Documents in the older layout. Each has a counterpart in the current layout that is packed
and previewed alike, or that is refused for the same fault. -/

namespace SpellPack.Proofs.LegacyLayout
open Json FieldReading DocumentReopening

def present (candidates : List (String × Option Value)) : Fields :=
  candidates.filterMap fun (key, value?) => value?.map fun value => (key, value)

theorem lookup_foreign {entries : List (String × α)} {key : String} (foreign : key ∉ entries.map Prod.fst) :
    entries.lookup key = none := by
  rw [List.lookup_eq_none_iff]
  intro entry member
  rw [bne_iff_ne]
  intro same
  apply foreign
  exact List.mem_map.mpr ⟨entry, member, same.symm⟩

/-- With distinct keys no later field is found in the place of one that is missing. -/
theorem lookup_present {candidates : List (String × Option Value)} (distinct : (candidates.map Prod.fst).Nodup)
    (key : String) : (present candidates).lookup key = (candidates.lookup key).join := by
  induction candidates with
  | nil => rfl
  | cons candidate later ih =>
    obtain ⟨name, value?⟩ := candidate
    rw [List.map_cons, List.nodup_cons] at distinct
    have remaining := ih distinct.2
    rw [FileTable.lookup_cons]
    cases value? with
    | none =>
      change (present later).lookup key = _
      rw [remaining]
      split
      · next same =>
        rw [same, lookup_foreign distinct.1]
        rfl
      · rfl
    | some value =>
      change List.lookup key ((name, value) :: present later) = _
      rw [FileTable.lookup_cons, remaining]
      split <;> rfl

/-- A number that does not come to zero on its side of zero. -/
def isDelay (value : Value) : Bool := value.lenientNumber?.any (·.truncate ≠ 0)

def currentDelay (settings : Fields) : Value :=
  ((settings.lookup "delay").filter isDelay).getD (.ofInt 50)

def currentLoadedSpell (settings : Fields) : Value :=
  ((settings.lookup "loadedSpell").filter (·.stringify ≠ "")).getD (.string "incendio")

/-- The fields of the same document in the current layout. What is missing stays missing. -/
def currentFields (fields : Fields) : List (String × Option Value) :=
  let settings := ((fields.lookup "settings").bind Value.fields?).getD []
  [("schemaVersion", some (.ofInt 3)),
    ("name", fields.lookup "spellName"),
    ("spellDelay", some (currentDelay settings)),
    ("loadedSpell", some (currentLoadedSpell settings)),
    ("finishCommands", (fields.lookup "afterFunction").map fun text => .array [text]),
    ("points", fields.lookup "points"),
    ("selectedIndex", fields.lookup "selected")]

def currentLayout (fields : Fields) : Fields := present (currentFields fields)

theorem lookup_currentLayout (fields : Fields) (key : String) :
    (currentLayout fields).lookup key = ((currentFields fields).lookup key).join :=
  lookup_present (by simp [currentFields]) key

section Settings

variable {fields settings : Fields}

/-- Only what comes to zero is cut down to zero. -/
theorem ofInt_clamped_eq_zero (n : Int) :
    Int64.ofInt (max Int64.minValue.toInt (min n Int64.maxValue.toInt)) = 0 ↔ n = 0 := by
  have least := toInt_minValue
  have greatest := toInt_maxValue
  rw [← Int64.toInt_inj, Int64.toInt_ofInt_of_le (by omega) (by omega)]
  change _ = (0 : Int) ↔ _
  omega

theorem currentDelay_kept {delay : Int64} (read : settings.integer? "delay" = some delay) (nonzero : delay ≠ 0) :
    settings.lookup "delay" = some (currentDelay settings) := by
  simp only [Fields.integer?, Fields.number?, Option.map_eq_some_iff, Option.bind_eq_some_iff] at read
  obtain ⟨x, ⟨value, written, number⟩, rfl⟩ := read
  rw [Ne, ofInt_clamped_eq_zero] at nonzero
  have usable : isDelay value = true := by simp [isDelay, number, nonzero]
  rw [currentDelay, written, Option.filter_some_pos usable, Option.getD_some]

theorem currentDelay_replaced (unset : ∀ delay, settings.integer? "delay" = some delay → delay = 0) :
    currentDelay settings = .ofInt 50 := by
  rw [currentDelay, Option.filter_eq_none_iff.mpr]
  · rfl
  · intro value written
    rw [isDelay]
    cases number : value.lenientNumber? with
    | none => simp
    | some x =>
      have read := unset (.ofInt (max Int64.minValue.toInt (min x.truncate Int64.maxValue.toInt)))
        (by rw [Fields.integer?, Fields.number?, written, Option.bind_some, number, Option.map_some])
      simpa using (ofInt_clamped_eq_zero _).mp read

theorem delay_migrated (found : fields.lookup "spellDelay" = some (currentDelay settings)) :
    (fields.integer? "spellDelay").getD defaultDelay =
      ((settings.integer? "delay").filter (· ≠ 0)).getD defaultDelay := by
  cases set : (settings.integer? "delay").filter (· ≠ 0) with
  | none =>
    rw [currentDelay_replaced (by simpa [Option.filter_eq_none_iff] using set)] at found
    rw [delay_read delayKept_default found]
    rfl
  | some delay =>
    rw [Option.filter_eq_some_iff, decide_eq_true_iff] at set
    have same : fields.integer? "spellDelay" = settings.integer? "delay" := by
      simp only [Fields.integer?, Fields.number?, found, currentDelay_kept set.1 set.2]
    rw [same, set.1]

theorem loadedSpell_migrated (found : fields.lookup "loadedSpell" = some (currentLoadedSpell settings)) :
    fields.text "loadedSpell" =
      if (settings.text "loadedSpell").isEmpty then Document.legacyLoadedSpell else settings.text "loadedSpell" := by
  rw [Fields.text, found, currentLoadedSpell, Fields.text]
  cases written : settings.lookup "loadedSpell" with
  | none => rfl
  | some value =>
    by_cases empty : value.stringify = ""
    · rw [Option.filter_some_neg (by simpa using empty)]
      simp only [empty]
      rfl
    · rw [Option.filter_some_pos (by simpa using empty)]
      simp [empty]

end Settings

section Documents

variable {fields : Fields}

theorem texts_migrated : Text.commandLines (Text.lines (fields.text "afterFunction")) =
    Text.commandLines ((currentLayout fields).texts "finishCommands") := by
  rw [CommandLines.commandLines_lines, Fields.texts, Fields.array, lookup_currentLayout,
    show (currentFields fields).lookup "finishCommands" = some _ from rfl, Option.join_some, Fields.text]
  cases fields.lookup "afterFunction" with
  | none => rfl
  | some text => rfl

theorem ofLegacy_migrated : Document.ofLegacy fields =
    (Document.ofCurrent (currentLayout fields)).map fun document =>
      { document with finishCommands := Text.lines (fields.text "afterFunction") } := by
  have found := lookup_currentLayout fields
  have points : Document.readPoints (currentLayout fields) = Document.readPoints fields := by
    rw [Document.readPoints, found]
    rfl
  have name : (currentLayout fields).text "name" = fields.text "spellName" := by
    rw [Fields.text, found]
    rfl
  have author : (currentLayout fields).text "author" = "" := by
    rw [Fields.text, found]
    rfl
  have rays : (currentLayout fields).objects "rays" = [] := by
    rw [Fields.objects, Fields.array, found]
    rfl
  have selected : (currentLayout fields).index "selectedIndex" = fields.index "selected" := by
    rw [Fields.index, Fields.number?, found]
    rfl
  rw [Document.ofCurrent, points, Document.ofLegacy]
  cases Document.readPoints fields with
  | error fault => rfl
  | ok points =>
    simp only [ok_bind, pure_eq_ok]
    rw [name, author, rays, selected, delay_migrated (found "spellDelay"), loadedSpell_migrated (found "loadedSpell")]
    rfl

/-- Documents that cannot be told apart by their points or by what is made of them. -/
structure Alike (first second : Document) : Prop where
  packed : first.assemble = second.assemble
  previewed : ∀ index, first.previewPoint index = second.previewPoint index
  points : first.points = second.points
  selected : first.selectedIndex = second.selectedIndex

inductive ReadAlike : Except Error Document → Except Error Document → Prop where
  | refused (error : Error) : ReadAlike (.error error) (.error error)
  | read {first second : Document} (alike : Alike first second) : ReadAlike (.ok first) (.ok second)

theorem alike_finishCommands {document : Document} {commands : List String}
    (same : Text.commandLines commands = Text.commandLines document.finishCommands) :
    Alike { document with finishCommands := commands } document := by
  have activation : Document.activationFile { document with finishCommands := commands } = document.activationFile := by
    rw [Document.activationFile, Document.activationLines, same]
    rfl
  refine ⟨?_, fun _ => rfl, rfl, rfl⟩
  rw [Document.assemble, Document.packFiles, activation]
  rfl

theorem finishCommands_ofCurrent {document : Document} (read : Document.ofCurrent fields = .ok document) :
    document.finishCommands = fields.texts "finishCommands" := by
  rw [Document.ofCurrent, bind_eq_ok] at read
  obtain ⟨points, _, read⟩ := read
  rw [pure_eq_ok, Except.ok.injEq] at read
  subst read
  rfl

theorem ofFields_legacy (unversioned : fields.lookup "schemaVersion" = none)
    (legacy : ∃ key ∈ ["spellName", "settings", "afterFunction"], fields.lookup key ≠ none) :
    Document.ofFields fields = Document.ofLegacy fields := by
  have recognized : Document.isLegacy fields = true := by
    obtain ⟨key, member, found⟩ := legacy
    exact List.any_eq_true.mpr ⟨key, member, Option.isSome_iff_ne_none.mpr found⟩
  simp only [Document.ofFields, unversioned, recognized, if_true]

theorem ofFields_current : Document.ofFields (currentLayout fields) = Document.ofCurrent (currentLayout fields) := by
  have version : (currentLayout fields).lookup "schemaVersion" = some (.ofInt Document.schemaVersion) := by
    rw [lookup_currentLayout]
    rfl
  simp only [Document.ofFields, version, isCurrentVersion_written, if_true]

/-- A document in the older layout is read like its counterpart, whatever its fields hold. -/
theorem legacy_migrated (unversioned : fields.lookup "schemaVersion" = none)
    (legacy : ∃ key ∈ ["spellName", "settings", "afterFunction"], fields.lookup key ≠ none) :
    ReadAlike (Document.ofJson (.object fields)) (Document.ofJson (.object (currentLayout fields))) := by
  rw [Document.ofJson, Document.ofJson, ofFields_legacy unversioned legacy, ofFields_current, ofLegacy_migrated]
  cases read : Document.ofCurrent (currentLayout fields) with
  | error fault => exact .refused _
  | ok document =>
    apply ReadAlike.read
    apply alike_finishCommands
    rw [finishCommands_ofCurrent read, texts_migrated]

end Documents

/-- Nothing in it is of the kind that is expected in its place. -/
def untidyFields : Fields := [
  ("spellName", .number (.integer 7)),
  ("settings", .object [("delay", .string " -0.9 "), ("loadedSpell", .null)]),
  ("afterFunction", .string "say one\r\n\n say\rtwo \r\n"),
  ("points", .array [.null, .object [("commands", .array [.string "say", .bool true])]]),
  ("selected", .string "1e3")]

def tidyFields : Fields := [
  ("schemaVersion", .ofInt 3),
  ("name", .number (.integer 7)),
  ("spellDelay", .ofInt 50),
  ("loadedSpell", .string "incendio"),
  ("finishCommands", .array [.string "say one\r\n\n say\rtwo \r\n"]),
  ("points", .array [.null, .object [("commands", .array [.string "say", .bool true])]]),
  ("selectedIndex", .string "1e3")]

theorem currentLayout_untidyFields : currentLayout untidyFields = tidyFields := by
  have zero : isDelay (.string " -0.9 ") = false := by decide +kernel
  simp [currentLayout, currentFields, present, untidyFields, tidyFields, Value.fields?, currentDelay,
    currentLoadedSpell, zero, Option.filter_some, Value.stringify, List.lookup_cons]

theorem migrated_untidyFields :
    ReadAlike (Document.ofJson (.object untidyFields)) (Document.ofJson (.object tidyFields)) := by
  rw [← currentLayout_untidyFields]
  exact @legacy_migrated untidyFields rfl ⟨"spellName", by simp, by simp [untidyFields]⟩

end SpellPack.Proofs.LegacyLayout
