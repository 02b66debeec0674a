import SpellPack.Proofs.ArgumentReading
import SpellPack.Proofs.CommandRuns
import SpellPack.Proofs.DiskRuns
import SpellPack.Proofs.FileLines
import SpellPack.Proofs.QuotedText

/-! What a command that fails leaves of the tree. Everything that can go wrong for another
reason than a refused change does so before the first change is asked for. -/

namespace SpellPack.Proofs.FailedCommands
open DiskRuns FileLines CommandRuns

/-- What the command line reports of an error: its code, and its message in quotes. -/
structure Reports (outcome : Outcome) (code message : String) : Prop where
  failed : outcome.code = 1
  lines : Text.pieces '\n' outcome.output =
    ["RESULT:ERROR", "ERROR_CODE:" ++ code, "ERROR_MSG_JSON:" ++ Json.quote message, ""]

section Reports

variable {outcome : Outcome} {code message code' message' : String} {error : Error}

theorem Reports.unique (reports : Reports outcome code message) (other : Reports outcome code' message') :
    code = code' ∧ message = message' := by
  have same := reports.lines.symm.trans other.lines
  simp only [List.cons.injEq, String.append_right_inj, true_and, and_true] at same
  exact ⟨same.1, QuotedText.quote_injective same.2⟩

theorem unbroken_code (error : Error) : '\n' ∉ error.code.toList := by
  cases error <;> exact not_mem_literal (by decide)

theorem reports_error (error : Error) : Reports (.ofResult (.error error)) error.code error.message where
  failed := rfl
  lines := by
    have quoted : '\n' ∉ (Json.quote error.message).toList := QuotedText.not_mem_quote (by decide) _
    have block : (Outcome.ofResult (.error error)).output = Text.joinLines ["RESULT:ERROR", "ERROR_CODE:" ++ error.code,
        "ERROR_MSG_JSON:" ++ Json.quote error.message] ++ "\n" := by
      apply String.toList_inj.mp
      simp [Outcome.ofResult, lineBlock, Text.joinLines]
    rw [block]
    apply pieces_closed
    · simp only [List.forall_mem_cons]
      refine ⟨?_, not_mem_append ?_ (unbroken_code error), not_mem_append ?_ quoted, List.forall_mem_nil _⟩
      all_goals exact not_mem_literal (by decide)
    · exact List.cons_ne_nil _ _

theorem message_begins (access : FileSystem.Access) (path : String) (fault : FileSystem.Fault) :
    ("Failed to " ++ access.word ++ " ").toList <+: (Error.io access path fault).message.toList := by
  have message : (Error.io access path fault).message =
      "Failed to " ++ access.word ++ " " ++ path ++ ": " ++ fault.message := rfl
  simp only [message, String.toList_append, List.append_assoc, List.prefix_append_right_inj]
  exact List.prefix_append _ _

/-- A refused change is an error of the file system, and not one of reading. -/
theorem refusedChange_io (refused : RefusedChange error) :
    error.code = "IO" ∧ ¬ "Failed to read ".toList <+: error.message.toList := by
  obtain ⟨access, path, fault, same, changing⟩ := refused
  subst same
  refine ⟨rfl, fun read => ?_⟩
  have begins := message_begins access path fault
  have short : "Failed to read ".toList.length ≤ ("Failed to " ++ access.word ++ " ").toList.length := by
    rcases changing with rfl | rfl <;> decide
  have other := List.prefix_of_prefix_length_le read begins short
  revert other
  rcases changing with rfl | rfl <;> decide

end Reports

/-- How a command line ends, and with which tree: unless a change was refused, a failure leaves
the tree as it was. -/
inductive Ending (disk : Disk) : Outcome → Disk → Prop where
  | usage : Ending disk .usage disk
  | unplanned (error : Error) : Ending disk (.ofResult (.error error)) disk
  | done (output : String) (after : Disk) : Ending disk (.ofResult (.ok output)) after
  | refused {error : Error} (after : Disk) (change : RefusedChange error) : Ending disk (.ofResult (.error error)) after

section Endings

variable {disk after : Disk} {outcome : Outcome} {arguments : List String} {command : Command}

/-- Planning only reads. -/
theorem plan_keeps (command : Command) (disk : Disk) :
    command.plan Disk.system.loadDocument disk = ((command.plan Disk.system.loadDocument disk).1, disk) := by
  cases command <;> rfl

theorem ending_runArguments (arguments : List String) (disk : Disk) :
    Ending disk (Disk.system.runArguments arguments disk).1 (Disk.system.runArguments arguments disk).2 := by
  cases given : Command.ofArguments? arguments with
  | none =>
    unfold FileSystem.runArguments
    rw [given]
    exact .usage
  | some command =>
    have planned := plan_keeps command disk
    cases result : (command.plan Disk.system.loadDocument disk).1 with
    | error error =>
      rw [result] at planned
      rw [runArguments_refused given planned]
      exact .unplanned error
    | ok plan =>
      rw [result] at planned
      rw [runArguments_planned given planned]
      cases performed : Disk.system.perform plan.steps disk with
      | mk result changed =>
        cases result with
        | ok _ => exact .done plan.output changed
        | error error => exact .refused changed (refusedChange_perform (congrArg Prod.fst performed))

theorem Ending.usage_keeps (ending : Ending disk outcome after) (usage : outcome.code = 2) : after = disk := by
  cases ending with
  | usage | unplanned => rfl
  | done | refused => cases usage

theorem Ending.reported (ending : Ending disk outcome after) (failed : outcome.code = 1) :
    ∃ code message, Reports outcome code message := by
  cases ending with
  | usage | done => cases failed
  | unplanned error | refused => exact ⟨_, _, reports_error _⟩

theorem Ending.failure_keeps (ending : Ending disk outcome after) {code message : String}
    (reports : Reports outcome code message) (other : code ≠ "IO" ∨ "Failed to read ".toList <+: message.toList) :
    after = disk := by
  cases ending with
  | usage | unplanned => rfl
  | done => cases reports.failed
  | refused _ change =>
    obtain ⟨io, unread⟩ := refusedChange_io change
    obtain ⟨sameCode, sameMessage⟩ := reports.unique (reports_error _)
    rw [sameCode, sameMessage] at other
    cases other with
    | inl notIo => exact absurd io notIo
    | inr read => exact absurd read unread

/-- A command that cannot be planned fails and leaves the tree as it was. -/
theorem unplanned_keeps (given : Command.ofArguments? arguments = some command) {error : Error}
    (unplanned : (command.plan Disk.system.loadDocument disk).1 = .error error) :
    (Disk.system.runArguments arguments disk).1.code = 1 ∧ (Disk.system.runArguments arguments disk).2 = disk := by
  have planned := plan_keeps command disk
  rw [unplanned] at planned
  rw [runArguments_refused given planned]
  exact ⟨rfl, rfl⟩

end Endings

section Commands

variable {disk : Disk} {arguments : List String} {path : String}

theorem previewWord_cases {command : Command} (given : Command.ofArguments? ("preview" :: arguments) = some command) :
    (∃ path point, command = .preview path point) ∨ ∃ page, command = .help page := by
  rw [ArgumentReading.previewWord_eq] at given
  obtain ⟨options, _, given⟩ := Option.bind_eq_some_iff.mp given
  obtain ⟨point, _, given⟩ := Option.bind_eq_some_iff.mp given
  rw [Command.orHelp] at given
  split at given
  · cases given
    exact .inr ⟨_, rfl⟩
  · obtain ⟨path, _, given⟩ := Option.bind_eq_some_iff.mp given
    cases given
    exact .inl ⟨path, point, rfl⟩

/-- A preview is planned without steps. -/
theorem steps_previewPlan {document : Document} {point : Option Nat} {plan : Plan}
    (planned : Command.previewPlan document point = .ok plan) : plan.steps = [] := by
  obtain ⟨text, _, made⟩ := Json.bind_eq_ok.mp planned
  cases made
  rfl

theorem preview_keeps (word : arguments.head? = some "preview") :
    (Disk.system.runArguments arguments disk).2 = disk := by
  obtain ⟨later, rfl⟩ := List.head?_eq_some_iff.mp word
  cases given : Command.ofArguments? ("preview" :: later) with
  | none =>
    unfold FileSystem.runArguments
    rw [given]
    rfl
  | some command =>
    rcases previewWord_cases given with ⟨path, point, rfl⟩ | ⟨page, rfl⟩
    · have planned := plan_keeps (.preview path point) disk
      cases result : ((Command.preview path point).plan Disk.system.loadDocument disk).1 with
      | error error => exact (unplanned_keeps given result).2
      | ok plan =>
        have steps : plan.steps = [] := by
          change (Disk.system.loadDocument path disk).1.bind (Command.previewPlan · point) = .ok plan at result
          obtain ⟨document, _, made⟩ := Json.bind_eq_ok.mp result
          exact steps_previewPlan made
        rw [result] at planned
        rw [runArguments_planned given planned, steps]
        rfl
    · rw [run_help given]

/-- What is loaded is held by the file. -/
theorem load_cases (disk : Disk) (path : String) :
    (∃ error, (Disk.system.loadDocument path disk).1 = .error error) ∨
      ∃ document, (Disk.system.loadDocument path disk).1 = .ok document ∧ Holds disk path document := by
  cases loaded : (Disk.system.loadDocument path disk).1 with
  | error error => exact .inl ⟨error, rfl⟩
  | ok document =>
    refine .inr ⟨document, rfl, ?_⟩
    change (((disk.readBytes path).bind FileSystem.decode).mapError (Error.io .read path)).bind
      Document.ofText = _ at loaded
    obtain ⟨source, read, document⟩ := Json.bind_eq_ok.mp loaded
    exact ⟨source, Json.mapError_eq_ok.mp read, document⟩

theorem unnamed_keeps {outDir : String} (given : Command.ofArguments? arguments = some (.build path outDir))
    (unnamed : ∀ document, Holds disk path document → Text.isBlankText document.name = true) :
    (Disk.system.runArguments arguments disk).1.code = 1 ∧ (Disk.system.runArguments arguments disk).2 = disk := by
  have plan : ((Command.build path outDir).plan Disk.system.loadDocument disk).1 =
    (Disk.system.loadDocument path disk).1.bind (Command.buildPlan · outDir) := rfl
  rcases load_cases disk path with ⟨error, loaded⟩ | ⟨document, loaded, holds⟩
  · rw [loaded] at plan
    exact unplanned_keeps given plan
  · have refused : Command.buildPlan document outDir = .error .missingName := by
      simp only [Command.buildPlan, Document.assemble, unnamed document holds, if_true]
      rfl
    rw [loaded] at plan
    exact unplanned_keeps given (plan.trans refused)

theorem unreadable_keeps {out : String} (given : Command.ofArguments? arguments = some (.migrate path out))
    (unreadable : ∀ document, ¬ Holds disk path document) :
    (Disk.system.runArguments arguments disk).1.code = 1 ∧ (Disk.system.runArguments arguments disk).2 = disk := by
  have plan : ((Command.migrate path out).plan Disk.system.loadDocument disk).1 =
    (Disk.system.loadDocument path disk).1.map (Command.savePlan · out) := rfl
  rcases load_cases disk path with ⟨error, loaded⟩ | ⟨document, _, holds⟩
  · rw [loaded] at plan
    exact unplanned_keeps given plan
  · exact absurd holds (unreadable document)

end Commands

/-- Which runs of a command line leave the tree as it was. -/
structure Spares (disk : Disk) (arguments : List String) (outcome : Outcome) (after : Disk) : Prop where
  usage : outcome.code = 2 → after = disk
  reported : outcome.code = 1 → ∃ code message, Reports outcome code message
  failed : ∀ code message, Reports outcome code message →
    code ≠ "IO" ∨ "Failed to read ".toList <+: message.toList → after = disk
  preview : arguments.head? = some "preview" → after = disk
  unnamed : ∀ path outDir, Command.ofArguments? arguments = some (.build path outDir) →
    (∀ document, Holds disk path document → Text.isBlankText document.name = true) →
    outcome.code = 1 ∧ after = disk
  unreadable : ∀ path out, Command.ofArguments? arguments = some (.migrate path out) →
    (∀ document, ¬ Holds disk path document) → outcome.code = 1 ∧ after = disk

/-- A command that fails leaves every entry of the tree as it was, unless it was refused a change. -/
theorem failure_spares (disk : Disk) (arguments : List String) :
    let (outcome, after) := Disk.system.runArguments arguments disk
    Spares disk arguments outcome after := by
  have ending := ending_runArguments arguments disk
  constructor
  · exact ending.usage_keeps
  · exact ending.reported
  · exact fun _ _ reports other => ending.failure_keeps reports other
  · exact preview_keeps
  · exact fun _ _ given unnamed => unnamed_keeps given unnamed
  · exact fun _ _ given unreadable => unreadable_keeps given unreadable

def brokenDisk : Disk := (Disk.empty []).put ["x.json"] (.file "\x7b".toUTF8)

theorem unheld_brokenDisk (document : Document) : ¬ Holds brokenDisk "x.json" document := by
  rintro ⟨source, decoded, read⟩
  have held : (brokenDisk.readBytes "x.json").bind FileSystem.decode = .ok "\x7b" := rfl
  obtain rfl := Except.ok.inj (held.symm.trans decoded)
  have refused : ∃ error, Document.ofText "\x7b" = .error error := ⟨_, rfl⟩
  obtain ⟨error, failed⟩ := refused
  rw [failed] at read
  cases read

/-- A broken document that is to be written over itself stays as it is. -/
theorem spared_brokenDisk :
    (Disk.system.runArguments ["migrate", "--document=x.json", "--out=x.json"] brokenDisk).1.code = 1 ∧
    (Disk.system.runArguments ["migrate", "--document=x.json", "--out=x.json"] brokenDisk).2 =
      brokenDisk := by
  have spares := failure_spares brokenDisk ["migrate", "--document=x.json", "--out=x.json"]
  exact spares.unreadable "x.json" "x.json" (by decide +kernel) unheld_brokenDisk

end SpellPack.Proofs.FailedCommands
