import SpellPack.Command.Run
import SpellPack.Disk.Access
import SpellPack.Proofs.DocumentImport

/-! Commands that are run on a tree. A document is read from its file, and then what was planned
for it is all that is done. -/

namespace SpellPack.Proofs.CommandRuns

/-- The file at a path holds a text that is read as a document. -/
def Holds (disk : Disk) (path : String) (document : Document) : Prop :=
  ∃ source, (disk.readBytes path).bind FileSystem.decode = .ok source ∧ Document.ofText source = .ok document

section Commands

variable {disk : Disk} {path : String} {document : Document}

theorem selected_of_holds (holds : Holds disk path document) : document.selectedIndex < document.points.length := by
  obtain ⟨source, _, read⟩ := holds
  rw [Document.ofText, Json.bind_eq_ok] at read
  obtain ⟨value, _, valid⟩ := read
  have outcome := DocumentImport.outcome_ofJson value
  rw [valid] at outcome
  cases outcome with
  | read object readable wellFormed => exact wellFormed.selected

theorem loadDocument_holds (holds : Holds disk path document) :
    Disk.system.loadDocument path disk = (.ok document, disk) := by
  obtain ⟨source, decoded, read⟩ := holds
  have result : ((((disk.readBytes path).bind FileSystem.decode).mapError (.io .read path)).bind Document.ofText) =
      .ok document := by
    rw [decoded]
    exact read
  change ((((disk.readBytes path).bind FileSystem.decode).mapError (Error.io .read path)).bind Document.ofText, disk) = _
  rw [result]

theorem plan_holds (holds : Holds disk path document) (plan : Document → Except Error Plan) :
    (do return (← Disk.system.loadDocument path).bind plan : StateM Disk (Except Error Plan)) disk =
      (plan document, disk) := by
  change ((Disk.system.loadDocument path disk).1.bind plan, (Disk.system.loadDocument path disk).2) = _
  rw [loadDocument_holds holds]
  rfl

/-- A command whose plan is known prints what it planned once its steps are done. -/
theorem runArguments_planned {arguments : List String} {command : Command} {plan : Plan}
    (given : Command.ofArguments? arguments = some command)
    (planned : command.plan Disk.system.loadDocument disk = (.ok plan, disk)) :
    Disk.system.runArguments arguments disk =
      let (result, changed) := Disk.system.perform plan.steps disk
      (.ofResult (result.map fun _ => plan.output), changed) := by
  unfold FileSystem.runArguments
  rw [given]
  unfold FileSystem.carryOut
  simp only [bind, StateT.bind, planned]
  rfl

theorem runArguments_refused {arguments : List String} {command : Command} {error : Error}
    (given : Command.ofArguments? arguments = some command)
    (planned : command.plan Disk.system.loadDocument disk = (.error error, disk)) :
    Disk.system.runArguments arguments disk = (.ofResult (.error error), disk) := by
  unfold FileSystem.runArguments
  rw [given]
  unfold FileSystem.carryOut
  simp only [bind, StateT.bind, planned]
  rfl

/-- Help is shown without a look at the tree. -/
theorem run_help {arguments : List String} {page : Help.Page}
    (given : Command.ofArguments? arguments = some (.help page)) :
    Disk.system.runArguments arguments disk = (⟨0, page.text⟩, disk) :=
  runArguments_planned given rfl

theorem run_preview (holds : Holds disk path document) {arguments : List String} {point : Option Nat}
    (given : Command.ofArguments? arguments = some (.preview path point)) :
    Disk.system.runArguments arguments disk =
      (.ofResult ((document.previewPoint (point.getD document.selectedIndex)).map (· ++ "\n")), disk) := by
  have planned := plan_holds holds (Command.previewPlan · point)
  dsimp only [Command.previewPlan] at planned
  cases previewed : document.previewPoint (point.getD document.selectedIndex) with
  | error error =>
    rw [previewed] at planned
    exact runArguments_refused given planned
  | ok text =>
    rw [previewed] at planned
    exact runArguments_planned given planned

theorem run_build (holds : Holds disk path document) {arguments : List String} {outDir : String} {package : Package}
    (given : Command.ofArguments? arguments = some (.build path outDir)) (assembled : document.assemble = .ok package) :
    ∃ output, Disk.system.runArguments arguments disk =
      let (result, changed) := Disk.system.perform (package.writeSteps (Path.join outDir document.packageName)) disk
      (.ofResult (result.map fun _ => output), changed) := by
  have planned := plan_holds holds (Command.buildPlan · outDir)
  dsimp only [Command.buildPlan] at planned
  rw [assembled] at planned
  exact ⟨_, runArguments_planned given planned⟩

end Commands

end SpellPack.Proofs.CommandRuns
