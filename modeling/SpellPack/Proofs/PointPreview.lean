import SpellPack.Proofs.WrittenTexts

/-! What is shown of a point before the pack is built. It is what the pack holds for that
point, and on the command line it is printed as a build leaves it in the file of the point. -/

namespace SpellPack.Proofs.PointPreview
open Layout PackFiles PackContents ArgumentReading CommandRuns Disk DiskTrees MadeDirectories WrittenTexts

section Points

variable {document : Document} {package : Package}

theorem previewPoint_of_lt {index : Nat} (inside : index < document.points.length) :
    document.previewPoint index = .ok (document.pointText index document.points[index]) := by
  rw [Document.previewPoint, List.getElem?_eq_getElem inside]

theorem previewPoint_of_le {index : Nat} (beyond : document.points.length ≤ index) :
    document.previewPoint index = .error (.pointOutOfRange index document.points.length) := by
  rw [Document.previewPoint, List.getElem?_eq_none beyond]

/-- Closing the file of a point only adds a line feed. -/
theorem closeLines_pointText (document : Document) (index : Nat) (point : Point) :
    Text.closeLines (document.pointText index point) = document.pointText index point ++ "\n" := by
  have loaded : '\n' ∉ document.context.loadedSpellId.toList := PackLines.foreign_loadedSpellId rfl document
  apply FileLines.closeLines_joinLines
  · exact PackLines.unbroken_pointLines loaded point index _ _
  · simp [PointFile.fileLines]
  · rw [PointFile.fileLines, List.getLast?_concat, ne_eq, Option.some.injEq]
    exact PackLines.nextLine_ne_empty index

/-- What is shown of the point in some place, and what the pack holds of it. -/
structure Shown (document : Document) (index : Nat) : Prop where
  refused : (∃ error, document.previewPoint index = .error error) ↔ document.points.length ≤ index
  reason : ∀ error, document.previewPoint index = .error error →
    error = .pointOutOfRange index document.points.length
  lines : ∀ point, document.points[index]? = some point → document.previewPoint index =
    .ok (PointFile.text document.context point index (index == 0) (index == document.points.length - 1))
  packed : ∀ package, document.assemble = .ok package → index < document.points.length →
    ∃ text, document.previewPoint index = .ok text ∧
      package.files.get? (pointPath package.spellId index) = some (text ++ "\n")

theorem shown (document : Document) (index : Nat) : Shown document index := by
  by_cases inside : index < document.points.length
  · have text := previewPoint_of_lt inside
    constructor
    · rw [text]
      exact iff_of_false (by simp) (by omega)
    · intro error same
      rw [text] at same
      cases same
    · intro point found
      have last : (index + 1 == document.points.length) = (index == document.points.length - 1) := by
        rw [Bool.eq_iff_iff, beq_iff_eq, beq_iff_eq]
        omega
      rw [List.getElem?_eq_getElem inside, Option.some.injEq] at found
      rw [text, found, Document.pointText, last]
    · intro package assembled _
      refine ⟨_, text, ?_⟩
      rw [spellId_assembled assembled, get?_point assembled (List.getElem?_eq_getElem inside), closeLines_pointText]
  · have error := previewPoint_of_le (Nat.le_of_not_lt inside)
    constructor
    · rw [error]
      exact iff_of_true ⟨_, rfl⟩ (by omega)
    · intro other same
      rw [error] at same
      cases same
      rfl
    · intro point found
      exact absurd (List.getElem?_eq_some_iff.mp found).1 inside
    · intro _ _ inRange
      exact absurd inRange inside

end Points

section Runs

variable {disk after : Disk} {path outDir output : String} {document : Document} {arguments : List String}

theorem run_unassembled (holds : Holds disk path document)
    (given : Command.ofArguments? arguments = some (.build path outDir)) {error : Error}
    (refused : document.assemble = .error error) :
    Disk.system.runArguments arguments disk = (.ofResult (.error error), disk) := by
  have planned := plan_holds holds (Command.buildPlan · outDir)
  dsimp only [Command.buildPlan] at planned
  rw [refused] at planned
  exact runArguments_refused given planned

/-- A build that ends well has assembled a pack and written it. -/
theorem written_of_done (holds : Holds disk path document)
    (given : Command.ofArguments? arguments = some (.build path outDir))
    (done : Disk.system.runArguments arguments disk = (⟨0, output⟩, after)) :
    ∃ package, document.assemble = .ok package ∧
      Disk.system.writePackage (Path.join outDir document.packageName) package disk = (.ok (), after) := by
  cases assembled : document.assemble with
  | error error =>
    rw [run_unassembled holds given assembled] at done
    cases done
  | ok package =>
    obtain ⟨_, run⟩ := run_build holds given assembled
    rw [done] at run
    refine ⟨package, rfl, ?_⟩
    rw [FileSystem.writePackage]
    cases performed : Disk.system.perform (package.writeSteps (Path.join outDir document.packageName)) disk with
    | mk result changed =>
      rw [performed] at run
      cases result with
      | ok _ =>
        cases run
        rfl
      | error error => cases run

end Runs

/-- What the command line prints of a document, and what it makes of the tree. A build runs to
its end if all that it asks for is granted, and then each point is found as it was shown. -/
structure Printed (disk : Disk) (path : String) (document : Document) : Prop where
  selected : ∃ text, document.previewPoint document.selectedIndex = .ok text ∧
    ∀ arguments, Command.ofArguments? arguments = some (.preview path none) →
      Disk.system.runArguments arguments disk = (⟨0, text ++ "\n"⟩, disk)
  chosen : ∀ arguments index, Command.ofArguments? arguments = some (.preview path (some index)) →
    Disk.system.runArguments arguments disk =
      (.ofResult ((document.previewPoint index).map (· ++ "\n")), disk)
  refused : ∀ arguments outDir error, Command.ofArguments? arguments = some (.build path outDir) →
    document.assemble = .error error →
    Disk.system.runArguments arguments disk = (.ofResult (.error error), disk)
  performed : ∀ arguments outDir package, Command.ofArguments? arguments = some (.build path outDir) →
    document.assemble = .ok package →
    ∃ output, Disk.system.runArguments arguments disk =
      let (result, changed) := Disk.system.perform (package.writeSteps (Path.join outDir document.packageName)) disk
      (.ofResult (result.map fun _ => output), changed)
  built : IsTree disk → ∀ arguments outDir output after,
    Command.ofArguments? arguments = some (.build path outDir) →
    Disk.system.runArguments arguments disk = (⟨0, output⟩, after) →
    ∃ package, document.assemble = .ok package ∧ ∀ index, index < document.points.length →
      ∃ text, document.previewPoint index = .ok text ∧
        Left disk (Path.join outDir document.packageName) package (pointPath package.spellId index) (text ++ "\n") after

theorem printed {disk : Disk} {path : String} {document : Document} (holds : Holds disk path document) :
    Printed disk path document where
  selected := by
    have text := previewPoint_of_lt (selected_of_holds holds)
    refine ⟨_, text, fun arguments given => ?_⟩
    rw [run_preview holds given, Option.getD_none, text]
    rfl
  chosen arguments index given := run_preview holds given
  refused arguments outDir error given := run_unassembled holds given
  performed arguments outDir package given := run_build holds given
  built tree arguments outDir output after given done := by
    obtain ⟨package, assembled, written⟩ := written_of_done holds given done
    refine ⟨package, assembled, fun index inside => ?_⟩
    obtain ⟨text, previewed, found⟩ := (shown document index).packed package assembled inside
    exact ⟨text, previewed, left_of_written tree assembled written found⟩

/-- What is shown of a point is what the pack holds for it, and what is printed is what a build
leaves in its file. -/
theorem preview_packed (document : Document) :
    (∀ index, Shown document index) ∧ ∀ disk path, Holds disk path document → Printed disk path document := by
  constructor
  · exact shown document
  · intro disk path holds
    exact printed holds

def boltSource : String := "\x7b\"name\": \"Bolt\"\x7d"

def boltFolder : Key := ["out", "Bolt", "data", "spellcasting", "function", "spells"]

/-- A tree with one document in it, and with an older pack that is to be written over. -/
def boltDisk : Disk where
  nodes := (["bolt.json"], .file boltSource.toUTF8) ::
    ((List.range 6).map fun depth => (boltFolder.take (depth + 1), .directory)) ++
    [(boltFolder ++ ["activate"], .directory), (boltFolder ++ ["patterns"], .directory),
      (boltFolder ++ ["patterns", "bolt"], .directory),
      (boltFolder ++ ["patterns", "bolt", "0.mcfunction"], .file "say old".toUTF8)]

theorem isTree_boltDisk : IsTree boltDisk := by decide +kernel

theorem unlinked_boltDisk : ∀ key target, boltDisk.get? key ≠ some (.link target) :=
  ne_link_of_nodes (by simp [boltDisk])

theorem holds_boltDisk : Holds boltDisk "bolt.json" (Document.named "Bolt") := by
  refine ⟨boltSource, ?_, ?_⟩ <;> rfl

/-- The point is printed first, and then it is found in its file instead of what was there. -/
theorem printed_boltDisk : ∃ text output after,
    (Document.named "Bolt").previewPoint 0 = .ok text ∧
    Disk.system.runArguments ["preview", "--document", "bolt.json", "--point=0"] boltDisk =
      (⟨0, text ++ "\n"⟩, boltDisk) ∧
    Disk.system.runArguments ["build", "--out-dir", "out", "--document=bolt.json"] boltDisk = (⟨0, output⟩, after) ∧
    after.readBytes "out/Bolt/data/spellcasting/function/spells/patterns/bolt/0.mcfunction" =
      .ok (text ++ "\n").toUTF8 := by
  have printed := (preview_packed (Document.named "Bolt")).2 boltDisk "bolt.json" holds_boltDisk
  have ended : (Disk.system.runArguments ["build", "--out-dir", "out", "--document=bolt.json"] boltDisk).1.code = 0 := by
    decide +kernel
  cases ran : Disk.system.runArguments ["build", "--out-dir", "out", "--document=bolt.json"] boltDisk with
  | mk outcome after =>
    rw [ran] at ended
    obtain ⟨code, output⟩ := outcome
    obtain rfl : code = 0 := ended
    obtain ⟨package, assembled, points⟩ := printed.built isTree_boltDisk _ "out" output after (by decide +kernel) ran
    obtain ⟨text, previewed, left⟩ := points 0 (by decide)
    have shown := printed.chosen ["preview", "--document", "bolt.json", "--point=0"] 0 (by decide +kernel)
    rw [previewed] at shown
    refine ⟨text, output, after, previewed, shown, rfl, ?_⟩
    have place : Path.join (Path.join "out" (Document.named "Bolt").packageName) (pointPath package.spellId 0) =
        "out/Bolt/data/spellcasting/function/spells/patterns/bolt/0.mcfunction" := by
      rw [spellId_assembled assembled]
      decide +kernel
    rw [← place]
    exact left.unlinked unlinked_boltDisk

end SpellPack.Proofs.PointPreview
