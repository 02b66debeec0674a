import SpellPack.Proofs.CommandLines
import SpellPack.Proofs.PackFiles
import SpellPack.Proofs.QuotedText
import SpellPack.Proofs.RayMacros

/-! The lines of the files of a pack. What is typed into a field stands on one line or,
where commands are meant, on the lines of these commands. No field adds a line to a file or
takes one away. -/

namespace SpellPack.Proofs.PackLines
open Text Layout Macro FileLines CommandLines MacroTokens RayMacros

section Lines

theorem foreign_loadedSpellId {c : Char} (other : foreign c = true) (document : Document) :
    c ∉ document.loadedSpellId.toList := by
  rw [Document.loadedSpellId]
  split
  · exact foreign_slug other document.name
  · exact foreign_slug other document.loadedSpell

theorem not_mem_rayFunction {c : Char} (other : foreign c = true) (folder : c ∉ "spellcasting:spells/".toList)
    (file : c ∉ "/ray_tick_".toList) (name : String) (index : Nat) : c ∉ (rayFunction (slug name) index).toList := by
  apply not_mem_append _ (foreign_digits other index)
  exact not_mem_append (not_mem_append folder (foreign_slug other name)) file

section Control

variable {c : Char} (control : isControl c = true)

include control

theorem control_userData : c ∉ PointFile.userData.toList := not_mem_fixed control rfl

theorem control_headerLine (name : String) : c ∉ (PointFile.headerLine name).toList := by
  unfold PointFile.headerLine
  apply not_mem_append
  · exact not_mem_append (control_userData control) (not_mem_fixed control rfl)
  · split
    · exact not_mem_fixed control rfl
    · exact control_singleLine control name

theorem control_spawnLine (offset : Offset) : c ∉ (PointFile.spawnLine offset).toList := by
  have number : ∀ x : Binary64, c ∉ x.commandText.toList := foreign_commandText (foreign_control control)
  unfold PointFile.spawnLine
  apply not_mem_append _ (not_mem_fixed control rfl)
  apply not_mem_append _ (number offset.z)
  apply not_mem_append _ (not_mem_fixed control rfl)
  apply not_mem_append _ (number offset.y)
  apply not_mem_append _ (not_mem_fixed control rfl)
  exact not_mem_append (not_mem_fixed control rfl) (number offset.x)

theorem control_nextLine (index : Nat) : c ∉ (PointFile.nextLine index).toList := by
  apply not_mem_append
  · exact not_mem_append (control_userData control) (not_mem_fixed control rfl)
  · exact foreign_digits (foreign_control control) (index + 1)

theorem control_footerLines {context : SpellContext} (loaded : c ∉ context.loadedSpellId.toList) :
    ∀ line ∈ PointFile.footerLines context, c ∉ line.toList := by
  have delay := foreign_integer (foreign_control control) context.delay.toInt
  unfold PointFile.footerLines
  simp only [List.forall_mem_cons]
  refine ⟨?_, not_mem_append ?_ delay, ?_, not_mem_append ?_ ?_,
    not_mem_append (not_mem_append (control_userData control) ?_) loaded, ?_, ?_, ?_, ?_, ?_, ?_, List.forall_mem_nil _⟩
  all_goals exact not_mem_fixed control rfl

/-- Only the commands of a point can hold control characters. -/
theorem control_pointLines {context : SpellContext} (loaded : c ∉ context.loadedSpellId.toList) {point : Point}
    {index : Nat} {isFirst isLast : Bool} :
    ∀ line ∈ PointFile.fileLines context point index isFirst isLast,
      line ∈ commandLines point.commands ∨ c ∉ line.toList := by
  unfold PointFile.fileLines
  simp only [List.forall_mem_append]
  refine ⟨⟨⟨?_, fun _ => Or.inl⟩, ?_⟩, ?_⟩
  · cases isFirst with
    | false => exact List.forall_mem_nil _
    | true => exact List.forall_mem_singleton.mpr (.inr (control_headerLine control context.name))
  · cases isLast with
    | false => exact List.forall_mem_singleton.mpr (.inr (control_spawnLine control point.offset))
    | true => exact fun line member => .inr (control_footerLines control loaded line member)
  · exact List.forall_mem_singleton.mpr (.inr (control_nextLine control index))

theorem control_callLines (ray : Ray) (index : Nat) (name : String) :
    ∀ line ∈ RayFile.activationLines ray index (slug name), c ∉ line.toList := by
  have word : c ∉ "function ".toList := not_mem_fixed control rfl
  have called : c ∉ (rayFunction (slug name) index).toList :=
    not_mem_rayFunction (foreign_control control) (not_mem_fixed control rfl)
      (not_mem_fixed control rfl) name index
  have call := not_mem_append word called
  unfold RayFile.activationLines
  simp only [List.forall_mem_cons]
  refine ⟨?_, ?_, List.forall_mem_nil _⟩
  · apply not_mem_append _ (foreign_digits (foreign_control control) _)
    apply not_mem_append _ (not_mem_fixed control rfl)
    exact not_mem_append (not_mem_fixed control rfl) (not_mem_fixed control rfl)
  · split
    · exact not_mem_append call (not_mem_fixed control rfl)
    · exact call

end Control

theorem nextLine_ne_empty (index : Nat) : PointFile.nextLine index ≠ "" := by
  apply append_ne_empty
  exact append_ne_empty (by decide) _

theorem unbroken_pointLines {context : SpellContext} (loaded : '\n' ∉ context.loadedSpellId.toList) (point : Point)
    (index : Nat) (isFirst isLast : Bool) :
    ∀ line ∈ PointFile.fileLines context point index isFirst isLast, '\n' ∉ line.toList := by
  intro line member
  rcases control_pointLines (c := '\n') (by decide) loaded line member with command | plain
  · exact (unbroken_commandLines command).1
  · exact plain

theorem pieces_pointText (document : Document) (index : Nat) (point : Point) :
    pieces '\n' (document.pointText index point) =
      PointFile.fileLines document.context point index (index == 0) (index + 1 == document.points.length) := by
  have loaded : '\n' ∉ document.context.loadedSpellId.toList := foreign_loadedSpellId rfl document
  exact pieces_joinLines (unbroken_pointLines loaded point index _ _) (by simp [PointFile.fileLines])

theorem unbroken_rayLines (ray : Ray) (index : Nat) (name : String) :
    ∀ line ∈ RayFile.fileLines ray index (slug name), '\n' ∉ line.toList :=
  fun _ member => (fileLine_sound member).1 '\n' (by decide)

theorem visible_callLines (ray : Ray) (index : Nat) (spellId : String) :
    ∀ line ∈ RayFile.activationLines ray index spellId, line ≠ "" := by
  have call : "function " ++ rayFunction spellId index ≠ "" := append_ne_empty (by decide) _
  unfold RayFile.activationLines
  simp only [List.forall_mem_cons]
  refine ⟨?_, ?_, List.forall_mem_nil _⟩
  · apply append_ne_empty
    apply append_ne_empty
    exact append_ne_empty (by decide) _
  · split
    · exact append_ne_empty call _
    · exact call

theorem activationLines_sound (document : Document) :
    ∀ line ∈ document.activationLines, '\n' ∉ line.toList ∧ line ≠ "" := by
  intro line member
  rcases List.mem_append.mp member with command | call
  · obtain ⟨written, inside, rfl⟩ := List.mem_map.mp command
    obtain ⟨unbroken, visible⟩ := unbroken_commandLines inside
    exact ⟨mt (mem_markLine (by decide)).mp unbroken, markLine_ne_empty visible⟩
  · obtain ⟨⟨ray, index⟩, _, inside⟩ := List.mem_flatMap.mp call
    exact ⟨control_callLines (by decide) ray index document.name line inside,
      visible_callLines ray index _ line inside⟩

/-- The author may hold control characters, but none that a quoted text would show. -/
theorem low_manifestLines {c : Char} (low : QuotedText.isLow c = true) (author : String) :
    ∀ line ∈ manifestLines author, c ∉ line.toList := by
  have control : isControl c = true := by
    simp only [QuotedText.isLow, decide_eq_true_eq] at low
    simp only [isControl, Bool.or_eq_true, decide_eq_true_eq]
    omega
  have most := foreign_digits (foreign_control control) packFormat
  have least := foreign_digits (foreign_control control) leastFormat
  have quoted : c ∉ (Json.quote (description author)).toList := QuotedText.not_mem_quote low _
  unfold manifestLines
  simp only [List.forall_mem_cons]
  refine ⟨?_, ?_, not_mem_append (not_mem_append ?_ most) ?_, not_mem_append (not_mem_append ?_ quoted) ?_, ?_,
    not_mem_append (not_mem_append ?_ least) ?_, not_mem_append ?_ most, ?_, ?_, ?_, List.forall_mem_nil _⟩
  all_goals exact not_mem_fixed control rfl

end Lines

section Shown

theorem trimmed_blank {text : List Char} (blank : (trimmed text).all isBlank = true) : trimmed text = [] := by
  rw [← TextEnds.trimmed_trimmed]
  exact (trimmed_eq_nil_iff _).mpr blank

theorem isEmpty_singleLine (text : String) : (singleLine text).isEmpty = isBlankText (singleLine text) := by
  rw [Bool.eq_iff_iff, String.isEmpty_iff, isBlankText, singleLine, String.toList_ofList]
  constructor
  · intro empty
    rw [String.ofList_eq_empty_iff.mp empty]
    rfl
  · intro blank
    exact String.ofList_eq_empty_iff.mpr (trimmed_blank blank)

def isShown (text : String) : Bool := !isBlankText (singleLine text)

def shownParticles (ray : Ray) : List Particle := ray.particles.filter fun particle => isShown particle.name

def isShownCheck (check : Check) : Bool := isShown check.subject && isShown check.command

/-- Block checks before entity checks. -/
def shownChecks (ray : Ray) : List Check := (ray.blockChecks ++ ray.entityChecks).filter isShownCheck

theorem isSome_particleLine (particle : Particle) :
    (RayFile.particleLine? particle).isSome = isShown particle.name := by
  unfold RayFile.particleLine? isShown
  rw [← isEmpty_singleLine]
  dsimp only
  cases (singleLine particle.name).isEmpty <;> rfl

theorem isSome_checkLine (check : Check) : (RayFile.checkLine? check).isSome = isShownCheck check := by
  unfold RayFile.checkLine? isShownCheck isShown
  rw [← isEmpty_singleLine, ← isEmpty_singleLine]
  dsimp only
  cases (singleLine check.subject).isEmpty <;> cases (singleLine check.command).isEmpty <;> rfl

theorem map_filter_isSome {f : α → Option β} {shown : α → Bool} (some : ∀ item, (f item).isSome = shown item)
    (items : List α) : (items.filter shown).map f = (items.filterMap f).map Option.some := by
  induction items with
  | nil => rfl
  | cons item later ih =>
    rw [List.filter_cons, ← some, List.filterMap_cons]
    cases written : f item with
    | none => exact ih
    | some result =>
      rw [Option.isSome_some, if_pos rfl]
      rw [List.map_cons, List.map_cons, written, ih]

end Shown

def HasLines (files : Files) (path : String) (lines : List String) : Prop :=
  ∃ text, files.get? path = some text ∧ pieces '\n' text = lines ++ [""]

/-- One line for each particle and each check of which something is shown. -/
def RayLines (ray : Ray) (index : Nat) (spellId : String) (lines : List String) : Prop :=
  ∃ particleLines checkLines,
    lines = [RayFile.titleLine ray index, RayFile.guardLine, RayFile.countLine] ++ particleLines ++ checkLines ++
      [RayFile.stepLine ray index spellId] ∧
    (shownParticles ray).map RayFile.particleLine? = particleLines.map some ∧
    (shownChecks ray).map RayFile.checkLine? = checkLines.map some

/-- The lines of all files of a pack, and that there are no other files. -/
structure Lined (document : Document) (files : Files) : Prop where
  manifest : (manifestLines document.author).length = 10 ∧ HasLines files manifestPath (manifestLines document.author)
  footer : (PointFile.footerLines document.context).length = 11
  points : ∀ index point, document.points[index]? = some point →
    HasLines files (pointPath document.spellId index)
      ((if index = 0 then [PointFile.headerLine document.context.name] else []) ++ commandLines point.commands ++
        (if index + 1 = document.points.length then PointFile.footerLines document.context
          else [PointFile.spawnLine point.offset]) ++ [PointFile.nextLine index])
  rays : ∀ ray index, (ray, index) ∈ document.enabledRays →
    rayPath document.spellId index ≠ activationPath document.loadedSpellId →
    ∃ lines, RayLines ray index document.spellId lines ∧ HasLines files (rayPath document.spellId index) lines
  calls : ∀ ray index, (RayFile.activationLines ray index document.spellId).length = 2
  activation :
    let lines := (commandLines document.finishCommands).map markLine ++
      document.enabledRays.flatMap fun (ray, index) => RayFile.activationLines ray index document.spellId
    if lines = [] then files.get? (activationPath document.loadedSpellId) = some "\n"
    else HasLines files (activationPath document.loadedSpellId) lines
  covered : ∀ path ∈ files.paths, path = manifestPath ∨ path = activationPath document.loadedSpellId ∨
    (∃ index, index < document.points.length ∧ path = pointPath document.spellId index) ∨
    ∃ entry ∈ document.enabledRays, path = rayPath document.spellId entry.2
  ends : ∀ path text, files.get? path = some text → EndsOnce text

section Files

variable {document : Document} {package : Package}

theorem hasLines_closed {files : Files} {path : String} {lines : List String}
    (found : files.get? path = some (closeLines (joinLines lines))) (plain : ∀ line ∈ lines, '\n' ∉ line.toList)
    (nonempty : lines ≠ []) (visible : lines.getLast? ≠ some "") : HasLines files path lines :=
  ⟨_, found, pieces_closeLines plain nonempty visible⟩

theorem files_eq (assembled : document.assemble = .ok package) : package.files = Files.ofList document.packFiles := by
  rw [Document.assemble] at assembled
  split at assembled
  · cases assembled
  · cases assembled
    rfl

theorem mem_packFiles {entry : String × String} : entry ∈ document.packFiles ↔
    entry = (manifestPath, manifest document.author) ∨ entry ∈ document.pointFiles ∨ entry ∈ document.rayFiles ∨
      entry = document.activationFile := by
  simp only [Document.packFiles, List.cons_append, List.append_assoc, List.mem_cons, List.mem_append, List.not_mem_nil,
    or_false]

theorem endsOnce_manifest (author : String) : EndsOnce (manifest author) := by
  refine ⟨_, rfl, ?_⟩
  have split : manifestLines author = (manifestLines author).dropLast ++ ["\x7d"] := rfl
  have plain : '\n' ∉ "\x7d".toList := not_mem_literal (by decide)
  have unended := unended_joinLines plain (by decide) (manifestLines author).dropLast
  rwa [← split] at unended

theorem endsOnce_file (assembled : document.assemble = .ok package) {path text : String}
    (found : package.files.get? path = some text) : EndsOnce text := by
  rw [files_eq assembled] at found
  rcases mem_packFiles.mp (FileTable.mem_of_get?_ofList found) with manifest | point | ray | activation
  · cases manifest
    exact endsOnce_manifest document.author
  · obtain ⟨entry, _, same⟩ := List.mem_map.mp point
    cases same
    exact endsOnce_closeLines _
  · obtain ⟨entry, _, same⟩ := List.mem_map.mp ray
    cases same
    exact endsOnce_closeLines _
  · cases activation
    exact endsOnce_closeLines _

theorem covered (assembled : document.assemble = .ok package) : ∀ path ∈ package.files.paths,
    path = manifestPath ∨ path = activationPath document.loadedSpellId ∨
    (∃ index, index < document.points.length ∧ path = pointPath document.spellId index) ∨
    ∃ entry ∈ document.enabledRays, path = rayPath document.spellId entry.2 := by
  intro path member
  rw [files_eq assembled, FileTable.mem_paths_ofList] at member
  obtain ⟨entry, inside, rfl⟩ := List.mem_map.mp member
  rcases mem_packFiles.mp inside with manifest | point | ray | activation
  · exact .inl (congrArg Prod.fst manifest)
  · obtain ⟨⟨point, index⟩, numbered, same⟩ := List.mem_map.mp point
    have inRange := List.mem_zipIdx_iff_getElem?.mp numbered
    exact .inr (.inr (.inl ⟨index, (List.getElem?_eq_some_iff.mp inRange).1, congrArg Prod.fst same.symm⟩))
  · obtain ⟨entry, enabled, same⟩ := List.mem_map.mp ray
    exact .inr (.inr (.inr ⟨entry, enabled, congrArg Prod.fst same.symm⟩))
  · exact .inr (.inl (congrArg Prod.fst activation))

theorem manifest_eq (author : String) : manifest author = joinLines (manifestLines author) ++ "\n" := rfl

theorem hasLines_manifest (assembled : document.assemble = .ok package) :
    HasLines package.files manifestPath (manifestLines document.author) := by
  refine ⟨_, PackFiles.get?_manifest assembled, ?_⟩
  rw [manifest_eq]
  exact pieces_closed (low_manifestLines (by decide) document.author) (List.cons_ne_nil _ _)

theorem hasLines_point (assembled : document.assemble = .ok package) {index : Nat} {point : Point}
    (found : document.points[index]? = some point) :
    HasLines package.files (pointPath document.spellId index)
      (PointFile.fileLines document.context point index (index == 0) (index + 1 == document.points.length)) := by
  have loaded : '\n' ∉ document.context.loadedSpellId.toList := foreign_loadedSpellId rfl document
  apply hasLines_closed (PackFiles.get?_point assembled found)
  · exact unbroken_pointLines loaded point index _ _
  · simp [PointFile.fileLines]
  · rw [PointFile.fileLines, List.getLast?_concat, ne_eq, Option.some.injEq]
    exact nextLine_ne_empty index

theorem stepLine_ne_empty (ray : Ray) (index : Nat) (spellId : String) : RayFile.stepLine ray index spellId ≠ "" := by
  have visible : stepCall ray index spellId ≠ "" := by
    apply append_ne_empty
    apply append_ne_empty
    exact append_ne_empty (by decide) _
  rw [stepLine_eq]
  split
  · apply append_ne_empty
    apply append_ne_empty
    exact append_ne_empty (by decide) _
  · exact visible

theorem visible_rayLines (ray : Ray) (index : Nat) (spellId : String) :
    (RayFile.fileLines ray index spellId).getLast? ≠ some "" := by
  rw [RayFile.fileLines, List.getLast?_concat, ne_eq, Option.some.injEq]
  exact stepLine_ne_empty ray index spellId

/-- Closing the file of a ray only adds a line feed. -/
theorem closeLines_rayText (ray : Ray) (index : Nat) (name : String) :
    closeLines (RayFile.text ray index (slug name)) = RayFile.text ray index (slug name) ++ "\n" :=
  closeLines_joinLines (unbroken_rayLines ray index name) (by simp [RayFile.fileLines])
    (visible_rayLines ray index (slug name))

theorem hasLines_ray (assembled : document.assemble = .ok package) {ray : Ray} {index : Nat}
    (enabled : (ray, index) ∈ document.enabledRays)
    (apart : rayPath document.spellId index ≠ activationPath document.loadedSpellId) :
    HasLines package.files (rayPath document.spellId index) (RayFile.fileLines ray index document.spellId) := by
  apply hasLines_closed (PackFiles.get?_ray assembled enabled apart)
  · exact unbroken_rayLines ray index document.name
  · simp [RayFile.fileLines]
  · exact visible_rayLines ray index document.spellId

theorem rayLines_fileLines (ray : Ray) (index : Nat) (spellId : String) :
    RayLines ray index spellId (RayFile.fileLines ray index spellId) :=
  ⟨_, _, rfl, map_filter_isSome isSome_particleLine ray.particles, map_filter_isSome isSome_checkLine ray.checks⟩

theorem hasLines_activation (assembled : document.assemble = .ok package) (some : document.activationLines ≠ []) :
    HasLines package.files (activationPath document.loadedSpellId) document.activationLines := by
  have sound := activationLines_sound document
  apply hasLines_closed (PackFiles.get?_activation assembled)
  · exact fun line member => (sound line member).1
  · exact some
  · intro last
    exact (sound "" (List.mem_of_getLast? last)).2 rfl

theorem get?_blankActivation (assembled : document.assemble = .ok package) (none : document.activationLines = []) :
    package.files.get? (activationPath document.loadedSpellId) = some "\n" := by
  rw [PackFiles.get?_activation assembled, none]
  rfl

theorem lined_assembled (assembled : document.assemble = .ok package) : Lined document package.files where
  manifest := ⟨rfl, hasLines_manifest assembled⟩
  footer := rfl
  points index point found := by
    have written := hasLines_point assembled found
    simpa only [PointFile.fileLines, beq_iff_eq] using written
  rays ray index enabled apart :=
    ⟨_, rayLines_fileLines ray index document.spellId, hasLines_ray assembled enabled apart⟩
  calls _ _ := rfl
  activation := by
    show if document.activationLines = [] then _ else HasLines _ _ document.activationLines
    split
    · next none => exact get?_blankActivation assembled none
    · next some => exact hasLines_activation assembled some
  covered := covered assembled
  ends _ _ found := endsOnce_file assembled found

end Files

section Counts

variable {document : Document} {package : Package}

end Counts

def brokenDocument : Document where
  name := "Bolt\nsay one"
  author := "Ada\n\x7d"
  loadedSpell := "next\r\nspell"
  finishCommands := ["say a\r\n\nsay b\n"]
  points := [{ commands := [" say c\n"] }, {}]
  rays := [
    { name := "beam\nkill @e"
      particles := [{ name := "flame\nsay two" }, { name := "\n" }]
      entityChecks := [{ subject := "entity\n@s", command := "say\nhit" }, { subject := "entity @s" }] },
    { enabled := false, name := "\n" }]

end SpellPack.Proofs.PackLines
