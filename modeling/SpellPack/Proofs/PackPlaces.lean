import SpellPack.Pack.Names
import SpellPack.Proofs.ArgumentReading
import SpellPack.Proofs.CommandRuns
import SpellPack.Proofs.PackContents
import SpellPack.Proofs.PathNames

/-! Where a build may write. The directory of a pack is one name below the directory that was
asked for, and below it every path goes down through words of small letters and digits. No file
lies where another one needs a directory. -/

namespace SpellPack.Proofs.PackPlaces
open Layout SpellPack.Path SlugText PathNames PackPaths PackFiles CommandRuns ArgumentReading

section Words

def IsWord (text : String) : Prop := text ≠ "" ∧ ∀ c ∈ text.toList, IsIdChar c

theorem IsWord.append {front back : String} (first : IsWord front) (second : IsWord back) : IsWord (front ++ back) := by
  refine ⟨FileLines.append_ne_empty first.1 back, ?_⟩
  intro c member
  rw [String.toList_append, List.mem_append] at member
  cases member with
  | inl inside => exact first.2 c inside
  | inr inside => exact second.2 c inside

theorem IsWord.not_mem {text : String} (word : IsWord text) {c : Char} (other : ¬ IsIdChar c) : c ∉ text.toList :=
  fun member => other (word.2 c member)

theorem isWord_literal {chars : List Char} (nonempty : chars ≠ [])
    (kept : chars.all (fun c => Text.isSlugChar c || c == '_') = true) : IsWord (String.ofList chars) := by
  refine ⟨by simpa using nonempty, ?_⟩
  simpa [IsIdChar] using kept

theorem isWord_slug (name : String) : IsWord (Text.slug name) := by
  refine ⟨?_, isIdChar_slug name⟩
  unfold Text.slug
  cases kept : Text.slugChars name.toList with
  | nil => decide
  | cons c later => simp

theorem isWord_digits (n : Nat) : IsWord (toString n) := by
  constructor
  · intro empty
    have digits := congrArg String.toList empty
    simp only [Nat.toString_eq_repr, Nat.toList_repr] at digits
    exact Nat.toDigits_ne_nil digits
  · intro c member
    rw [Nat.toString_eq_repr, Nat.toList_repr] at member
    exact .inl (FileLines.isSlugChar_digit (Nat.isDigit_of_mem_toDigits (by decide) (by decide) member))

structure IsPlainName (name : String) : Prop where
  nonempty : name ≠ ""
  here : name ≠ "."
  above : name ≠ ".."
  characters : ∀ c ∈ name.toList, IsIdChar c ∨ c = '.'

theorem isPlainName_of_mem {name : String} {c : Char} (member : c ∈ name.toList) (visible : c ≠ '.')
    (characters : ∀ c ∈ name.toList, IsIdChar c ∨ c = '.') : IsPlainName name := by
  refine ⟨?_, ?_, ?_, characters⟩
  all_goals
    rintro rfl
    simp [visible] at member

theorem IsPlainName.not_idle {name : String} (plain : IsPlainName name) : isIdle name = false := by
  simp [isIdle, plain.nonempty, plain.here]

theorem IsWord.plain {text : String} (word : IsWord text) : IsPlainName text := by
  obtain ⟨c, member⟩ := List.exists_mem_of_ne_nil text.toList (by simpa using word.1)
  refine isPlainName_of_mem member ?_ fun c inside => .inl (word.2 c inside)
  rintro rfl
  exact word.not_mem (by unfold IsIdChar; decide) member

theorem isPlainName_dotted {stem extension : String} (word : IsWord stem) (word' : IsWord extension) :
    IsPlainName (stem ++ "." ++ extension) := by
  obtain ⟨c, member⟩ := List.exists_mem_of_ne_nil stem.toList (by simpa using word.1)
  apply isPlainName_of_mem (c := c)
  · simp [member]
  · rintro rfl
    exact word.not_mem (by unfold IsIdChar; decide) member
  · intro c inside
    simp only [String.toList_append, List.mem_append] at inside
    rcases inside with (first | dot) | second
    · exact .inl (word.2 c first)
    · exact .inr (by simpa using dot)
    · exact .inl (word'.2 c second)

end Words

section Files

variable {document : Document} {package : Package}

/-- A file in folders whose names are words. Its own name is two words with a dot between them. -/
def Filed (path : String) : Prop :=
  ∃ folders stem extension, names path = folders ++ [stem ++ "." ++ extension] ∧
    (∀ folder ∈ folders, IsWord folder) ∧ IsWord stem ∧ IsWord extension

theorem filed_intercalate {folders : List String} {stem extension : String} (words : ∀ folder ∈ folders, IsWord folder)
    (word : IsWord stem) (word' : IsWord extension) :
    Filed ("/".intercalate (folders ++ [stem ++ "." ++ extension])) := by
  have slash : ¬ IsIdChar '/' := by unfold IsIdChar; decide
  refine ⟨folders, stem, extension, ?_, words, word, word'⟩
  apply names_intercalate
  · simp only [List.forall_mem_append, List.forall_mem_singleton]
    refine ⟨fun folder member => (words folder member).not_mem slash, ?_⟩
    exact FileLines.not_mem_append (FileLines.not_mem_append (word.not_mem slash) (by decide)) (word'.not_mem slash)
  · simp

def spellFolders : List String := ["data", "spellcasting", "function", "spells"]

theorem filed_spells {path stem : String} {folders : List String} (words : ∀ folder ∈ folders, IsWord folder)
    (word : IsWord stem) (shape : path = "/".intercalate (spellFolders ++ folders ++ [stem ++ "." ++ "mcfunction"])) :
    Filed path := by
  have fixed : ∀ folder ∈ spellFolders, IsWord folder := by
    simp only [spellFolders, List.forall_mem_cons]
    refine ⟨?_, ?_, ?_, ?_, List.forall_mem_nil _⟩
    all_goals exact isWord_literal (by decide) (by decide)
  rw [shape]
  apply filed_intercalate _ word
  · exact isWord_literal (by decide) (by decide)
  · exact List.forall_mem_append.mpr ⟨fixed, words⟩

theorem filed_paths (assembled : document.assemble = .ok package) : ∀ path ∈ package.files.paths, Filed path := by
  have loaded : IsWord document.loadedSpellId := by
    unfold Document.loadedSpellId
    split
    · exact isWord_slug document.name
    · exact isWord_slug document.loadedSpell
  have spell : IsWord document.spellId := isWord_slug document.name
  have literal : IsWord "activate" ∧ IsWord "patterns" ∧ IsWord "ray_tick_" ∧ IsWord "pack" ∧ IsWord "mcmeta" := by
    refine ⟨?_, ?_, ?_, ?_, ?_⟩
    all_goals exact isWord_literal (by decide) (by decide)
  obtain ⟨activate, patterns, tick, pack, mcmeta⟩ := literal
  intro path member
  rcases PackLines.covered assembled path member with rfl | rfl | ⟨index, _, rfl⟩ | ⟨entry, _, rfl⟩
  · exact ⟨[], "pack", "mcmeta", rfl, List.forall_mem_nil _, pack, mcmeta⟩
  · have folder : ∀ folder ∈ ["activate"], IsWord folder := List.forall_mem_singleton.mpr activate
    apply filed_spells folder loaded
    apply String.toList_inj.mp
    simp [activationPath, functionFile, spellsRoot, spellFolders]
  · have folders : ∀ folder ∈ ["patterns", document.spellId], IsWord folder :=
      List.forall_mem_cons.mpr ⟨patterns, List.forall_mem_singleton.mpr spell⟩
    apply filed_spells folders (isWord_digits index)
    apply String.toList_inj.mp
    simp [pointPath, functionFile, spellsRoot, spellFolders]
  · apply filed_spells (List.forall_mem_singleton.mpr spell) (tick.append (isWord_digits entry.2))
    apply String.toList_inj.mp
    simp [rayPath, functionFile, spellsRoot, spellFolders]

theorem Filed.plain {path : String} (filed : Filed path) : ∀ name ∈ names path, IsPlainName name := by
  obtain ⟨folders, stem, extension, shape, words, word, word'⟩ := filed
  rw [shape, List.forall_mem_append, List.forall_mem_singleton]
  exact ⟨fun folder member => (words folder member).plain, isPlainName_dotted word word'⟩

theorem Filed.relative {path : String} (filed : Filed path) : isRooted path = false := by
  rw [Bool.eq_false_iff]
  intro rooted
  obtain ⟨later, begins⟩ := names_rooted rooted
  exact (filed.plain "" (by simp [begins])).nonempty rfl

/-- Where another file needs a directory there is no dot in the name. -/
theorem Filed.eq_of_begins {path other : String} (filed : Filed path) (filed' : Filed other)
    (below : names path <+: names other) : path = other := by
  obtain ⟨folders, stem, extension, shape, -⟩ := filed
  obtain ⟨folders', stem', extension', shape', words, -⟩ := filed'
  apply names_injective
  rw [shape, shape', List.prefix_concat_iff] at below
  cases below with
  | inl same => rw [shape, shape', same]
  | inr inside =>
    have member : stem ++ "." ++ extension ∈ folders' := inside.subset (by simp)
    exact absurd (by simp) ((words _ member).not_mem (c := '.') (by unfold IsIdChar; decide))

end Files

section Names

structure IsFolderName (name : String) : Prop where
  nonempty : name ≠ ""
  plain : ∀ c ∈ name.toList, c ≠ '/' ∧ c ≠ '\\' ∧ c ≠ ':' ∧ Text.isControl c = false
  visible : name.toList.head? ≠ some '.'

theorem IsFolderName.names {name : String} (folder : IsFolderName name) : names name = [name] := by
  have slash : '/' ∉ name.toList := fun member => (folder.plain '/' member).1 rfl
  simp [Path.names, Text.pieces, FileLines.splitAt_without slash]

theorem IsFolderName.relative {name : String} (folder : IsFolderName name) : isRooted name = false := by
  rw [isRooted, beq_eq_false_iff_ne]
  intro rooted
  exact (folder.plain '/' (List.mem_of_head? rooted)).1 rfl

theorem IsFolderName.not_idle {name : String} (folder : IsFolderName name) : isIdle name = false := by
  have dot : name ≠ "." := by
    rintro rfl
    exact folder.visible rfl
  simp [isIdle, folder.nonempty, dot]

theorem isFolderName_cleaned {cleaned : List Char} (typed : List Char)
    (from_typed : cleaned = (typed.map fun c => if Document.isUnsafeInName c then '_' else c).dropWhile (· == '.'))
    (visible : cleaned.all Text.isBlank = false) : IsFolderName (String.ofList cleaned) := by
  constructor
  · intro empty
    rw [String.ofList_eq_empty_iff.mp empty] at visible
    cases visible
  · intro c member
    rw [String.toList_ofList, from_typed] at member
    obtain ⟨c', _, rfl⟩ := List.mem_map.mp ((List.dropWhile_sublist _).mem member)
    split
    · decide
    · next safe => simpa [Document.isUnsafeInName, and_assoc] using safe
  · rw [String.toList_ofList, from_typed]
    intro first
    have stops := List.head?_dropWhile_not (· == '.')
      (typed.map fun c => if Document.isUnsafeInName c then '_' else c)
    rw [first] at stops
    cases stops

theorem isFolderName_packageName (document : Document) : IsFolderName document.packageName := by
  unfold Document.packageName
  dsimp only
  split
  · refine ⟨by decide, ?_, by decide⟩
    have plain : Document.defaultPackageName.toList.all
        (fun c => c != '/' && c != '\\' && c != ':' && !Text.isControl c) = true := by decide
    simpa [and_assoc] using plain
  · next visible => exact isFolderName_cleaned _ rfl (by simpa using visible)

end Names

section Steps

variable {document : Document} {package : Package} {outDir : String}

/-- A step makes a directory of the pack or writes one of its files, as its path says. -/
inductive Lies (document : Document) (package : Package) (outDir : String) : FileSystem.Step → Prop where
  | folder {path key : String} (held : key ∈ package.files.paths)
      (place : names path = folderNames outDir ++ document.packageName :: (names key).dropLast) :
      Lies document package outDir (.makeDirectories path)
  | file {path key text : String} (found : package.files.get? key = some text)
      (joined : path = join (join outDir document.packageName) key)
      (place : names path = folderNames outDir ++ document.packageName :: names key) :
      Lies document package outDir (.write path text)

theorem join_folder_ne_empty {name : String} (folder : IsFolderName name) : join outDir name ≠ "" := by
  intro empty
  have joined := @names_join outDir name folder.relative
  rw [empty, folder.names] at joined
  have last := congrArg List.getLast? joined
  rw [List.getLast?_concat, names, Text.pieces] at last
  exact folder.nonempty (by simpa [Text.splitAt] using last.symm)

theorem folderNames_join {name : String} (folder : IsFolderName name) :
    folderNames (join outDir name) = folderNames outDir ++ [name] := by
  have joined := @names_join outDir name folder.relative
  rw [folder.names] at joined
  have nonempty : join outDir name ≠ "" := join_folder_ne_empty folder
  cases names_folder nonempty with
  | inl same => exact same.symm.trans joined
  | inr slash =>
    rw [joined] at slash
    obtain ⟨_, last⟩ := List.append_inj' slash rfl
    exact absurd (List.singleton_inj.mp last) folder.nonempty

/-- The last directory above a file of the pack is named by a word or as the pack is. -/
theorem lastFolder {name : String} (folder : IsFolderName name) {folders : List String}
    (words : ∀ folder ∈ folders, IsWord folder) (front : List String) :
    ∃ before last, front ++ name :: folders = before ++ [last] ∧ isIdle last = false := by
  rcases List.eq_nil_or_concat folders with rfl | ⟨above, last, rfl⟩
  · exact ⟨front, name, rfl, folder.not_idle⟩
  · have word := words last (by simp)
    exact ⟨front ++ name :: above, last, by simp, word.plain.not_idle⟩

theorem lies_writeSteps (assembled : document.assemble = .ok package) (outDir : String) :
    ∀ step ∈ package.writeSteps (join outDir document.packageName), Lies document package outDir step := by
  have folder := isFolderName_packageName document
  intro step member
  obtain ⟨⟨key, text⟩, held, inside⟩ := List.mem_flatMap.mp member
  have inPaths : key ∈ package.files.paths := List.mem_map_of_mem held
  have place : names (join (join outDir document.packageName) key) =
      folderNames outDir ++ document.packageName :: names key := by
    rw [names_join (filed_paths assembled key inPaths).relative, folderNames_join folder, List.append_assoc]
    rfl
  have file : Lies document package outDir (.write (join (join outDir document.packageName) key) text) :=
    .file (PackContents.get?_eq_some_iff.mpr held) rfl place
  obtain ⟨folders, stem, extension, shape, words, word, word'⟩ := filed_paths assembled key inPaths
  have named := (isPlainName_dotted word word').not_idle
  obtain ⟨before, last, above, named'⟩ := lastFolder folder words (folderNames outDir)
  have split : names (join (join outDir document.packageName) key) =
      before ++ [last] ++ [stem ++ "." ++ extension] := by
    rw [place, shape, ← above]
    simp
  obtain ⟨parent, up, parentNames⟩ := parent?_names split named' named
  simp only [up, List.mem_cons, List.not_mem_nil, or_false] at inside
  cases inside with
  | inl directory =>
    subst directory
    apply Lies.folder inPaths
    rw [parentNames, ← above, shape, List.dropLast_concat]
  | inr write =>
    subst write
    exact file

/-- No file of a pack lies where another one needs a directory, and a build puts each of them in its place. -/
structure Contained (document : Document) (package : Package) : Prop where
  plain : ∀ key ∈ package.files.paths, ∀ name ∈ names key, IsPlainName name
  apart : ∀ key ∈ package.files.paths, ∀ other ∈ package.files.paths, names key <+: names other → key = other
  placed : ∀ outDir, ∀ step ∈ package.writeSteps (join outDir document.packageName), Lies document package outDir step

theorem contained (assembled : document.assemble = .ok package) : Contained document package where
  plain key member := (filed_paths assembled key member).plain
  apart key member other member' :=
    (filed_paths assembled key member).eq_of_begins (filed_paths assembled other member')
  placed := lies_writeSteps assembled

def afterBuild (document : Document) (outDir : String) (disk : Disk) : Disk :=
  match document.assemble with
  | .error _ => disk
  | .ok package => (Disk.system.perform (package.writeSteps (join outDir document.packageName)) disk).2

theorem run_afterBuild {disk : Disk} {path : String} (holds : Holds disk path document) {arguments : List String}
    (given : Command.ofArguments? arguments = some (.build path outDir)) :
    (Disk.system.runArguments arguments disk).2 = afterBuild document outDir disk := by
  unfold afterBuild
  cases assembled : document.assemble with
  | error error =>
    have planned := plan_holds holds (Command.buildPlan · outDir)
    dsimp only [Command.buildPlan] at planned
    rw [assembled] at planned
    rw [runArguments_refused given planned]
  | ok package =>
    obtain ⟨output, run⟩ := run_build holds given assembled
    rw [run]
    rfl

/-- A build stays in the directory that is named after the spell, whatever the name is. -/
theorem build_contained (document : Document) :
    IsFolderName document.packageName ∧
    (∀ package, document.assemble = .ok package → Contained document package) ∧
    ∀ disk path arguments outDir, Holds disk path document →
      Command.ofArguments? arguments = some (.build path outDir) →
      (Disk.system.runArguments arguments disk).2 = afterBuild document outDir disk := by
  refine ⟨isFolderName_packageName document, ?_, ?_⟩
  · intro package assembled
    exact contained assembled
  · intro disk path arguments outDir holds given
    exact run_afterBuild holds given

end Steps

def climbingSource : String := "\x7b\"name\": \"../x\"\x7d"

def climbingDisk : Disk := (Disk.empty []).put ["x.json"] (.file climbingSource.toUTF8)

theorem holds_climbingDisk : Holds climbingDisk "x.json" (Document.named "../x") := by
  refine ⟨climbingSource, ?_, ?_⟩ <;> rfl

theorem contained_climbing :
    (Document.named "../x").packageName = "_x" ∧
    (∃ package, (Document.named "../x").assemble = .ok package ∧ Contained (Document.named "../x") package) ∧
    (Disk.system.runArguments ["build", option "document" "x.json", option "out-dir" "out"] climbingDisk).2 =
      afterBuild (Document.named "../x") "out" climbingDisk := by
  obtain ⟨folder, contained, run⟩ := build_contained (Document.named "../x")
  obtain ⟨package, assembled⟩ := @assembled_of_named (Document.named "../x") (by decide +kernel)
  refine ⟨by decide +kernel, ⟨package, assembled, contained package assembled⟩, ?_⟩
  exact run climbingDisk "x.json" _ "out" holds_climbingDisk (ofArguments?_build "x.json" "out")

end SpellPack.Proofs.PackPlaces
