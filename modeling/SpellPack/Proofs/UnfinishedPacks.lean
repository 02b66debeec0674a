import SpellPack.Proofs.StoredPacks

/-! Packs whose writing fails. The files are written in order, and the one that cannot be
written, or whose directory cannot be made, is named in the error. All files before it hold
their texts then, and no other file has changed. Without links a path says by its names alone
where its file lies, so that is known even of files that were never written. -/

namespace SpellPack.Proofs.UnfinishedPacks
open Disk FileSystem DiskRuns DiskTrees PathWalks MadeDirectories PathNames TreeReading PackPlaces WrittenPacks StoredPacks

section Ways

variable {disk after : Disk} {links left : Nat} {here there : Key} {names : List String}

def goes : Key → List String → Key
  | here, [] => here
  | here, name :: later =>
    if Path.isIdle name then goes here later
    else if name = ".." then goes here.dropLast later
    else goes (here ++ [name]) later

/-- The names meet no link, however far they lead. -/
def Straight (disk : Disk) (here : Key) (names : List String) : Prop :=
  ∀ front, front <+: names → ∀ target, disk.get? (goes here front) ≠ some (.link target)

theorem straight_of_unlinked (unlinked : ∀ key target, disk.get? key ≠ some (.link target)) (here : Key)
    (names : List String) : Straight disk here names :=
  fun front _ => unlinked (goes here front)

theorem Straight.gains {files : List (Key × ByteArray)} (gains : Gains disk files after)
    (straight : Straight disk here names) : Straight after here names := by
  intro front begins target linked
  exact straight front begins target ((gains.links _ _).mp linked)

theorem goes_idle {name : String} (idle : Path.isIdle name = true) : goes here (name :: names) = goes here names := by
  rw [goes, if_pos idle]

theorem goes_up : goes here (".." :: names) = goes here.dropLast names := rfl

theorem goes_name {name : String} (named : Path.isIdle name = false) (inward : name ≠ "..") :
    goes here (name :: names) = goes (here ++ [name]) names := by
  rw [goes, if_neg (by simp [named]), if_neg inward]

theorem goes_append (here : Key) (names more : List String) : goes here (names ++ more) = goes (goes here names) more := by
  induction names generalizing here with
  | nil => rfl
  | cons name later ih =>
    rw [List.cons_append, goes, goes]
    split
    · exact ih here
    · split
      · exact ih here.dropLast
      · exact ih (here ++ [name])

/-- Plain names lead straight down. -/
theorem goes_down (down : ∀ name ∈ names, Path.isIdle name = false ∧ name ≠ "..") : goes here names = here ++ names := by
  induction names generalizing here with
  | nil => exact (List.append_nil here).symm
  | cons name later ih =>
    obtain ⟨first, rest⟩ := List.forall_mem_cons.mp down
    rw [goes_name first.1 first.2, ih rest, List.append_assoc, List.singleton_append]

theorem Straight.behind {next : Key} {name : String} (straight : Straight disk here (name :: names))
    (step : ∀ names, goes here (name :: names) = goes next names) : Straight disk next names := by
  intro front begins
  rw [← step]
  exact straight (name :: front) (List.cons_prefix_cons.mpr ⟨rfl, begins⟩)

/-- Names that lead somewhere lead there. -/
theorem goes_of_leads (leads : Leads disk links here names left there) (straight : Straight disk here names) :
    there = goes here names := by
  induction leads with
  | done => rfl
  | idle idle _ ih =>
    rw [goes_idle idle]
    exact ih (straight.behind fun _ => goes_idle idle)
  | up _ ih => exact ih (straight.behind fun _ => goes_up)
  | down named inward _ _ ih =>
    rw [goes_name named inward]
    exact ih (straight.behind fun _ => goes_name named inward)
  | @link _ _ here _ name _ later named inward found _ _ =>
    have linked := (look_eq_ok_iff.mp found).2
    have first : goes here [name] = here ++ [name] := goes_name named inward
    rw [← first] at linked
    exact absurd linked (straight [name] (List.prefix_append [name] later) _)

end Ways

section Entries

variable {disk now next : Disk} {root path text : String} {error : Error} {entry : String × String}

/-- Where the directory of a pack lies if the names of its path meet no link. -/
def folder (disk : Disk) (root : String) : Key := goes (disk.start root) (Path.names root)

def Blames (error : Error) (root relative : String) : Prop :=
  (∃ parent fault, Path.parent? (Path.join root relative) = some parent ∧ error = .io .create parent fault) ∨
    ∃ fault, error = .io .write (Path.join root relative) fault

theorem runStep_makeDirectories_error (failed : Disk.system.runStep (.makeDirectories path) now = (.error error, next)) :
    next = (Disk.system.makeDirectories path now).2 ∧ ∃ fault, error = .io .create path fault := by
  obtain ⟨refused, rfl⟩ := Prod.mk.inj failed
  obtain ⟨fault, _, rfl⟩ := mapError_eq_error.mp refused
  exact ⟨rfl, fault, rfl⟩

/-- A write that is refused changes nothing. -/
theorem runStep_write_error (failed : Disk.system.runStep (.write path text) now = (.error error, next)) :
    next = now ∧ ∃ fault, error = .io .write path fault := by
  have ran : Disk.system.runStep (.write path text) now =
      ((Disk.change (·.writeText path text) now).1.mapError (Error.io .write path),
        (Disk.change (·.writeText path text) now).2) := rfl
  rw [ran, Disk.change] at failed
  cases written : now.writeText path text with
  | ok changed =>
    rw [written] at failed
    cases failed
  | error fault =>
    rw [written] at failed
    cases failed
    exact ⟨rfl, fault, rfl⟩

theorem perform_single_error {step : Step} (failed : Disk.system.perform [step] now = (.error error, next)) :
    Disk.system.runStep step now = (.error error, next) := by
  cases ran : Disk.system.runStep step now with
  | mk result changed =>
    cases result with
    | ok _ =>
      rw [perform_ok ran] at failed
      cases failed
    | error first => rwa [perform_error ran] at failed

theorem extends_of_made {made : Disk} (tree : IsTree now)
    (ran : Disk.system.runStep (.makeDirectories path) now = (.ok (), made)) : Extends now made := by
  have extended := makeDirectories_extends tree path
  rwa [runStep_makeDirectories_ok.mp ran] at extended

/-- A file that is not written leaves nothing but directories. -/
theorem entry_refused (tree : IsTree now)
    (failed : Disk.system.perform (entrySteps root entry) now = (.error error, next)) :
    Gains now [] next ∧ Blames error root entry.1 := by
  unfold entrySteps at failed
  split at failed
  · next parent up =>
    cases ran : Disk.system.runStep (.makeDirectories parent) now with
    | mk result made =>
      cases result with
      | error first =>
        rw [perform_error ran] at failed
        cases failed
        obtain ⟨rfl, fault, rfl⟩ := runStep_makeDirectories_error ran
        have extended := makeDirectories_extends tree parent
        exact ⟨extended.gains, .inl ⟨parent, fault, up, rfl⟩⟩
      | ok _ =>
        rw [perform_ok ran] at failed
        obtain ⟨rfl, blamed⟩ := runStep_write_error (perform_single_error failed)
        exact ⟨(extends_of_made tree ran).gains, .inr blamed⟩
  · obtain ⟨rfl, blamed⟩ := runStep_write_error (perform_single_error failed)
    exact ⟨.refl _, .inr blamed⟩

/-- Before a file is written, directories may be made. -/
theorem entry_made (tree : IsTree now) (performed : Disk.system.perform (entrySteps root entry) now = (.ok (), next)) :
    ∃ made, Extends now made ∧ made.writeText (Path.join root entry.1) entry.2 = .ok next := by
  unfold entrySteps at performed
  split at performed
  · next parent up =>
    obtain ⟨made, ran, performed⟩ := perform_cons_ok performed
    obtain ⟨_, wrote, ⟨⟩⟩ := perform_cons_ok performed
    exact ⟨made, extends_of_made tree ran, runStep_write_ok.mp wrote⟩
  · obtain ⟨_, wrote, ⟨⟩⟩ := perform_cons_ok performed
    exact ⟨now, .refl tree, runStep_write_ok.mp wrote⟩

theorem start_join {relative : String} (plain : Path.isRooted relative = false) (disk : Disk) :
    disk.start (Path.join root relative) = disk.start root := by
  by_cases empty : root = ""
  · subst empty
    have alone : Path.join "" relative = relative := by simp [Path.join]
    rw [alone, start, start, plain]
    rfl
  · rw [start, start, isRooted_join empty plain]

theorem goes_folderNames (here : Key) (root : String) : goes here (folderNames root) = goes here (Path.names root) := by
  by_cases empty : root = ""
  · subst empty
    rfl
  · cases names_folder empty with
    | inl same => rw [← same]
    | inr slash =>
      rw [slash, goes_append]
      rfl

/-- The place of a file is its name behind where the names before it lead. -/
theorem filed_place (filed : Filed path) (now : Disk) (root : String) :
    ∃ front file, Path.names (Path.join root path) = front ++ [file] ∧ Path.isIdle file = false ∧ file ≠ ".." ∧
      folder now root ++ Path.names path = goes (now.start root) front ++ [file] := by
  have joined := @names_join root path filed.relative
  have words := filed.plain
  obtain ⟨folders, stem, extension, shape, -⟩ := filed
  generalize stem ++ "." ++ extension = file at shape
  rw [shape, List.forall_mem_append, List.forall_mem_singleton] at words
  have down : goes (folder now root) folders = folder now root ++ folders :=
    goes_down fun name member => ⟨(words.1 name member).not_idle, (words.1 name member).above⟩
  refine ⟨folderNames root ++ folders, file, ?_, words.2.not_idle, words.2.above, ?_⟩
  · rw [joined, shape, List.append_assoc]
  · rw [goes_append, goes_folderNames, ← folder, down, shape, List.append_assoc]

/-- A file that is written lies where its path says. -/
theorem entry_done (tree : IsTree now) (filed : Filed entry.1)
    (straight : Straight now (now.start root) (Path.names (Path.join root entry.1)))
    (performed : Disk.system.perform (entrySteps root entry) now = (.ok (), next)) :
    IsTree next ∧ Gains now [entryFile (folder now root) entry] next := by
  obtain ⟨made, extended, writing⟩ := entry_made tree performed
  obtain ⟨front, file, joined, named, inward, place⟩ := filed_place filed now root
  have start := @start_join root entry.1 filed.relative made
  have home : made.start root = now.start root := by rw [Disk.start, Disk.start, extended.gains.home]
  rw [joined] at straight
  have straight := straight.gains extended.gains
  obtain ⟨_, left, directory, leads, puts⟩ := writeText_ok extended.tree joined named inward writing
  rw [start, home] at leads
  obtain rfl := goes_of_leads leads fun begun begins => straight begun (begins.trans (List.prefix_append _ _))
  have unlinked : ∀ target, made.get? (goes (now.start root) front ++ [file]) ≠ some (.link target) := by
    have last : goes (now.start root) (front ++ [file]) = goes (now.start root) front ++ [file] := by
      rw [goes_append, goes_name named inward, goes]
    rw [← last]
    exact straight _ (List.prefix_refl _)
  obtain ⟨put, free⟩ := puts unlinked
  have kept : made.get? (goes (now.start root) front ++ [file]) ≠ some .directory := by
    rcases free with free | ⟨held, free⟩ <;> simp [free]
  rw [entryFile, place]
  exact ⟨put.isTree extended.tree kept, extended.gains.trans (put.gains_file free)⟩

/-- A run over files that fails has written those before the one that it fails at. -/
theorem entries_stopped {after : Disk} {entries : List (String × String)} (tree : IsTree now)
    (filed : ∀ entry ∈ entries, Filed entry.1)
    (straight : ∀ entry ∈ entries, Straight now (now.start root) (Path.names (Path.join root entry.1)))
    (failed : Disk.system.perform (entries.flatMap (entrySteps root)) now = (.error error, after)) :
    ∃ before entry later, entries = before ++ entry :: later ∧ Blames error root entry.1 ∧
      Gains now (before.reverse.map (entryFile (folder now root))) after := by
  induction entries generalizing now with
  | nil => cases failed
  | cons entry later ih =>
    obtain ⟨filed, filed'⟩ := List.forall_mem_cons.mp filed
    obtain ⟨straight, straight'⟩ := List.forall_mem_cons.mp straight
    rw [List.flatMap_cons] at failed
    rcases perform_append_error failed with failed | ⟨next, performed, failed⟩
    · obtain ⟨gains, blamed⟩ := entry_refused tree failed
      exact ⟨[], entry, later, rfl, blamed, gains⟩
    · obtain ⟨tree', gains⟩ := entry_done tree filed straight performed
      have start : next.start root = now.start root := by rw [Disk.start, Disk.start, gains.home]
      have same : folder next root = folder now root := by rw [folder, folder, start]
      obtain ⟨before, stopped, others, rfl, blamed, more⟩ := ih tree' filed'
        (fun entry member => start ▸ (straight' entry member).gains gains) failed
      refine ⟨entry :: before, stopped, others, rfl, blamed, ?_⟩
      rw [List.reverse_cons, List.map_append, List.map_singleton]
      exact gains.trans (same ▸ more)

end Entries

/-- A pack of which the files before this path were written, and no others. -/
structure Stopped (disk : Disk) (root : String) (package : Package) (path : String) (error : Error) (after : Disk) :
    Prop where
  known : path ∈ package.files.paths
  blamed : Blames error root path
  written : ∀ other text, package.files.get? other = some text → other < path →
    after.get? (folder disk root ++ Path.names other) = some (.file text.toUTF8)
  unwritten : ∀ other ∈ package.files.paths, path ≤ other → ∀ bytes,
    after.get? (folder disk root ++ Path.names other) = some (.file bytes) ↔
      disk.get? (folder disk root ++ Path.names other) = some (.file bytes)
  elsewhere : ∀ key, (∀ other ∈ package.files.paths, key ≠ folder disk root ++ Path.names other) → ∀ bytes,
    after.get? key = some (.file bytes) ↔ disk.get? key = some (.file bytes)

section Writing

variable {disk after : Disk} {root : String} {document : Document} {package : Package} {error : Error}
  {before later : List (String × String)} {entry : String × String}

/-- The files before one are those with smaller paths. -/
theorem mem_front_iff (files : Files) (split : files.entries = before ++ entry :: later) {other : String × String}
    (member : other ∈ files.entries) : other ∈ before ↔ other.1 < entry.1 := by
  have ascend := files.ascend
  rw [split, KeysAscend, List.pairwise_append, List.pairwise_cons] at ascend
  obtain ⟨_, ⟨behind, _⟩, between⟩ := ascend
  refine ⟨fun inside => between other inside entry List.mem_cons_self, fun less => ?_⟩
  rw [split, List.mem_append, List.mem_cons] at member
  rcases member with inside | rfl | outside
  · exact inside
  · exact absurd less (String.lt_irrefl _)
  · exact absurd (String.lt_trans less (behind other outside)) (String.lt_irrefl _)

theorem stopped_of_split (split : package.files.entries = before ++ entry :: later) (blamed : Blames error root entry.1)
    (gains : Gains disk (before.reverse.map (entryFile (folder disk root))) after) :
    Stopped disk root package entry.1 error after := by
  have ascend : KeysAscend before := (List.pairwise_append.mp (split ▸ package.files.ascend)).1
  let front : Package := { package with files := ⟨before, ascend⟩ }
  have gains : Gains disk (packEntries (folder disk root) front) after := gains
  have smaller : ∀ path ∈ front.files.paths, path ∈ package.files.paths ∧ path < entry.1 := by
    intro path member
    obtain ⟨other, inside, rfl⟩ := List.mem_map.mp member
    have known : other ∈ package.files.entries := split ▸ List.mem_append_left _ inside
    exact ⟨List.mem_map_of_mem known, (mem_front_iff package.files split known).mp inside⟩
  refine ⟨?_, blamed, ?_, ?_, ?_⟩
  · have known : entry ∈ package.files.entries := by simp [split]
    exact List.mem_map_of_mem known
  · intro other text found less
    have member := PackContents.get?_eq_some_iff.mp found
    have inside : (other, text) ∈ front.files.entries := (mem_front_iff package.files split member).mpr less
    exact file_stored gains (PackContents.get?_eq_some_iff.mpr inside)
  · intro other member behind bytes
    apply file_elsewhere gains
    intro path inside same
    obtain rfl := names_injective (List.append_cancel_left same)
    exact behind (smaller other inside).2
  · intro key apart bytes
    exact file_elsewhere gains (fun path inside => apart path (smaller path inside).1) bytes

/-- A run that fails has written the files before one path and touched no other file, and its
error names that path or the directory above it. A link on the way to a file could lead two paths
to one place, or out of the directory, and then the names would not say what was written. -/
theorem write_stopped (tree : IsTree disk) (assembled : document.assemble = .ok package)
    (straight : ∀ path ∈ package.files.paths, Straight disk (disk.start root) (Path.names (Path.join root path)))
    (failed : Disk.system.writePackage root package disk = (.error error, after)) :
    ∃ path, Stopped disk root package path error after := by
  obtain ⟨before, entry, later, split, blamed, gains⟩ := entries_stopped tree (filed_entries assembled)
    (fun entry member => straight entry.1 (List.mem_map_of_mem member)) failed
  exact ⟨entry.1, stopped_of_split split blamed gains⟩

/-- In a tree of directories and regular files every run that fails stops like that. -/
theorem stopped_unlinked (tree : IsTree disk) (unlinked : ∀ key target, disk.get? key ≠ some (.link target))
    (assembled : document.assemble = .ok package)
    (failed : Disk.system.writePackage root package disk = (.error error, after)) :
    ∃ path, Stopped disk root package path error after := by
  obtain ⟨before, entry, later, split, blamed, gains⟩ := entries_stopped tree (filed_entries assembled)
    (fun entry _ => straight_of_unlinked unlinked _ _) failed
  exact ⟨entry.1, stopped_of_split split blamed gains⟩

end Writing

def blockedDisk : Disk where
  nodes := [(["b"], .directory), (["b", "pack.mcmeta"], .directory), (["b", "old.txt"], .file "kept".toUTF8)]

theorem isTree_blockedDisk : IsTree blockedDisk := by decide

theorem unlinked_blockedDisk : ∀ key target, blockedDisk.get? key ≠ some (.link target) :=
  ne_link_of_nodes (by simp [blockedDisk])

/-- The activation file is written before the directory is met. -/
theorem stopped_blockedDisk : ∃ error after path,
    Disk.system.writePackage "b" barePackage blockedDisk = (.error error, after) ∧
      Stopped blockedDisk "b" barePackage path error after := by
  have refused : (Disk.system.writePackage "b" barePackage blockedDisk).1.isOk = false := by decide +kernel
  cases ran : Disk.system.writePackage "b" barePackage blockedDisk with
  | mk result after =>
    cases result with
    | ok _ =>
      rw [ran] at refused
      cases refused
    | error error =>
      obtain ⟨path, stopped⟩ := write_stopped isTree_blockedDisk assemble_bareDocument
        (fun path _ => straight_of_unlinked unlinked_blockedDisk _ _) ran
      exact ⟨error, after, path, rfl, stopped⟩

end SpellPack.Proofs.UnfinishedPacks
