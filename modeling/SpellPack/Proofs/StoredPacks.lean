import Mathlib.Data.String.Basic
import SpellPack.Proofs.WrittenPacks

/-! Packs that are written and read again. What is read of the directory is what was read of it
before, with the files of the pack in the place of those that were under their paths. -/

namespace SpellPack.Proofs.StoredPacks
open Disk DiskRuns DiskTrees PathWalks MadeDirectories BlockedWays PathNames TreeReading PackPlaces WrittenPacks

section Files

variable {files others : Files}

/-- Files are the same if the same text is found under each path. -/
theorem files_ext (same : ∀ path, files.get? path = others.get? path) : files = others := by
  have irreflexive : Std.Irrefl fun a b : String × String => a.1 < b.1 := ⟨fun entry => String.lt_irrefl entry.1⟩
  have entries : files.entries = others.entries := by
    apply List.Pairwise.eq_of_mem_iff files.ascend others.ascend
    rintro ⟨path, text⟩
    rw [← PackContents.get?_eq_some_iff, ← PackContents.get?_eq_some_iff, same]
  cases files
  cases others
  cases entries
  rfl

theorem nodup_paths (files : Files) : files.paths.Nodup := by
  have ascend : files.paths.Pairwise (· < ·) := List.pairwise_map.mpr files.ascend
  exact ascend.imp String.ne_of_lt

/-- All files of a pack are found in others that they were put into. -/
theorem get?_insertAll_files (before files : Files) (path : String) :
    (before.insertAll files.entries).get? path = (files.get? path).or (before.get? path) := by
  cases found : files.get? path with
  | some text =>
    have member := PackContents.get?_eq_some_iff.mp found
    exact FileTable.get?_insertAll_of_mem before (nodup_paths files) member
  | none =>
    have new : path ∉ files.paths := by
      intro member
      obtain ⟨text, held⟩ := Option.isSome_iff_exists.mp (PackContents.mem_paths_iff.mp member)
      rw [found] at held
      cases held
    exact FileTable.get?_insertAll_of_new before new

theorem insertAll_empty (files : Files) : Files.empty.insertAll files.entries = files := by
  apply files_ext
  intro path
  rw [get?_insertAll_files]
  exact Option.or_none

end Files

section Places

variable {disk now after : Disk} {root : String} {key : Key} {written : List (Key × ByteArray)}

/-- Where the path goes up, the names before lead to a directory. -/
def Approached (disk : Disk) (root : String) : Prop :=
  ∃ front back left here, Path.names root = front ++ back ∧
    Leads disk maxLinks (disk.start root) front left here ∧ ".." ∉ back

/-- The names that do not lead further meet no link. -/
structure Accessible (disk : Disk) (root : String) : Prop where
  way : ∃ front back left here, Path.names root = front ++ back ∧
    Leads disk maxLinks (disk.start root) front left here ∧ ".." ∉ back ∧ Unlinked disk here back

theorem sameFolder_names (nonempty : root ≠ "") : SameFolder (Path.names root) (folderNames root) := by
  cases names_folder nonempty with
  | inl same => exact ⟨folderNames root, [], [], by simp [← same], by simp, by simp, by simp⟩
  | inr slash => exact ⟨folderNames root, [""], [], slash, by simp, by simp [Path.isIdle], by simp⟩

/-- A directory that files could be written into is on no way that a link blocks. -/
theorem accessible_of_written (tree : IsTree disk) (nonempty : root ≠ "") (approached : Approached disk root)
    {entry : String × String} (filed : Filed entry.1)
    (performed : Disk.system.perform (entrySteps root entry) disk = (.ok (), now)) : Accessible disk root := by
  obtain ⟨front, back, left, here, shape, begun, inward⟩ := approached
  obtain ⟨parent, folders, file, made, placed, making, _⟩ := entry_steps nonempty filed performed
  have start : disk.start parent = disk.start root := by rw [start, start, placed.rooted]
  -- How far the names lead now: the directory was made from there, so no link can stand in between.
  obtain ⟨ahead, rest, left', here', rfl, leads, dead⟩ := longest_way begun back
  refine ⟨front ++ ahead, rest, left', here', by rw [shape, List.append_assoc], leads, ?_, ?_⟩
  · exact fun up => inward (List.mem_append_right _ up)
  · rw [← start] at leads dead
    apply unlinked_of_made tree placed.nonempty making leads (fun up => inward (List.mem_append_right _ up)) dead
    intro name others split named
    apply prefix_of_sameFolder placed.above _ named
    have begins : front ++ ahead ++ [name] <+: Path.names root := ⟨others, by simp [shape, split]⟩
    exact (prefix_of_sameFolder (sameFolder_names nonempty) begins named).trans (List.prefix_append _ folders)

structure Clean (disk : Disk) (key : Key) : Prop where
  text : ∀ names bytes, disk.get? (key ++ names) = some (.file bytes) → ∃ text, FileSystem.decode bytes = .ok text
  slash : ∀ names bytes, disk.get? (key ++ names) = some (.file bytes) → ∀ name ∈ names, '\\' ∉ name.toList
  unlinked : ∀ names target, disk.get? (key ++ names) ≠ some (.link target)

/-- The paths of all files below the directory are such as the system takes. -/
def Fits (disk : Disk) (root : String) : Prop :=
  ∀ key names bytes, disk.resolve root = .ok key → disk.get? (key ++ names) = some (.file bytes) →
    IsPath (Path.join root ("/".intercalate names))

/-- Where the path leads now there was nothing before, or it led there before. -/
theorem arrives_before (tree : IsTree disk) (tree' : IsTree now) (accessible : Accessible disk root)
    (gains : Gains disk written now) (arrives : Arrives now root key) :
    disk.get? key = none ∨ Arrives disk root key := by
  have directory := arrives.directory tree'
  obtain ⟨valid, left, leads⟩ := arrives
  obtain ⟨front, back, left', here, shape, begun, inward, unlinked⟩ := accessible.way
  have start : now.start root = disk.start root := by rw [start, start, gains.home]
  rw [shape, start] at leads
  obtain ⟨middle, between, first, onward⟩ := leads.split directory
  obtain ⟨rfl, rfl⟩ := first.unique (begun.gains gains)
  cases onward.before gains tree directory inward unlinked with
  | inl missing => exact .inl missing
  | inr onward =>
    refine .inr ⟨valid, left, ?_⟩
    rw [shape]
    exact begun.append onward

theorem clear_of_clean (tree : IsTree disk) (accessible : Accessible disk root)
    (clean : ∀ key, disk.resolve root = .ok key → Clean disk key) : Clear disk root := by
  intro now written left key gains tree' valid reaches names target linked
  cases arrives_before tree tree' accessible gains (reaches.arrives valid) with
  | inl missing =>
    rw [get?_below tree missing] at linked
    cases linked
  | inr arrives => exact (clean key arrives.resolve).unlinked names target linked

theorem readable_of_clean (clean : ∀ key, disk.resolve root = .ok key → Clean disk key) (fits : Fits disk root)
    (arrives : Arrives disk root key) : Readable disk root key where
  text := (clean key arrives.resolve).text
  slash := (clean key arrives.resolve).slash
  path names bytes found := fits key names bytes arrives.resolve found

/-- What was read of the directory before, if it was there at all. -/
theorem reads_before (tree : IsTree disk) (tree' : IsTree after) (accessible : Accessible disk root)
    (clean : ∀ key, disk.resolve root = .ok key → Clean disk key) (fits : Fits disk root)
    (gains : Gains disk written after)
    (arrives : Arrives after root key) : ∃ before, disk.readTree root = .ok before ∧ Reads disk key before := by
  cases arrives_before tree tree' accessible gains arrives with
  | inr arrives => exact readTree_arrives tree arrives (readable_of_clean clean fits arrives)
  | inl missing =>
    have unresolved : ∀ key, disk.resolve root ≠ .ok key := by
      intro key' resolved
      obtain ⟨kept, node, found⟩ := resolve_gains tree gains resolved
      obtain rfl := Except.ok.inj (arrives.resolve.symm.trans kept)
      rw [missing] at found
      cases found
    refine ⟨Files.empty, readTree_unresolved unresolved, ⟨?_⟩⟩
    intro path text
    constructor
    · intro found
      cases found
    · rintro ⟨names, bytes, _, found, _⟩
      rw [get?_below tree missing] at found
      cases found

end Places

section Storing

variable {disk after : Disk} {root : String} {key other : Key} {document : Document} {package : Package}

/-- The files of a pack in the tree, the last one first. -/
def packEntries (key : Key) (package : Package) : List (Key × ByteArray) :=
  package.files.entries.reverse.map (entryFile key)

theorem lookup_packEntries {path text : String} (found : package.files.get? path = some text) :
    (packEntries key package).lookup (key ++ Path.names path) = some text.toUTF8 := by
  have member := PackContents.get?_eq_some_iff.mp found
  apply lookup_of_mem
  · have keys : (packEntries key package).map Prod.fst = package.files.paths.reverse.map (key ++ Path.names ·) := by
      simp [packEntries, Files.paths, Function.comp_def, entryFile]
    rw [keys]
    refine List.Pairwise.map _ ?_ (List.nodup_reverse.mpr (nodup_paths package.files))
    intro a b different same
    exact different (names_injective (List.append_cancel_left same))
  · exact List.mem_map.mpr ⟨(path, text), List.mem_reverse.mpr member, rfl⟩

theorem lookup_packEntries_none (elsewhere : ∀ path ∈ package.files.paths, other ≠ key ++ Path.names path) :
    (packEntries key package).lookup other = none := by
  apply List.lookup_eq_none_iff.mpr
  intro entry member
  obtain ⟨⟨path, text⟩, inside, rfl⟩ := List.mem_map.mp member
  apply bne_iff_ne.mpr
  exact elsewhere path (List.mem_map_of_mem (List.mem_reverse.mp inside))

theorem file_stored (gains : Gains disk (packEntries key package) after) {path text : String}
    (found : package.files.get? path = some text) : after.get? (key ++ Path.names path) = some (.file text.toUTF8) := by
  apply file?_eq_some_iff.mp
  rw [gains.files, lookup_packEntries found, Option.some_or]

theorem file_elsewhere (gains : Gains disk (packEntries key package) after)
    (elsewhere : ∀ path ∈ package.files.paths, other ≠ key ++ Path.names path) (bytes : ByteArray) :
    after.get? other = some (.file bytes) ↔ disk.get? other = some (.file bytes) := by
  rw [← file?_eq_some_iff, ← file?_eq_some_iff, gains.files, lookup_packEntries_none elsewhere, Option.none_or]

/-- A file below the directory is one of the pack, or it was there before. -/
theorem file_cases (gains : Gains disk (packEntries key package) after) {below : List String} {bytes : ByteArray}
    (found : after.get? (key ++ below) = some (.file bytes)) :
    (∃ path text, package.files.get? path = some text ∧ below = Path.names path ∧ bytes = text.toUTF8) ∨
      ((∀ path ∈ package.files.paths, below ≠ Path.names path) ∧ disk.get? (key ++ below) = some (.file bytes)) := by
  by_cases own : ∃ path ∈ package.files.paths, below = Path.names path
  · obtain ⟨path, member, rfl⟩ := own
    obtain ⟨text, held⟩ := Option.isSome_iff_exists.mp (PackContents.mem_paths_iff.mp member)
    have stored := file_stored gains held
    rw [found] at stored
    cases stored
    exact .inl ⟨path, text, held, rfl, rfl⟩
  · have elsewhere : ∀ path ∈ package.files.paths, below ≠ Path.names path :=
      fun path member same => own ⟨path, member, same⟩
    refine .inr ⟨elsewhere, (file_elsewhere gains ?_ bytes).mp found⟩
    intro path member same
    exact elsewhere path member (List.append_cancel_left same)

theorem readable_after (tree : IsTree disk) (assembled : document.assemble = .ok package)
    (gains : Gains disk (packEntries key package) after)
    (valid : ∀ path ∈ package.files.paths, IsPath (Path.join root path))
    (before : disk.get? key = none ∨ Readable disk root key) : Readable after root key := by
  have readable {below : List String} {bytes : ByteArray} (found : disk.get? (key ++ below) = some (.file bytes)) :
      Readable disk root key := by
    cases before with
    | inl missing =>
      rw [get?_below tree missing] at found
      cases found
    | inr readable => exact readable
  constructor
  · intro below bytes found
    rcases file_cases gains found with ⟨path, text, _, _, rfl⟩ | ⟨_, older⟩
    · exact ⟨text, decode_toUTF8 text⟩
    · exact (readable older).text below bytes older
  · intro below bytes found
    rcases file_cases gains found with ⟨path, text, held, rfl, _⟩ | ⟨_, older⟩
    · intro name member backslash
      have plain := (filed_paths assembled path (PackContents.mem_paths_iff.mpr (by simp [held]))).plain name member
      rcases plain.characters _ backslash with other | other
      · exact absurd other (by unfold SlugText.IsIdChar; decide)
      · cases other
    · exact (readable older).slash below bytes older
  · intro below bytes found
    rcases file_cases gains found with ⟨path, text, held, rfl, _⟩ | ⟨_, older⟩
    · rw [intercalate_names]
      exact valid path (PackContents.mem_paths_iff.mpr (by simp [held]))
    · exact (readable older).path below bytes older

/-- What is read afterwards is what was read before, with the files of the pack put in. -/
theorem reads_after (tree : IsTree after) (gains : Gains disk (packEntries key package) after)
    (directory : after.get? key = some .directory) {before files : Files} (read : Reads disk key before)
    (read' : Reads after key files) : files = before.insertAll package.files.entries := by
  apply files_ext
  intro path
  apply Option.ext
  intro text
  rw [get?_insertAll_files, Option.or_eq_some_iff, read.texts, read'.texts]
  constructor
  · rintro ⟨below, bytes, rfl, found, decoded⟩
    rcases file_cases gains found with ⟨path, text', held, rfl, rfl⟩ | ⟨elsewhere, older⟩
    · rw [decode_toUTF8, Except.ok.injEq] at decoded
      subst decoded
      exact .inl (by rwa [intercalate_names])
    · refine .inr ⟨?_, below, bytes, rfl, older, decoded⟩
      obtain ⟨_, split⟩ := relative_of_names (isName_below tree found) (ne_nil_of_file directory found)
      rw [← Option.not_isSome_iff_eq_none, ← PackContents.mem_paths_iff]
      intro own
      exact elsewhere _ own split.symm
  · rintro (held | ⟨foreign, below, bytes, rfl, found, decoded⟩)
    · exact ⟨Path.names path, text.toUTF8, (intercalate_names path).symm, file_stored gains held, decode_toUTF8 text⟩
    · refine ⟨below, bytes, rfl, (file_elsewhere gains ?_ bytes).mpr found, decoded⟩
      intro path member same
      rw [List.append_cancel_left same, intercalate_names] at foreign
      rw [PackContents.mem_paths_iff, foreign] at member
      cases member

end Storing

/-- The pack is read again, with all that was read before beside it. -/
def ReadsBack (disk : Disk) (root : String) (package : Package) (after : Disk) : Prop :=
  ∃ before, disk.readTree root = .ok before ∧ after.readTree root = .ok (before.insertAll package.files.entries)

def Fresh (disk : Disk) (root : String) : Prop :=
  ∀ key names bytes, disk.resolve root = .ok key → disk.get? (key ++ names) ≠ some (.file bytes)

structure Stored (disk : Disk) (root : String) (package : Package) (after : Disk) : Prop where
  read : ReadsBack disk root package after
  fresh : Fresh disk root → after.readTree root = .ok package.files
  elsewhere : ∃ key, after.resolve root = .ok key ∧
    ∀ other, (∀ path ∈ package.files.paths, other ≠ key ++ Path.names path) →
      ∀ bytes, after.get? other = some (.file bytes) ↔ disk.get? other = some (.file bytes)
  again : Disk.system.writePackage root package after = (.ok (), after)

structure Writes (disk : Disk) (root : String) (document : Document) (package : Package) (after : Disk) : Prop where
  tree : IsTree disk
  assembled : document.assemble = .ok package
  clean : ∀ key, disk.resolve root = .ok key → Clean disk key
  written : Disk.system.writePackage root package disk = (.ok (), after)

/-- Where a pack was written, and what its files made of the tree. -/
structure Packed (disk : Disk) (root : String) (package : Package) (key : Key) (after : Disk) : Prop where
  tree : IsTree after
  accessible : Accessible disk root
  reaches : ∃ left, Reaches after root left key
  arrives : Arrives after root key
  gains : Gains disk (packEntries key package) after
  settled : ∀ entry ∈ package.files.entries, Settled after root entry.1

section Writing

variable {disk after : Disk} {root : String} {document : Document} {package : Package}

theorem filed_entries (assembled : document.assemble = .ok package) : ∀ entry ∈ package.files.entries, Filed entry.1 :=
  fun entry member => filed_paths assembled entry.1 (List.mem_map_of_mem member)

theorem mem_manifest (assembled : document.assemble = .ok package) :
    (Layout.manifestPath, Layout.manifest document.author) ∈ package.files.entries :=
  PackContents.get?_eq_some_iff.mp (PackFiles.get?_manifest assembled)

theorem pack_written (writes : Writes disk root document package after) (nonempty : root ≠ "")
    (approached : Approached disk root) : ∃ key, Packed disk root package key after := by
  obtain ⟨tree, assembled, clean, written⟩ := writes
  have filed := filed_entries assembled
  have manifest := mem_manifest assembled
  have some := List.ne_nil_of_mem manifest
  have accessible : Accessible disk root := by
    obtain ⟨first, later, split⟩ := List.exists_cons_of_ne_nil some
    have performed : Disk.system.perform (package.files.entries.flatMap (entrySteps root)) disk = (.ok (), after) :=
      written
    rw [split, List.flatMap_cons] at performed
    obtain ⟨next, one, _⟩ := perform_append_ok.mp performed
    exact accessible_of_written tree nonempty approached (filed first (by simp [split])) one
  have run := entries_written nonempty (clear_of_clean tree accessible clean) filed (.refl disk) tree written
  obtain ⟨left, key, reaches⟩ := run.reached some
  have plain : Path.isRooted Layout.manifestPath = false := (filed _ manifest).relative
  refine ⟨key, run.tree, accessible, ⟨left, reaches⟩, ?_, run.gains left key reaches, run.settled⟩
  exact reaches.arrives (isPath_of_join nonempty plain (run.settled _ manifest).valid)

/-- A pack that was written is read again with all that lay beside it. -/
theorem pack_stored (writes : Writes disk root document package after) (nonempty : root ≠ "")
    (approached : Approached disk root) (fits : Fits disk root) : Stored disk root package after := by
  obtain ⟨key, packed⟩ := pack_written writes nonempty approached
  obtain ⟨tree, assembled, clean, _⟩ := writes
  obtain ⟨tree', accessible, ⟨left, reaches⟩, arrives, gains, settled⟩ := packed
  have directory := arrives.directory tree'
  have valid : ∀ path ∈ package.files.paths, IsPath (Path.join root path) := by
    intro path member
    obtain ⟨entry, inside, rfl⟩ := List.mem_map.mp member
    exact (settled entry inside).valid
  have readable : Readable after root key := by
    apply readable_after tree assembled gains valid
    cases arrives_before tree tree' accessible gains arrives with
    | inl missing => exact .inl missing
    | inr arrives => exact .inr (readable_of_clean clean fits arrives)
  obtain ⟨before, read, texts⟩ := reads_before tree tree' accessible clean fits gains arrives
  obtain ⟨files, read', texts'⟩ := readTree_arrives tree' arrives readable
  obtain rfl := reads_after tree' gains directory texts texts'
  constructor
  · exact ⟨before, read, read'⟩
  · intro fresh
    have empty : before = Files.empty := by
      apply files_ext
      intro path
      apply Option.eq_none_iff_forall_ne_some.mpr
      intro text held
      obtain ⟨names, bytes, _, found, _⟩ := (texts.texts path text).mp held
      cases arrives_before tree tree' accessible gains arrives with
      | inl missing => exact absurd found (by simp [get?_below tree missing])
      | inr older => exact fresh key names bytes older.resolve found
    rwa [empty, insertAll_empty] at read'
  · refine ⟨key, arrives.resolve, ?_⟩
    intro other elsewhere bytes
    exact file_elsewhere gains elsewhere bytes
  · apply entries_again nonempty tree' reaches (filed_entries assembled) settled
    intro entry member
    exact file_stored gains (PackContents.get?_eq_some_iff.mpr member)

end Writing

section Examples

variable {name root : String} {depth level : Nat}

def deepKey (name : String) (depth : Nat) : Key := "b" :: List.replicate depth name

/-- The directory `b` with one text in it, so many times the same name below. -/
def deepDisk (name : String) (depth : Nat) : Disk where
  nodes := (List.range (depth + 1)).map fun level =>
    (deepKey name level, if level < depth then .directory else .file "kept".toUTF8)

theorem mem_deepDisk_iff {entry : Key × Node} : entry ∈ (deepDisk name depth).nodes ↔ ∃ level ≤ depth,
    (deepKey name level, if level < depth then .directory else .file "kept".toUTF8) = entry := by
  simp only [deepDisk, List.mem_map, List.mem_range, Nat.lt_succ_iff]

theorem nodup_deepDisk (name : String) (depth : Nat) : ((deepDisk name depth).nodes.map Prod.fst).Nodup := by
  have keys : (deepDisk name depth).nodes.map Prod.fst = (List.range (depth + 1)).map (deepKey name) := by
    simp [deepDisk, Function.comp_def]
  rw [keys]
  refine List.Pairwise.map _ ?_ List.nodup_range
  intro a b different same
  exact different (by simpa [deepKey] using congrArg List.length same)

theorem get?_deepKey (bound : level ≤ depth) : (deepDisk name depth).get? (deepKey name level) =
    some (if level < depth then .directory else .file "kept".toUTF8) := by
  have apart : (deepDisk name depth).isOnWayHome (deepKey name level) = false := by
    simp [isOnWayHome, deepDisk, deepKey]
  rw [Disk.get?, if_neg (by simp [apart])]
  exact lookup_of_mem (nodup_deepDisk name depth) (mem_deepDisk_iff.mpr ⟨level, bound, rfl⟩)

theorem isTree_deepDisk (valid : IsName name) (depth : Nat) : IsTree (deepDisk name depth) := by
  constructor
  · exact nodup_deepDisk name depth
  · intro entry member onWay
    obtain ⟨level, _, rfl⟩ := mem_deepDisk_iff.mp member
    simp [isOnWayHome, deepDisk, deepKey] at onWay
  · intro entry member
    obtain ⟨level, bound, rfl⟩ := mem_deepDisk_iff.mp member
    cases level with
    | zero => exact get?_top _
    | succ level =>
      have above : (deepKey name (level + 1)).dropLast = deepKey name level := by
        rw [deepKey, List.replicate_succ', ← List.cons_append, List.dropLast_concat, deepKey]
      rw [above, get?_deepKey (by omega), if_pos (by omega)]
  · intro entry member other inside
    obtain ⟨level, _, rfl⟩ := mem_deepDisk_iff.mp member
    rcases List.mem_cons.mp inside with rfl | repeated
    · decide
    · rwa [List.eq_of_mem_replicate repeated]
  · intro other inside
    cases inside

theorem file_deepDisk {key : Key} {bytes : ByteArray} (found : (deepDisk name depth).get? key = some (.file bytes)) :
    key = deepKey name depth ∧ bytes = "kept".toUTF8 := by
  obtain ⟨level, bound, same⟩ := mem_deepDisk_iff.mp (mem_of_get?_file found)
  obtain ⟨rfl, held⟩ := Prod.mk.inj same
  split at held
  · cases held
  · cases held
    have deepest : level = depth := by omega
    exact ⟨by rw [deepest], rfl⟩

theorem clean_deepDisk (plain : '\\' ∉ name.toList) (depth : Nat) (key : Key) : Clean (deepDisk name depth) key := by
  constructor
  · intro names bytes found
    obtain ⟨_, rfl⟩ := file_deepDisk found
    exact ⟨"kept", decode_toUTF8 "kept"⟩
  · intro names bytes found other member
    obtain ⟨place, _⟩ := file_deepDisk found
    have inside : other ∈ deepKey name depth := place ▸ List.mem_append_right key member
    rcases List.mem_cons.mp inside with rfl | repeated
    · decide
    · rwa [List.eq_of_mem_replicate repeated]
  · intro names target found
    rcases get?_cases found with ⟨_, other⟩ | member
    · cases other
    · obtain ⟨level, _, same⟩ := mem_deepDisk_iff.mp member
      obtain ⟨_, held⟩ := Prod.mk.inj same
      split at held <;> cases held

def bareDocument : Document := { name := "b", points := [] }

def barePackage : Package where
  spellId := bareDocument.spellId
  loadedSpellId := bareDocument.loadedSpellId
  files := Files.ofList bareDocument.packFiles

theorem assemble_bareDocument : bareDocument.assemble = .ok barePackage := by
  have named : Text.isBlankText bareDocument.name = false := by decide
  rw [Document.assemble, named]
  rfl

def barePacked (root : String) (disk : Disk) : Disk := (Disk.system.writePackage root barePackage disk).2

theorem writes_bareDocument (valid : IsName name) (plain : '\\' ∉ name.toList)
    (written : (Disk.system.writePackage root barePackage (deepDisk name depth)).1.isOk = true) :
    Writes (deepDisk name depth) root bareDocument barePackage (barePacked root (deepDisk name depth)) where
  tree := isTree_deepDisk valid depth
  assembled := assemble_bareDocument
  clean key _ := clean_deepDisk plain depth key
  written := by
    unfold barePacked
    generalize Disk.system.writePackage root barePackage (deepDisk name depth) = run at written ⊢
    obtain ⟨answer, after⟩ := run
    cases answer with
    | ok => rfl
    | error => cases written

theorem approached_inward (inward : ".." ∉ Path.names root) (disk : Disk) : Approached disk root :=
  ⟨[], Path.names root, maxLinks, disk.start root, rfl, .done, inward⟩

def textDisk : Disk := deepDisk "old.txt" 1

theorem writes_textDisk (written : (Disk.system.writePackage root barePackage textDisk).1.isOk = true) :
    Writes textDisk root bareDocument barePackage (barePacked root textDisk) :=
  writes_bareDocument (by decide) (by decide) written

theorem fits_textDisk : Fits textDisk "b" := by
  intro key names bytes resolved found
  have here : textDisk.resolve "b" = .ok ["b"] := by decide +kernel
  obtain rfl := Except.ok.inj (here.symm.trans resolved)
  obtain ⟨place, _⟩ := file_deepDisk found
  obtain rfl : names = ["old.txt"] := by simpa [deepKey] using place
  exact ⟨by decide +kernel, by decide +kernel, by decide +kernel⟩

theorem stored_beside_text : Stored textDisk "b" barePackage (barePacked "b" textDisk) :=
  pack_stored (writes_textDisk (by decide +kernel)) (by decide) (approached_inward (by decide) _) fits_textDisk

/-- The pack is written, but what is read then is not what was read before with the pack put in. -/
def Astray (disk : Disk) (root : String) : Prop :=
  Writes disk root bareDocument barePackage (barePacked root disk) ∧
    ¬ReadsBack disk root barePackage (barePacked root disk)

theorem fits_nowhere {disk : Disk} (nowhere : ∀ key, disk.resolve root ≠ .ok key) : Fits disk root :=
  fun key _ _ resolved => absurd resolved (nowhere key)

theorem insertAll_barePackage (before : Files) : before.insertAll barePackage.files.entries ≠ Files.empty := by
  intro empty
  have found := get?_insertAll_files before barePackage.files Layout.manifestPath
  rw [empty, PackFiles.get?_manifest assemble_bareDocument, Option.some_or] at found
  cases found

theorem nowhere_empty (disk : Disk) (key : Key) : disk.resolve "" ≠ .ok key :=
  fun resolved => (reach_eq_ok_iff.mp resolved).1.nonempty rfl

/-- A pack can be written behind the empty path, but nothing is read of it. -/
theorem astray_empty : Astray textDisk "" := by
  refine ⟨writes_textDisk (by decide +kernel), ?_⟩
  rintro ⟨before, _, read⟩
  rw [readTree_unresolved (nowhere_empty _), Except.ok.injEq] at read
  exact insertAll_barePackage before read.symm

theorem nowhere_climbing (key : Key) : textDisk.resolve "x/../b" ≠ .ok key := by
  have missing : textDisk.resolve "x/../b" = .error .notFound := by decide +kernel
  simp [missing]

/-- What lies behind a missing name is read as soon as the name is made. -/
theorem astray_climbing : Astray textDisk "x/../b" := by
  have ⟨written, entry, directory, old, foreign⟩ :
      (Disk.system.writePackage "x/../b" barePackage textDisk).1.isOk = true ∧
      (barePacked "x/../b" textDisk).entryAt "x/../b" = .ok ["b"] ∧
      ((barePacked "x/../b" textDisk).get? ["b"]).any Node.isDirectory = true ∧
      file? (barePacked "x/../b" textDisk) ["b", "old.txt"] = some "kept".toUTF8 ∧
      "old.txt" ∉ barePackage.files.paths := by decide +kernel
  refine ⟨writes_textDisk written, ?_⟩
  rintro ⟨before, read, read'⟩
  obtain rfl := Except.ok.inj ((readTree_unresolved nowhere_climbing).symm.trans read)
  rw [insertAll_empty] at read'
  have below := filesAt_entry entry (any_isDirectory_iff.mp directory)
  have found : (barePacked "x/../b" textDisk).get? (["b"] ++ ["old.txt"]) = some (.file "kept".toUTF8) :=
    file?_eq_some_iff.mp old
  have given := (readTree_mem read' below found (by decide) rfl).2
  rw [String.intercalate_singleton, map_slashes (by decide)] at given
  exact foreign given

def wideName (width : Nat) : String := String.ofList (List.replicate width 'a')

theorem toList_wideName (width : Nat) : (wideName width).toList = List.replicate width 'a' := String.toList_ofList

theorem size_wideName (width : Nat) : (wideName width).utf8ByteSize = width := by
  rw [wideName, String.utf8ByteSize_ofList]
  induction width with
  | zero => rfl
  | succ width ih => rw [List.replicate_succ, String.utf8Len_cons, ih, show 'a'.utf8Size = 1 from rfl]

theorem isName_wideName {width : Nat} (more : width ≠ 0) (short : width ≤ maxNameBytes) : IsName (wideName width) := by
  have plain : IsPlainName (wideName width) := by
    have letter : 'a' ∈ (wideName width).toList := by simp [toList_wideName, more]
    apply isPlainName_of_mem letter (by decide)
    intro c member
    rw [toList_wideName] at member
    rw [List.eq_of_mem_replicate member]
    exact .inl (by unfold SlugText.IsIdChar; decide)
  constructor
  · exact plain.not_idle
  · exact plain.above
  · simp [toList_wideName]
  · rwa [size_wideName]

theorem size_repeated (name : String) (depth : Nat) :
    ("/".intercalate (List.replicate (depth + 1) name)).utf8ByteSize =
      (name.utf8ByteSize + 1) * depth + name.utf8ByteSize := by
  induction depth with
  | zero => simp
  | succ depth ih =>
    have slash : ("/" : String).utf8ByteSize = 1 := by decide
    rw [List.replicate_succ, List.replicate_succ, String.intercalate_cons_cons, ← List.replicate_succ,
      String.utf8ByteSize_append, String.utf8ByteSize_append, ih, slash, Nat.mul_add_one]
    omega

theorem size_deep (valid : IsName name) (depth : Nat) :
    (Path.join "b" ("/".intercalate (List.replicate (depth + 1) name))).utf8ByteSize =
      (name.utf8ByteSize + 1) * (depth + 1) + 1 := by
  have repeated : ∀ other ∈ List.replicate (depth + 1) name, IsName other := by
    intro other member
    rwa [List.eq_of_mem_replicate member]
  obtain ⟨plain, _⟩ := relative_of_names repeated (by simp)
  have joined {relative : String} (plain : Path.isRooted relative = false) :
      Path.join "b" relative = "b/" ++ relative := by
    have text : "b" ++ "/" = "b/" := by decide
    simp [Path.join, plain, text]
  have front : "b/".utf8ByteSize = 2 := by decide
  rw [joined plain, String.utf8ByteSize_append, front, size_repeated, Nat.mul_add_one]
  omega

def wideDisk : Disk := deepDisk (wideName 250) 17

/-- The path of the file is too long, though that of its directory is not. -/
theorem astray_long : Astray wideDisk "b" := by
  have valid : IsName (wideName 250) := isName_wideName (by decide) (by decide)
  have plain : '\\' ∉ (wideName 250).toList := by
    rw [toList_wideName, List.mem_replicate]
    exact fun other => absurd other.2 (by decide)
  have ⟨written, resolved⟩ : (Disk.system.writePackage "b" barePackage wideDisk).1.isOk = true ∧
      wideDisk.resolve "b" = .ok ["b"] := by decide +kernel
  have writes : Writes wideDisk "b" bareDocument barePackage (barePacked "b" wideDisk) :=
    writes_bareDocument valid plain written
  refine ⟨writes, ?_⟩
  rintro ⟨before, _, read⟩
  obtain ⟨key, packed⟩ := pack_written writes (by decide) (approached_inward (by decide) _)
  have arrives := arrives_of_resolve resolved (get?_deepKey (Nat.zero_le 17))
  obtain rfl := (arrives.gains packed.gains).unique packed.arrives
  obtain ⟨bytes, found⟩ := packed.gains.file (get?_deepKey (Nat.le_refl 17))
  have below : (barePacked "b" wideDisk).get? (["b"] ++ List.replicate 17 (wideName 250)) = some (.file bytes) := found
  refine unreadable_of_long packed.tree packed.arrives below (by simp) ?_ ?_ _ read
  · have short : (Path.join "b" ("/".intercalate (List.replicate 16 (wideName 250)))).utf8ByteSize ≤ maxPathBytes := by
      rw [size_deep valid 15, size_wideName]
      decide
    rw [isListed, List.dropLast_replicate, decide_eq_true short, Bool.or_true]
  · rw [size_deep valid 16, size_wideName]
    decide

/-- None of the conditions on the path can be left out. -/
theorem conditions_needed :
    (Astray textDisk "" ∧ Approached textDisk "" ∧ Fits textDisk "") ∧
    (Astray textDisk "x/../b" ∧ "x/../b" ≠ "" ∧ Fits textDisk "x/../b") ∧
    (Astray wideDisk "b" ∧ "b" ≠ "" ∧ Approached wideDisk "b") := by
  exact ⟨⟨astray_empty, approached_inward (by decide) _, fits_nowhere (nowhere_empty _)⟩,
    ⟨astray_climbing, by decide, fits_nowhere nowhere_climbing⟩,
    ⟨astray_long, by decide, approached_inward (by decide) _⟩⟩

end Examples

end SpellPack.Proofs.StoredPacks
