import SpellPack.Disk.Tree
import SpellPack.Proofs.MadeDirectories
import SpellPack.Proofs.PackContents

/-! Reading a directory with all that lies below it. What is read are the texts of its files,
each under the names that lead to it. A path that leads to nothing holds no files. -/

namespace SpellPack.Proofs.TreeReading
open Disk DiskTrees PathWalks MadeDirectories PathNames FileTable PackContents

section Listing

variable {disk : Disk} {root : String} {key other : Key} {names : List String}

theorem namesBelow?_eq_some_iff : namesBelow? key other = some names ↔ names ≠ [] ∧ other = key ++ names := by
  unfold namesBelow?
  simp only [Bool.and_eq_true, List.isPrefixOf_iff_prefix, decide_eq_true_eq, Option.ite_none_right_eq_some,
    Option.some.injEq]
  constructor
  · rintro ⟨⟨⟨rest, rfl⟩, shorter⟩, rfl⟩
    rw [List.drop_left]
    refine ⟨?_, rfl⟩
    rintro rfl
    simp at shorter
  · rintro ⟨more, rfl⟩
    refine ⟨⟨List.prefix_append key names, ?_⟩, List.drop_left⟩
    simpa [List.length_pos_iff] using more

theorem mem_filesBelow_iff {path : String} : path ∈ disk.filesBelow root key ↔
    ∃ names bytes, names ≠ [] ∧ (key ++ names, .file bytes) ∈ disk.nodes ∧ isListed root names.dropLast = true ∧
      path = "/".intercalate names := by
  unfold filesBelow
  rw [List.mem_mergeSort, List.mem_filterMap]
  constructor
  · rintro ⟨⟨other, node⟩, member, listed⟩
    dsimp only at listed
    split at listed
    · next names bytes below =>
      obtain ⟨more, rfl⟩ := namesBelow?_eq_some_iff.mp below
      split at listed
      · next reachable => exact ⟨names, bytes, more, member, reachable, (Option.some.inj listed).symm⟩
      · cases listed
    · cases listed
  · rintro ⟨names, bytes, more, member, reachable, rfl⟩
    refine ⟨_, member, ?_⟩
    simp only [namesBelow?_eq_some_iff.mpr ⟨more, rfl⟩, reachable, if_true]

/-- The files of a path that leads to a directory lie below it. -/
theorem filesAt_arrives (tree : IsTree disk) (arrives : Arrives disk root key) :
    disk.filesAt root = disk.filesBelow root key := by
  have directory := arrives.directory tree
  have resolved := arrives.resolve
  unfold filesAt entryAt
  rcases locate_arrives tree arrives with located | ⟨above, name, slashed, located, found⟩
  · simp only [located, Json.ok_bind, Json.pure_eq_ok, directory]
  · cases slashed with
    | true => simp only [located, Json.ok_bind, if_true, resolved, directory]
    | false =>
      rcases found with ⟨found, rfl⟩ | ⟨target, found⟩
      · simp only [located, Json.ok_bind, Bool.false_eq_true, if_false, found, Json.pure_eq_ok, directory]
      · have linked := (look_eq_ok_iff.mp found).2
        simp only [located, Json.ok_bind, Bool.false_eq_true, if_false, found, Json.pure_eq_ok, linked, resolved,
          directory, Option.any_some, Node.isDirectory, if_true]

theorem filesAt_entry (entry : disk.entryAt root = .ok key) (directory : disk.get? key = some .directory) :
    disk.filesAt root = disk.filesBelow root key := by
  unfold filesAt
  simp only [entry, directory]

/-- An entry is found by its name, unless the name is that of a link. -/
theorem follow_entry {goal : Goal} {links : Nat} {directory : Key} {name : String} {node : Node}
    (named : Path.isIdle name = false) (inward : name ≠ "..") (found : disk.look directory name = .ok (some node))
    (unlinked : ∀ target, node ≠ .link target) :
    follow disk goal links directory [name] = .ok (directory ++ [name]) := by
  rw [follow_look named inward (by simp [areSlashes]), found]
  cases node with
  | directory => exact follow_nil
  | file bytes => rfl
  | link target => exact absurd rfl (unlinked target)

theorem filesAt_unresolved (unresolved : ∀ key, disk.resolve root ≠ .ok key) : disk.filesAt root = [] := by
  unfold filesAt
  split
  · rfl
  · next key reached =>
    obtain ⟨spot, located, reached⟩ := Json.bind_eq_ok.mp reached
    obtain ⟨valid, locates⟩ := locates_of_locate located
    cases locates with
    | directory arrives => exact absurd arrives.resolve (unresolved _)
    | @entry front slashes name left directory shape empty leads named inward =>
      cases slashes with
      | cons slash others => exact absurd reached (unresolved key)
      | nil =>
        obtain ⟨node?, found, reached⟩ := Json.bind_eq_ok.mp reached
        have entry {node : Node} (found : disk.look directory name = .ok (some node)) :
            ∃ target, node = .link target := by
          by_contra none
          rw [not_exists] at none
          apply unresolved (directory ++ [name])
          apply reach_eq_ok_iff.mpr
          rw [shape, follow_append leads (by simp)]
          exact ⟨valid, follow_entry named inward found none⟩
        cases node? with
        | none => cases reached
        | some node =>
          cases reached
          obtain ⟨target, rfl⟩ := entry found
          simp only [(look_eq_ok_iff.mp found).2]
          split
          · next resolved => exact absurd resolved (unresolved _)
          · rfl

end Listing

section Below

variable {disk : Disk} {root : String} {key : Key} {names : List String} {bytes : ByteArray}

theorem ne_nil_of_file (directory : disk.get? key = some .directory)
    (found : disk.get? (key ++ names) = some (.file bytes)) : names ≠ [] := by
  rintro rfl
  rw [List.append_nil, directory] at found
  cases found

theorem isName_below (tree : IsTree disk) (found : disk.get? (key ++ names) = some (.file bytes)) :
    ∀ name ∈ names, IsName name :=
  fun name member => isName_of_get? tree found name (by simp [member])

theorem named_of_names (valid : ∀ name ∈ names, IsName name) : named names = names := by
  apply List.filter_eq_self.mpr
  intro name member
  simp [(valid name member).named]

theorem inward_of_names (valid : ∀ name ∈ names, IsName name) : ".." ∉ names :=
  fun member => (valid ".." member).inward rfl

theorem relative_of_names (valid : ∀ name ∈ names, IsName name) (more : names ≠ []) :
    Path.isRooted ("/".intercalate names) = false ∧ Path.names ("/".intercalate names) = names := by
  have split : Path.names ("/".intercalate names) = names :=
    names_intercalate (fun name member => (valid name member).single) more
  refine ⟨?_, split⟩
  rw [Bool.eq_false_iff]
  intro rooted
  obtain ⟨later, begins⟩ := names_rooted rooted
  rw [split] at begins
  exact (valid "" (by simp [begins])).visible rfl

theorem intercalate_ne_empty (valid : ∀ name ∈ names, IsName name) (more : names ≠ []) :
    "/".intercalate names ≠ "" := by
  intro empty
  obtain ⟨_, split⟩ := relative_of_names valid more
  rw [empty] at split
  have member : "" ∈ names := by
    rw [← split]
    exact List.mem_singleton.mpr rfl
  exact (valid "" member).visible rfl

/-- A file is found by the names that it lies below a directory with. -/
theorem follow_below (tree : IsTree disk) (found : disk.get? (key ++ names) = some (.file bytes)) (more : names ≠ [])
    (goal : Goal) (links : Nat) : follow disk goal links key names = .ok (key ++ names) := by
  obtain ⟨front, last, rfl⟩ := (List.eq_nil_or_concat names).resolve_left more
  rw [List.concat_eq_append, ← List.append_assoc] at found
  rw [List.concat_eq_append]
  have valid := isName_of_get? tree found
  have entry := valid last (by simp)
  have above : ∀ name ∈ front, IsName name := fun name member => valid name (by simp [member])
  have directory : disk.get? (key ++ named front) = some .directory := by
    rw [named_of_names above]
    exact get?_above tree found
  have leads : Leads disk links key front links (key ++ named front) :=
    leads_down tree (inward_of_names above) directory
  rw [follow_append leads (fun _ => ⟨last, by simp, entry.visible⟩), named_of_names above, ← List.append_assoc]
  exact follow_entry entry.named entry.inward (look_eq_ok_iff.mpr ⟨entry.short, found⟩) (by simp)

theorem isRooted_append {front : String} (nonempty : front ≠ "") (back : String) :
    Path.isRooted (front ++ back) = Path.isRooted front := by
  obtain ⟨c, rest, text⟩ := List.exists_cons_of_ne_nil (show front.toList ≠ [] by simpa using nonempty)
  simp [Path.isRooted, text]

/-- The path of a directory begins the paths below it. -/
theorem join_begins {relative : String} (nonempty : root ≠ "") (plain : Path.isRooted relative = false) :
    ∃ rest, Path.join root relative = root ++ rest := by
  unfold Path.join
  simp only [plain, Bool.or_false, String.isEmpty_iff, nonempty, if_false]
  split
  · exact ⟨relative, rfl⟩
  · exact ⟨"/" ++ relative, String.append_assoc ..⟩

theorem isRooted_join {relative : String} (nonempty : root ≠ "") (plain : Path.isRooted relative = false) :
    Path.isRooted (Path.join root relative) = Path.isRooted root := by
  obtain ⟨rest, text⟩ := join_begins nonempty plain
  rw [text, isRooted_append nonempty]

theorem isPath_of_join {relative : String} (nonempty : root ≠ "") (plain : Path.isRooted relative = false)
    (valid : IsPath (Path.join root relative)) : IsPath root := by
  obtain ⟨rest, text⟩ := join_begins nonempty plain
  obtain ⟨terminated, _, short⟩ := valid
  rw [text, String.toList_append] at terminated
  rw [text, String.utf8ByteSize_append] at short
  exact ⟨fun nul => terminated (List.mem_append_left _ nul), nonempty, by omega⟩

/-- What leads to a directory leads there from any path below it. -/
theorem Arrives.folder (tree : IsTree disk) (arrives : Arrives disk root key) :
    ∃ left, Leads disk maxLinks (disk.start root) (folderNames root) left key := by
  have directory := arrives.directory tree
  obtain ⟨valid, left, leads⟩ := arrives
  cases names_folder valid.nonempty with
  | inl same => exact ⟨left, same ▸ leads⟩
  | inr slash =>
    rw [slash] at leads
    obtain ⟨middle, between, before, onward⟩ := leads.split directory
    obtain ⟨rfl, rfl⟩ := onward.unique (leads_idle (by simp [Path.isIdle]))
    exact ⟨_, before⟩

theorem readBytes_below (tree : IsTree disk) (arrives : Arrives disk root key)
    (found : disk.get? (key ++ names) = some (.file bytes)) (more : names ≠ [])
    (valid : IsPath (Path.join root ("/".intercalate names))) :
    disk.readBytes (Path.join root ("/".intercalate names)) = .ok bytes := by
  obtain ⟨left, leads⟩ := Arrives.folder tree arrives
  obtain ⟨relative, split⟩ := relative_of_names (isName_below tree found) more
  have start : disk.start (Path.join root ("/".intercalate names)) = disk.start root := by
    rw [start, start, isRooted_join arrives.1.nonempty relative]
  have resolved : disk.resolve (Path.join root ("/".intercalate names)) = .ok (key ++ names) := by
    apply reach_eq_ok_iff.mpr
    rw [names_join relative, split, start, follow_append leads (by simp)]
    exact ⟨valid, follow_below tree found more .find left⟩
  unfold readBytes
  simp only [resolved, Json.ok_bind, found]
  rfl

end Below

/-- The files below a directory are texts, and their paths are such as can be read and given back. -/
structure Readable (disk : Disk) (root : String) (key : Key) : Prop where
  text : ∀ names bytes, disk.get? (key ++ names) = some (.file bytes) → ∃ text, FileSystem.decode bytes = .ok text
  slash : ∀ names bytes, disk.get? (key ++ names) = some (.file bytes) → ∀ name ∈ names, '\\' ∉ name.toList
  path : ∀ names bytes, disk.get? (key ++ names) = some (.file bytes) →
    IsPath (Path.join root ("/".intercalate names))

section Contents

variable {disk : Disk} {root : String} {key : Key} {names : List String}

theorem join_append {front : String} (nonempty : front ≠ "") (back : String) :
    Path.join root (front ++ back) = Path.join root front ++ back := by
  unfold Path.join
  rw [isRooted_append nonempty]
  split
  · rfl
  split
  · exact (String.append_assoc ..).symm
  · exact (String.append_assoc ..).symm

theorem isListed_above (below : ∀ name ∈ names, IsName name) (more : names ≠ [])
    (valid : IsPath (Path.join root ("/".intercalate names))) : isListed root names.dropLast = true := by
  obtain ⟨front, last, rfl⟩ := (List.eq_nil_or_concat names).resolve_left more
  rw [List.concat_eq_append] at below valid more ⊢
  rw [List.dropLast_concat]
  cases front with
  | nil => rfl
  | cons first others =>
    have above : ∀ name ∈ first :: others, IsName name := fun name member => below name (List.mem_append_left _ member)
    obtain ⟨_, split⟩ := relative_of_names above (by simp)
    have nonempty := intercalate_ne_empty above (by simp)
    have text : "/".intercalate (first :: others ++ [last]) = "/".intercalate (first :: others) ++ ("/" ++ last) := by
      apply names_injective
      obtain ⟨_, whole⟩ := relative_of_names below more
      obtain ⟨_, final⟩ := relative_of_names (fun name member => below name (List.mem_append_right _ member))
        (List.cons_ne_nil last [])
      have single : "/".intercalate [last] = last := by simp
      rw [single] at final
      rw [whole, ← String.append_assoc, names_slash, split, final]
    have short := valid.short
    rw [text, join_append nonempty, String.utf8ByteSize_append] at short
    have listed : (Path.join root ("/".intercalate (first :: others))).utf8ByteSize ≤ maxPathBytes := by omega
    simp [isListed, listed]

theorem map_slashes {text : String} (plain : '\\' ∉ text.toList) :
    (text.map fun c => if c == '\\' then '/' else c) = text := by
  apply String.toList_inj.mp
  rw [String.toList_map, List.map_congr_left (g := id), List.map_id]
  intro c member
  have other : c ≠ '\\' := by
    rintro rfl
    exact plain member
  simp [other]

theorem decode_toUTF8 (text : String) : FileSystem.decode text.toUTF8 = .ok text := by
  have valid := text.isValidUTF8
  simp [FileSystem.decode, String.fromUTF8?, String.fromUTF8, String.toUTF8, valid]

/-- The files are read one by one, and each is given back as it was found. -/
theorem readFiles_ok {relatives : List String} (readable : ∀ relative ∈ relatives, relative ≠ "" ∧
      '\\' ∉ relative.toList ∧ ∃ text, (disk.readBytes (Path.join root relative)).bind FileSystem.decode = .ok text) :
    ∃ entries, disk.readFiles root relatives = .ok entries ∧ ∀ path text, (path, text) ∈ entries ↔
      path ∈ relatives ∧ (disk.readBytes (Path.join root path)).bind FileSystem.decode = .ok text := by
  induction relatives with
  | nil => exact ⟨[], rfl, by simp⟩
  | cons first later ih =>
    obtain ⟨⟨visible, plain, text, read⟩, rest⟩ := List.forall_mem_cons.mp readable
    obtain ⟨entries, done, members⟩ := ih rest
    refine ⟨(first, text) :: entries, ?_, ?_⟩
    · simp only [readFiles, String.isEmpty_iff, visible, if_false, Json.mapError_eq_ok.mpr read, Json.ok_bind, done,
        map_slashes plain]
      rfl
    · intro path text'
      rw [List.mem_cons, List.mem_cons, members, Prod.mk.injEq]
      constructor
      · rintro (⟨rfl, rfl⟩ | ⟨member, found⟩)
        · exact ⟨.inl rfl, read⟩
        · exact ⟨.inr member, found⟩
      · rintro ⟨rfl | member, found⟩
        · exact .inl ⟨rfl, Except.ok.inj (found.symm.trans read)⟩
        · exact .inr ⟨member, found⟩

theorem get?_ofList_iff {entries : List (String × String)} {path text : String}
    (single : ∀ path text text', (path, text) ∈ entries → (path, text') ∈ entries → text = text') :
    (Files.ofList entries).get? path = some text ↔ (path, text) ∈ entries := by
  constructor
  · exact mem_of_get?_ofList
  · intro member
    have held : path ∈ (Files.ofList entries).paths := (mem_paths_ofList entries path).mpr (List.mem_map_of_mem member)
    obtain ⟨text', found⟩ := Option.isSome_iff_exists.mp (mem_paths_iff.mp held)
    rw [found, single path text text' member (mem_of_get?_ofList found)]

/-- A file that was read could be read by itself, and its text is given back. -/
theorem readFiles_mem {relatives : List String} {entries : List (String × String)} {relative : String}
    (read : disk.readFiles root relatives = .ok entries) (member : relative ∈ relatives) (visible : relative ≠ "") :
    (∃ bytes, disk.readBytes (Path.join root relative) = .ok bytes) ∧
      ∃ text, (relative.map fun c => if c == '\\' then '/' else c, text) ∈ entries := by
  induction relatives generalizing entries with
  | nil => cases member
  | cons first later ih =>
    obtain ⟨text, found, read⟩ := Json.bind_eq_ok.mp read
    obtain ⟨others, done, read⟩ := Json.bind_eq_ok.mp read
    cases read
    rcases List.mem_cons.mp member with rfl | inside
    · rw [if_neg (by simpa using visible)] at found
      cases held : disk.readBytes (Path.join root relative) with
      | error fault =>
        rw [held] at found
        cases found
      | ok bytes => exact ⟨⟨bytes, rfl⟩, text, List.mem_cons_self⟩
    · obtain ⟨single, text, given⟩ := ih done inside
      exact ⟨single, text, List.mem_cons_of_mem _ given⟩

theorem readTree_unresolved (unresolved : ∀ key, disk.resolve root ≠ .ok key) :
    disk.readTree root = .ok Files.empty := by
  unfold readTree
  rw [filesAt_unresolved unresolved]
  rfl

/-- A file below a directory that was read is given back under its path, if it is listed. -/
theorem readTree_mem {files : Files} {bytes : ByteArray} (read : disk.readTree root = .ok files)
    (below : disk.filesAt root = disk.filesBelow root key) (found : disk.get? (key ++ names) = some (.file bytes))
    (visible : "/".intercalate names ≠ "") (listed : isListed root names.dropLast = true) :
    (∃ bytes, disk.readBytes (Path.join root ("/".intercalate names)) = .ok bytes) ∧
      (("/".intercalate names).map fun c => if c == '\\' then '/' else c) ∈ files.paths := by
  have more : names ≠ [] := by
    rintro rfl
    exact visible rfl
  have member : "/".intercalate names ∈ disk.filesAt root := by
    rw [below]
    exact mem_filesBelow_iff.mpr ⟨names, bytes, more, mem_of_get?_file found, listed, rfl⟩
  obtain ⟨entries, done, read⟩ := Json.bind_eq_ok.mp read
  cases read
  obtain ⟨single, text, given⟩ := readFiles_mem done member visible
  exact ⟨single, (mem_paths_ofList entries _).mpr (List.mem_map_of_mem given)⟩

/-- A directory is not read if the path of a file in it, but not that of the file's directory, is too long. -/
theorem unreadable_of_long {bytes : ByteArray} (tree : IsTree disk) (arrives : Arrives disk root key)
    (found : disk.get? (key ++ names) = some (.file bytes)) (more : names ≠ [])
    (listed : isListed root names.dropLast = true)
    (long : maxPathBytes < (Path.join root ("/".intercalate names)).utf8ByteSize) (files : Files) :
    disk.readTree root ≠ .ok files := by
  intro read
  have visible := intercalate_ne_empty (isName_below tree found) more
  obtain ⟨⟨bytes', single⟩, _⟩ := readTree_mem read (filesAt_arrives tree arrives) found visible listed
  obtain ⟨key', resolved, _⟩ := Json.bind_eq_ok.mp single
  have short := (reach_eq_ok_iff.mp resolved).1.short
  omega

structure Reads (disk : Disk) (key : Key) (files : Files) : Prop where
  texts : ∀ path text, files.get? path = some text ↔ ∃ names bytes, path = "/".intercalate names ∧
    disk.get? (key ++ names) = some (.file bytes) ∧ FileSystem.decode bytes = .ok text

/-- All files below a readable directory are listed. -/
theorem mem_filesBelow_readable (tree : IsTree disk) (directory : disk.get? key = some .directory)
    (readable : Readable disk root key) {path : String} : path ∈ disk.filesBelow root key ↔
      ∃ names bytes, path = "/".intercalate names ∧ disk.get? (key ++ names) = some (.file bytes) := by
  rw [mem_filesBelow_iff]
  constructor
  · rintro ⟨names, bytes, _, member, _, rfl⟩
    exact ⟨names, bytes, rfl, get?_of_mem tree member⟩
  · rintro ⟨names, bytes, rfl, found⟩
    have more := ne_nil_of_file directory found
    have listed := isListed_above (isName_below tree found) more (readable.path names bytes found)
    exact ⟨names, bytes, more, mem_of_get?_file found, listed, rfl⟩

theorem readTree_arrives (tree : IsTree disk) (arrives : Arrives disk root key) (readable : Readable disk root key) :
    ∃ files, disk.readTree root = .ok files ∧ Reads disk key files := by
  have directory := arrives.directory tree
  have member_iff {path : String} := @mem_filesBelow_readable disk root key tree directory readable path
  have read {names : List String} {bytes : ByteArray} (found : disk.get? (key ++ names) = some (.file bytes)) :
      disk.readBytes (Path.join root ("/".intercalate names)) = .ok bytes :=
    readBytes_below tree arrives found (ne_nil_of_file directory found) (readable.path names bytes found)
  have usable : ∀ relative ∈ disk.filesBelow root key, relative ≠ "" ∧ '\\' ∉ relative.toList ∧
      ∃ text, (disk.readBytes (Path.join root relative)).bind FileSystem.decode = .ok text := by
    intro relative member
    obtain ⟨names, bytes, rfl, found⟩ := member_iff.mp member
    refine ⟨intercalate_ne_empty (isName_below tree found) (ne_nil_of_file directory found), ?_, ?_⟩
    · have plain : '\\' ∉ ['/'].intercalate (names.map String.toList) :=
        FileLines.not_mem_intercalate (by decide) (List.forall_mem_map.mpr (readable.slash names bytes found))
      rw [String.toList_intercalate]
      exact plain
    · rw [read found]
      exact readable.text names bytes found
  obtain ⟨entries, done, members⟩ := readFiles_ok usable
  -- A path is listed for each file, and what was read for it is what lies there: no entry hides another.
  have single : ∀ path text text', (path, text) ∈ entries → (path, text') ∈ entries → text = text' := by
    intro path text text' first second
    exact Except.ok.inj (((members path text).mp first).2.symm.trans ((members path text').mp second).2)
  refine ⟨Files.ofList entries, ?_, ⟨?_⟩⟩
  · unfold readTree
    rw [filesAt_arrives tree arrives, done]
    rfl
  · intro path text
    rw [get?_ofList_iff single, members, member_iff]
    constructor
    · rintro ⟨⟨names, bytes, rfl, found⟩, decoded⟩
      rw [read found] at decoded
      exact ⟨names, bytes, rfl, found, decoded⟩
    · rintro ⟨names, bytes, rfl, found, decoded⟩
      refine ⟨⟨names, bytes, rfl, found⟩, ?_⟩
      rw [read found]
      exact decoded

end Contents

end SpellPack.Proofs.TreeReading
