import SpellPack.Proofs.BlockedWays
import SpellPack.Proofs.PackPlaces
import SpellPack.Proofs.TreeReading

/-! Packs that are written into a tree. Each file of the pack comes to lie below the directory,
nothing else changes but for directories that are made, and to write the pack once more
changes nothing at all. -/

namespace SpellPack.Proofs.WrittenPacks
open Disk DiskTrees PathWalks MadeDirectories PathNames TreeReading PackPlaces DiskRuns

def Reaches (disk : Disk) (root : String) (left : Nat) (key : Key) : Prop :=
  Leads disk maxLinks (disk.start root) (folderNames root) left key

section Reaching

variable {disk after : Disk} {root : String} {left left' : Nat} {key key' : Key} {files : List (Key × ByteArray)}

theorem Reaches.gains (gains : Gains disk files after) (reaches : Reaches disk root left key) :
    Reaches after root left key := by
  unfold Reaches start at reaches ⊢
  rw [gains.home]
  exact reaches.gains gains

theorem Reaches.arrives (valid : IsPath root) (reaches : Reaches disk root left key) : Arrives disk root key := by
  refine ⟨valid, left, ?_⟩
  cases names_folder valid.nonempty with
  | inl same => exact same ▸ reaches
  | inr slash =>
    rw [slash]
    exact Leads.append reaches (leads_idle (by simp [Path.isIdle]))

end Reaching

section Texts

variable {disk changed : Disk} {path text name : String} {front : List String} {left : Nat} {directory : Key}

theorem writeKey_ok {key : Key} (placed : disk.writeKey path = .ok key) :
    disk.reach .write path = .ok key ∧ disk.get? key ≠ some .directory := by
  obtain ⟨reached, followed, checked⟩ := Json.bind_eq_ok.mp placed
  cases found : (disk.get? reached).any Node.isDirectory with
  | true =>
    rw [found] at checked
    cases checked
  | false =>
    rw [found] at checked
    cases checked
    refine ⟨followed, fun directory => ?_⟩
    rw [any_isDirectory_iff.mpr directory] at found
    cases found

/-- A text is written into the directory that the names above it lead to. -/
theorem writeText_ok (tree : IsTree disk) (shape : Path.names path = front ++ [name]) (named : Path.isIdle name = false)
    (inward : name ≠ "..") (written : disk.writeText path text = .ok changed) :
    IsPath path ∧ ∃ left directory, Leads disk maxLinks (disk.start path) front left directory ∧
      ((∀ target, disk.get? (directory ++ [name]) ≠ some (.link target)) →
        Puts disk directory name (.file text.toUTF8) changed ∧
          (disk.get? (directory ++ [name]) = none ∨ ∃ held, disk.get? (directory ++ [name]) = some (.file held))) := by
  obtain ⟨key, placed, put⟩ := Json.bind_eq_ok.mp written
  cases put
  obtain ⟨reached, other⟩ := writeKey_ok placed
  obtain ⟨valid, followed⟩ := reach_eq_ok_iff.mp reached
  rw [shape] at followed
  obtain ⟨left, directory, leads, last⟩ := leads_of_follow followed (.inl (by simp))
  refine ⟨valid, left, directory, leads, fun unlinked => ?_⟩
  have inside := leads.directory tree (get?_start disk path)
  have member : name ∈ Path.names path := by simp [shape]
  have puts {node? : Option Node} (found : disk.look directory name = .ok node?) (other : node? ≠ some .directory) :
      Puts disk directory name (.file text.toUTF8) (disk.put (directory ++ [name]) (.file text.toUTF8)) := by
    refine ⟨rfl, inside, isName_of_look member named inward found, apart_of_get? ?_⟩
    rwa [(look_eq_ok_iff.mp found).2]
  cases enters_of_follow last with
  | idle idle => simp [named] at idle
  | up => exact absurd rfl inward
  | missing _ _ found _ => exact ⟨puts found (by simp), .inl (look_eq_ok_iff.mp found).2⟩
  | file _ _ found => exact ⟨puts found (by simp), .inr ⟨_, (look_eq_ok_iff.mp found).2⟩⟩
  | down _ _ found onward =>
    rw [follow_nil, Except.ok.injEq] at onward
    exact absurd (onward ▸ (look_eq_ok_iff.mp found).2) other
  | link _ _ found => exact absurd (look_eq_ok_iff.mp found).2 (unlinked _)

/-- A file that holds a text already stays as it is when the text is written. -/
theorem writeText_again (tree : IsTree disk) (valid : IsPath path) (shape : Path.names path = front ++ [name])
    (leads : Leads disk maxLinks (disk.start path) front left directory)
    (held : disk.get? (directory ++ [name]) = some (.file text.toUTF8)) : disk.writeText path text = .ok disk := by
  have entry := isName_of_get? tree held name (by simp)
  have reached : disk.reach .write path = .ok (directory ++ [name]) := by
    apply reach_eq_ok_iff.mpr
    rw [shape, follow_append leads (fun _ => ⟨name, by simp, entry.visible⟩)]
    exact ⟨valid, follow_entry entry.named entry.inward (look_eq_ok_iff.mpr ⟨entry.short, held⟩) (by simp)⟩
  have listed : disk.nodes.lookup (directory ++ [name]) = some (.file text.toUTF8) := by
    have apart : disk.isOnWayHome (directory ++ [name]) = false := apart_of_get? (by simp [held])
    rwa [Disk.get?, if_neg (by simp [apart])] at held
  unfold writeText writeBytes writeKey
  simp only [reached, Json.ok_bind, held, Option.any_some, Node.isDirectory, Bool.false_eq_true, if_false,
    Json.pure_eq_ok, put, putNode_same listed]

end Texts

section Places

variable {disk : Disk} {root relative parent file : String} {folders front names : List String}

/-- Where a file of a pack is to lie, and the path above it. -/
structure Placed (root relative parent : String) (folders : List String) (file : String) : Prop where
  up : Path.parent? (Path.join root relative) = some parent
  nonempty : parent ≠ ""
  rooted : Path.isRooted parent = Path.isRooted root
  above : SameFolder (folderNames root ++ folders) (Path.names parent)
  plain : Path.isRooted relative = false
  joined : Path.names (Path.join root relative) = folderNames root ++ folders ++ [file]
  below : Path.names relative = folders ++ [file]
  words : ∀ folder ∈ folders, IsWord folder
  named : Path.isIdle file = false
  inward : file ≠ ".."

theorem folderNames_ne_nil (nonempty : root ≠ "") : folderNames root ≠ [] := by
  intro none
  cases names_folder nonempty with
  | inl same => exact names_ne_nil root (same.trans none)
  | inr slash =>
    rw [none, List.nil_append] at slash
    exact nonempty (names_injective slash)

theorem placed_of_filed (nonempty : root ≠ "") (filed : Filed relative) :
    ∃ parent folders file, Placed root relative parent folders file := by
  have relative' : Path.isRooted relative = false := filed.relative
  obtain ⟨folders, stem, extension, shape, words, word, word'⟩ := filed
  have plain := isPlainName_dotted word word'
  have joined : Path.names (Path.join root relative) = folderNames root ++ folders ++ [stem ++ "." ++ extension] := by
    rw [names_join relative', shape, List.append_assoc]
  have below : folderNames root ++ folders ≠ [] := by simp [folderNames_ne_nil nonempty]
  obtain ⟨parent, up, visible, rooted, above⟩ := parent?_folder joined below plain.not_idle
  have start := rooted.trans (isRooted_join nonempty relative')
  exact ⟨parent, folders, _, up, visible, start, above, relative', joined, shape, words, plain.not_idle, plain.above⟩

end Places

section Entries

variable {disk now next after : Disk} {root : String} {files : List (Key × ByteArray)}

def entrySteps (root : String) (entry : String × String) : List FileSystem.Step :=
  match Path.parent? (Path.join root entry.1) with
  | some parent => [.makeDirectories parent, .write (Path.join root entry.1) entry.2]
  | none => [.write (Path.join root entry.1) entry.2]

theorem writeSteps_eq (package : Package) (root : String) :
    package.writeSteps root = package.files.entries.flatMap (entrySteps root) := rfl

def entryFile (key : Key) (entry : String × String) : Key × ByteArray := (key ++ Path.names entry.1, entry.2.toUTF8)

/-- No link lies below the directory, wherever it comes to lie. -/
def Clear (disk : Disk) (root : String) : Prop :=
  ∀ now files left key, Gains disk files now → IsTree now → IsPath root → Reaches now root left key →
    ∀ names target, disk.get? (key ++ names) ≠ some (.link target)

/-- The path of a file is one that the system takes, and the directory above it is there. -/
structure Settled (disk : Disk) (root relative : String) : Prop where
  valid : IsPath (Path.join root relative)
  parent : ∃ parent key, Path.parent? (Path.join root relative) = some parent ∧ Arrives disk parent key

theorem Settled.gains {relative : String} (gains : Gains disk files now) (settled : Settled disk root relative) :
    Settled now root relative := by
  obtain ⟨valid, parent, key, up, arrives⟩ := settled
  exact ⟨valid, parent, key, up, arrives.gains gains⟩

theorem named_of_words {folders : List String} (words : ∀ folder ∈ folders, IsWord folder) :
    named folders = folders ∧ ".." ∉ folders := by
  constructor
  · apply List.filter_eq_self.mpr
    intro folder member
    simp [(words folder member).plain.not_idle]
  · intro up
    exact (words ".." up).plain.above rfl

/-- The steps for one file, taken apart. -/
theorem entry_steps (nonempty : root ≠ "") {entry : String × String} (filed : Filed entry.1)
    (performed : Disk.system.perform (entrySteps root entry) now = (.ok (), next)) :
    ∃ parent folders file made, Placed root entry.1 parent folders file ∧
      Disk.system.makeDirectories parent now = (.ok (), made) ∧
      made.writeText (Path.join root entry.1) entry.2 = .ok next := by
  obtain ⟨parent, folders, file, placed⟩ := placed_of_filed nonempty filed
  unfold entrySteps at performed
  rw [placed.up] at performed
  obtain ⟨made, making, performed⟩ := perform_cons_ok performed
  obtain ⟨written, writing, done⟩ := perform_cons_ok performed
  cases done
  exact ⟨parent, folders, file, made, placed, runStep_makeDirectories_ok.mp making, runStep_write_ok.mp writing⟩

/-- Names that lead into the directory and on through folders come to lie straight below it. -/
theorem reaches_of_leads (tree : IsTree now) (clear : Clear disk root) (gains : Gains disk files now)
    (valid : IsPath root) {folders : List String} (words : ∀ folder ∈ folders, IsWord folder) {left : Nat}
    {directory : Key} (leads : Leads now maxLinks (now.start root) (folderNames root ++ folders) left directory) :
    ∃ key, Reaches now root left key ∧ directory = key ++ folders ∧
      ∀ names target, now.get? (key ++ names) ≠ some (.link target) := by
  obtain ⟨middle, key, reaches, onward⟩ := leads.split (leads.directory tree (get?_start now root))
  have unlinked : ∀ names target, now.get? (key ++ names) ≠ some (.link target) := by
    intro names target linked
    exact clear now _ middle key gains tree valid reaches names target ((gains.links _ _).mp linked)
  obtain ⟨straight, inward⟩ := named_of_words words
  obtain ⟨rfl, below⟩ := onward.descends inward fun ahead _ target => unlinked ahead target
  rw [straight] at below
  exact ⟨key, reaches, below, unlinked⟩

/-- One file is written below the directory, and nothing else. -/
theorem entry_written (nonempty : root ≠ "") (clear : Clear disk root) (gains : Gains disk files now)
    (tree : IsTree now) {entry : String × String} (filed : Filed entry.1)
    (performed : Disk.system.perform (entrySteps root entry) now = (.ok (), next)) :
    IsTree next ∧ Settled next root entry.1 ∧
      ∃ left key, Reaches next root left key ∧ Gains now [entryFile key entry] next := by
  obtain ⟨parent, folders, file, made, placed, making, writing⟩ := entry_steps nonempty filed performed
  obtain ⟨above, arrives⟩ := makeDirectories_arrives tree placed.nonempty making
  have extended : Extends now made := by
    have made := makeDirectories_extends tree parent
    rwa [making] at made
  have grown := gains.trans extended.gains
  obtain ⟨valid, left, directory, leads, puts⟩ :=
    writeText_ok extended.tree placed.joined placed.named placed.inward writing
  have start : made.start (Path.join root entry.1) = made.start root := by
    rw [start, start, isRooted_join nonempty placed.plain]
  rw [start] at leads
  have inside := isPath_of_join nonempty placed.plain valid
  obtain ⟨key, reaches, rfl, unlinked⟩ := reaches_of_leads extended.tree clear grown inside placed.words leads
  have free : ∀ target, made.get? (key ++ folders ++ [file]) ≠ some (.link target) := by
    intro target
    rw [List.append_assoc]
    exact unlinked _ target
  obtain ⟨put, place⟩ := puts free
  have stored := put.gains_file place
  have filed : entryFile key entry = (key ++ folders ++ [file], entry.2.toUTF8) := by
    rw [entryFile, placed.below, List.append_assoc]
  have kept : made.get? (key ++ folders ++ [file]) ≠ some .directory := by
    intro directory
    rw [directory] at place
    rcases place with free | ⟨held, free⟩
    · cases free
    · cases free
  refine ⟨put.isTree extended.tree kept, ?_, left, key, Reaches.gains stored reaches, ?_⟩
  · exact ⟨valid, parent, above, placed.up, arrives.gains stored⟩
  · exact filed ▸ extended.gains.trans stored

/-- What a run over files of a pack leaves. -/
structure Written (root : String) (entries : List (String × String)) (disk after : Disk) : Prop where
  tree : IsTree after
  grows : ∃ files, Gains disk files after
  settled : ∀ entry ∈ entries, Settled after root entry.1
  reached : entries ≠ [] → ∃ left key, Reaches after root left key
  gains : ∀ left key, Reaches after root left key → Gains disk (entries.reverse.map (entryFile key)) after

theorem entries_written (nonempty : root ≠ "") (clear : Clear disk root) {entries : List (String × String)}
    (filed : ∀ entry ∈ entries, Filed entry.1) (gains : Gains disk files now) (tree : IsTree now)
    (performed : Disk.system.perform (entries.flatMap (entrySteps root)) now = (.ok (), after)) :
    Written root entries now after := by
  -- Each file is written into what those before it have left, and where the directory lies
  -- shows only once the first is written: the later runs say that it still lies there.
  induction entries generalizing now files with
  | nil =>
    cases performed
    exact ⟨tree, ⟨[], .refl _⟩, List.forall_mem_nil _, absurd rfl, fun _ _ _ => .refl _⟩
  | cons entry later ih =>
    obtain ⟨first, rest⟩ := List.forall_mem_cons.mp filed
    rw [List.flatMap_cons] at performed
    obtain ⟨next, one, others⟩ := perform_append_ok.mp performed
    obtain ⟨tree', settled, left, key, reaches, gained⟩ := entry_written nonempty clear gains tree first one
    have written := ih rest (gains.trans gained) tree' others
    obtain ⟨more, grows⟩ := written.grows
    have reached := reaches.gains grows
    refine ⟨written.tree, ⟨_, gained.trans grows⟩, ?_, fun _ => ⟨left, key, reached⟩, ?_⟩
    · exact List.forall_mem_cons.mpr ⟨settled.gains grows, written.settled⟩
    · intro left' key' reaches'
      obtain ⟨rfl, rfl⟩ := Leads.unique reached reaches'
      rw [List.reverse_cons, List.map_append, List.map_singleton]
      exact gained.trans (written.gains left key reached)

section Again

variable {left : Nat} {key : Key}

/-- A file that holds its text already is written without a change. -/
theorem entry_again (nonempty : root ≠ "") (tree : IsTree disk) (reaches : Reaches disk root left key)
    {entry : String × String} (filed : Filed entry.1) (settled : Settled disk root entry.1)
    (held : disk.get? (key ++ Path.names entry.1) = some (.file entry.2.toUTF8)) :
    Disk.system.perform (entrySteps root entry) disk = (.ok (), disk) := by
  obtain ⟨valid, parent, above, up, arrives⟩ := settled
  obtain ⟨parent', folders, file, placed⟩ := placed_of_filed nonempty filed
  rw [placed.below, ← List.append_assoc] at held
  obtain ⟨straight, inward⟩ := named_of_words placed.words
  have down : Leads disk left key folders left (key ++ folders) := by
    have way : Leads disk left key folders left (key ++ named folders) := by
      apply leads_down tree inward
      rw [straight]
      exact get?_above tree held
    rwa [straight] at way
  have start : disk.start (Path.join root entry.1) = disk.start root := by
    rw [start, start, isRooted_join nonempty placed.plain]
  have leads := Leads.append reaches down
  rw [← start] at leads
  have same := writeText_again tree valid placed.joined leads held
  unfold entrySteps
  rw [up]
  have made := runStep_makeDirectories_ok.mpr (makeDirectories_again tree arrives)
  have wrote := runStep_write_ok.mpr same
  exact (perform_ok made _).trans (perform_ok wrote [])

theorem entries_again (nonempty : root ≠ "") (tree : IsTree disk) (reaches : Reaches disk root left key)
    {entries : List (String × String)} (filed : ∀ entry ∈ entries, Filed entry.1)
    (settled : ∀ entry ∈ entries, Settled disk root entry.1)
    (held : ∀ entry ∈ entries, disk.get? (key ++ Path.names entry.1) = some (.file entry.2.toUTF8)) :
    Disk.system.perform (entries.flatMap (entrySteps root)) disk = (.ok (), disk) := by
  induction entries with
  | nil => rfl
  | cons entry later ih =>
    rw [List.forall_mem_cons] at filed settled held
    rw [List.flatMap_cons, perform_append_ok]
    exact ⟨disk, entry_again nonempty tree reaches filed.1 settled.1 held.1, ih filed.2 settled.2 held.2⟩

end Again

end Entries

end SpellPack.Proofs.WrittenPacks
