import SpellPack.Proofs.UnfinishedPacks

/-! Texts that are written are read at their paths, over whatever links these go. Of the files of
a pack that links lead to one place the last one is read there. Without links each file has a
place of its own. -/

namespace SpellPack.Proofs.WrittenTexts
open Disk DiskRuns DiskTrees PathWalks MadeDirectories PathNames TreeReading PackPlaces WrittenPacks StoredPacks
open UnfinishedPacks

section Following

variable {disk : Disk} {links : Nat} {here key : Key} {name : String} {names : List String}

/-- A file can be put there, or is there to be written over. -/
structure Free (disk : Disk) (directory : Key) (name : String) : Prop where
  inside : disk.get? directory = some .directory
  entry : IsName name
  free : disk.get? (directory ++ [name]) = none ∨ ∃ held, disk.get? (directory ++ [name]) = some (.file held)

/-- The names lead there as soon as a file is there. -/
def Findable (disk : Disk) (links : Nat) (here : Key) (names : List String) (key : Key) : Prop :=
  ∀ after files bytes, Gains disk files after → after.get? key = some (.file bytes) →
    follow after .find links here names = .ok key

theorem findable_last (named : Path.isIdle name = false) (inward : name ≠ "..")
    (short : name.utf8ByteSize ≤ maxNameBytes) : Findable disk links here [name] (here ++ [name]) :=
  fun _ _ _ _ written => follow_entry named inward (look_eq_ok_iff.mpr ⟨short, written⟩) (by simp)

/-- A way to write is a way to read what is written. -/
theorem follow_write (tree : IsTree disk) (inside : disk.get? here = some .directory)
    (single : ∀ name ∈ names, '/' ∉ name.toList) (followed : follow disk .write links here names = .ok key)
    (other : disk.get? key ≠ some .directory) :
    (∃ directory name, key = directory ++ [name] ∧ Free disk directory name) ∧ Findable disk links here names key := by
  induction links using Nat.strongRecOn generalizing here names with
  | ind links fewer =>
    induction names generalizing here with
    | nil =>
      rw [follow_nil, Except.ok.injEq] at followed
      exact absurd (followed ▸ inside) other
    | cons name later ih =>
      obtain ⟨plain, plain'⟩ := List.forall_mem_cons.mp single
      cases enters_of_follow followed with
      | idle idle onward =>
        obtain ⟨free, found⟩ := ih inside plain' onward
        exact ⟨free, fun _ _ _ gains written => (follow_idle idle).trans (found _ _ _ gains written)⟩
      | up onward =>
        obtain ⟨free, found⟩ := ih (get?_dropLast tree inside) plain' onward
        exact ⟨free, fun _ _ _ gains written => follow_up.trans (found _ _ _ gains written)⟩
      | missing named inward seen _ =>
        obtain ⟨short, missing⟩ := look_eq_ok_iff.mp seen
        have free : Free disk here name := ⟨inside, ⟨named, inward, plain, short⟩, .inl missing⟩
        exact ⟨⟨here, name, rfl, free⟩, findable_last named inward short⟩
      | file named inward seen =>
        obtain ⟨short, present⟩ := look_eq_ok_iff.mp seen
        have free : Free disk here name := ⟨inside, ⟨named, inward, plain, short⟩, .inr ⟨_, present⟩⟩
        exact ⟨⟨here, name, rfl, free⟩, findable_last named inward short⟩
      | down named inward seen onward =>
        obtain ⟨short, present⟩ := look_eq_ok_iff.mp seen
        obtain ⟨free, found⟩ := ih present plain' onward
        refine ⟨free, fun after _ _ gains written => ?_⟩
        rw [follow_look named inward (by simp), look_eq_ok_iff.mpr ⟨short, gains.directories _ present⟩]
        exact found _ _ _ gains written
      | @link links _ _ _ target _ named inward seen onward =>
        obtain ⟨short, present⟩ := look_eq_ok_iff.mp seen
        have inside' : disk.get? (if Path.isRooted target then [] else here) = some .directory := by
          split
          · exact get?_top disk
          · exact inside
        have single' : ∀ name ∈ Path.names target ++ later, '/' ∉ name.toList :=
          List.forall_mem_append.mpr ⟨fun _ => slash_names, plain'⟩
        obtain ⟨free, found⟩ := fewer links (Nat.lt_succ_self links) inside' single' onward
        refine ⟨free, fun after _ _ gains written => ?_⟩
        rw [follow_look named inward (by simp), look_eq_ok_iff.mpr ⟨short, (gains.links _ _).mpr present⟩]
        exact found _ _ _ gains written

end Following

section Texts

variable {disk changed after : Disk} {path text : String} {key : Key} {files : List (Key × ByteArray)}

/-- A text is written where its path leads then, and nothing else is. -/
theorem writeText_found (tree : IsTree disk) (written : disk.writeText path text = .ok changed) :
    ∃ key, IsTree changed ∧ changed.resolve path = .ok key ∧ Gains disk [(key, text.toUTF8)] changed := by
  obtain ⟨key, placed, put⟩ := Json.bind_eq_ok.mp written
  cases put
  obtain ⟨reached, other⟩ := writeKey_ok placed
  obtain ⟨valid, followed⟩ := reach_eq_ok_iff.mp reached
  obtain ⟨⟨directory, name, rfl, free⟩, found⟩ :=
    follow_write tree (get?_start disk path) (fun _ => slash_names) followed other
  have puts : Puts disk directory name (.file text.toUTF8) (disk.put (directory ++ [name]) (.file text.toUTF8)) :=
    ⟨rfl, free.inside, free.entry, apart_of_get? other⟩
  have gains := puts.gains_file free.free
  have held : (disk.put (directory ++ [name]) (.file text.toUTF8)).get? (directory ++ [name]) =
      some (.file text.toUTF8) := by rw [puts.get?, if_pos rfl]
  exact ⟨_, puts.isTree tree other, reach_eq_ok_iff.mpr ⟨valid, found _ _ _ gains held⟩, gains⟩

theorem readBytes_of_file {bytes : ByteArray} (resolved : disk.resolve path = .ok key)
    (found : disk.get? key = some (.file bytes)) : disk.readBytes path = .ok bytes := by
  unfold readBytes
  simp only [resolved, Json.ok_bind, found, Json.pure_eq_ok]

/-- It is read there at once. -/
theorem writeText_read (tree : IsTree disk) (written : disk.writeText path text = .ok changed) :
    changed.readBytes path = .ok text.toUTF8 := by
  obtain ⟨key, _, resolved, gains⟩ := writeText_found tree written
  apply readBytes_of_file resolved
  apply file?_eq_some_iff.mp
  rw [gains.files, List.lookup_cons_self, Option.some_or]

end Texts

section Entries

variable {disk after : Disk} {root : String} {entries : List (String × String)} {entry : String × String}

def place (disk : Disk) (path : String) : Key := (disk.resolve path).toOption.getD []

def landedFile (disk : Disk) (root : String) (entry : String × String) : Key × ByteArray :=
  (place disk (Path.join root entry.1), entry.2.toUTF8)

/-- What a run over files of a pack has written can be read. -/
structure Landed (disk : Disk) (root : String) (entries : List (String × String)) (after : Disk) : Prop where
  tree : IsTree after
  resolved : ∀ entry ∈ entries,
    after.resolve (Path.join root entry.1) = .ok (place after (Path.join root entry.1))
  gains : Gains disk (entries.reverse.map (landedFile after root)) after

theorem place_eq {path : String} {key : Key} (resolved : disk.resolve path = .ok key) : place disk path = key := by
  rw [place, resolved]
  rfl

theorem entries_landed (tree : IsTree disk)
    (performed : Disk.system.perform (entries.flatMap (entrySteps root)) disk = (.ok (), after)) :
    Landed disk root entries after := by
  induction entries generalizing disk with
  | nil =>
    cases performed
    exact ⟨tree, List.forall_mem_nil _, .refl _⟩
  | cons entry later ih =>
    rw [List.flatMap_cons] at performed
    obtain ⟨next, one, others⟩ := perform_append_ok.mp performed
    obtain ⟨made, extended, writing⟩ := entry_made tree one
    obtain ⟨key, tree', resolved, gained⟩ := writeText_found extended.tree writing
    obtain ⟨tree'', resolved', gains⟩ := ih tree' others
    obtain ⟨kept, _⟩ := resolve_gains tree' gains resolved
    obtain rfl := place_eq kept
    refine ⟨tree'', List.forall_mem_cons.mpr ⟨kept, resolved'⟩, ?_⟩
    rw [List.reverse_cons, List.map_append, List.map_singleton]
    exact (extended.gains.trans gained).trans gains

theorem lookup_map_of_unique {f : α → Key × β} {items : List α} {item : α} (member : item ∈ items)
    (unique : ∀ other ∈ items, (f other).1 = (f item).1 → other = item) :
    (items.map f).lookup (f item).1 = some (f item).2 := by
  induction items with
  | nil => cases member
  | cons first later ih =>
    rw [List.map_cons, List.lookup_cons]
    by_cases same : (f first).1 = (f item).1
    · obtain rfl := unique first List.mem_cons_self same
      simp
    · have behind : item ∈ later := by
        rcases List.mem_cons.mp member with rfl | behind
        · exact absurd rfl same
        · exact behind
      rw [beq_false_of_ne (Ne.symm same)]
      exact ih behind fun other inside => unique other (List.mem_cons_of_mem first inside)

/-- A file is read in its place if the paths of no others lead there. -/
theorem Landed.read (landed : Landed disk root entries after) (member : entry ∈ entries)
    (alone : ∀ other ∈ entries,
      after.resolve (Path.join root other.1) = after.resolve (Path.join root entry.1) → other = entry) :
    after.readBytes (Path.join root entry.1) = .ok entry.2.toUTF8 := by
  have resolved := landed.resolved entry member
  apply readBytes_of_file resolved
  apply file?_eq_some_iff.mp
  have found : (entries.reverse.map (landedFile after root)).lookup (place after (Path.join root entry.1)) =
      some entry.2.toUTF8 := by
    apply lookup_map_of_unique (f := landedFile after root) (List.mem_reverse.mpr member)
    intro other inside same
    have inside := List.mem_reverse.mp inside
    exact alone other inside (by rw [landed.resolved other inside, resolved]; exact congrArg _ same)
  rw [landed.gains.files, found, Option.some_or]

/-- While a pack is written, each of its files is read in its place at some moment. -/
theorem entry_read (tree : IsTree disk) (member : entry ∈ entries)
    (performed : Disk.system.perform (entries.flatMap (entrySteps root)) disk = (.ok (), after)) :
    ∃ first later now, entries.flatMap (entrySteps root) = first ++ later ∧
      Disk.system.perform first disk = (.ok (), now) ∧ Disk.system.perform later now = (.ok (), after) ∧
      now.readBytes (Path.join root entry.1) = .ok entry.2.toUTF8 := by
  obtain ⟨before, later, rfl⟩ := List.append_of_mem member
  rw [List.flatMap_append, List.flatMap_cons] at performed ⊢
  obtain ⟨middle, front, rest⟩ := perform_append_ok.mp performed
  obtain ⟨now, one, others⟩ := perform_append_ok.mp rest
  obtain ⟨made, extended, writing⟩ := entry_made (entries_landed tree front).tree one
  refine ⟨_, _, now, (List.append_assoc _ _ _).symm, ?_, others, writeText_read extended.tree writing⟩
  exact perform_append_ok.mpr ⟨middle, front, one⟩

end Entries

section Packs

variable {disk after : Disk} {root path : String} {document : Document} {package : Package}

theorem filed_resolved (filed : Filed path) {key : Key} (unlinked : ∀ key target, disk.get? key ≠ some (.link target))
    (resolved : disk.resolve (Path.join root path) = .ok key) : key = folder disk root ++ Path.names path := by
  obtain ⟨_, followed⟩ := reach_eq_ok_iff.mp resolved
  obtain ⟨front, file, joined, named, inward, place⟩ := filed_place filed disk root
  rw [joined, start_join filed.relative] at followed
  obtain ⟨left, directory, leads, last⟩ := leads_of_follow followed (.inl (by simp))
  obtain rfl := goes_of_leads leads (straight_of_unlinked unlinked _ _)
  rw [place]
  cases enters_of_follow last with
  | idle idle => simp [named] at idle
  | up => exact absurd rfl inward
  | missing _ _ _ aim => cases aim
  | file => rfl
  | down _ _ _ onward =>
    rw [follow_nil, Except.ok.injEq] at onward
    exact onward.symm
  | link _ _ found => exact absurd (look_eq_ok_iff.mp found).2 (unlinked _ _)

/-- No other file of the pack is found where this one is. -/
def Alone (disk : Disk) (root : String) (files : Files) (path : String) : Prop :=
  ∀ other ∈ files.paths, disk.resolve (Path.join root other) = disk.resolve (Path.join root path) → other = path

/-- What a pack that was written leaves of one of its texts. -/
structure Left (disk : Disk) (root : String) (package : Package) (path text : String) (after : Disk) : Prop where
  once : ∃ first later now, package.writeSteps root = first ++ later ∧
    Disk.system.perform first disk = (.ok (), now) ∧ Disk.system.perform later now = (.ok (), after) ∧
    now.readBytes (Path.join root path) = .ok text.toUTF8
  alone : Alone after root package.files path → after.readBytes (Path.join root path) = .ok text.toUTF8
  unlinked : (∀ key target, disk.get? key ≠ some (.link target)) →
    after.readBytes (Path.join root path) = .ok text.toUTF8

theorem left_of_written (tree : IsTree disk) (assembled : document.assemble = .ok package)
    (written : Disk.system.writePackage root package disk = (.ok (), after)) {text : String}
    (found : package.files.get? path = some text) : Left disk root package path text after := by
  have member := PackContents.get?_eq_some_iff.mp found
  rw [FileSystem.writePackage, writeSteps_eq] at written
  have landed := entries_landed tree written
  have read : Alone after root package.files path → after.readBytes (Path.join root path) = .ok text.toUTF8 := by
    intro alone
    apply landed.read member
    rintro ⟨other, text'⟩ inside same
    obtain rfl := alone other (List.mem_map_of_mem inside) same
    rw [← PackContents.get?_eq_some_iff, found] at inside
    rw [Option.some.inj inside]
  have once := entry_read tree member written
  rw [← writeSteps_eq] at once
  refine ⟨once, read, fun unlinked => read ?_⟩
  intro other known same
  obtain ⟨entry, inside, rfl⟩ := List.mem_map.mp known
  have unlinked' : ∀ key target, after.get? key ≠ some (.link target) :=
    fun key target linked => unlinked key target ((landed.gains.links key target).mp linked)
  have own := landed.resolved _ member
  have filed := filed_entries assembled
  have place := filed_resolved (filed _ member) unlinked' own
  have place' := filed_resolved (filed _ inside) unlinked' (same.trans own)
  exact names_injective (List.append_cancel_left (place'.symm.trans place))

end Packs

end SpellPack.Proofs.WrittenTexts
