import SpellPack.Disk.Access

/-! Trees of entries, and what a change may do to one. Each entry lies in a directory, under a
name that no path takes for a way. Directories and links stay, and so do files but for the
bytes that are written to them. -/

namespace SpellPack.Proofs.DiskTrees
open Disk

structure IsName (name : String) : Prop where
  named : Path.isIdle name = false
  inward : name ≠ ".."
  single : '/' ∉ name.toList
  short : name.utf8ByteSize ≤ maxNameBytes

instance (name : String) : Decidable (IsName name) :=
  decidable_of_iff (Path.isIdle name = false ∧ name ≠ ".." ∧ '/' ∉ name.toList ∧ name.utf8ByteSize ≤ maxNameBytes)
    ⟨fun ⟨named, inward, single, short⟩ => ⟨named, inward, single, short⟩,
      fun valid => ⟨valid.named, valid.inward, valid.single, valid.short⟩⟩

theorem IsName.visible {name : String} (valid : IsName name) : name ≠ "" := by
  rintro rfl
  exact absurd valid.named (by simp [Path.isIdle])

/-- All entries of the list are found, each in a directory. -/
structure IsTree (disk : Disk) : Prop where
  distinct : (disk.nodes.map Prod.fst).Nodup
  way : ∀ entry ∈ disk.nodes, disk.isOnWayHome entry.1 = true → entry.2 = .directory
  above : ∀ entry ∈ disk.nodes, disk.get? entry.1.dropLast = some .directory
  names : ∀ entry ∈ disk.nodes, ∀ name ∈ entry.1, IsName name
  home : ∀ name ∈ disk.home, IsName name

theorem any_isDirectory_iff {node? : Option Node} : node?.any Node.isDirectory = true ↔ node? = some .directory := by
  cases node? with
  | none => simp
  | some node => cases node <;> simp [Node.isDirectory]

theorem isDirectory_eq_true_iff {node : Node} : node.isDirectory = true ↔ node = .directory := by
  cases node <;> simp [Node.isDirectory]

instance (disk : Disk) : Decidable (IsTree disk) :=
  decidable_of_iff ((disk.nodes.map Prod.fst).Nodup ∧
      (∀ entry ∈ disk.nodes, disk.isOnWayHome entry.1 = true → entry.2.isDirectory = true) ∧
      (∀ entry ∈ disk.nodes, (disk.get? entry.1.dropLast).any Node.isDirectory = true) ∧
      (∀ entry ∈ disk.nodes, ∀ name ∈ entry.1, IsName name) ∧ ∀ name ∈ disk.home, IsName name) (by
    simp only [any_isDirectory_iff, isDirectory_eq_true_iff]
    exact ⟨fun ⟨distinct, way, above, names, home⟩ => ⟨distinct, way, above, names, home⟩,
      fun tree => ⟨tree.distinct, tree.way, tree.above, tree.names, tree.home⟩⟩)

section Lookup

variable {disk : Disk} {key : Key} {node : Node} {name : String}

theorem lookup_of_mem {nodes : List (Key × α)} {node : α} (distinct : (nodes.map Prod.fst).Nodup)
    (member : (key, node) ∈ nodes) : nodes.lookup key = some node := by
  obtain ⟨before, later, rfl⟩ := List.append_of_mem member
  rw [List.map_append, List.map_cons, List.nodup_append] at distinct
  refine List.lookup_eq_some_iff.mpr ⟨before, later, rfl, ?_⟩
  intro entry inside
  have differs := distinct.2.2 entry.1 (List.mem_map_of_mem inside) key List.mem_cons_self
  exact bne_iff_ne.mpr differs.symm

theorem mem_of_lookup {nodes : List (Key × Node)} (found : nodes.lookup key = some node) : (key, node) ∈ nodes := by
  obtain ⟨before, later, rfl, _⟩ := List.lookup_eq_some_iff.mp found
  simp

theorem get?_of_mem (tree : IsTree disk) (member : (key, node) ∈ disk.nodes) : disk.get? key = some node := by
  unfold Disk.get?
  split
  · next way => exact congrArg some (tree.way _ member way).symm
  · exact lookup_of_mem tree.distinct member

theorem get?_cases (found : disk.get? key = some node) :
    (disk.isOnWayHome key = true ∧ node = .directory) ∨ (key, node) ∈ disk.nodes := by
  unfold Disk.get? at found
  split at found
  · next way =>
    cases found
    exact .inl ⟨way, rfl⟩
  · exact .inr (mem_of_lookup found)

theorem ne_link_of_nodes (unlinked : ∀ key target, (key, Node.link target) ∉ disk.nodes) (key : Key)
    (target : String) : disk.get? key ≠ some (.link target) := by
  intro found
  rcases get?_cases found with ⟨_, other⟩ | member
  · cases other
  · exact unlinked key target member

theorem mem_of_get?_file {bytes : ByteArray} (found : disk.get? key = some (.file bytes)) :
    (key, .file bytes) ∈ disk.nodes := by
  cases get?_cases found with
  | inl home => cases home.2
  | inr member => exact member

theorem get?_top (disk : Disk) : disk.get? [] = some .directory := by
  simp [Disk.get?, Disk.isOnWayHome]

theorem apart_of_get? (other : disk.get? key ≠ some .directory) : disk.isOnWayHome key = false := by
  rw [Bool.eq_false_iff]
  intro way
  rw [Disk.get?, if_pos way] at other
  exact other rfl

theorem get?_above (tree : IsTree disk) (found : disk.get? (key ++ [name]) = some node) :
    disk.get? key = some .directory := by
  cases get?_cases found with
  | inl home =>
    have prefixes : key ++ [name] <+: disk.home := List.isPrefixOf_iff_prefix.mp home.1
    have way : disk.isOnWayHome key = true :=
      List.isPrefixOf_iff_prefix.mpr ((List.prefix_append key [name]).trans prefixes)
    rw [Disk.get?, if_pos way]
  | inr member => simpa using tree.above _ member

theorem get?_dropLast (tree : IsTree disk) (found : disk.get? key = some .directory) :
    disk.get? key.dropLast = some .directory := by
  cases List.eq_nil_or_concat key with
  | inl top => rwa [top, List.dropLast_nil, ← top]
  | inr below =>
    obtain ⟨front, name, rfl⟩ := below
    rw [List.concat_eq_append] at found ⊢
    rw [List.dropLast_concat]
    exact get?_above tree found

/-- What a directory lies below is one. -/
theorem get?_front (tree : IsTree disk) {names : List String} (found : disk.get? (key ++ names) = some .directory) :
    disk.get? key = some .directory := by
  induction names generalizing key with
  | nil => rwa [List.append_nil] at found
  | cons name later ih =>
    have split : key ++ name :: later = key ++ [name] ++ later := by simp
    exact get?_above tree (ih (split ▸ found))

theorem isName_of_get? (tree : IsTree disk) (found : disk.get? key = some node) : ∀ name ∈ key, IsName name := by
  cases get?_cases found with
  | inl home =>
    intro name member
    exact tree.home name ((List.isPrefixOf_iff_prefix.mp home.1).subset member)
  | inr member => exact tree.names _ member

/-- Below what is not there nothing is. -/
theorem get?_below (tree : IsTree disk) (missing : disk.get? key = none) (names : List String) :
    disk.get? (key ++ names) = none := by
  induction names generalizing key with
  | nil => rwa [List.append_nil]
  | cons name later ih =>
    have next : disk.get? (key ++ [name]) = none := by
      cases found : disk.get? (key ++ [name]) with
      | none => rfl
      | some node =>
        rw [get?_above tree found] at missing
        cases missing
    simpa using ih next

end Lookup

def file? (disk : Disk) (key : Key) : Option ByteArray :=
  match disk.get? key with
  | some (.file bytes) => some bytes
  | _ => none

theorem file?_eq_some_iff {disk : Disk} {key : Key} {bytes : ByteArray} :
    file? disk key = some bytes ↔ disk.get? key = some (.file bytes) := by
  unfold file?
  split
  · next held found => simp [found]
  · next other =>
    constructor
    · intro none
      cases none
    · intro found
      exact absurd found (other bytes)

/-- Nothing was taken from a tree, and no more files were written than these. Of files under
one key the first counts. -/
structure Gains (disk : Disk) (files : List (Key × ByteArray)) (after : Disk) : Prop where
  home : after.home = disk.home
  directories : ∀ key, disk.get? key = some .directory → after.get? key = some .directory
  links : ∀ key target, after.get? key = some (.link target) ↔ disk.get? key = some (.link target)
  files : ∀ key, file? after key = (files.lookup key).or (file? disk key)

section Gaining

variable {disk middle after : Disk} {files more : List (Key × ByteArray)} {key : Key}

theorem Gains.refl (disk : Disk) : Gains disk [] disk where
  home := rfl
  directories _ := id
  links _ _ := Iff.rfl
  files _ := rfl

theorem Gains.trans (first : Gains disk files middle) (second : Gains middle more after) :
    Gains disk (more ++ files) after where
  home := second.home.trans first.home
  directories key found := second.directories key (first.directories key found)
  links key target := (second.links key target).trans (first.links key target)
  files key := by rw [second.files, first.files, List.lookup_append, Option.or_assoc]

/-- A file stays one. -/
theorem Gains.file (gains : Gains disk files after) {bytes : ByteArray} (found : disk.get? key = some (.file bytes)) :
    ∃ written, after.get? key = some (.file written) := by
  have held := gains.files key
  rw [file?_eq_some_iff.mpr found] at held
  cases written : files.lookup key with
  | none => exact ⟨bytes, file?_eq_some_iff.mp (by rw [held, written, Option.none_or])⟩
  | some other => exact ⟨other, file?_eq_some_iff.mp (by rw [held, written, Option.some_or])⟩

end Gaining

section Putting

variable {disk changed : Disk} {directory : Key} {name : String} {node : Node}

structure Puts (disk : Disk) (directory : Key) (name : String) (node : Node) (changed : Disk) : Prop where
  changed : changed = disk.put (directory ++ [name]) node
  inside : disk.get? directory = some .directory
  entry : IsName name
  apart : disk.isOnWayHome (directory ++ [name]) = false

theorem Puts.get? (puts : Puts disk directory name node changed) (key : Key) :
    changed.get? key = if key = directory ++ [name] then some node else disk.get? key := by
  rw [puts.changed, get?_put disk puts.apart]

theorem mem_putNode {key : Key} {nodes : List (Key × Node)} {entry : Key × Node}
    (member : entry ∈ putNode key node nodes) : entry = (key, node) ∨ entry ∈ nodes := by
  induction nodes with
  | nil => exact .inl (List.mem_singleton.mp member)
  | cons first later ih =>
    obtain ⟨other, held⟩ := first
    rw [putNode] at member
    split at member
    · cases List.mem_cons.mp member with
      | inl same => exact .inl same
      | inr inside => exact .inr (List.mem_cons_of_mem _ inside)
    · cases List.mem_cons.mp member with
      | inl same => exact .inr (same ▸ List.mem_cons_self)
      | inr inside =>
        cases ih inside with
        | inl same => exact .inl same
        | inr older => exact .inr (List.mem_cons_of_mem _ older)

theorem nodup_putNode {key : Key} {nodes : List (Key × Node)} (distinct : (nodes.map Prod.fst).Nodup) :
    ((putNode key node nodes).map Prod.fst).Nodup := by
  induction nodes with
  | nil => simp [putNode]
  | cons first later ih =>
    obtain ⟨other, held⟩ := first
    obtain ⟨fresh, rest⟩ := List.nodup_cons.mp distinct
    rw [putNode]
    split
    · next same =>
      subst same
      exact distinct
    · next differs =>
      refine List.nodup_cons.mpr ⟨?_, ih rest⟩
      intro member
      obtain ⟨entry, inside, same⟩ := List.mem_map.mp member
      cases mem_putNode inside with
      | inl new =>
        rw [new] at same
        exact differs same.symm
      | inr older => exact fresh (List.mem_map.mpr ⟨entry, older, same⟩)

theorem putNode_same {key : Key} {nodes : List (Key × Node)} (found : nodes.lookup key = some node) :
    putNode key node nodes = nodes := by
  induction nodes with
  | nil => cases found
  | cons first later ih =>
    obtain ⟨other, held⟩ := first
    rw [List.lookup_cons] at found
    rw [putNode]
    split at found
    · next same =>
      cases found
      rw [if_pos (beq_iff_eq.mp same).symm, beq_iff_eq.mp same]
    · next differs => rw [if_neg (Ne.symm (by simpa using differs)), ih found]

/-- A tree stays one if no directory gives way. -/
theorem Puts.isTree (puts : Puts disk directory name node changed) (tree : IsTree disk)
    (kept : disk.get? (directory ++ [name]) ≠ some .directory) : IsTree changed := by
  have lookup := puts.get?
  have nodes : changed.nodes = putNode (directory ++ [name]) node disk.nodes := by rw [puts.changed, put]
  have home : changed.home = disk.home := by rw [puts.changed, put]
  have way (key : Key) : changed.isOnWayHome key = disk.isOnWayHome key := by rw [isOnWayHome, isOnWayHome, home]
  have directories {key : Key} (found : disk.get? key = some .directory) : changed.get? key = some .directory := by
    rw [lookup, if_neg, found]
    rintro rfl
    exact kept found
  constructor
  · rw [nodes]
    exact nodup_putNode tree.distinct
  · intro entry member onWay
    rw [nodes] at member
    rw [way] at onWay
    cases mem_putNode member with
    | inl new =>
      rw [new, puts.apart] at onWay
      cases onWay
    | inr older => exact tree.way entry older onWay
  · intro entry member
    rw [nodes] at member
    cases mem_putNode member with
    | inl new =>
      rw [new, List.dropLast_concat]
      exact directories puts.inside
    | inr older => exact directories (tree.above entry older)
  · intro entry member
    rw [nodes] at member
    cases mem_putNode member with
    | inl new =>
      rw [new, List.forall_mem_append, List.forall_mem_singleton]
      exact ⟨isName_of_get? tree puts.inside, puts.entry⟩
    | inr older => exact tree.names entry older
  · rw [home]
    exact tree.home

theorem Puts.gains_directory (puts : Puts disk directory name .directory changed)
    (free : disk.get? (directory ++ [name]) = none) : Gains disk [] changed := by
  have lookup := puts.get?
  constructor
  · rw [puts.changed, put]
  · intro key found
    rw [lookup]
    split
    · rfl
    · exact found
  · intro key target
    rw [lookup]
    split
    · next same => simp [same, free]
    · rfl
  · intro key
    by_cases same : key = directory ++ [name]
    · simp [file?, lookup, same, free]
    · simp [file?, lookup, same]

theorem Puts.gains_file {bytes : ByteArray} (puts : Puts disk directory name (.file bytes) changed)
    (free : disk.get? (directory ++ [name]) = none ∨ ∃ held, disk.get? (directory ++ [name]) = some (.file held)) :
    Gains disk [(directory ++ [name], bytes)] changed := by
  have lookup := puts.get?
  constructor
  · rw [puts.changed, put]
  · intro key found
    rw [lookup, if_neg, found]
    rintro rfl
    rcases free with free | ⟨held, free⟩ <;> simp [free] at found
  · intro key target
    rw [lookup]
    split
    · next same => rcases free with free | ⟨held, free⟩ <;> simp [same, free]
    · rfl
  · intro key
    by_cases same : key = directory ++ [name]
    · simp [file?, lookup, same]
    · simp [file?, lookup, same, List.lookup_cons, beq_false_of_ne same]

end Putting

end SpellPack.Proofs.DiskTrees
