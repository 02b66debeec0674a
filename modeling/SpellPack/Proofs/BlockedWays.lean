import SpellPack.Proofs.MadeDirectories

/-! Ways that no directory can be made on. A link that does not lead to a directory stays one,
and no directory above it is missing, so what lies behind it is never reached. -/

namespace SpellPack.Proofs.BlockedWays
open Disk DiskTrees PathWalks MadeDirectories PathNames

section Ancestors

variable {path ancestor : String}

theorem ancestorsWithin_names {length : Nat} (member : ancestor ∈ Path.ancestorsWithin length path) :
    Path.isRooted ancestor = Path.isRooted path ∧
      (Path.names ancestor <+: Path.names path ∨ ∀ name ∈ Path.names ancestor, name = "") := by
  induction length generalizing path with
  | zero => cases member
  | succ length ih =>
    unfold Path.ancestorsWithin at member
    split at member
    · cases member
    cases List.mem_cons.mp member with
    | inl same =>
      subst same
      exact ⟨rfl, .inl (List.prefix_refl _)⟩
    | inr above =>
      split at above
      · next parent up =>
        have visible : parent ≠ "" := by
          rintro rfl
          cases length <;> simp [Path.ancestorsWithin] at above
        obtain ⟨rooted, names⟩ := parent?_prefix up visible
        obtain ⟨rooted', names'⟩ := ih above
        refine ⟨rooted'.trans rooted, ?_⟩
        rcases names' with begins | empty
        · rcases names with begins' | top
          · exact .inl (begins.trans begins')
          · right
            intro name inside
            have both : name ∈ ["", ""] := top ▸ begins.subset inside
            simpa using both
        · exact .inr empty
      · cases above

/-- The names of an ancestor begin those of the path, unless it is the top. -/
theorem ancestor_names (member : ancestor ∈ Path.ancestors path) :
    Path.isRooted ancestor = Path.isRooted path ∧
      (Path.names ancestor <+: Path.names path ∨ ∀ name ∈ Path.names ancestor, name = "") :=
  ancestorsWithin_names member

end Ancestors

section Blocking

variable {disk after : Disk} {path name target : String} {front : List String} {left : Nat} {here : Key}

/-- The names lead to a link, and the link leads to no directory. -/
structure Blocks (disk : Disk) (path : String) (front : List String) (name : String) : Prop where
  begins : front ++ [name] <+: Path.names path
  link : ∃ left here target, Leads disk maxLinks (disk.start path) front left here ∧
    disk.look here name = .ok (some (.link target))
  dead : ∀ left there, ¬ Leads disk maxLinks (disk.start path) (front ++ [name]) left there

/-- A name that is missing lies neither before the link nor behind it. -/
theorem look_ne_none (tree : IsTree disk) (blocks : Blocks disk path front name) {front' : List String} {name' : String}
    {left : Nat} {directory : Key} (begins : front' ++ [name'] <+: Path.names path)
    (leads : Leads disk maxLinks (disk.start path) front' left directory) (named : Path.isIdle name' = false)
    (inward : name' ≠ "..") : disk.look directory name' ≠ .ok none := by
  intro missing
  obtain ⟨left', here, target, leads', linked⟩ := blocks.link
  have there := leads.directory tree (get?_start disk path)
  have there' := leads'.directory tree (get?_start disk path)
  have same (names : front ++ [name] = front' ++ [name']) : False := by
    obtain ⟨rfl, single⟩ := List.append_inj' names rfl
    obtain rfl := List.singleton_inj.mp single
    obtain ⟨_, rfl⟩ := leads.unique leads'
    simp [linked] at missing
  -- Both are names of one path. Behind the link a way would lead through it to the missing
  -- name, and before it the way to the link would lead through what is missing.
  rcases List.prefix_or_prefix_of_prefix blocks.begins begins with before | behind
  · rw [List.prefix_concat_iff] at before
    rcases before with names | ⟨more, rfl⟩
    · exact same names
    · obtain ⟨middle, between, first, _⟩ := leads.split there
      exact blocks.dead middle between first
  · rw [List.prefix_concat_iff] at behind
    rcases behind with names | ⟨more, shape⟩
    · exact same names.symm
    · rw [← shape, List.append_assoc] at leads'
      obtain ⟨middle, between, first, onward⟩ := leads'.split there'
      obtain ⟨_, rfl⟩ := leads.unique first
      cases onward with
      | idle idle => simp [named] at idle
      | up => exact inward rfl
      | down _ _ found | link _ _ found => simp [found] at missing

def Unmade (disk : Disk) (path : String) : Prop := ∀ changed, disk.makeDirectory path ≠ .ok changed

/-- No directory on the way is made. -/
theorem makeDirectory_blocked (tree : IsTree disk) (blocks : Blocks disk path front name) {ancestor : String}
    (member : ancestor ∈ Path.ancestors path) : Unmade disk ancestor := by
  intro changed made
  obtain ⟨rooted, names⟩ := ancestor_names member
  have start : disk.start ancestor = disk.start path := by rw [start, start, rooted]
  obtain ⟨_, front', name', slashes, left, directory, shape, _, leads, named, inward, missing, _⟩ :=
    makeDirectory_located made
  rcases names with begins | empty
  · rw [shape, ← List.singleton_append, ← List.append_assoc] at begins
    rw [start] at leads
    exact look_ne_none tree blocks ((List.prefix_append _ slashes).trans begins) leads named inward missing
  · rw [empty name' (by simp [shape])] at named
    cases named

end Blocking

section Unmade

variable {disk after : Disk} {path : String} {paths missing : List String}

theorem climb_unmade (unmade : ∀ path ∈ paths, Unmade disk path) (unmade' : ∀ path ∈ missing, Unmade disk path) :
    (Disk.system.climb paths missing disk).2 = disk ∧
      ∀ found, (Disk.system.climb paths missing disk).1 = .ok found → ∀ path ∈ found, Unmade disk path := by
  induction paths generalizing missing with
  | nil =>
    refine ⟨rfl, ?_⟩
    rintro found ⟨⟩
    exact unmade'
  | cons path above ih =>
    obtain ⟨first, rest⟩ := List.forall_mem_cons.mp unmade
    rw [climb_cons]
    split
    · next changed made => exact absurd made (first changed)
    · exact ih rest (List.forall_mem_cons.mpr ⟨first, unmade'⟩)
    · split
      · refine ⟨rfl, ?_⟩
        rintro found ⟨⟩
        exact unmade'
      · exact ⟨rfl, by simp⟩
    · exact ⟨rfl, by simp⟩

theorem makeEach_unmade (unmade : ∀ path ∈ paths, Unmade disk path) :
    (Disk.system.makeEach paths disk).2 = disk := by
  induction paths with
  | nil => rfl
  | cons path below ih =>
    obtain ⟨first, rest⟩ := List.forall_mem_cons.mp unmade
    rw [makeEach_cons]
    split
    · next changed made => exact absurd made (first changed)
    · split
      · exact ih rest
      · rfl
    · rfl

theorem makeDirectories_unmade (unmade : ∀ ancestor ∈ Path.ancestors path, Unmade disk ancestor) :
    (Disk.system.makeDirectories path disk).2 = disk := by
  obtain ⟨same, found⟩ := @climb_unmade disk (Path.ancestors path) [] unmade (List.forall_mem_nil _)
  rw [makeDirectories_eq]
  split
  · next missing changed climbed =>
    rw [climbed] at same found
    obtain rfl : changed = disk := same
    exact makeEach_unmade (found missing rfl)
  · next fault changed climbed =>
    rw [climbed] at same
    exact same

/-- A path that was made meets no link but such as lead to directories. -/
theorem not_blocks (tree : IsTree disk) (nonempty : path ≠ "")
    (made : Disk.system.makeDirectories path disk = (.ok (), after))
    (front : List String) (name : String) : ¬ Blocks disk path front name := by
  intro blocks
  have same := @makeDirectories_unmade disk path fun ancestor member => makeDirectory_blocked tree blocks member
  rw [made] at same
  obtain rfl : after = disk := same
  obtain ⟨key, arrives⟩ := makeDirectories_arrives tree nonempty made
  have directory := arrives.directory tree
  obtain ⟨_, left, leads⟩ := arrives
  obtain ⟨rest, shape⟩ := blocks.begins
  rw [← shape] at leads
  obtain ⟨middle, between, first, _⟩ := leads.split directory
  exact blocks.dead middle between first

end Unmade

section Reach

variable {disk after : Disk} {root path : String} {front back : List String} {left : Nat} {here start : Key}

/-- Names that lead somewhere lead no further by the next one. -/
def DeadEnd (disk : Disk) (start : Key) (front back : List String) : Prop :=
  ∀ name others, back = name :: others → ∀ left there, ¬ Leads disk maxLinks start (front ++ [name]) left there

/-- The names of a path lead as far as they do. -/
theorem longest_way (leads : Leads disk maxLinks start front left here) (back : List String) :
    ∃ ahead rest left here, back = ahead ++ rest ∧ Leads disk maxLinks start (front ++ ahead) left here ∧
      DeadEnd disk start (front ++ ahead) rest := by
  induction back generalizing front left here with
  | nil => exact ⟨[], [], left, here, rfl, by simpa using leads, by simp [DeadEnd]⟩
  | cons name later ih =>
    by_cases further : ∃ left there, Leads disk maxLinks start (front ++ [name]) left there
    · obtain ⟨left, there, leads⟩ := further
      obtain ⟨ahead, rest, left, there, rfl, leads, last⟩ := ih leads
      refine ⟨name :: ahead, rest, left, there, rfl, ?_, ?_⟩
      · simpa using leads
      · simpa [DeadEnd] using last
    · refine ⟨[], name :: later, left, here, rfl, by simpa using leads, ?_⟩
      rintro name' others ⟨⟩ left' there onward
      exact further ⟨left', there, by simpa using onward⟩

theorem prefix_of_sameFolder {before names : List String} {name : String} (same : SameFolder front names)
    (begins : before ++ [name] <+: front) (named : Path.isIdle name = false) : before ++ [name] <+: names := by
  obtain ⟨common, idle, idle', rfl, rfl, idles, _⟩ := same
  rcases List.prefix_or_prefix_of_prefix begins (List.prefix_append common idle) with inside | ⟨more, shape⟩
  · exact inside.trans (List.prefix_append common idle')
  · cases List.eq_nil_or_concat more with
    | inl none =>
      rw [none, List.append_nil] at shape
      exact shape ▸ List.prefix_append common idle'
    | inr some =>
      obtain ⟨others, last, rfl⟩ := some
      rw [List.concat_eq_append, ← List.append_assoc] at shape
      obtain ⟨_, single⟩ := List.append_inj' shape rfl
      obtain rfl := List.singleton_inj.mp single
      rw [← shape, List.append_assoc, List.prefix_append_right_inj] at begins
      rw [idles last (begins.subset (by simp))] at named
      cases named

/-- Behind a dead end there is nothing but for what has the next name, and that is no directory. -/
theorem dead_end_entry (tree : IsTree disk) (leads : Leads disk maxLinks start front left here) {name : String}
    (visible : Path.isIdle name = false) (up : name ≠ "..")
    (stuck : ∀ left there, ¬ Leads disk maxLinks start (front ++ [name]) left there) {more : List String} {node : Node}
    (found : disk.get? (here ++ name :: more) = some node) : more = [] ∧ disk.look here name = .ok (some node) := by
  have short := (isName_of_get? tree found name (by simp)).short
  cases List.eq_nil_or_concat more with
  | inl none =>
    subst none
    exact ⟨rfl, look_eq_ok_iff.mpr ⟨short, found⟩⟩
  | inr some =>
    obtain ⟨middle, last, rfl⟩ := some
    have split : here ++ name :: middle.concat last = here ++ [name] ++ middle ++ [last] := by simp
    rw [split] at found
    have directory : disk.look here name = .ok (some .directory) :=
      look_eq_ok_iff.mpr ⟨short, get?_front tree (get?_above tree found)⟩
    exact absurd (leads.append (.down visible up directory .done)) (stuck _ _)

/-- Where a directory could be made below, the names that do not lead further meet no link. -/
theorem unlinked_of_made (tree : IsTree disk) (nonempty : path ≠ "")
    (made : Disk.system.makeDirectories path disk = (.ok (), after))
    (leads : Leads disk maxLinks (disk.start path) front left here) (inward : ".." ∉ back)
    (dead : DeadEnd disk (disk.start path) front back)
    (begins : ∀ name others, back = name :: others → Path.isIdle name = false → front ++ [name] <+: Path.names path) :
    Unlinked disk here back := by
  have directory := leads.directory tree (get?_start disk path)
  cases back with
  | nil =>
    intro ahead within target linked
    obtain rfl : ahead = [] := by simpa [named] using within
    rw [List.append_nil, directory] at linked
    cases linked
  | cons name others =>
    have stuck := dead name others rfl
    have visible : Path.isIdle name = false := by
      rw [Bool.eq_false_iff]
      intro idle
      exact stuck _ _ (leads.append (.idle idle .done))
    have up : name ≠ ".." := by
      rintro rfl
      exact inward List.mem_cons_self
    intro ahead within target linked
    rw [named_cons visible] at within
    cases ahead with
    | nil =>
      rw [List.append_nil, directory] at linked
      cases linked
    | cons first more =>
      obtain ⟨rfl, _⟩ := List.cons_prefix_cons.mp within
      obtain ⟨_, found⟩ := dead_end_entry tree leads visible up stuck linked
      exact not_blocks tree nonempty made front first
        ⟨begins first others rfl visible, ⟨left, here, target, leads, found⟩, stuck⟩

end Reach

end SpellPack.Proofs.BlockedWays
