import SpellPack.Proofs.DiskRuns
import SpellPack.Proofs.PathNames
import SpellPack.Proofs.PathWalks

/-! Making directories with all that are missing above them. Nothing but directories comes
into the tree, and if all goes well the path leads to one. Where it did before, nothing is
made. -/

namespace SpellPack.Proofs.MadeDirectories
open Disk DiskTrees PathWalks

section Paths

variable {disk after : Disk} {path : String} {key : Key}

structure IsPath (path : String) : Prop where
  terminated : '\x00' ∉ path.toList
  nonempty : path ≠ ""
  short : path.utf8ByteSize ≤ maxPathBytes

theorem namesOf_eq_ok_iff {names : List String} : namesOf path = .ok names ↔ IsPath path ∧ Path.names path = names := by
  unfold namesOf
  split
  · next nul =>
    refine iff_of_false (by simp) fun valid => ?_
    exact valid.1.terminated (by simpa using nul)
  · next terminated =>
    split
    · next empty =>
      refine iff_of_false (by simp) fun valid => ?_
      exact valid.1.nonempty (by simpa using empty)
    · next nonempty =>
      split
      · next long =>
        refine iff_of_false (by simp) fun valid => ?_
        exact Nat.not_lt.mpr valid.1.short long
      · next short =>
        have valid : IsPath path := ⟨by simpa using terminated, by simpa using nonempty, Nat.not_lt.mp short⟩
        simp [valid]

theorem reach_eq_ok_iff {goal : Goal} : disk.reach goal path = .ok key ↔
    IsPath path ∧ follow disk goal maxLinks (disk.start path) (Path.names path) = .ok key := by
  unfold reach
  rw [Json.bind_eq_ok]
  constructor
  · rintro ⟨names, taken, followed⟩
    obtain ⟨valid, rfl⟩ := namesOf_eq_ok_iff.mp taken
    exact ⟨valid, followed⟩
  · rintro ⟨valid, followed⟩
    exact ⟨_, namesOf_eq_ok_iff.mpr ⟨valid, rfl⟩, followed⟩

def Arrives (disk : Disk) (path : String) (key : Key) : Prop :=
  IsPath path ∧ ∃ left, Leads disk maxLinks (disk.start path) (Path.names path) left key

theorem get?_start (disk : Disk) (path : String) : disk.get? (disk.start path) = some .directory := by
  unfold start
  split
  · exact get?_top disk
  · simp [Disk.get?, isOnWayHome]

theorem Arrives.directory (tree : IsTree disk) (arrives : Arrives disk path key) :
    disk.get? key = some .directory := by
  obtain ⟨_, left, leads⟩ := arrives
  exact leads.directory tree (get?_start disk path)

theorem Arrives.resolve (arrives : Arrives disk path key) : disk.resolve path = .ok key := by
  obtain ⟨valid, left, leads⟩ := arrives
  exact reach_eq_ok_iff.mpr ⟨valid, leads.find⟩

theorem arrives_of_resolve (resolved : disk.resolve path = .ok key) (directory : disk.get? key = some .directory) :
    Arrives disk path key := by
  obtain ⟨valid, followed⟩ := reach_eq_ok_iff.mp resolved
  exact ⟨valid, leads_of_find followed directory⟩

theorem isDirectory_iff (tree : IsTree disk) : disk.isDirectory path = true ↔ ∃ key, Arrives disk path key := by
  unfold isDirectory
  constructor
  · intro found
    split at found
    · next key resolved => exact ⟨key, arrives_of_resolve resolved (any_isDirectory_iff.mp found)⟩
    · cases found
  · rintro ⟨key, arrives⟩
    simp [arrives.resolve, arrives.directory tree, Node.isDirectory]

theorem Arrives.gains {files : List (Key × ByteArray)} (gains : Gains disk files after)
    (arrives : Arrives disk path key) :
    Arrives after path key := by
  obtain ⟨valid, left, leads⟩ := arrives
  have start : after.start path = disk.start path := by rw [start, start, gains.home]
  exact ⟨valid, left, start ▸ leads.gains gains⟩

/-- What a path leads to is there, and the path still leads to it when the tree has gained entries. -/
theorem resolve_gains {files : List (Key × ByteArray)} (tree : IsTree disk) (gains : Gains disk files after)
    (resolved : disk.resolve path = .ok key) : after.resolve path = .ok key ∧ ∃ node, disk.get? key = some node := by
  obtain ⟨valid, followed⟩ := reach_eq_ok_iff.mp resolved
  obtain ⟨kept, node, found⟩ := follow_gains gains tree (get?_start disk path) followed
  have start : after.start path = disk.start path := by rw [start, start, gains.home]
  exact ⟨reach_eq_ok_iff.mpr ⟨valid, start ▸ kept⟩, node, found⟩

theorem Arrives.unique {other : Key} (arrives : Arrives disk path key) (arrives' : Arrives disk path other) :
    key = other := by
  obtain ⟨_, _, leads⟩ := arrives
  obtain ⟨_, _, leads'⟩ := arrives'
  exact (leads.unique leads').2

end Paths

section Making

variable {disk changed : Disk} {path : String} {key : Key}

/-- A path is nothing but slashes, or they stand behind its last name. -/
theorem dropSlashEnd_cases (names : List String) :
    (dropSlashEnd names = [] ∧ ∀ name ∈ names, name = "") ∨
      ∃ front last slashes, names = front ++ last :: slashes ∧ dropSlashEnd names = front ++ [last] ∧
        last ≠ "" ∧ ∀ name ∈ slashes, name = "" := by
  obtain ⟨slashes, split, empty⟩ : ∃ slashes, names = dropSlashEnd names ++ slashes ∧
    ∀ name ∈ slashes, (name == "") = true := TextEnds.dropEndWhile_split names
  cases List.eq_nil_or_concat (dropSlashEnd names) with
  | inl none =>
    rw [none, List.nil_append] at split
    left
    refine ⟨none, ?_⟩
    rw [split]
    simpa using empty
  | inr some =>
    obtain ⟨front, last, shape⟩ := some
    rw [List.concat_eq_append] at shape
    right
    refine ⟨front, last, slashes, ?_, shape, ?_, by simpa using empty⟩
    · rw [shape] at split
      simpa using split
    · have final : (dropSlashEnd names).getLast? = some last := by simp [shape]
      simpa using TextEnds.getLast?_dropEndWhile final

theorem locate_slashes (valid : IsPath path) (slashes : dropSlashEnd (Path.names path) = []) :
    disk.locate path = .ok (.directory []) := by
  unfold locate
  rw [namesOf_eq_ok_iff.mpr ⟨valid, rfl⟩]
  simp only [Json.ok_bind, slashes, List.getLast?_nil]
  rfl

theorem locate_last (valid : IsPath path) {front slashes : List String} {last : String}
    (shape : Path.names path = front ++ last :: slashes) (dropped : dropSlashEnd (Path.names path) = front ++ [last]) :
    disk.locate path = (follow disk .find maxLinks (disk.start path) (front ++ [""])).map fun directory =>
      if last = "." then .directory directory
      else if last = ".." then .directory directory.dropLast
      else .entry directory last !slashes.isEmpty := by
  have length : (decide ((front ++ [last]).length < (front ++ last :: slashes).length)) = !slashes.isEmpty := by
    cases slashes <;> simp
  rw [shape] at dropped
  unfold locate
  rw [namesOf_eq_ok_iff.mpr ⟨valid, rfl⟩]
  simp only [Json.ok_bind, shape, dropped, List.getLast?_concat, List.dropLast_concat, length, beq_iff_eq]
  cases follow disk .find maxLinks (disk.start path) (front ++ [""]) with
  | error fault => rfl
  | ok directory =>
    simp only [Json.ok_bind, Except.map]
    split
    · rfl
    · split <;> rfl

/-- What locating a path comes to: a directory that it leads to, or a name in one. -/
inductive Locates (disk : Disk) (path : String) : Spot → Prop where
  | directory {key : Key} (arrives : Arrives disk path key) : Locates disk path (.directory key)
  | entry {front slashes : List String} {name : String} {left : Nat} {directory : Key}
      (shape : Path.names path = front ++ name :: slashes) (empty : ∀ name ∈ slashes, name = "")
      (leads : Leads disk maxLinks (disk.start path) front left directory)
      (named : Path.isIdle name = false) (inward : name ≠ "..") :
      Locates disk path (.entry directory name !slashes.isEmpty)

theorem leads_slashes {links : Nat} {slashes : List String} (empty : ∀ name ∈ slashes, name = "") :
    Leads disk links key slashes links key := by
  apply leads_idle
  intro name member
  rw [empty name member]
  rfl

theorem ne_dot {name : String} (named : Path.isIdle name = false) : name ≠ "." := by
  rintro rfl
  simp [Path.isIdle] at named

theorem isRooted_of_slashes (nonempty : path ≠ "") (slashes : ∀ name ∈ Path.names path, name = "") :
    Path.isRooted path = true := by
  obtain ⟨first, later, shape⟩ := List.exists_cons_of_ne_nil (PathNames.names_ne_nil path)
  obtain rfl : first = "" := slashes first (by simp [shape])
  refine PathNames.isRooted_iff.mpr ⟨later, shape, ?_⟩
  rintro rfl
  have text := PathNames.intercalate_names path
  rw [shape] at text
  exact nonempty text.symm

theorem locates_of_locate {spot : Spot} (located : disk.locate path = .ok spot) :
    IsPath path ∧ Locates disk path spot := by
  have valid : IsPath path := by
    obtain ⟨names, taken, _⟩ := Json.bind_eq_ok.mp located
    exact (namesOf_eq_ok_iff.mp taken).1
  refine ⟨valid, ?_⟩
  rcases dropSlashEnd_cases (Path.names path) with
    ⟨none, empty⟩ | ⟨front, last, slashes, shape, dropped, visible, empty⟩
  · rw [locate_slashes valid none] at located
    cases located
    refine .directory ⟨valid, maxLinks, ?_⟩
    rw [start, if_pos (isRooted_of_slashes valid.nonempty empty)]
    exact leads_slashes empty
  · rw [locate_last valid shape dropped] at located
    cases followed : follow disk .find maxLinks (disk.start path) (front ++ [""]) with
    | error fault =>
      rw [followed] at located
      cases located
    | ok directory =>
      obtain ⟨left, leads⟩ := follow_slash.mp followed
      simp only [followed, Except.map, Except.ok.injEq] at located
      subst located
      split
      · next dot =>
        refine .directory ⟨valid, left, ?_⟩
        rw [shape]
        exact leads.append (.idle (by simp [dot, Path.isIdle]) (leads_slashes empty))
      split
      · next up =>
        refine .directory ⟨valid, left, ?_⟩
        rw [shape, up]
        exact leads.append (.up (leads_slashes empty))
      · next dot up => exact .entry shape empty leads (by simp [Path.isIdle, visible, dot]) up

/-- The names of the part of a path that is looked up last. -/
theorem isName_of_look {directory : Key} {name : String} {node? : Option Node} (member : name ∈ Path.names path)
    (named : Path.isIdle name = false) (inward : name ≠ "..") (found : disk.look directory name = .ok node?) :
    IsName name :=
  ⟨named, inward, PathNames.slash_names member, (look_eq_ok_iff.mp found).1⟩

/-- What is made was missing in a directory that the names before it lead to. -/
theorem makeDirectory_located (made : disk.makeDirectory path = .ok changed) :
    IsPath path ∧ ∃ front name slashes left directory, Path.names path = front ++ name :: slashes ∧
      (∀ name ∈ slashes, name = "") ∧ Leads disk maxLinks (disk.start path) front left directory ∧
      Path.isIdle name = false ∧ name ≠ ".." ∧ disk.look directory name = .ok none ∧
      changed = disk.put (directory ++ [name]) .directory := by
  obtain ⟨spot, located, made⟩ := Json.bind_eq_ok.mp made
  obtain ⟨valid, locates⟩ := locates_of_locate located
  cases locates with
  | directory => cases made
  | @entry front slashes name left directory shape empty leads named inward =>
    obtain ⟨node?, found, made⟩ := Json.bind_eq_ok.mp made
    cases node? with
    | some node => cases made
    | none =>
      cases made
      exact ⟨valid, front, name, slashes, left, directory, shape, empty, leads, named, inward, found, rfl⟩

/-- A directory is made where there was nothing, and then the path leads to it. -/
theorem makeDirectory_ok (tree : IsTree disk) (made : disk.makeDirectory path = .ok changed) :
    ∃ directory name, Puts disk directory name .directory changed ∧ disk.get? (directory ++ [name]) = none ∧
      Arrives changed path (directory ++ [name]) := by
  obtain ⟨valid, front, name, slashes, left, directory, shape, empty, leads, named, inward, found, put⟩ :=
    makeDirectory_located made
  have member : name ∈ Path.names path := by simp [shape]
  obtain ⟨short, free⟩ := look_eq_ok_iff.mp found
  have puts : Puts disk directory name .directory changed := by
    refine ⟨put, leads.directory tree (get?_start disk path), isName_of_look member named inward found, ?_⟩
    exact apart_of_get? (by simp [free])
  have gains := puts.gains_directory free
  have start : changed.start path = disk.start path := by rw [start, start, gains.home]
  refine ⟨directory, name, puts, free, valid, left, ?_⟩
  rw [shape, start]
  apply (leads.gains gains).append
  apply Leads.down named inward
  · exact look_eq_ok_iff.mpr ⟨short, by rw [puts.get?, if_pos rfl]⟩
  · exact leads_slashes empty

/-- A path that leads to a directory is located there, or by a name for it. -/
theorem locate_arrives (tree : IsTree disk) (arrives : Arrives disk path key) :
    disk.locate path = .ok (.directory key) ∨ ∃ directory name slashed,
      disk.locate path = .ok (.entry directory name slashed) ∧
        ((disk.look directory name = .ok (some .directory) ∧ key = directory ++ [name]) ∨
          ∃ target, disk.look directory name = .ok (some (.link target))) := by
  have there := arrives.directory tree
  obtain ⟨valid, left, leads⟩ := arrives
  rcases dropSlashEnd_cases (Path.names path) with
    ⟨none, empty⟩ | ⟨front, last, slashes, shape, dropped, visible, empty⟩
  · rw [start, if_pos (isRooted_of_slashes valid.nonempty empty)] at leads
    obtain ⟨_, rfl⟩ := leads.unique (leads_slashes empty)
    exact .inl (locate_slashes valid none)
  · rw [shape] at leads
    obtain ⟨middle, between, before, onward⟩ := leads.split there
    rw [locate_last valid shape dropped, follow_slash.mpr ⟨middle, before⟩]
    simp only [Except.map, Except.ok.injEq]
    cases onward with
    | idle idle rest =>
      obtain ⟨_, rfl⟩ := rest.unique (leads_slashes empty)
      have dot : last = "." := by simpa [Path.isIdle, visible] using idle
      exact .inl (if_pos dot)
    | up rest =>
      obtain ⟨_, rfl⟩ := rest.unique (leads_slashes empty)
      exact .inl (by rw [if_neg (by decide), if_pos rfl])
    | down named inward found rest =>
      obtain ⟨_, rfl⟩ := rest.unique (leads_slashes empty)
      refine .inr ⟨between, last, !slashes.isEmpty, ?_, .inl ⟨found, rfl⟩⟩
      rw [if_neg (ne_dot named), if_neg inward]
    | link named inward found rest =>
      refine .inr ⟨between, last, !slashes.isEmpty, ?_, .inr ⟨_, found⟩⟩
      rw [if_neg (ne_dot named), if_neg inward]

/-- Nothing is made where the path leads to a directory. -/
theorem makeDirectory_arrives (tree : IsTree disk) (arrives : Arrives disk path key) :
    disk.makeDirectory path = .error .alreadyExists := by
  unfold makeDirectory
  rcases locate_arrives tree arrives with located | ⟨directory, name, slashed, located, ⟨found, _⟩ | ⟨target, found⟩⟩
  · rw [located]
    rfl
  · simp only [located, found, Json.ok_bind]
    rfl
  · simp only [located, found, Json.ok_bind]
    rfl

end Making

section Runs

variable {disk changed after : Disk} {path : String}

theorem system_makeDirectory (disk : Disk) (path : String) :
    Disk.system.makeDirectory path disk =
      match disk.makeDirectory path with
      | .ok changed => (.ok (), changed)
      | .error fault => (.error fault, disk) := rfl

theorem system_isDirectory (disk : Disk) (path : String) :
    Disk.system.isDirectory path disk = (disk.isDirectory path, disk) := rfl

/-- A directory may have been made. -/
structure Extends (disk after : Disk) : Prop where
  tree : IsTree after
  gains : Gains disk [] after

theorem Extends.refl (tree : IsTree disk) : Extends disk disk := ⟨tree, .refl disk⟩

theorem Extends.trans (first : Extends disk changed) (second : Extends changed after) : Extends disk after :=
  ⟨second.tree, first.gains.trans second.gains⟩

theorem makeDirectory_extends (tree : IsTree disk) (made : disk.makeDirectory path = .ok changed) :
    Extends disk changed ∧ ∃ key, Arrives changed path key := by
  obtain ⟨directory, name, puts, free, arrives⟩ := makeDirectory_ok tree made
  exact ⟨⟨puts.isTree tree (by simp [free]), puts.gains_directory free⟩, _, arrives⟩

section Climbing

variable {paths above missing found : List String}

/-- How one step of the climb goes on. -/
theorem climb_cons (path : String) (above missing : List String) (disk : Disk) :
    Disk.system.climb (path :: above) missing disk =
      match disk.makeDirectory path with
      | .ok changed => (.ok missing, changed)
      | .error .notFound => Disk.system.climb above (path :: missing) disk
      | .error .alreadyExists => if disk.isDirectory path then (.ok missing, disk) else (.error .alreadyExists, disk)
      | .error fault => (.error fault, disk) := by
  simp only [FileSystem.climb, bind, StateT.bind, system_makeDirectory]
  cases disk.makeDirectory path with
  | ok changed => rfl
  | error fault =>
    cases fault with
    | alreadyExists =>
      simp only [StateT.bind, system_isDirectory]
      cases disk.isDirectory path <;> rfl
    | _ => rfl

theorem makeEach_cons (path : String) (below : List String) (disk : Disk) :
    Disk.system.makeEach (path :: below) disk =
      match disk.makeDirectory path with
      | .ok changed => Disk.system.makeEach below changed
      | .error .alreadyExists =>
        if disk.isDirectory path then Disk.system.makeEach below disk else (.error .alreadyExists, disk)
      | .error fault => (.error fault, disk) := by
  simp only [FileSystem.makeEach, bind, StateT.bind, system_makeDirectory]
  cases disk.makeDirectory path with
  | ok changed => rfl
  | error fault =>
    cases fault with
    | alreadyExists =>
      simp only [StateT.bind, system_isDirectory]
      cases disk.isDirectory path <;> rfl
    | _ => rfl

theorem climb_extends (tree : IsTree disk) : Extends disk (Disk.system.climb paths missing disk).2 := by
  induction paths generalizing missing with
  | nil => exact .refl tree
  | cons path above ih =>
    rw [climb_cons]
    split
    · next changed made => exact (makeDirectory_extends tree made).1
    · exact ih
    · split <;> exact .refl tree
    · exact .refl tree

/-- A climb gives back all it came by, but for the path that it ends at. -/
theorem climb_found (tree : IsTree disk) (climbed : Disk.system.climb paths missing disk = (.ok found, after)) :
    ∃ more, found = more ++ missing ∧
      ∀ path, paths.head? = some path → path ∈ more ∨ ∃ key, Arrives after path key := by
  induction paths generalizing missing with
  | nil =>
    cases climbed
    exact ⟨[], rfl, by simp⟩
  | cons path above ih =>
    rw [climb_cons] at climbed
    simp only [List.head?_cons, Option.some.injEq, forall_eq']
    split at climbed
    · next changed made =>
      cases climbed
      exact ⟨[], rfl, .inr (makeDirectory_extends tree made).2⟩
    · obtain ⟨more, rfl, _⟩ := ih climbed
      exact ⟨more ++ [path], by simp, .inl (by simp)⟩
    · split at climbed
      · next present =>
        cases climbed
        exact ⟨[], rfl, .inr ((isDirectory_iff tree).mp present)⟩
      · cases climbed
    · cases climbed

theorem makeEach_extends (tree : IsTree disk) : Extends disk (Disk.system.makeEach paths disk).2 := by
  induction paths generalizing disk with
  | nil => exact .refl tree
  | cons path below ih =>
    rw [makeEach_cons]
    split
    · next changed made =>
      have extended := (makeDirectory_extends tree made).1
      exact extended.trans (ih extended.tree)
    · split
      · exact ih tree
      · exact .refl tree
    · exact .refl tree

theorem makeEach_arrives (tree : IsTree disk) (made : Disk.system.makeEach paths disk = (.ok (), after)) :
    ∀ path ∈ paths, ∃ key, Arrives after path key := by
  induction paths generalizing disk with
  | nil => exact List.forall_mem_nil _
  | cons first below ih =>
    have goesOn {changed : Disk} (extended : IsTree changed) (arrives : ∃ key, Arrives changed first key)
        (rest : Disk.system.makeEach below changed = (.ok (), after)) :
        ∀ path ∈ first :: below, ∃ key, Arrives after path key := by
      obtain ⟨key, arrives⟩ := arrives
      have gains := (@makeEach_extends changed below extended).gains
      rw [rest] at gains
      exact List.forall_mem_cons.mpr ⟨⟨key, arrives.gains gains⟩, ih extended rest⟩
    rw [makeEach_cons] at made
    split at made
    · next changed one =>
      obtain ⟨extended, arrives⟩ := makeDirectory_extends tree one
      exact goesOn extended.tree arrives made
    · split at made
      · next present => exact goesOn tree ((isDirectory_iff tree).mp present) made
      · cases made
    · cases made

theorem makeDirectories_eq (path : String) (disk : Disk) :
    Disk.system.makeDirectories path disk =
      match Disk.system.climb (Path.ancestors path) [] disk with
      | (.ok missing, changed) => Disk.system.makeEach missing changed
      | (.error fault, changed) => (.error fault, changed) := by
  simp only [FileSystem.makeDirectories, bind, StateT.bind]
  cases Disk.system.climb (Path.ancestors path) [] disk with
  | mk result changed => cases result <;> rfl

theorem head?_ancestors (nonempty : path ≠ "") : (Path.ancestors path).head? = some path := by
  have visible : path.isEmpty = false := by simpa using nonempty
  unfold Path.ancestors
  cases length : path.length with
  | zero => exact absurd (String.length_eq_zero_iff.mp length) nonempty
  | succ length => simp [Path.ancestorsWithin, visible]

/-- Whatever comes of it, nothing but directories is made. -/
theorem makeDirectories_extends (tree : IsTree disk) (path : String) :
    Extends disk (Disk.system.makeDirectories path disk).2 := by
  have climbed := @climb_extends disk (Path.ancestors path) [] tree
  rw [makeDirectories_eq]
  split
  · next missing changed climb =>
    rw [climb] at climbed
    exact climbed.trans (makeEach_extends climbed.tree)
  · next fault changed climb =>
    rw [climb] at climbed
    exact climbed

/-- A path that was made leads to a directory. -/
theorem makeDirectories_arrives (tree : IsTree disk) (nonempty : path ≠ "")
    (made : Disk.system.makeDirectories path disk = (.ok (), after)) : ∃ key, Arrives after path key := by
  have climbed := @climb_extends disk (Path.ancestors path) [] tree
  rw [makeDirectories_eq] at made
  split at made
  · next missing changed climb =>
    rw [climb] at climbed
    obtain ⟨more, rfl, first⟩ := climb_found tree climb
    cases first path (head?_ancestors nonempty) with
    | inl member => exact makeEach_arrives climbed.tree made path (List.mem_append_left _ member)
    | inr there =>
      obtain ⟨key, arrives⟩ := there
      have gains := (@makeEach_extends changed (more ++ []) climbed.tree).gains
      rw [made] at gains
      exact ⟨key, arrives.gains gains⟩
  · cases made

/-- Where a path leads to a directory, nothing is made. -/
theorem makeDirectories_again {key : Key} (tree : IsTree disk) (arrives : Arrives disk path key) :
    Disk.system.makeDirectories path disk = (.ok (), disk) := by
  obtain ⟨above, shape⟩ := List.head?_eq_some_iff.mp (head?_ancestors arrives.1.nonempty)
  rw [makeDirectories_eq, shape, climb_cons, makeDirectory_arrives tree arrives]
  simp only [(isDirectory_iff tree).mpr ⟨key, arrives⟩, if_true]
  rfl

end Climbing

end Runs

end SpellPack.Proofs.MadeDirectories
