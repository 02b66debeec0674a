import SpellPack.Disk.Resolve
import SpellPack.Proofs.DiskTrees

/-! Ways through a tree. Names lead from one directory to another, through links as far as
their number allows, and following a path is to go such a way and then the rest. A way stays
one while the tree gains entries. -/

namespace SpellPack.Proofs.PathWalks
open Disk DiskTrees

/-- The names lead from one directory to another, each of them through a directory or through
a link to one. As many links as `left` may still follow. -/
inductive Leads (disk : Disk) : (links : Nat) → (here : Key) → List String → (left : Nat) → (there : Key) → Prop where
  | done {links : Nat} {here : Key} : Leads disk links here [] links here
  | idle {links left : Nat} {here there : Key} {name : String} {later : List String} (idle : Path.isIdle name = true)
      (onward : Leads disk links here later left there) : Leads disk links here (name :: later) left there
  | up {links left : Nat} {here there : Key} {later : List String}
      (onward : Leads disk links here.dropLast later left there) : Leads disk links here (".." :: later) left there
  | down {links left : Nat} {here there : Key} {name : String} {later : List String}
      (named : Path.isIdle name = false) (inward : name ≠ "..") (found : disk.look here name = .ok (some .directory))
      (onward : Leads disk links (here ++ [name]) later left there) : Leads disk links here (name :: later) left there
  | link {links left : Nat} {here there : Key} {name target : String} {later : List String}
      (named : Path.isIdle name = false) (inward : name ≠ "..")
      (found : disk.look here name = .ok (some (.link target)))
      (onward : Leads disk links (if Path.isRooted target then [] else here) (Path.names target ++ later) left there) :
      Leads disk (links + 1) here (name :: later) left there

section Looking

variable {disk : Disk} {here : Key} {name : String} {node? : Option Node}

theorem look_eq_ok_iff : disk.look here name = .ok node? ↔
    name.utf8ByteSize ≤ maxNameBytes ∧ disk.get? (here ++ [name]) = node? := by
  unfold look
  split
  · next long => simp [Nat.not_le.mpr long]
  · next short => simp [Nat.not_lt.mp short]

end Looking

section Following

variable {disk : Disk} {goal : Goal} {links left : Nat} {here there key : Key} {name : String}
variable {front back later : List String}

def beyond (disk : Disk) (goal : Goal) : (links : Nat) → Key → List String → Except FileSystem.Fault Key
  | 0 => fun _ _ => .error .tooManyLinks
  | links + 1 => follow disk goal links

theorem follow_eq (disk : Disk) (goal : Goal) (links : Nat) :
    follow disk goal links = walk disk goal (beyond disk goal links) := by
  cases links <;> rfl

theorem follow_nil : follow disk goal links here [] = .ok here := by
  rw [follow_eq, walk]

theorem follow_idle (idle : Path.isIdle name = true) :
    follow disk goal links here (name :: later) = follow disk goal links here later := by
  rw [follow_eq, walk, if_pos idle]

theorem follow_up : follow disk goal links here (".." :: later) = follow disk goal links here.dropLast later := by
  rw [follow_eq, walk, if_neg (by decide), if_pos (by decide)]

/-- A name that is looked up. -/
theorem follow_look (named : Path.isIdle name = false) (inward : name ≠ "..")
    (aim : goal = .write → areSlashes later = false) :
    follow disk goal links here (name :: later) =
      match disk.look here name with
      | .error fault => .error fault
      | .ok none => if goal = .write ∧ later = [] then .ok (here ++ [name]) else .error .notFound
      | .ok (some .directory) => follow disk goal links (here ++ [name]) later
      | .ok (some (.file _)) => if later = [] then .ok (here ++ [name]) else .error .notDirectory
      | .ok (some (.link target)) =>
        beyond disk goal links (if Path.isRooted target then [] else here) (Path.names target ++ later) := by
  have unslashed : (goal == .write && areSlashes later) = false := by
    cases goal with
    | find => rfl
    | write => simpa using aim rfl
  rw [follow_eq, walk, if_neg (by simp [named]), if_neg (by simpa using inward), if_neg (by simp [unslashed])]
  cases disk.look here name with
  | error fault => rfl
  | ok node? =>
    cases node? with
    | none => simp
    | some node => cases node <;> simp

/-- What following one name and those behind it comes down to. -/
inductive Enters (disk : Disk) (goal : Goal) : (links : Nat) → (here : Key) → String → List String → (key : Key) → Prop
  where
  | idle {links : Nat} {here key : Key} {name : String} {later : List String} (idle : Path.isIdle name = true)
      (onward : follow disk goal links here later = .ok key) : Enters disk goal links here name later key
  | up {links : Nat} {here key : Key} {later : List String}
      (onward : follow disk goal links here.dropLast later = .ok key) : Enters disk goal links here ".." later key
  | missing {links : Nat} {here : Key} {name : String} (named : Path.isIdle name = false) (inward : name ≠ "..")
      (found : disk.look here name = .ok none) (aim : goal = .write) :
      Enters disk goal links here name [] (here ++ [name])
  | file {links : Nat} {here : Key} {name : String} {bytes : ByteArray} (named : Path.isIdle name = false)
      (inward : name ≠ "..") (found : disk.look here name = .ok (some (.file bytes))) :
      Enters disk goal links here name [] (here ++ [name])
  | down {links : Nat} {here key : Key} {name : String} {later : List String} (named : Path.isIdle name = false)
      (inward : name ≠ "..") (found : disk.look here name = .ok (some .directory))
      (onward : follow disk goal links (here ++ [name]) later = .ok key) : Enters disk goal links here name later key
  | link {links : Nat} {here key : Key} {name target : String} {later : List String} (named : Path.isIdle name = false)
      (inward : name ≠ "..") (found : disk.look here name = .ok (some (.link target)))
      (onward :
        follow disk goal links (if Path.isRooted target then [] else here) (Path.names target ++ later) = .ok key) :
      Enters disk goal (links + 1) here name later key

theorem enters_of_follow (followed : follow disk goal links here (name :: later) = .ok key) :
    Enters disk goal links here name later key := by
  cases idle : Path.isIdle name with
  | true => exact .idle idle (by rwa [follow_idle idle] at followed)
  | false =>
    by_cases up : name = ".."
    · subst up
      exact .up (by rwa [follow_up] at followed)
    · by_cases slashes : goal = .write ∧ areSlashes later = true
      · rw [follow_eq, walk, if_neg (by simp [idle]), if_neg (by simpa using up),
          if_pos (by simp [slashes])] at followed
        cases followed
      · have aim : goal = .write → areSlashes later = false := by simpa using slashes
        rw [follow_look idle up aim] at followed
        split at followed
        · cases followed
        · next found =>
          split at followed
          · next last =>
            obtain ⟨write, rfl⟩ := last
            cases followed
            exact .missing idle up found write
          · cases followed
        · next found => exact .down idle up found followed
        · next found =>
          split at followed
          · next last =>
            subst last
            cases followed
            exact .file idle up found
          · cases followed
        · next found =>
          cases links with
          | zero => cases followed
          | succ links => exact .link idle up found followed

/-- Following goes all the way and then the rest. What is to be written has to have a name in it. -/
theorem follow_append (leads : Leads disk links here front left there)
    (aim : goal = .write → ∃ name ∈ back, name ≠ "") :
    follow disk goal links here (front ++ back) = follow disk goal left there back := by
  have unslashed : ∀ later, goal = .write → areSlashes (later ++ back) = false := by
    intro later write
    obtain ⟨name, member, visible⟩ := aim write
    have fails : ¬ ∀ name ∈ later ++ back, name = "" := fun all => visible (all name (by simp [member]))
    simp only [areSlashes, List.all_eq, String.isEmpty_iff, Bool.and_eq_false_iff]
    exact .inr (by simpa using fails)
  induction leads with
  | done => rfl
  | idle idle _ ih => rw [List.cons_append, follow_idle idle, ih]
  | up _ ih => rw [List.cons_append, follow_up, ih]
  | down named inward found _ ih => rw [List.cons_append, follow_look named inward (unslashed _), found, ← ih]
  | link named inward found _ ih =>
    rw [List.cons_append, follow_look named inward (unslashed _), found, ← ih, List.append_assoc]
    rfl

/-- What is followed beyond some names leads through them, and so it does to a directory. -/
theorem leads_of_follow (followed : follow disk goal links here (front ++ back) = .ok key)
    (aim : back ≠ [] ∨ disk.get? key = some .directory) :
    ∃ left there, Leads disk links here front left there ∧ follow disk goal left there back = .ok key := by
  -- A link puts the names of its target in front, so there may be more to follow than before,
  -- but one link less to follow: names are induced on within the links that are left.
  induction links using Nat.strongRecOn generalizing here front with
  | ind links fewer =>
    induction front generalizing here with
    | nil => exact ⟨links, here, .done, followed⟩
    | cons name later ih =>
      rw [List.cons_append] at followed
      have entered := enters_of_follow followed
      generalize rest : later ++ back = names at entered
      cases entered with
      | idle idle onward =>
        subst rest
        obtain ⟨left, there, leads, last⟩ := ih onward
        exact ⟨left, there, .idle idle leads, last⟩
      | up onward =>
        subst rest
        obtain ⟨left, there, leads, last⟩ := ih onward
        exact ⟨left, there, .up leads, last⟩
      | missing _ _ found _ | file _ _ found =>
        obtain ⟨_, rfl⟩ := List.append_eq_nil_iff.mp rest
        rw [(look_eq_ok_iff.mp found).2] at aim
        rcases aim with more | directory
        · exact absurd rfl more
        · cases directory
      | down named inward found onward =>
        subst rest
        obtain ⟨left, there, leads, last⟩ := ih onward
        exact ⟨left, there, .down named inward found leads, last⟩
      | link named inward found onward =>
        rw [← rest, ← List.append_assoc] at onward
        obtain ⟨left, there, leads, last⟩ := fewer _ (Nat.lt_succ_self _) onward
        exact ⟨left, there, .link named inward found leads, last⟩

theorem leads_of_find {names : List String} (found : follow disk .find links here names = .ok key)
    (directory : disk.get? key = some .directory) : ∃ left, Leads disk links here names left key := by
  rw [← List.append_nil names] at found
  obtain ⟨left, there, leads, last⟩ := leads_of_follow found (.inr directory)
  rw [follow_nil, Except.ok.injEq] at last
  exact ⟨left, last ▸ leads⟩

theorem Leads.find (leads : Leads disk links here front left there) :
    follow disk .find links here front = .ok there := by
  have followed : follow disk .find links here (front ++ []) = follow disk .find left there [] :=
    follow_append leads (by simp)
  rwa [List.append_nil, follow_nil] at followed

end Following

section Ways

variable {disk after : Disk} {links left middle : Nat} {here there between : Key} {front back names : List String}

theorem Leads.append (first : Leads disk links here front middle between)
    (second : Leads disk middle between back left there) : Leads disk links here (front ++ back) left there := by
  induction first with
  | done => exact second
  | idle idle _ ih => exact .idle idle (ih second)
  | up _ ih => exact .up (ih second)
  | down named inward found _ ih => exact .down named inward found (ih second)
  | link named inward found _ ih =>
    have onward := ih second
    rw [List.append_assoc] at onward
    exact .link named inward found onward

theorem leads_idle (idles : ∀ name ∈ names, Path.isIdle name = true) : Leads disk links here names links here := by
  induction names with
  | nil => exact .done
  | cons name later ih =>
    obtain ⟨idle, rest⟩ := List.forall_mem_cons.mp idles
    exact .idle idle (ih rest)

/-- A slash behind names asks for a directory. -/
theorem follow_slash {key : Key} :
    follow disk .find links here (names ++ [""]) = .ok key ↔ ∃ left, Leads disk links here names left key := by
  constructor
  · intro followed
    obtain ⟨left, there, leads, last⟩ := leads_of_follow followed (.inl (by simp))
    rw [follow_idle (by decide), follow_nil, Except.ok.injEq] at last
    exact ⟨left, last ▸ leads⟩
  · rintro ⟨left, leads⟩
    exact (leads.append (leads_idle (by simp [Path.isIdle]))).find

theorem Leads.unique (leads : Leads disk links here names left there)
    (leads' : Leads disk links here names middle between) :
    left = middle ∧ there = between := by
  induction leads with
  | done =>
    cases leads'
    exact ⟨rfl, rfl⟩
  | idle idle _ ih =>
    cases leads' with
    | idle _ onward => exact ih onward
    | up => cases idle
    | down named | link named => simp [named] at idle
  | up _ ih =>
    cases leads' with
    | idle idle => cases idle
    | up onward => exact ih onward
    | down _ inward | link _ inward => exact absurd rfl inward
  | down named inward found _ ih =>
    cases leads' with
    | idle idle => simp [named] at idle
    | up => exact absurd rfl inward
    | down _ _ _ onward => exact ih onward
    | link _ _ other => simp [found] at other
  | link named inward found _ ih =>
    cases leads' with
    | idle idle => simp [named] at idle
    | up => exact absurd rfl inward
    | down _ _ other => simp [found] at other
    | link _ _ same onward =>
      rw [found, Except.ok.injEq, Option.some.injEq, Node.link.injEq] at same
      exact ih (same ▸ onward)

theorem Leads.split (leads : Leads disk links here (front ++ back) left there)
    (directory : disk.get? there = some .directory) :
    ∃ middle between, Leads disk links here front middle between ∧ Leads disk middle between back left there := by
  obtain ⟨middle, between, first, onward⟩ := leads_of_follow leads.find (.inr directory)
  obtain ⟨_, second⟩ := leads_of_find onward directory
  obtain ⟨rfl, _⟩ := leads.unique (first.append second)
  exact ⟨middle, between, first, second⟩

theorem Leads.directory (tree : IsTree disk) (leads : Leads disk links here names left there)
    (inside : disk.get? here = some .directory) : disk.get? there = some .directory := by
  induction leads with
  | done => exact inside
  | idle _ _ ih => exact ih inside
  | up _ ih => exact ih (get?_dropLast tree inside)
  | down _ _ found _ ih => exact ih (look_eq_ok_iff.mp found).2
  | link _ _ _ _ ih =>
    apply ih
    split
    · exact get?_top disk
    · exact inside

/-- A way stays one while the tree gains entries. -/
theorem Leads.gains {files : List (Key × ByteArray)} (gains : Gains disk files after)
    (leads : Leads disk links here names left there) : Leads after links here names left there := by
  have kept {here : Key} {name : String} {node : Node}
      (held : disk.get? (here ++ [name]) = some node → after.get? (here ++ [name]) = some node)
      (found : disk.look here name = .ok (some node)) :
      after.look here name = .ok (some node) := by
    obtain ⟨short, present⟩ := look_eq_ok_iff.mp found
    exact look_eq_ok_iff.mpr ⟨short, held present⟩
  induction leads with
  | done => exact .done
  | idle idle _ ih => exact .idle idle ih
  | up _ ih => exact .up ih
  | down named inward found _ ih => exact .down named inward (kept (gains.directories _) found) ih
  | link named inward found _ ih => exact .link named inward (kept (gains.links _ _).mpr found) ih

/-- What is found is there, and it is still found when the tree has gained entries. -/
theorem follow_gains {files : List (Key × ByteArray)} (gains : Gains disk files after) (tree : IsTree disk)
    (inside : disk.get? here = some .directory) {key : Key} (found : follow disk .find links here names = .ok key) :
    follow after .find links here names = .ok key ∧ ∃ node, disk.get? key = some node := by
  induction links using Nat.strongRecOn generalizing here names with
  | ind links fewer =>
    induction names generalizing here with
    | nil =>
      rw [follow_nil, Except.ok.injEq] at found
      subst found
      exact ⟨follow_nil, _, inside⟩
    | cons name later ih =>
      cases enters_of_follow found with
      | idle idle onward =>
        rw [follow_idle idle]
        exact ih inside onward
      | up onward =>
        rw [follow_up]
        exact ih (get?_dropLast tree inside) onward
      | missing _ _ _ aim => cases aim
      | file named inward seen =>
        obtain ⟨short, present⟩ := look_eq_ok_iff.mp seen
        obtain ⟨written, kept⟩ := gains.file present
        refine ⟨?_, _, present⟩
        rw [follow_look named inward (by simp), look_eq_ok_iff.mpr ⟨short, kept⟩]
        rfl
      | down named inward seen onward =>
        obtain ⟨short, present⟩ := look_eq_ok_iff.mp seen
        rw [follow_look named inward (by simp), look_eq_ok_iff.mpr ⟨short, gains.directories _ present⟩]
        exact ih present onward
      | @link links _ _ _ target _ named inward seen onward =>
        obtain ⟨short, present⟩ := look_eq_ok_iff.mp seen
        rw [follow_look named inward (by simp), look_eq_ok_iff.mpr ⟨short, (gains.links _ _).mpr present⟩]
        apply fewer links (Nat.lt_succ_self links) _ onward
        split
        · exact get?_top disk
        · exact inside

end Ways

section Descending

variable {disk after : Disk} {links left : Nat} {here there : Key} {names : List String}

def named (names : List String) : List String := names.filter fun name => !Path.isIdle name

/-- The way down meets no link. -/
def Unlinked (disk : Disk) (here : Key) (names : List String) : Prop :=
  ∀ ahead, ahead <+: named names → ∀ target, disk.get? (here ++ ahead) ≠ some (.link target)

theorem named_cons_idle {name : String} (idle : Path.isIdle name = true) : named (name :: names) = named names := by
  simp [named, idle]

theorem named_cons {name : String} (visible : Path.isIdle name = false) :
    named (name :: names) = name :: named names := by
  simp [named, visible]

theorem Unlinked.gains {files : List (Key × ByteArray)} (gains : Gains disk files after)
    (unlinked : Unlinked disk here names) : Unlinked after here names := by
  intro ahead within target linked
  exact unlinked ahead within target ((gains.links _ _).mp linked)

/-- Without a link or a step up the names only go down. -/
theorem Leads.descends (leads : Leads disk links here names left there) (inward : ".." ∉ names)
    (unlinked : Unlinked disk here names) : left = links ∧ there = here ++ named names := by
  induction leads with
  | done => exact ⟨rfl, (List.append_nil _).symm⟩
  | idle idle _ ih =>
    rw [Unlinked, named_cons_idle idle] at unlinked
    rw [named_cons_idle idle]
    exact ih (fun up => inward (List.mem_cons_of_mem _ up)) unlinked
  | up => exact absurd List.mem_cons_self inward
  | @down _ _ here _ name later visible _ _ _ ih =>
    rw [named_cons visible]
    have further : Unlinked disk (here ++ [name]) later := by
      intro ahead within target
      rw [List.append_assoc]
      apply unlinked
      rw [named_cons visible]
      exact (List.prefix_append_right_inj [name]).mpr within
    obtain ⟨same, reached⟩ := ih (fun up => inward (List.mem_cons_of_mem _ up)) further
    exact ⟨same, by simp [reached]⟩
  | @link _ _ here _ name target later visible _ found _ _ =>
    have within : [name] <+: named (name :: later) := by
      rw [named_cons visible]
      exact List.prefix_append [name] _
    exact absurd (look_eq_ok_iff.mp found).2 (unlinked _ within target)

/-- Names lead down to any directory that lies where they say. -/
theorem leads_down (tree : IsTree disk) (inward : ".." ∉ names)
    (found : disk.get? (here ++ named names) = some .directory) :
    Leads disk links here names links (here ++ named names) := by
  induction names generalizing here with
  | nil =>
    simp only [named, List.filter_nil, List.append_nil]
    exact .done
  | cons name later ih =>
    have inward' : ".." ∉ later := fun up => inward (List.mem_cons_of_mem _ up)
    cases idle : Path.isIdle name with
    | true =>
      rw [named_cons_idle idle] at found ⊢
      exact .idle idle (ih inward' found)
    | false =>
      have split : here ++ named (name :: later) = here ++ [name] ++ named later := by simp [named_cons idle]
      rw [split] at found ⊢
      have next : disk.get? (here ++ [name]) = some .directory := get?_front tree found
      have short := (isName_of_get? tree next name (by simp)).short
      have up : name ≠ ".." := by
        rintro rfl
        exact inward List.mem_cons_self
      exact .down idle up (look_eq_ok_iff.mpr ⟨short, next⟩) (ih inward' found)

/-- Where a way down ends there was nothing before, or the way was there before. -/
theorem Leads.before {files : List (Key × ByteArray)} (gains : Gains disk files after) (tree : IsTree disk)
    (leads : Leads after links here names left there) (directory : after.get? there = some .directory)
    (inward : ".." ∉ names) (unlinked : Unlinked disk here names) :
    disk.get? there = none ∨ Leads disk links here names left there := by
  obtain ⟨rfl, rfl⟩ := leads.descends inward (unlinked.gains gains)
  cases found : disk.get? (here ++ named names) with
  | none => exact .inl rfl
  | some node =>
    cases node with
    | directory => exact .inr (leads_down tree inward found)
    | file bytes =>
      obtain ⟨written, kept⟩ := gains.file found
      simp [directory] at kept
    | link target =>
      have kept := (gains.links _ _).mpr found
      simp [directory] at kept

end Descending

end SpellPack.Proofs.PathWalks
