import SpellPack.FileSystem.Path
import SpellPack.Proofs.FileLines

/-! The names of paths. A path is its names with slashes between them, and joining paths or
going up from one does to the names what it says. -/

namespace SpellPack.Proofs.PathNames
open Text SpellPack.Path FileLines TextEnds

section Names

theorem names_ne_nil (path : String) : names path ≠ [] := by
  simpa [names, pieces] using splitAt_ne_nil '/' path.toList

theorem intercalate_names (path : String) : "/".intercalate (names path) = path := intercalate_pieces rfl path

theorem names_injective {a b : String} (same : names a = names b) : a = b :=
  calc a = "/".intercalate (names a) := (intercalate_names a).symm
    _ = "/".intercalate (names b) := by rw [same]
    _ = b := intercalate_names b

theorem slash_names {path name : String} (member : name ∈ names path) : '/' ∉ name.toList :=
  not_mem_pieces member

theorem names_intercalate {parts : List String} (plain : ∀ part ∈ parts, '/' ∉ part.toList) (nonempty : parts ≠ []) :
    names ("/".intercalate parts) = parts :=
  pieces_intercalate rfl plain nonempty

theorem names_slash (front back : String) : names (front ++ "/" ++ back) = names front ++ names back :=
  pieces_join rfl front back

theorem names_top (path : String) : names ("/" ++ path) = "" :: names path := by
  simp [names, pieces, splitAt]

theorem isRooted_iff {path : String} : isRooted path = true ↔ ∃ later, names path = "" :: later ∧ later ≠ [] := by
  constructor
  · intro rooted
    obtain ⟨rest, text⟩ := List.head?_eq_some_iff.mp (beq_iff_eq.mp rooted)
    exact ⟨_, by simp [names, pieces, text, splitAt]; rfl, by simpa using splitAt_ne_nil '/' rest⟩
  · rintro ⟨later, begins, more⟩
    have text := intercalate_names path
    obtain ⟨second, others, rfl⟩ := List.exists_cons_of_ne_nil more
    rw [begins] at text
    rw [← text, isRooted]
    simp [String.toList_intercalate, intercalate_cons]

theorem names_rooted {path : String} (rooted : isRooted path = true) : ∃ later, names path = "" :: later := by
  obtain ⟨later, begins, _⟩ := isRooted_iff.mp rooted
  exact ⟨later, begins⟩

end Names

section Joining

variable {root relative : String}

def folderNames (root : String) : List String :=
  if root = "" then []
  else if root.toList.getLast? = some '/' then (names root).dropLast
  else names root

theorem names_folder (nonempty : root ≠ "") :
    names root = folderNames root ∨ names root = folderNames root ++ [""] := by
  unfold folderNames
  rw [if_neg nonempty]
  split
  · next slash =>
    right
    obtain ⟨front, text⟩ := List.getLast?_eq_some_iff.mp slash
    have split : names root = names (String.ofList front) ++ [""] := by
      simp [names, pieces, text, splitAt_join, splitAt]
    simp [split]
  · exact .inl rfl

theorem names_join (relativePath : isRooted relative = false) :
    names (join root relative) = folderNames root ++ names relative := by
  unfold join folderNames
  simp only [relativePath, Bool.or_false, String.isEmpty_iff]
  split
  · rfl
  split
  · next slash =>
    obtain ⟨front, text⟩ := List.getLast?_eq_some_iff.mp (beq_iff_eq.mp slash)
    have split : root = String.ofList front ++ "/" := by
      apply String.toList_inj.mp
      simp [text]
    have folder : names root = names (String.ofList front) ++ [""] := by
      simp [names, pieces, text, splitAt_join, splitAt]
    rw [if_pos (beq_iff_eq.mp slash), folder, List.dropLast_concat, split, names_slash]
  · next noSlash =>
    rw [if_neg (fun slash => noSlash (beq_iff_eq.mpr slash)), names_slash]

end Joining

section Parents

variable {path parent first name : String} {later front : List String}

theorem dropIdleEnd_concat (named : isIdle name = false) (front : List String) :
    dropIdleEnd (front ++ [name]) = front ++ [name] := by
  apply dropEndWhile_of_last
  intro last final
  obtain rfl : name = last := by simpa using final
  exact named

/-- The names above a path. Above a name at the top is the top, which is named by its slash. -/
structure Above (path : String) (first : String) (kept : List String) (parent : String) : Prop where
  nonempty : parent ≠ ""
  rooted : isRooted parent = isRooted path
  names : names parent = first :: kept ∨ (first = "" ∧ kept = [] ∧ names parent = ["", ""])

theorem above_rooted (rooted : isRooted path = true) (shape : names path = first :: later) {kept : List String}
    (plain : ∀ part ∈ kept, '/' ∉ part.toList) : Above path first kept ("/" ++ "/".intercalate kept) := by
  obtain ⟨others, begins⟩ := names_rooted rooted
  obtain ⟨rfl, rfl⟩ := List.cons.inj (begins.symm.trans shape)
  have top : isRooted ("/" ++ "/".intercalate kept) = true := by simp [isRooted]
  refine ⟨by simp, top.trans rooted.symm, ?_⟩
  rw [names_top]
  cases kept with
  | nil => exact .inr ⟨rfl, rfl, rfl⟩
  | cons second others =>
    rw [names_intercalate plain (List.cons_ne_nil second others)]
    exact .inl rfl

theorem above_relative (relative : isRooted path = false) (shape : names path = first :: later) (more : later ≠ [])
    {kept : List String} (plain : ∀ part ∈ first :: kept, '/' ∉ part.toList) :
    Above path first kept ("/".intercalate (first :: kept)) := by
  have split := names_intercalate plain (by simp)
  have visible : first ≠ "" := by
    rintro rfl
    rw [isRooted_iff.mpr ⟨later, shape, more⟩] at relative
    cases relative
  refine ⟨?_, ?_, .inl split⟩
  · intro empty
    rw [empty] at split
    exact visible (List.cons.inj split).1.symm
  · rw [relative, Bool.eq_false_iff]
    intro top
    obtain ⟨others, begins⟩ := names_rooted top
    exact visible (List.cons.inj (split.symm.trans begins)).1

theorem above_of_kept (shape : names path = first :: later) (kept : dropIdleEnd later ≠ []) :
    ∃ parent, parent? path = some parent ∧ Above path first (dropIdleEnd (dropIdleEnd later).dropLast) parent := by
  have plain : ∀ part ∈ first :: dropIdleEnd (dropIdleEnd later).dropLast, '/' ∉ part.toList := by
    have all : ∀ part ∈ first :: later, '/' ∉ part.toList := fun part member => slash_names (shape.symm ▸ member)
    rw [List.forall_mem_cons] at all ⊢
    refine ⟨all.1, fun part member => all.2 part ?_⟩
    exact mem_of_mem_dropEndWhile (List.dropLast_subset _ (mem_of_mem_dropEndWhile member))
  have more : later ≠ [] := by
    rintro rfl
    exact kept rfl
  cases rooted : isRooted path with
  | true =>
    refine ⟨_, ?_, above_rooted rooted shape (List.forall_mem_cons.mp plain).2⟩
    unfold parent?
    simp only [rooted, if_true, shape, List.drop_one, List.tail_cons]
  | false =>
    refine ⟨_, ?_, above_relative rooted shape more plain⟩
    unfold parent?
    simp only [rooted, Bool.false_eq_true, if_false, shape]

theorem above_of_concat (shape : names path = first :: (front ++ [name])) (named : isIdle name = false) :
    ∃ parent, parent? path = some parent ∧ Above path first (dropIdleEnd front) parent := by
  obtain ⟨parent, up, above⟩ := above_of_kept shape (by simp [dropIdleEnd_concat named])
  rw [dropIdleEnd_concat named, List.dropLast_concat] at above
  exact ⟨parent, up, above⟩

/-- Names that differ in nothing but idle ones at the end. -/
def SameFolder (front names : List String) : Prop :=
  ∃ common idle idle', front = common ++ idle ∧ names = common ++ idle' ∧
    (∀ name ∈ idle, isIdle name = true) ∧ ∀ name ∈ idle', isIdle name = true

/-- Above a path that ends in a name lies what the names before it say. -/
theorem parent?_folder (shape : names path = front ++ [name]) (below : front ≠ []) (named : isIdle name = false) :
    ∃ parent, parent? path = some parent ∧ parent ≠ "" ∧ isRooted parent = isRooted path ∧
      SameFolder front (names parent) := by
  obtain ⟨first, before, rfl⟩ := List.exists_cons_of_ne_nil below
  obtain ⟨parent, up, above⟩ := above_of_concat shape named
  refine ⟨parent, up, above.nonempty, above.rooted, ?_⟩
  obtain ⟨idle, split, idles⟩ : ∃ idle, before = dropIdleEnd before ++ idle ∧ ∀ name ∈ idle, isIdle name = true :=
    dropEndWhile_split before
  rcases above.names with same | ⟨rfl, none, top⟩
  · exact ⟨first :: dropIdleEnd before, idle, [], congrArg (first :: ·) split, by simp [same], idles, by simp⟩
  · rw [none, List.nil_append] at split
    exact ⟨[""], idle, [""], congrArg ("" :: ·) split, top, idles, by simp [isIdle]⟩

/-- Going up from a path that ends in two names drops the last. -/
theorem parent?_names {folder : String} (shape : names path = front ++ [folder] ++ [name])
    (named : isIdle folder = false) (named' : isIdle name = false) :
    ∃ parent, parent? path = some parent ∧ names parent = front ++ [folder] := by
  cases front with
  | nil =>
    have shape : names path = folder :: ([] ++ [name]) := shape
    obtain ⟨parent, up, above⟩ := above_of_concat shape named'
    refine ⟨parent, up, above.names.resolve_right ?_⟩
    rintro ⟨rfl, _⟩
    cases named
  | cons first before =>
    have shape : names path = first :: (before ++ [folder] ++ [name]) := shape
    obtain ⟨parent, up, above⟩ := above_of_concat shape named'
    have names := above.names
    rw [dropIdleEnd_concat named] at names
    refine ⟨parent, up, names.resolve_right ?_⟩
    rintro ⟨_, none, _⟩
    simp at none

/-- The names of a parent begin those of the path, unless the parent is the top. -/
theorem parent?_prefix (up : parent? path = some parent) (visible : parent ≠ "") :
    isRooted parent = isRooted path ∧ (names parent <+: names path ∨ names parent = ["", ""]) := by
  obtain ⟨first, later, shape⟩ := List.exists_cons_of_ne_nil (names_ne_nil path)
  by_cases kept : dropIdleEnd later = []
  · unfold parent? at up
    simp only [shape, List.drop_one, List.tail_cons, kept] at up
    split at up
    · cases up
    · split at up
      · cases up
      · cases up
        exact absurd rfl visible
  · obtain ⟨parent', up', above⟩ := above_of_kept shape kept
    obtain rfl := Option.some.inj (up.symm.trans up')
    refine ⟨above.rooted, ?_⟩
    rcases above.names with same | ⟨_, _, top⟩
    · left
      obtain ⟨dropped, split, _⟩ : ∃ dropped, later = dropIdleEnd later ++ dropped ∧ _ := dropEndWhile_split later
      obtain ⟨dropped', split', _⟩ : ∃ dropped, (dropIdleEnd later).dropLast =
        dropIdleEnd (dropIdleEnd later).dropLast ++ dropped ∧ _ := dropEndWhile_split (dropIdleEnd later).dropLast
      have inner : dropIdleEnd (dropIdleEnd later).dropLast <+: (dropIdleEnd later).dropLast := ⟨dropped', split'.symm⟩
      have outer : dropIdleEnd later <+: later := ⟨dropped, split.symm⟩
      rw [same, shape]
      exact (List.prefix_cons_inj first).mpr ((inner.trans (List.dropLast_prefix _)).trans outer)
    · exact .inr top

end Parents

end SpellPack.Proofs.PathNames
