import SpellPack.Pack.Files

/-! The files of a pack as a map. A file that is put in is found under its path, all
others stay as they were, and the map grows if and only if the path is new. -/

namespace SpellPack.Proofs.FileTable

theorem eq_of_not_lt {a b : String} (notBelow : ¬ a < b) (notAbove : ¬ b < a) : a = b :=
  String.le_antisymm (String.not_lt.1 notAbove) (String.not_lt.1 notBelow)

theorem lookup_cons (name : String) (held : α) (later : List (String × α)) (key : String) :
    List.lookup key ((name, held) :: later) = if key = name then some held else later.lookup key := by
  rw [List.lookup_cons]
  by_cases same : key = name
  · rw [if_pos same, beq_iff_eq.mpr same]
  · rw [if_neg same, beq_false_of_ne same]

theorem lookup_insertByKey (key : String) (value : α) (entries : List (String × α)) (other : String) :
    (insertByKey key value entries).lookup other = if other = key then some value else entries.lookup other := by
  induction entries with
  | nil => exact lookup_cons key value [] other
  | cons entry later ih =>
    obtain ⟨name, held⟩ := entry
    rw [insertByKey]
    split
    · exact lookup_cons key value _ other
    split
    · next below =>
      have different : name ≠ key := String.ne_of_lt below
      rw [lookup_cons, lookup_cons, ih]
      by_cases first : other = name
      · rw [if_pos first, if_pos first, if_neg (first ▸ different)]
      · rw [if_neg first, if_neg first]
    · next notBelow notAbove =>
      obtain rfl := eq_of_not_lt notBelow notAbove
      rw [lookup_cons, lookup_cons]
      split <;> rfl

theorem mem_keys_insertByKey (key : String) (value : α) (entries : List (String × α)) (other : String) :
    other ∈ (insertByKey key value entries).map Prod.fst ↔ other = key ∨ other ∈ entries.map Prod.fst := by
  induction entries with
  | nil => simp [insertByKey]
  | cons entry later ih =>
    obtain ⟨name, held⟩ := entry
    rw [insertByKey]
    split
    · simp
    split
    · rw [List.map_cons, List.mem_cons, ih, List.map_cons, List.mem_cons]
      grind
    · next notBelow notAbove =>
      obtain rfl := eq_of_not_lt notBelow notAbove
      simp

theorem length_insertByKey {key : String} {value : α} {entries : List (String × α)} (ascend : KeysAscend entries) :
    (insertByKey key value entries).length =
      if key ∈ entries.map Prod.fst then entries.length else entries.length + 1 := by
  induction entries with
  | nil => rfl
  | cons entry later ih =>
    obtain ⟨name, held⟩ := entry
    obtain ⟨above, rest⟩ := List.pairwise_cons.mp ascend
    rw [insertByKey]
    split
    · next below =>
      have fresh : key ∉ ((name, held) :: later).map Prod.fst := by
        intro member
        obtain ⟨found, inside, rfl⟩ := List.mem_map.mp member
        rcases List.mem_cons.mp inside with rfl | inside
        · exact String.lt_irrefl _ below
        · exact String.lt_irrefl _ (String.lt_trans below (above found inside))
      rw [if_neg fresh]
      rfl
    split
    · next notBelow below =>
      have different : key ≠ name := (String.ne_of_lt below).symm
      simp only [List.length_cons, ih rest, List.map_cons, List.mem_cons, different, false_or]
      split <;> rfl
    · next notBelow notAbove =>
      obtain rfl := eq_of_not_lt notBelow notAbove
      simp

section Files

variable (files : Files)

theorem get?_insert (path text other : String) :
    (files.insert path text).get? other = if other = path then some text else files.get? other :=
  lookup_insertByKey path text files.entries other

theorem mem_paths_insert (path text other : String) :
    other ∈ (files.insert path text).paths ↔ other = path ∨ other ∈ files.paths :=
  mem_keys_insertByKey path text files.entries other

theorem size_insert (path text : String) :
    (files.insert path text).size = if path ∈ files.paths then files.size else files.size + 1 :=
  length_insertByKey files.ascend

theorem insertAll_cons (entry : String × String) (later : List (String × String)) :
    files.insertAll (entry :: later) = (files.insert entry.1 entry.2).insertAll later := rfl

theorem get?_insertAll_of_new {entries : List (String × String)} {path : String}
    (new : path ∉ entries.map Prod.fst) : (files.insertAll entries).get? path = files.get? path := by
  induction entries generalizing files with
  | nil => rfl
  | cons entry later ih =>
    rw [List.map_cons, List.mem_cons, not_or] at new
    rw [insertAll_cons, ih _ new.2, get?_insert, if_neg new.1]

theorem get?_insertAll_of_mem {entries : List (String × String)} (distinct : (entries.map Prod.fst).Nodup)
    {entry : String × String} (member : entry ∈ entries) :
    (files.insertAll entries).get? entry.1 = some entry.2 := by
  induction entries generalizing files with
  | nil => cases member
  | cons first later ih =>
    obtain ⟨new, rest⟩ := List.nodup_cons.mp distinct
    rw [insertAll_cons]
    rcases List.mem_cons.mp member with rfl | inside
    · rw [get?_insertAll_of_new _ new, get?_insert, if_pos rfl]
    · exact ih _ rest inside

theorem mem_of_get?_insertAll {entries : List (String × String)} {path text : String}
    (found : (files.insertAll entries).get? path = some text) :
    (path, text) ∈ entries ∨ files.get? path = some text := by
  induction entries generalizing files with
  | nil => exact .inr found
  | cons entry later ih =>
    rw [insertAll_cons] at found
    rcases ih _ found with inside | before
    · exact .inl (List.mem_cons_of_mem entry inside)
    · rw [get?_insert] at before
      split at before
      · next same =>
        rw [same, ← Option.some.inj before]
        exact .inl List.mem_cons_self
      · exact .inr before

theorem mem_paths_insertAll (entries : List (String × String)) (path : String) :
    path ∈ (files.insertAll entries).paths ↔ path ∈ entries.map Prod.fst ∨ path ∈ files.paths := by
  induction entries generalizing files with
  | nil => simp [Files.insertAll]
  | cons entry later ih =>
    rw [insertAll_cons, ih, mem_paths_insert, List.map_cons, List.mem_cons]
    grind

theorem size_insertAll {entries : List (String × String)} (distinct : (entries.map Prod.fst).Nodup)
    (new : ∀ path ∈ entries.map Prod.fst, path ∉ files.paths) :
    (files.insertAll entries).size = files.size + entries.length := by
  induction entries generalizing files with
  | nil => rfl
  | cons entry later ih =>
    obtain ⟨first, rest⟩ := List.nodup_cons.mp distinct
    rw [List.map_cons, List.forall_mem_cons] at new
    have stillNew : ∀ path ∈ later.map Prod.fst, path ∉ (files.insert entry.1 entry.2).paths := by
      intro path member
      rw [mem_paths_insert, not_or]
      refine ⟨?_, new.2 path member⟩
      rintro rfl
      exact first member
    rw [insertAll_cons, ih _ rest stillNew, size_insert, if_neg new.1, List.length_cons]
    omega

end Files

theorem mem_paths_ofList (entries : List (String × String)) (path : String) :
    path ∈ (Files.ofList entries).paths ↔ path ∈ entries.map Prod.fst := by
  rw [Files.ofList, mem_paths_insertAll]
  exact or_iff_left (List.not_mem_nil (a := path))

/-- A file that is found was put in. -/
theorem mem_of_get?_ofList {entries : List (String × String)} {path text : String}
    (found : (Files.ofList entries).get? path = some text) : (path, text) ∈ entries := by
  rcases mem_of_get?_insertAll _ found with inside | before
  · exact inside
  · cases before

theorem size_ofList {entries : List (String × String)} (distinct : (entries.map Prod.fst).Nodup) :
    (Files.ofList entries).size = entries.length := by
  rw [Files.ofList, size_insertAll _ distinct]
  · exact Nat.zero_add _
  · intro path _
    exact List.not_mem_nil

/-- Of all entries the last one is put in last. -/
theorem ofList_concat (entries : List (String × String)) (last : String × String) :
    Files.ofList (entries ++ [last]) = (Files.ofList entries).insert last.1 last.2 := by
  simp [Files.ofList, Files.insertAll]

end SpellPack.Proofs.FileTable
