/-! The files of a pack: texts by path, in byte order of the paths. -/

namespace SpellPack

/-- Puts an entry into a list in order. An entry with that key gives way. -/
def insertByKey (key : String) (value : α) : List (String × α) → List (String × α)
  | [] => [(key, value)]
  | (name, held) :: later =>
    if key < name then (key, value) :: (name, held) :: later
    else if name < key then (name, held) :: insertByKey key value later
    else (key, value) :: later

def KeysAscend (entries : List (String × α)) : Prop :=
  entries.Pairwise fun a b => a.1 < b.1

theorem mem_insertByKey {key : String} {value : α} {entries : List (String × α)}
    {entry : String × α} (held : entry ∈ insertByKey key value entries) :
    entry = (key, value) ∨ entry ∈ entries := by
  induction entries with
  | nil => simpa [insertByKey] using held
  | cons first later ih =>
    obtain ⟨name, text⟩ := first
    rw [insertByKey] at held
    split at held
    · simpa using held
    · split at held
      · rcases List.mem_cons.1 held with same | inside
        · simp [same]
        · rcases ih inside with same | older
          · exact .inl same
          · simp [older]
      · rcases List.mem_cons.1 held with same | older
        · exact .inl same
        · simp [older]

theorem KeysAscend.insertByKey {entries : List (String × α)} (ascend : KeysAscend entries)
    (key : String) (value : α) : KeysAscend (insertByKey key value entries) := by
  induction entries with
  | nil => simp [SpellPack.insertByKey, KeysAscend]
  | cons first later ih =>
    obtain ⟨name, text⟩ := first
    obtain ⟨above, rest⟩ := List.pairwise_cons.1 ascend
    rw [SpellPack.insertByKey]
    split
    · next below =>
      refine List.pairwise_cons.2 ⟨fun entry held => ?_, ascend⟩
      rcases List.mem_cons.1 held with same | inside
      · simpa [same] using below
      · exact String.lt_trans below (above entry inside)
    · next notBelow =>
      split
      · next below =>
        refine List.pairwise_cons.2 ⟨fun entry held => ?_, ih rest⟩
        rcases mem_insertByKey held with same | inside
        · simpa [same] using below
        · exact above entry inside
      · next notAbove =>
        have same : key = name :=
          String.le_antisymm (String.not_lt.1 notAbove) (String.not_lt.1 notBelow)
        subst same
        exact List.pairwise_cons.2 ⟨above, rest⟩

/-- Order makes the entries a canonical form: equal maps are equal lists. -/
structure Files where
  entries : List (String × String) := []
  ascend : KeysAscend entries := by exact List.Pairwise.nil
  deriving DecidableEq

namespace Files

def empty : Files := {}

def insert (files : Files) (path text : String) : Files :=
  ⟨insertByKey path text files.entries, files.ascend.insertByKey path text⟩

def insertAll (files : Files) (entries : List (String × String)) : Files :=
  entries.foldl (fun files entry => files.insert entry.1 entry.2) files

def ofList (entries : List (String × String)) : Files := empty.insertAll entries

def get? (files : Files) (path : String) : Option String := files.entries.lookup path

def size (files : Files) : Nat := files.entries.length

def paths (files : Files) : List String := files.entries.map Prod.fst

end Files
end SpellPack
