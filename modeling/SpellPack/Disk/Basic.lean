import SpellPack.FileSystem.Basic

/-! A file tree: directories, regular files and symbolic links. It is a map from the
names that lead to an entry, and the empty list of names leads to the top. -/

namespace SpellPack.Disk

inductive Node where
  | directory
  | file (bytes : ByteArray)
  | link (target : String)

def Node.isDirectory : Node → Bool
  | directory => true
  | _ => false

/-- The names that lead to an entry from the top of the tree. -/
abbrev Key := List String

end Disk

/-- Relative paths begin at `home`. -/
structure Disk where
  nodes : List (Disk.Key × Disk.Node) := []
  home : Disk.Key := []

namespace Disk

/-- An entry that is put again keeps its place. -/
def putNode (key : Key) (node : Node) : List (Key × Node) → List (Key × Node)
  | [] => [(key, node)]
  | (other, held) :: later =>
    if other = key then (key, node) :: later else (other, held) :: putNode key node later

/-- Holds nothing but the way to where relative paths begin. -/
def empty (home : Key) : Disk := { home }

/-- The directories on the way home are always there. -/
def isOnWayHome (disk : Disk) (key : Key) : Bool := key.isPrefixOf disk.home

def get? (disk : Disk) (key : Key) : Option Node :=
  if disk.isOnWayHome key then some .directory else disk.nodes.lookup key

def put (disk : Disk) (key : Key) (node : Node) : Disk :=
  { disk with nodes := putNode key node disk.nodes }

theorem lookup_putNode (key other : Key) (node : Node) (nodes : List (Key × Node)) :
    (putNode key node nodes).lookup other = if other = key then some node else nodes.lookup other := by
  induction nodes with
  | nil =>
    by_cases same : other = key
    · subst same; simp [putNode]
    · simp [putNode, same]
  | cons first later ih =>
    obtain ⟨name, held⟩ := first
    have differs {a b : Key} (apart : ¬a = b) : (a == b) = false := by simpa using apart
    by_cases found : name = key
    · subst found
      by_cases same : other = name
      · simp [putNode, same]
      · simp [putNode, List.lookup_cons, same, differs same]
    · by_cases here : other = name
      · simp [putNode, found, here]
      · simp [putNode, found, List.lookup_cons, differs here, ih]

theorem get?_put (disk : Disk) {key : Key} (apart : disk.isOnWayHome key = false) (other : Key)
    (node : Node) :
    (disk.put key node).get? other = if other = key then some node else disk.get? other := by
  have way : (disk.put key node).isOnWayHome other = disk.isOnWayHome other := rfl
  rw [get?, get?, way]
  by_cases home : disk.isOnWayHome other = true
  · have differs : other ≠ key := by rintro rfl; simp [apart] at home
    simp [home, differs]
  · simpa [home, put] using lookup_putNode key other node disk.nodes

end SpellPack.Disk
