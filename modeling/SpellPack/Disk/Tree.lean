import SpellPack.Disk.Access
import SpellPack.Pack.Files

/-! Reading a directory with all that lies below it. Links below it are passed over;
the directory itself may be given as a link. -/

namespace SpellPack.Disk

open FileSystem (Fault)

/-- The entry of a path itself, which a link at its end is too. A slash at the end asks
for what the link leads to. -/
def entryAt (disk : Disk) (path : String) : Except Fault Key := do
  match ← disk.locate path with
  | .directory key => pure key
  | .entry directory name endsInSlash =>
    if endsInSlash then disk.resolve path
    else
      match ← disk.look directory name with
      | some _ => pure (directory ++ [name])
      | none => throw .notFound

/-- The names below a key, if another key lies there. -/
def namesBelow? (key : Key) (other : Key) : Option (List String) :=
  if key.isPrefixOf other && key.length < other.length then some (other.drop key.length) else none

/-- A directory is listed by its path. One whose path is too long is passed over with all
that lies below it. -/
def isListed (root : String) (names : List String) : Bool :=
  names.isEmpty || (Path.join root ("/".intercalate names)).utf8ByteSize ≤ maxPathBytes

/-- The regular files below a directory by their paths from there, in byte order. -/
def filesBelow (disk : Disk) (root : String) (key : Key) : List String :=
  (disk.nodes.filterMap fun (other, node) =>
    match namesBelow? key other, node with
    | some names, .file _ =>
      if isListed root names.dropLast then some ("/".intercalate names) else none
    | _, _ => none).mergeSort fun a b => decide (a ≤ b)

/-- The files that a path holds. If it is a file itself, the path from there is empty. -/
def filesAt (disk : Disk) (root : String) : List String :=
  match disk.entryAt root with
  | .error _ => []
  | .ok key =>
    match disk.get? key with
    | some (.file _) => [""]
    | some .directory => disk.filesBelow root key
    | some (.link _) =>
      match disk.resolve root with
      | .ok target =>
        if (disk.get? target).any Node.isDirectory then disk.filesBelow root target else []
      | .error _ => []
    | none => []

/-- A backslash in a name is given as a slash. -/
def readFiles (disk : Disk) (root : String) : List String → Except Error (List (String × String))
  | [] => .ok []
  | relative :: later => do
    let path := if relative.isEmpty then root else Path.join root relative
    let text ← ((disk.readBytes path).bind FileSystem.decode).mapError (.io .read path)
    let entries ← readFiles disk root later
    pure ((relative.map fun c => if c == '\\' then '/' else c, text) :: entries)

/-- The texts of all files that a path holds, by their paths from there. A path that
leads to nothing holds none. -/
def readTree (disk : Disk) (root : String) : Except Error Files := do
  let entries ← disk.readFiles root (disk.filesAt root)
  pure (Files.ofList entries)

end SpellPack.Disk
