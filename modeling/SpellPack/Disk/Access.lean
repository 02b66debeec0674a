import SpellPack.Disk.Resolve

/-! The tree as a file system. -/

namespace SpellPack.Disk

open FileSystem (Fault)

/-- Makes one directory. -/
def makeDirectory (disk : Disk) (path : String) : Except Fault Disk := do
  match ← disk.locate path with
  | .directory _ => throw .alreadyExists
  | .entry directory name _ =>
    match ← disk.look directory name with
    | some _ => throw .alreadyExists
    | none => pure (disk.put (directory ++ [name]) .directory)

/-- The entry that a write replaces or makes. A link is followed even if it leads to
nothing yet. -/
def writeKey (disk : Disk) (path : String) : Except Fault Key := do
  let key ← disk.reach .write path
  if (disk.get? key).any Node.isDirectory then throw .isDirectory else pure key

def writeBytes (disk : Disk) (path : String) (bytes : ByteArray) : Except Fault Disk := do
  let key ← disk.writeKey path
  pure (disk.put key (.file bytes))

def writeText (disk : Disk) (path text : String) : Except Fault Disk :=
  disk.writeBytes path text.toUTF8

def makeLink (disk : Disk) (path target : String) : Except Fault Disk := do
  match ← disk.locate path with
  | .directory _ => throw .alreadyExists
  | .entry directory name endsInSlash =>
    match ← disk.look directory name with
    | some _ => throw .alreadyExists
    | none =>
      if endsInSlash then throw .notFound
      else pure (disk.put (directory ++ [name]) (.link target))

def readBytes (disk : Disk) (path : String) : Except Fault ByteArray := do
  let key ← disk.resolve path
  match disk.get? key with
  | some (.file bytes) => pure bytes
  | some .directory => throw .isDirectory
  | _ => throw .notFound

/-- An access that is refused leaves the tree as it was. -/
def change (access : Disk → Except Fault Disk) : StateM Disk (Except Fault Unit) := fun disk =>
  match access disk with
  | .ok changed => (.ok (), changed)
  | .error fault => (.error fault, disk)

/-- The tree as a file system. -/
def system : FileSystem (StateM Disk) where
  makeDirectory path := change (·.makeDirectory path)
  isDirectory path := fun disk => (disk.isDirectory path, disk)
  read path := fun disk => (disk.readBytes path, disk)
  write path text := change (·.writeText path text)

end SpellPack.Disk
