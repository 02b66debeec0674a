import SpellPack.Disk.Basic

/-! From paths to entries. Links are followed on the way, and a bound on how many
ends a cycle. -/

namespace SpellPack.Disk

open FileSystem (Fault)

def maxNameBytes : Nat := 255

def maxPathBytes : Nat := 4095

def maxLinks : Nat := 40

/-- Looks a name up in a directory. -/
def look (disk : Disk) (directory : Key) (name : String) : Except Fault (Option Node) :=
  if maxNameBytes < name.utf8ByteSize then .error .nameTooLong
  else .ok (disk.get? (directory ++ [name]))

/-- What a path is followed for: an entry that is there, or one to be written. -/
inductive Goal where
  | find
  | write
  deriving DecidableEq, Repr

/-- Nothing is left of a path but slashes at its end. -/
def areSlashes (names : List String) : Bool :=
  !names.isEmpty && names.all String.isEmpty

/-- Follows names from a directory. `visit` goes on from a link, with the names that the
link stands for in front of those still to follow. What is to be written may be missing
under its last name, but a slash there would make it a directory. -/
def walk (disk : Disk) (goal : Goal) (visit : Key → List String → Except Fault Key) :
    Key → List String → Except Fault Key
  | here, [] => .ok here
  | here, name :: later =>
    if Path.isIdle name then walk disk goal visit here later
    else if name == ".." then walk disk goal visit here.dropLast later
    else if goal == .write && areSlashes later then .error .isDirectory
    else
      match disk.look here name with
      | .error fault => .error fault
      | .ok none =>
        if goal == .write && later.isEmpty then .ok (here ++ [name]) else .error .notFound
      | .ok (some .directory) => walk disk goal visit (here ++ [name]) later
      | .ok (some (.file _)) => if later.isEmpty then .ok (here ++ [name]) else .error .notDirectory
      | .ok (some (.link target)) =>
        visit (if Path.isRooted target then [] else here) (Path.names target ++ later)

/-- Follows names through at most `links` links, on the way and at the end together. -/
def follow (disk : Disk) (goal : Goal) : (links : Nat) → Key → List String → Except Fault Key
  | 0 => walk disk goal fun _ _ => .error .tooManyLinks
  | links + 1 => walk disk goal (follow disk goal links)

/-- The names of a path, if the system takes it for one. -/
def namesOf (path : String) : Except Fault (List String) :=
  if path.toList.contains '\x00' then .error .nulInPath
  else if path.isEmpty then .error .notFound
  else if maxPathBytes < path.utf8ByteSize then .error .nameTooLong
  else .ok (Path.names path)

/-- Where following a path begins: at the top if the path is rooted. -/
def start (disk : Disk) (path : String) : Key :=
  if Path.isRooted path then [] else disk.home

/-- Follows all names of a path, links at its end too. -/
def reach (disk : Disk) (goal : Goal) (path : String) : Except Fault Key := do
  follow disk goal maxLinks (disk.start path) (← namesOf path)

/-- The entry of a path, links followed to the end. -/
def resolve (disk : Disk) (path : String) : Except Fault Key := disk.reach .find path

/-- Where names lead when the last one is yet to be looked up: a name in a directory, or
the directory itself if the last name is a dot or two. -/
inductive Spot where
  | entry (directory : Key) (name : String) (endsInSlash : Bool)
  | directory (key : Key)

/-- Drops the empty names that slashes at the end of a path leave. -/
def dropSlashEnd (names : List String) : List String := Text.dropEndWhile (· == "") names

/-- Follows all names but the last. What they lead to has to be a directory. -/
def locate (disk : Disk) (path : String) : Except Fault Spot := do
  let names ← namesOf path
  let named := dropSlashEnd names
  match named.getLast? with
  | none => pure (.directory [])
  | some last =>
    let directory ← follow disk .find maxLinks (disk.start path) (named.dropLast ++ [""])
    if last == "." then pure (.directory directory)
    else if last == ".." then pure (.directory directory.dropLast)
    else pure (.entry directory last (named.length < names.length))

def isDirectory (disk : Disk) (path : String) : Bool :=
  match disk.resolve path with
  | .ok key => (disk.get? key).any Node.isDirectory
  | .error _ => false

end SpellPack.Disk
