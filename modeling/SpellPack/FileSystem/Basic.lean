import SpellPack.Error
import SpellPack.FileSystem.Path

/-! What a program asks of a file system, and what it makes of the answers. The same
programs run on the real file system and on a tree held in memory. -/

namespace SpellPack

/-- The accesses that a file system offers to programs in `m`. -/
structure FileSystem (m : Type → Type) where
  makeDirectory : String → m (Except FileSystem.Fault Unit)
  isDirectory : String → m Bool
  read : String → m (Except FileSystem.Fault ByteArray)
  write : String → String → m (Except FileSystem.Fault Unit)

namespace FileSystem

variable {m : Type → Type} [Monad m] (system : FileSystem m)

/-- Climbs to the first ancestor that is there or can be made, and returns those below
it, the uppermost first. -/
def climb : List String → List String → m (Except Fault (List String))
  | [], missing => pure (.ok missing)
  | path :: above, missing => do
    match ← system.makeDirectory path with
    | .ok () => pure (.ok missing)
    | .error .notFound => climb above (path :: missing)
    | .error .alreadyExists =>
      if ← system.isDirectory path then pure (.ok missing) else pure (.error .alreadyExists)
    | .error fault => pure (.error fault)

/-- Makes directories one below the other. -/
def makeEach : List String → m (Except Fault Unit)
  | [] => pure (.ok ())
  | path :: below => do
    match ← system.makeDirectory path with
    | .ok () => makeEach below
    | .error .alreadyExists =>
      if ← system.isDirectory path then makeEach below else pure (.error .alreadyExists)
    | .error fault => pure (.error fault)

/-- Makes a directory with all that are missing above it. Those made on the way to a
failure stay. -/
def makeDirectories (path : String) : m (Except Fault Unit) := do
  match ← system.climb (Path.ancestors path) [] with
  | .ok missing => system.makeEach missing
  | .error fault => pure (.error fault)

/-- A change that a program asks for. -/
inductive Step where
  | makeDirectories (path : String)
  | write (path text : String)
  deriving DecidableEq, Repr

def runStep : Step → m (Except Error Unit)
  | .makeDirectories path => return (← system.makeDirectories path).mapError (.io .create path)
  | .write path text => return (← system.write path text).mapError (.io .write path)

/-- Runs steps up to the first that fails. -/
def perform : List Step → m (Except Error Unit)
  | [] => pure (.ok ())
  | step :: later => do
    match ← system.runStep step with
    | .ok () => perform later
    | .error error => pure (.error error)

/-- The text that the bytes of a file encode. -/
def decode (bytes : ByteArray) : Except Fault String :=
  match String.fromUTF8? bytes with
  | some text => .ok text
  | none => .error .notUtf8

end FileSystem
end SpellPack
