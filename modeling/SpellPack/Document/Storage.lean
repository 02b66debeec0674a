import SpellPack.Document.Reading
import SpellPack.FileSystem.Basic

/-! Documents as files. -/

namespace SpellPack

/-- Directories that the path needs are made. The file ends in a line break. -/
def Document.saveSteps (document : Document) (path : String) : List FileSystem.Step :=
  let directories :=
    match Path.parent? path with
    | some parent => if parent.isEmpty then [] else [.makeDirectories parent]
    | none => []
  directories ++ [.write path (document.toText ++ "\n")]

namespace FileSystem

variable {m : Type → Type} [Monad m] (system : FileSystem m)

def saveDocument (path : String) (document : Document) : m (Except Error Unit) :=
  system.perform (document.saveSteps path)

def loadDocument (path : String) : m (Except Error Document) := do
  let source := (← system.read path).bind decode
  return (source.mapError (.io .read path)).bind Document.ofText

end FileSystem
end SpellPack
