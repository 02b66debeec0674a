import SpellPack.FileSystem.Basic
import SpellPack.Pack.Assembly

/-! Packages as directories. -/

namespace SpellPack

/-- Writes the files in the order of their paths, each after the directories it needs. -/
def Package.writeSteps (package : Package) (root : String) : List FileSystem.Step :=
  package.files.entries.flatMap fun (relative, text) =>
    let path := Path.join root relative
    match Path.parent? path with
    | some parent => [.makeDirectories parent, .write path text]
    | none => [.write path text]

def FileSystem.writePackage {m : Type → Type} [Monad m] (system : FileSystem m) (root : String)
    (package : Package) : m (Except Error Unit) :=
  system.perform (package.writeSteps root)

end SpellPack
