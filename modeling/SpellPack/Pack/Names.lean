import SpellPack.Document.Basic
import SpellPack.Text.Slug

/-! Names under which a spell leaves the editor. -/

namespace SpellPack.Document

/-- The name of the file that a document is exported to. -/
def exportFileName (document : Document) : String :=
  Text.slug document.name ++ ".json"

def defaultPackageName : String := "Spell_Name"

/-- Characters that would end a path component or break a listing. -/
def isUnsafeInName (c : Char) : Bool :=
  c == '/' || c == '\\' || c == ':' || Text.isControl c

/-- The name of the package directory, as typed as far as that is safe. Leading dots go,
since a name of dots alone leads out of the directory it is meant for. -/
def packageName (document : Document) : String :=
  let typed := Text.trimmed document.name.toList
  let cleaned := (typed.map fun c => if isUnsafeInName c then '_' else c).dropWhile (· == '.')
  if cleaned.all Text.isBlank then defaultPackageName else String.ofList cleaned

end SpellPack.Document
