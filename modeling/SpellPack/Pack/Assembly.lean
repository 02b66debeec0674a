import SpellPack.Error
import SpellPack.Pack.Files
import SpellPack.Pack.PointFile
import SpellPack.Pack.RayFile
import SpellPack.Text.Slug

/-! The pack of a whole document. -/

namespace SpellPack

structure Package where
  spellId : String
  loadedSpellId : String
  files : Files
  deriving DecidableEq

namespace Document

def spellId (document : Document) : String := Text.slug document.name

/-- A spell that names no other to load is loaded itself. -/
def loadedSpellId (document : Document) : String :=
  if Text.isBlankText document.loadedSpell then document.spellId
  else Text.slug document.loadedSpell

def context (document : Document) : SpellContext where
  name := Text.trim document.name
  delay := document.spellDelay
  loadedSpellId := document.loadedSpellId

def pointText (document : Document) (index : Nat) (point : Point) : String :=
  PointFile.text document.context point index (index == 0) (index + 1 == document.points.length)

def activationLines (document : Document) : List String :=
  (Text.commandLines document.finishCommands).map Macro.markLine ++
    document.enabledRays.flatMap fun (ray, index) =>
      RayFile.activationLines ray index document.spellId

def pointFiles (document : Document) : List (String × String) :=
  document.points.zipIdx.map fun (point, index) =>
    (Layout.pointPath document.spellId index, Text.closeLines (document.pointText index point))

def rayFiles (document : Document) : List (String × String) :=
  document.enabledRays.map fun (ray, index) =>
    (Layout.rayPath document.spellId index,
      Text.closeLines (RayFile.text ray index document.spellId))

def activationFile (document : Document) : String × String :=
  (Layout.activationPath document.loadedSpellId,
    Text.closeLines (Text.joinLines document.activationLines))

/-- All files of the pack. Of files with one path the last counts. -/
def packFiles (document : Document) : List (String × String) :=
  (Layout.manifestPath, Layout.manifest document.author) ::
    document.pointFiles ++ document.rayFiles ++ [document.activationFile]

/-- A spell needs a name before it can be packed. -/
def assemble (document : Document) : Except Error Package :=
  if Text.isBlankText document.name then .error .missingName
  else
    .ok {
      spellId := document.spellId
      loadedSpellId := document.loadedSpellId
      files := Files.ofList document.packFiles }

/-- The text of one point while the document is edited. A name is not needed. -/
def previewPoint (document : Document) (index : Nat) : Except Error String :=
  match document.points[index]? with
  | some point => .ok (document.pointText index point)
  | none => .error (.pointOutOfRange index document.points.length)

/-- Assembles the document and hands the package to a writer, which is not called
when there is nothing to write. -/
def publish [Monad m] (document : Document) (write : Package → m (Except Error Unit)) :
    m (Except Error Package) :=
  match document.assemble with
  | .error error => pure (.error error)
  | .ok package => return (← write package).map fun _ => package

end Document
end SpellPack
