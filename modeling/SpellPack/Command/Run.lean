import SpellPack.Command.Arguments
import SpellPack.Document.Storage
import SpellPack.Pack.Names
import SpellPack.Pack.Storage

/-! What a command does. It is planned in full before anything is written, so a command
that fails for another reason than a refused write leaves the disk alone. -/

namespace SpellPack

/-- The changes that a command makes, and what it prints once they are made. -/
structure Plan where
  steps : List FileSystem.Step
  output : String

/-- What a command leaves on the terminal. -/
structure Outcome where
  code : Nat
  output : String
  deriving DecidableEq, Repr

namespace Command

/-- A new document keeps the author as typed, but not blanks around the name. -/
def newDocument (name author : Option String) : Document where
  name := (name.map Text.trim).getD ""
  author := author.getD ""

def savePlan (document : Document) (out : String) : Plan where
  steps := document.saveSteps out
  output := lineBlock ["RESULT:OK", "DOCUMENT:" ++ out]

def previewPlan (document : Document) (point : Option Nat) : Except Error Plan := do
  let text ← document.previewPoint (point.getD document.selectedIndex)
  pure ⟨[], text ++ "\n"⟩

def buildPlan (document : Document) (outDir : String) : Except Error Plan := do
  let directory := Path.join outDir document.packageName
  let package ← document.assemble
  pure {
    steps := package.writeSteps directory
    output := lineBlock <|
      ["RESULT:OK", "SPELL_ID:" ++ package.spellId, "PACKAGE_DIR:" ++ directory,
        "FILES:" ++ toString package.files.size] ++ package.files.paths.map ("FILE:" ++ ·) }

/-- Plans a command, given how a document is loaded. -/
def plan [Monad m] (load : String → m (Except Error Document)) : Command → m (Except Error Plan)
  | create out name author => pure (.ok (savePlan (newDocument name author) out))
  | preview path point => return (← load path).bind (previewPlan · point)
  | build path outDir => return (← load path).bind (buildPlan · outDir)
  | migrate path out => return (← load path).map (savePlan · out)
  | help page => pure (.ok ⟨[], page.text⟩)

end Command

namespace Outcome

/-- The code of a command line that is no command. What is wrong goes to another stream. -/
def usage : Outcome := ⟨2, ""⟩

/-- The outcome of a command that prints `output`, or fails. -/
def ofResult : Except Error String → Outcome
  | .ok output => ⟨0, output⟩
  | .error error =>
    ⟨1, lineBlock ["RESULT:ERROR", "ERROR_CODE:" ++ error.code,
      "ERROR_MSG_JSON:" ++ Json.quote error.message]⟩

end Outcome

namespace FileSystem

variable {m : Type → Type} [Monad m] (system : FileSystem m)

/-- Carries a command out and returns what it prints. -/
def carryOut (command : Command) : m (Except Error String) := do
  match ← command.plan system.loadDocument with
  | .error error => pure (.error error)
  | .ok plan => return (← system.perform plan.steps).map fun _ => plan.output

def runArguments (arguments : List String) : m Outcome := do
  match Command.ofArguments? arguments with
  | none => pure .usage
  | some command => return .ofResult (← system.carryOut command)

end FileSystem
end SpellPack
