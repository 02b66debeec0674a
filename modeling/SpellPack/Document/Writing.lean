import SpellPack.Document.Basic
import SpellPack.Json.Text

/-! The written form of a document. Numbers that are not finite have no written form
and become null. -/

namespace SpellPack

namespace Json.Value

def ofBinary64 : Binary64 → Value
  | .finite x => .number (.real x)
  | _ => .null

def ofInt (n : Int) : Value := .number (.integer n)

def ofTexts (texts : List String) : Value := .array (texts.map .string)

end Json.Value

open Json (Value Fields)

def Offset.toJson (offset : Offset) : Value :=
  .object [
    ("x", .ofBinary64 offset.x),
    ("y", .ofBinary64 offset.y),
    ("z", .ofBinary64 offset.z)]

def Point.toJson (point : Point) : Value :=
  .object [("commands", .ofTexts point.commands), ("offset", point.offset.toJson)]

def Particle.toJson (particle : Particle) : Value :=
  .object [
    ("name", .string particle.name),
    ("dx", .ofBinary64 particle.dx),
    ("dy", .ofBinary64 particle.dy),
    ("dz", .ofBinary64 particle.dz),
    ("speed", .ofBinary64 particle.speed),
    ("count", .ofInt particle.count.toNat)]

def Check.toJson (check : Check) : Value :=
  .object [
    ("subject", .string check.subject),
    ("command", .string check.command),
    ("passThrough", .bool check.passThrough),
    ("invert", .bool check.invert)]

def Ray.toJson (ray : Ray) : Value :=
  .object [
    ("name", .string ray.name),
    ("enabled", .bool ray.enabled),
    ("step", .ofBinary64 ray.step),
    ("maxSteps", .ofInt ray.maxSteps.toNat),
    ("particles", .array (ray.particles.map Particle.toJson)),
    ("blockChecks", .array (ray.blockChecks.map Check.toJson)),
    ("entityChecks", .array (ray.entityChecks.map Check.toJson))]

namespace Document

def schemaVersion : Nat := 3

def toFields (document : Document) : Fields := [
  ("name", .string document.name),
  ("author", .string document.author),
  ("spellDelay", .ofInt document.spellDelay.toInt),
  ("loadedSpell", .string document.loadedSpell),
  ("finishCommands", .ofTexts document.finishCommands),
  ("points", .array (document.points.map Point.toJson)),
  ("rays", .array (document.rays.map Ray.toJson)),
  ("selectedIndex", .ofInt document.selectedIndex)]

def toJson (document : Document) : Value :=
  .object (("schemaVersion", .ofInt schemaVersion) :: document.toFields)

def toText (document : Document) : String := document.toJson.indented 0

end Document
end SpellPack
