import SpellPack.Decimal.Numeral
import SpellPack.Document.Editing
import SpellPack.Document.Writing
import SpellPack.Error
import SpellPack.Json.Reader
import SpellPack.Text.Lines

/-! Reading a document from its written form or from the older layout of the editor's
storage. Fields are read leniently: what is missing or malformed takes its default. -/

namespace SpellPack

namespace Json.Value

/-- The text that a value stands for where a text is expected. -/
def stringify : Value → String
  | string text => text
  | null => ""
  | other => other.compact

/-- Numbers may also be given as text. -/
def lenientNumber? : Value → Option Binary64.Finite
  | number value => value.toBinary64.finite?
  | string text => (Binary64.ofText? (Text.trim text)).bind Binary64.finite?
  | _ => none

end Json.Value

namespace Json.Fields

def text (fields : Fields) (key : String) : String :=
  match fields.lookup key with
  | some value => value.stringify
  | none => ""

def flag? (fields : Fields) (key : String) : Option Bool :=
  (fields.lookup key).bind Value.bool?

def number? (fields : Fields) (key : String) : Option Binary64.Finite :=
  (fields.lookup key).bind Value.lenientNumber?

def number (fields : Fields) (key : String) : Binary64 :=
  .finite ((fields.number? key).getD .zero)

/-- The nearest integer of 64 bits on the side of zero. -/
def integer? (fields : Fields) (key : String) : Option Int64 :=
  (fields.number? key).map fun value =>
    .ofInt (max Int64.minValue.toInt (min value.truncate Int64.maxValue.toInt))

/-- A position in a list, zero unless it is positive. -/
def index (fields : Fields) (key : String) : Nat :=
  match fields.number? key with
  | some value => min value.truncate.toNat (UInt64.size - 1)
  | none => 0

def array (fields : Fields) (key : String) : List Value :=
  ((fields.lookup key).bind Value.items?).getD []

/-- The objects of an array. Other items are passed over. -/
def objects (fields : Fields) (key : String) : List Fields :=
  (fields.array key).filterMap Value.fields?

def texts (fields : Fields) (key : String) : List String :=
  (fields.array key).map Value.stringify

end Json.Fields

open Json (Value Fields)

/-- The count next to a number on the side of zero, at most what 32 bits hold. -/
def countOf (value : Binary64.Finite) : UInt32 :=
  .ofNat (min value.truncate.toNat (UInt32.size - 1))

def Offset.ofFields (fields : Fields) : Offset :=
  ⟨fields.number "x", fields.number "y", fields.number "z"⟩

def Point.ofFields (fields : Fields) : Point where
  commands := fields.texts "commands"
  offset := (((fields.lookup "offset").bind Value.fields?).map Offset.ofFields).getD {}

/-- Whatever stands in the place of a point is one. -/
def Point.ofJson (value : Value) : Point := (value.fields?.map Point.ofFields).getD {}

def Particle.ofFields (fields : Fields) : Particle where
  name := fields.text "name"
  dx := fields.number "dx"
  dy := fields.number "dy"
  dz := fields.number "dz"
  speed := fields.number "speed"
  count := countOf ((fields.number? "count").getD .zero)

def Check.ofFields (fields : Fields) : Check where
  subject := fields.text "subject"
  command := fields.text "command"
  passThrough := (fields.flag? "passThrough").getD false
  invert := (fields.flag? "invert").getD false

/-- A step limit that is given but malformed counts as zero, which one replaces. -/
def Ray.ofFields (fields : Fields) : Ray where
  name := fields.text "name"
  enabled := (fields.flag? "enabled").getD true
  step := .finite (((fields.number? "step").filter (·.isPositive)).getD defaultStep)
  maxSteps :=
    match fields.lookup "maxSteps" with
    | none => defaultMaxSteps
    | some value => max (countOf (value.lenientNumber?.getD .zero)) 1
  particles := (fields.objects "particles").map Particle.ofFields
  blockChecks := (fields.objects "blockChecks").map Check.ofFields
  entityChecks := (fields.objects "entityChecks").map Check.ofFields

namespace Document

/-- Points are the one field that is not repaired: a document without them has one. -/
def readPoints (fields : Fields) : Except ImportFault (List Point) :=
  match fields.lookup "points" with
  | none => .ok [{}]
  | some (.array items) => .ok (items.map Point.ofJson)
  | some _ => .error .pointsNotArray

def ofCurrent (fields : Fields) : Except ImportFault Document := do
  let points ← readPoints fields
  pure <| normalize {
    name := fields.text "name"
    author := fields.text "author"
    spellDelay := (fields.integer? "spellDelay").getD defaultDelay
    loadedSpell := fields.text "loadedSpell"
    finishCommands := fields.texts "finishCommands"
    points
    rays := (fields.objects "rays").map Ray.ofFields
    selectedIndex := fields.index "selectedIndex" }

/-- Loaded by a spell of the older layout that names none. -/
def legacyLoadedSpell : String := "incendio"

/-- In the older layout a delay of zero was no delay, and the finish commands were one text. -/
def ofLegacy (fields : Fields) : Except ImportFault Document := do
  let settings := ((fields.lookup "settings").bind Value.fields?).getD []
  let loadedSpell := settings.text "loadedSpell"
  let points ← readPoints fields
  pure <| normalize {
    name := fields.text "spellName"
    spellDelay := ((settings.integer? "delay").filter (· ≠ 0)).getD defaultDelay
    loadedSpell := if loadedSpell.isEmpty then legacyLoadedSpell else loadedSpell
    finishCommands := Text.lines (fields.text "afterFunction")
    points
    selectedIndex := fields.index "selected" }

def isLegacy (fields : Fields) : Bool :=
  ["spellName", "settings", "afterFunction"].any fun key => (fields.lookup key).isSome

/-- The version counts as a number, so it may be written with a point. -/
def isCurrentVersion (version : Value) : Bool :=
  match version.number? with
  | some number => number.sameNumber (.ofInt schemaVersion)
  | none => false

def ofFields (fields : Fields) : Except ImportFault Document :=
  match fields.lookup "schemaVersion" with
  | none => if isLegacy fields then ofLegacy fields else ofCurrent fields
  | some version =>
    if isCurrentVersion version then ofCurrent fields
    else .error (.unsupportedVersion version)

def ofJson (value : Value) : Except Error Document :=
  (match value with
  | .object fields => ofFields fields
  | _ => .error .notObject).mapError .invalidDocument

def ofText (source : String) : Except Error Document := do
  let value ← (Value.ofText source).mapError (.invalidDocument ∘ .notJson)
  ofJson value

/-- Opening a document in the editor selects its first point. -/
def opened (source : String) : Except Error Document :=
  (ofText source).map fun document => { document with selectedIndex := 0 }

end Document
end SpellPack
