import SpellPack.Decimal.Notation
import SpellPack.Document.Basic
import SpellPack.Text.Lines

/-! The function file of one point: its commands, framed by the bookkeeping that leads
to the next point or, after the last one, to the spell that is then loaded. -/

namespace SpellPack

/-- What every point file of a spell may refer to. -/
structure SpellContext where
  name : String
  delay : Int64
  loadedSpellId : String

namespace PointFile

/-- Stands in a preview for a name that is yet to be entered. -/
def namePlaceholder : String := "<spellName>"

def userData : String := "$data modify storage spellcast:user_data \"$(UUID)\""

def headerLine (name : String) : String :=
  let shown := Text.singleLine name
  userData ++ ".current_point.spell_name set value " ++
    if shown.isEmpty then namePlaceholder else shown

def spawnLine (offset : Offset) : String :=
  "$function spellcasting:spawn_spell_point \x7bUUID:$(UUID),ox:" ++ offset.x.commandText ++
    ",oy:" ++ offset.y.commandText ++ ",oz:" ++ offset.z.commandText ++ "\x7d"

/-- Other functions match these lines one by one, so their wording is fixed. -/
def footerLines (context : SpellContext) : List String := [
  "# Set Spell Delay // add option to change on website",
  "scoreboard players set @s spell_delay " ++ toString context.delay.toInt,
  "",
  "# Set function to run after delay // add option to change on website // " ++
    "this is what happens after the spell is completed",
  userData ++ ".loaded_spell set value " ++ context.loadedSpellId,
  "",
  "# Keep this exact formatting",
  "$kill @e[tag=spell_pos,nbt=\x7bdata:\x7bowner:$(UUID)\x7d\x7d]",
  "$kill @e[tag=spell_point,nbt=\x7bdata:\x7bowner:$(UUID)\x7d\x7d]",
  "",
  "# This is the same"]

def nextLine (index : Nat) : String :=
  userData ++ ".current_point.next_func set value " ++ toString (index + 1)

def fileLines (context : SpellContext) (point : Point) (index : Nat) (isFirst isLast : Bool) :
    List String :=
  (if isFirst then [headerLine context.name] else []) ++
    Text.commandLines point.commands ++
    (if isLast then footerLines context else [spawnLine point.offset]) ++
    [nextLine index]

def text (context : SpellContext) (point : Point) (index : Nat) (isFirst isLast : Bool) : String :=
  Text.joinLines (fileLines context point index isFirst isLast)

end PointFile
end SpellPack
