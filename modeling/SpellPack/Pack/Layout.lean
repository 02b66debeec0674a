import SpellPack.Json.Text
import SpellPack.Text.Blank

/-! Where the files of a pack lie, and how its functions are called. -/

namespace SpellPack.Layout

def manifestPath : String := "pack.mcmeta"

def spellsRoot : String := "data/spellcasting/function/spells"

def functionFile (stem : String) : String := stem ++ ".mcfunction"

def pointPath (spellId : String) (index : Nat) : String :=
  functionFile (spellsRoot ++ "/patterns/" ++ spellId ++ "/" ++ toString index)

def rayPath (spellId : String) (index : Nat) : String :=
  functionFile (spellsRoot ++ "/" ++ spellId ++ "/ray_tick_" ++ toString index)

def activationPath (loadedSpellId : String) : String :=
  functionFile (spellsRoot ++ "/activate/" ++ loadedSpellId)

/-- The id by which a ray's file is called. -/
def rayFunction (spellId : String) (index : Nat) : String :=
  "spellcasting:spells/" ++ spellId ++ "/ray_tick_" ++ toString index

def packFormat : Nat := 81

def leastFormat : Nat := 45

def packDescription : String := "Spellcasting extension pack"

/-- A blank author is not mentioned. -/
def description (author : String) : String :=
  if Text.isBlankText author then packDescription
  else packDescription ++ " by " ++ Text.trim author

def manifestLines (author : String) : List String := [
  "\x7b",
  "  \"pack\": \x7b",
  "    \"pack_format\": " ++ toString packFormat ++ ",",
  "    \"description\": " ++ Json.quote (description author) ++ ",",
  "    \"supported_formats\": \x7b",
  "      \"min_inclusive\": " ++ toString leastFormat ++ ",",
  "      \"max_inclusive\": " ++ toString packFormat,
  "    \x7d",
  "  \x7d",
  "\x7d"]

def manifest (author : String) : String :=
  "\n".intercalate (manifestLines author) ++ "\n"

end SpellPack.Layout
