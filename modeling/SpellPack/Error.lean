import SpellPack.FileSystem.Fault
import SpellPack.Json.Fault
import SpellPack.Json.Text

/-! What can go wrong with a spell, and the words in which it is reported. -/

namespace SpellPack

/-- Why a value is no document. Everything else in it is repaired. -/
inductive ImportFault where
  | notJson (error : Json.ReadError)
  | notObject
  | unsupportedVersion (version : Json.Value)
  | pointsNotArray
  | other (reason : String)

def ImportFault.message : ImportFault → String
  | .notJson error => "not valid JSON: " ++ error.message
  | .notObject => "top level must be an object"
  | .unsupportedVersion version => "unsupported schemaVersion " ++ version.compact
  | .pointsNotArray => "points must be an array"
  | .other reason => reason

inductive Error where
  | missingName
  | invalidDocument (fault : ImportFault)
  | pointOutOfRange (index count : Nat)
  | notWritable (error : Json.ReadError)
  | io (access : FileSystem.Access) (path : String) (fault : FileSystem.Fault)

namespace Error

/-- Codes are stable; messages are for people. -/
def code : Error → String
  | missingName => "SPELL_NAME_MISSING"
  | invalidDocument _ => "IMPORT_DOCUMENT_INVALID"
  | pointOutOfRange _ _ => "POINT_INDEX_OUT_OF_RANGE"
  | notWritable _ => "DOCUMENT_SERIALIZE_FAILED"
  | io _ _ _ => "IO"

def message : Error → String
  | missingName => "Enter a spell name first."
  | invalidDocument fault => "Invalid spell document: " ++ fault.message
  | pointOutOfRange index count =>
    "Point index " ++ toString index ++ " is out of range for " ++ toString count ++ " point(s)."
  | notWritable error => "Failed to serialize spell document: " ++ error.message
  | io access path fault => "Failed to " ++ access.word ++ " " ++ path ++ ": " ++ fault.message

end Error
end SpellPack
