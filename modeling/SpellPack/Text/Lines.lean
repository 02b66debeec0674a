import SpellPack.Text.Blank

/-! Lines of free text. A line ends at a line feed, together with one carriage
return directly before it. A carriage return elsewhere belongs to its line. -/

namespace SpellPack.Text

/-- A final line break ends the last line and starts no further one. -/
def splitLines : List Char → List (List Char)
  | [] => []
  | '\n' :: rest => [] :: splitLines rest
  | '\r' :: '\n' :: rest => [] :: splitLines rest
  | c :: rest =>
    match splitLines rest with
    | [] => [[c]]
    | line :: later => (c :: line) :: later

def lines (text : String) : List String :=
  (splitLines text.toList).map String.ofList

/-- The lines of a file that is yet to be closed by a line break. -/
def joinLines (lines : List String) : String :=
  "\n".intercalate lines

/-- Puts a free-text field on one line: control characters, line breaks among
them, become spaces before the field is trimmed. -/
def singleLine (text : String) : String :=
  String.ofList (trimmed (text.toList.map fun c => if isControl c then ' ' else c))

/-- The commands of a list of entries, each of which may hold several lines. -/
def commandLines (entries : List String) : List String :=
  ((entries.flatMap lines).map trim).filter fun line => !line.isEmpty

/-- Ends the text in exactly one line feed. -/
def closeLines (text : String) : String :=
  String.ofList (dropEndWhile (· == '\n') text.toList) ++ "\n"

end SpellPack.Text
