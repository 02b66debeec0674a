import SpellPack.Decimal.Notation
import SpellPack.Json.Value

/-! Written values. The compact form sorts the fields of an object by name and stays
on one line whatever its strings hold; the indented form keeps their order. -/

namespace SpellPack.Json

/-- Only quotes, backslashes and the characters below the space are escaped. -/
def escapeChar (c : Char) : List Char :=
  if c = '"' then ['\\', '"']
  else if c = '\\' then ['\\', '\\']
  else if c = '\x08' then ['\\', 'b']
  else if c = '\t' then ['\\', 't']
  else if c = '\n' then ['\\', 'n']
  else if c = '\x0c' then ['\\', 'f']
  else if c = '\r' then ['\\', 'r']
  else if c.toNat < 0x20 then
    ['\\', 'u', '0', '0', Nat.digitChar (c.toNat / 16), Nat.digitChar (c.toNat % 16)]
  else [c]

def quote (text : String) : String :=
  String.ofList ('"' :: text.toList.flatMap escapeChar ++ ['"'])

def Number.text : Number → String
  | .integer value => toString value
  | .real value => value.documentText

def boolText (value : Bool) : String := if value then "true" else "false"

namespace Value

mutual

def compact : Value → String
  | null => "null"
  | bool value => boolText value
  | number value => value.text
  | string value => quote value
  | array items => "[" ++ ",".intercalate (compactItems items) ++ "]"
  | object fields =>
    let sorted := (compactFields fields).mergeSort fun a b => decide (a.1 ≤ b.1)
    "\x7b" ++ ",".intercalate (sorted.map fun field => quote field.1 ++ ":" ++ field.2) ++ "\x7d"

def compactItems : List Value → List String
  | [] => []
  | item :: later => compact item :: compactItems later

def compactFields : Fields → List (String × String)
  | [] => []
  | (name, value) :: later => (name, compact value) :: compactFields later

end

def indent (depth : Nat) : String := String.ofList (List.replicate (2 * depth) ' ')

/-- One entry a line, one step further in than the brackets around them. -/
def block (left right : String) (depth : Nat) (entries : List String) : String :=
  if entries.isEmpty then left ++ right
  else
    left ++ "\n" ++ ",\n".intercalate (entries.map fun entry => indent (depth + 1) ++ entry) ++
      "\n" ++ indent depth ++ right

mutual

def indented (depth : Nat) : Value → String
  | null => "null"
  | bool value => boolText value
  | number value => value.text
  | string value => quote value
  | array items => block "[" "]" depth (indentedItems (depth + 1) items)
  | object fields => block "\x7b" "\x7d" depth (indentedFields (depth + 1) fields)

def indentedItems (depth : Nat) : List Value → List String
  | [] => []
  | item :: later => indented depth item :: indentedItems depth later

def indentedFields (depth : Nat) : Fields → List String
  | [] => []
  | (name, value) :: later =>
    (quote name ++ ": " ++ indented depth value) :: indentedFields depth later

end

end Value
end SpellPack.Json
