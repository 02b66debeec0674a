import SpellPack.Binary64.Rounding

/-! Values of the data format in which documents are kept. -/

namespace SpellPack.Json

/-- An integer of 64 bits, with or without sign, stays exact. All else is a double. -/
inductive Number where
  | integer (value : Int)
  | real (value : Binary64.Finite)
  deriving DecidableEq

def Number.toBinary64 : Number → Binary64
  | .integer value => .ofInt value
  | .real value => .finite value

/-- The fields of an object stand in the order in which they first appeared. -/
inductive Value where
  | null
  | bool (value : Bool)
  | number (value : Number)
  | string (value : String)
  | array (items : List Value)
  | object (fields : List (String × Value))

abbrev Fields := List (String × Value)

/-- A field that is set again keeps its place and takes the new value. -/
def setField (key : String) (value : Value) : Fields → Fields
  | [] => [(key, value)]
  | (name, held) :: later =>
    if name = key then (name, value) :: later
    else (name, held) :: setField key value later

namespace Value

def fields? : Value → Option Fields
  | object fields => some fields
  | _ => none

def items? : Value → Option (List Value)
  | array items => some items
  | _ => none

def bool? : Value → Option Bool
  | bool value => some value
  | _ => none

def number? : Value → Option Binary64
  | number value => some value.toBinary64
  | _ => none

end Value
end SpellPack.Json
