import SpellPack.Json.Numeral
import SpellPack.Json.Quoted

/-! Reading a document text. The depth of brackets bounds the recursion, the size of
the text every loop, so no input runs out of either before it is at fault. -/

namespace SpellPack.Json

def isSpace (c : Char) : Bool := c == ' ' || c == '\n' || c == '\t' || c == '\r'

def skipSpace (text : List Char) : List Char := text.dropWhile isSpace

/-- Compares one character at a time with the rest of a word that has begun. -/
def readWord (value : Value) : List Char → Reader Value
  | [], text => .ok (value, text)
  | _ :: _, [] => .error (.after .endInValue [])
  | expected :: later, c :: text =>
    if c = expected then readWord value later text else .error (.before .noWord (c :: text))

/-- Reads the items after the first one, each behind a comma, up to the closing bracket. -/
def readLaterItems (readItem : Reader Value) : (size : Nat) → Reader (List Value)
  | 0, text => .error (.before .endInList text)
  | size + 1, text =>
    match skipSpace text with
    | [] => .error (.before .endInList [])
    | ']' :: rest => .ok ([], rest)
    | ',' :: rest =>
      match skipSpace rest with
      | ']' :: rest => .error (.before .trailingComma (']' :: rest))
      | text => do
        let (item, rest) ← readItem text
        let (later, rest) ← readLaterItems readItem size rest
        pure (item :: later, rest)
    | text => .error (.before .noListSeparator text)

def readItems (readItem : Reader Value) (size : Nat) : Reader (List Value) := fun text =>
  match skipSpace text with
  | [] => .error (.before .endInList [])
  | ']' :: rest => .ok ([], rest)
  | text => do
    let (item, rest) ← readItem text
    let (later, rest) ← readLaterItems readItem size rest
    pure (item :: later, rest)

/-- Reads a field from behind the opening quote of its name. -/
def readField (readItem : Reader Value) (size : Nat) : Reader (String × Value) := fun text => do
  let (name, rest) ← readString size text
  match skipSpace rest with
  | [] => throw (.before .endInObject [])
  | ':' :: rest => do
    let (value, rest) ← readItem rest
    pure ((name, value), rest)
  | text => throw (.before .noColon text)

/-- Reads the fields after the first one. Of fields with one name the last counts. -/
def readLaterFields (readItem : Reader Value) (size : Nat) (known : Fields) :
    (rounds : Nat) → Reader Fields
  | 0, text => .error (.before .endInObject text)
  | rounds + 1, text =>
    match skipSpace text with
    | [] => .error (.before .endInObject [])
    | '}' :: rest => .ok (known, rest)
    | ',' :: rest =>
      match skipSpace rest with
      | [] => .error (.before .endInValue [])
      | '"' :: text => do
        let ((name, value), rest) ← readField readItem size text
        readLaterFields readItem size (setField name value known) rounds rest
      | '}' :: rest => .error (.before .trailingComma ('}' :: rest))
      | text => .error (.before .noKey text)
    | text => .error (.before .noFieldSeparator text)

def readFields (readItem : Reader Value) (size : Nat) : Reader Fields := fun text =>
  match skipSpace text with
  | [] => .error (.before .endInObject [])
  | '}' :: rest => .ok ([], rest)
  | '"' :: text => do
    let (field, rest) ← readField readItem size text
    readLaterFields readItem size [field] size rest
  | text => .error (.before .noKey text)

/-- Reads a value in which brackets are nested at most `depth` deep. -/
def readValue (size : Nat) : (depth : Nat) → Reader Value
  | depth, text =>
    match skipSpace text with
    | [] => .error (.before .endInValue [])
    | 'n' :: rest => readWord .null ['u', 'l', 'l'] rest
    | 't' :: rest => readWord (.bool true) ['r', 'u', 'e'] rest
    | 'f' :: rest => readWord (.bool false) ['a', 'l', 's', 'e'] rest
    | '"' :: rest => do
      let (value, rest) ← readString size rest
      pure (.string value, rest)
    | '[' :: rest =>
      match depth with
      | 0 => .error (.before .tooDeep ('[' :: rest))
      | inner + 1 => do
        let (items, rest) ← readItems (readValue size inner) size rest
        pure (.array items, rest)
    | '{' :: rest =>
      match depth with
      | 0 => .error (.before .tooDeep ('{' :: rest))
      | inner + 1 => do
        let (fields, rest) ← readFields (readValue size inner) size rest
        pure (.object fields, rest)
    | c :: rest =>
      if c == '-' || c.isDigit then do
        let (value, rest) ← readNumber (c :: rest)
        pure (.number value, rest)
      else .error (.before .noValue (c :: rest))

def maxDepth : Nat := 127

/-- Reads a text that holds one value and nothing else but space. -/
def readAll (text : List Char) : Except Fault Value := do
  let (value, rest) ← readValue text.length maxDepth text
  match skipSpace rest with
  | [] => pure value
  | rest => throw (.before .trailingText rest)

def Value.ofText (source : String) : Except ReadError Value :=
  let text := source.toList
  (readAll text).mapError (·.locate text)

end SpellPack.Json
