/-! Macro tokens: a dollar sign and a name in parentheses. A name holds no dollar
sign, so two tokens never overlap, and reading one at every position finds all. -/

namespace SpellPack.Macro

/-- A character of a macro name. Names are ASCII. -/
def isNameChar (c : Char) : Bool :=
  ('A' ≤ c && c ≤ 'Z') || ('a' ≤ c && c ≤ 'z') || ('0' ≤ c && c ≤ '9') || c == '_'

/-- The name of the token with which the text begins. -/
def tokenName? : List Char → Option (List Char)
  | '$' :: '(' :: rest =>
    let name := rest.takeWhile isNameChar
    if !name.isEmpty && (rest.dropWhile isNameChar).head? == some ')' then some name else none
  | _ => none

/-- The names of all tokens, in the order in which they stand. -/
def tokenNames : List Char → List (List Char)
  | [] => []
  | c :: rest => (tokenName? (c :: rest)).toList ++ tokenNames rest

/-- Keeps the first of equal items. -/
def firstSeen [DecidableEq α] : List α → List α
  | [] => []
  | item :: later => item :: (firstSeen later).filter (· ≠ item)

def hasToken (text : String) : Bool :=
  !(tokenNames text.toList).isEmpty

/-- The macro names of several fields. Each field is read on its own, so no token
begins in one field and ends in the next. -/
def names (fields : List String) : List String :=
  firstSeen (fields.flatMap fun field => (tokenNames field.toList).map String.ofList)

/-- The game expands the tokens of a line only if the line begins with a dollar sign. -/
def markLine (line : String) : String :=
  if hasToken line && line.toList.head? != some '$' then "$" ++ line else line

end SpellPack.Macro
