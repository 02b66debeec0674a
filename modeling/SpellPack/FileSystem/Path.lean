import SpellPack.Text.Blank
import SpellPack.Text.Pieces

/-! Paths as text. A program reports them as it was given them, so they are taken
apart and put together without being simplified. -/

namespace SpellPack.Path

/-- The names of a path, with an empty one for every slash too many. -/
def names (path : String) : List String := Text.pieces '/' path

def isRooted (path : String) : Bool := path.toList.head? == some '/'

/-- Appends a relative path. -/
def join (root relative : String) : String :=
  if root.isEmpty || isRooted relative then relative
  else if root.toList.getLast? == some '/' then root ++ relative
  else root ++ "/" ++ relative

/-- An empty name or a single dot leads nowhere. -/
def isIdle (name : String) : Bool := name == "" || name == "."

def dropIdleEnd (names : List String) : List String := Text.dropEndWhile isIdle names

/-- The path without its last name. A dot at the very start of a path is kept, since it
says that the path is relative. -/
def parent? (path : String) : Option String :=
  if isRooted path then
    match dropIdleEnd ((names path).drop 1) with
    | [] => none
    | kept => some ("/" ++ "/".intercalate (dropIdleEnd kept.dropLast))
  else
    match names path with
    | [] => none
    | first :: later =>
      match dropIdleEnd later with
      | [] => if first == "" then none else some ""
      | kept => some ("/".intercalate (first :: dropIdleEnd kept.dropLast))

/-- The path, its parent, and so on up to the last one that is not empty. -/
def ancestorsWithin : (length : Nat) → String → List String
  | 0, _ => []
  | length + 1, path =>
    if path.isEmpty then []
    else
      path ::
        match parent? path with
        | some parent => ancestorsWithin length parent
        | none => []

def ancestors (path : String) : List String :=
  ancestorsWithin path.length path

end SpellPack.Path
