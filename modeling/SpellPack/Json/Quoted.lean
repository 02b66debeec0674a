import SpellPack.Json.Fault

/-! Strings in documents. A character outside the first plane may be escaped as a
pair of surrogates; a surrogate without its partner is an error. -/

namespace SpellPack.Json

def hexValue? (c : Char) : Option Nat :=
  if '0' ≤ c ∧ c ≤ '9' then some (c.toNat - '0'.toNat)
  else if 'a' ≤ c ∧ c ≤ 'f' then some (c.toNat - 'a'.toNat + 10)
  else if 'A' ≤ c ∧ c ≤ 'F' then some (c.toNat - 'A'.toNat + 10)
  else none

def hexUnit? (a b c d : Char) : Option Nat := do
  let a ← hexValue? a
  let b ← hexValue? b
  let c ← hexValue? c
  let d ← hexValue? d
  pure (((a * 16 + b) * 16 + c) * 16 + d)

/-- Takes four bytes, which a character outside ASCII may straddle. -/
def readUnit : Reader Nat := fun text =>
  let found : Option (Nat × List Char) :=
    match text with
    | a :: b :: c :: d :: rest => (hexUnit? a b c d).map fun unit => (unit, rest)
    | _ => none
  match found with
  | some unit => .ok unit
  | none =>
    if byteCount (text.take 4) < 4 then .error (.after .endInString [])
    else .error ⟨.badEscape, text, 4⟩

def isLeading (unit : Nat) : Bool := 0xD800 ≤ unit && unit ≤ 0xDBFF

def isTrailing (unit : Nat) : Bool := 0xDC00 ≤ unit && unit ≤ 0xDFFF

/-- Reads the partner of a leading surrogate. -/
def readPartner (leading : Nat) : Reader Char
  | [] | ['\\'] => .error (.after .endInString [])
  | '\\' :: 'u' :: text => do
    let (unit, rest) ← readUnit text
    if isTrailing unit then
      pure (Char.ofNat (0x10000 + (leading - 0xD800) * 0x400 + (unit - 0xDC00)), rest)
    else throw (.after .loneSurrogate rest)
  | '\\' :: text => .error (.before .brokenPair text)
  | text => .error (.before .brokenPair text)

/-- Reads what follows the backslash. -/
def readEscape : Reader Char
  | [] => .error (.after .endInString [])
  | 'u' :: text => do
    let (unit, rest) ← readUnit text
    if isTrailing unit then throw (.after .loneSurrogate rest)
    else if isLeading unit then readPartner unit rest
    else pure (Char.ofNat unit, rest)
  | c :: rest =>
    match c with
    | '"' | '\\' | '/' => .ok (c, rest)
    | 'b' => .ok ('\x08', rest)
    | 'f' => .ok ('\x0c', rest)
    | 'n' => .ok ('\n', rest)
    | 'r' => .ok ('\r', rest)
    | 't' => .ok ('\t', rest)
    | _ => .error (.before .badEscape (c :: rest))

/-- Reads up to the closing quote, at most `size` characters. -/
def readChars : (size : Nat) → Reader (List Char)
  | _, [] => .error (.after .endInString [])
  | _, '"' :: rest => .ok ([], rest)
  | 0, text => .error (.after .endInString text)
  | size + 1, '\\' :: text => do
    let (c, rest) ← readEscape text
    let (later, rest) ← readChars size rest
    pure (c :: later, rest)
  | size + 1, c :: text =>
    if c.toNat < 0x20 then .error (.before .controlCharacter (c :: text))
    else do
      let (later, rest) ← readChars size text
      pure (c :: later, rest)

/-- Reads what follows the opening quote. -/
def readString (size : Nat) : Reader String := fun text => do
  let (chars, rest) ← readChars size text
  pure (String.ofList chars, rest)

end SpellPack.Json
