import SpellPack.Decimal.Numeral
import SpellPack.Json.Fault
import SpellPack.Json.Value

/-! Numbers in documents. The digits go into a significand of 64 bits, which becomes
a double and is then scaled by a power of ten. Each step rounds, so the result is not
always the double nearest to the numeral. -/

namespace SpellPack.Json

/-- Appends digits to a number that stays below the limit. The first digit that would
break it and all after it are returned. -/
def absorb (limit number : Nat) : List Char → Nat × List Char
  | [] => (number, [])
  | digit :: later =>
    let next := Nat.ofDigitChars 10 [digit] number
    if next < limit then absorb limit next later else (number, digit :: later)

def significandLimit : Nat := UInt64.size

def exponentLimit : Nat := Nat.pow 2 31

/-- The largest power of ten by which a double is scaled in one step. -/
def greatestPower : Nat := 308

def powerRank (places : Nat) : Nat := Binary64.natRank (Nat.pow 10 places)

/-- Divides by `10 ^ places`, in steps if there are too many places. -/
def descend (rank places : Nat) : Nat :=
  if _fits : places ≤ greatestPower then Binary64.divRank rank (powerRank places)
  else if rank = 0 then 0
  else descend (Binary64.divRank rank (powerRank greatestPower)) (places - greatestPower)
termination_by places
decreasing_by simp only [greatestPower] at *; omega

/-- Scales a significand, or fails if the result is infinite. -/
def scale? (negative : Bool) (significand : Nat) (exponent : Int) : Option Binary64.Finite :=
  let rank := Binary64.natRank significand
  match exponent with
  | .ofNat places =>
    if places ≤ greatestPower then
      Binary64.Finite.ofRank? negative (Binary64.mulRank rank (powerRank places))
    else if rank = 0 then Binary64.Finite.ofRank? negative 0
    else none
  | .negSucc places => Binary64.Finite.ofRank? negative (descend rank (places + 1))

/-- A numeral without point and exponent. A negative zero is no integer. -/
def wholeNumber? (negative : Bool) (significand : Nat) : Option Number :=
  if !negative then some (.integer significand)
  else if significand ≠ 0 ∧ significand ≤ Nat.pow 2 63 then some (.integer (-significand))
  else (scale? negative significand 0).map .real

def realNumber (negative : Bool) (significand : Nat) (exponent : Int) : Reader Number :=
  fun rest =>
    match scale? negative significand exponent with
    | some value => .ok (.real value, rest)
    | none => .error (.after .numberOutOfRange rest)

/-- Reads what follows the exponent mark. -/
def readExponent (negative : Bool) (significand : Nat) (places : Int) : Reader Number := fun text =>
  let (below, unsigned) := Decimal.readSign text
  let digits := unsigned.takeWhile Char.isDigit
  let rest := unsigned.dropWhile Char.isDigit
  match unsigned with
  | [] => .error (.after .endInValue [])
  | _ :: _ =>
    if digits.isEmpty then .error (.before .badNumber unsigned)
    else
      match absorb exponentLimit 0 digits with
      | (exponent, []) =>
        realNumber negative significand (if below then places - exponent else places + exponent) rest
      | (_, _ :: excess) =>
        if significand ≠ 0 ∧ !below then .error (.after .numberOutOfRange (excess ++ rest))
        else realNumber negative 0 0 rest

/-- Reads what follows the point. -/
def readFraction (negative : Bool) (significand : Nat) (places : Int) : Reader Number := fun text =>
  let digits := text.takeWhile Char.isDigit
  let rest := text.dropWhile Char.isDigit
  if digits.isEmpty then
    .error (.before (if text.isEmpty then .endInValue else .badNumber) text)
  else
    let (significand, ignored) := absorb significandLimit significand digits
    let places := places - (digits.length - ignored.length : Nat)
    match rest with
    | 'e' :: rest | 'E' :: rest => readExponent negative significand places rest
    | rest => realNumber negative significand places rest

/-- Reads what follows the sign. Nothing but a single zero may begin with zero. -/
def readUnsigned (negative : Bool) : Reader Number := fun text =>
  let digits := text.takeWhile Char.isDigit
  let rest := text.dropWhile Char.isDigit
  match digits with
  | [] =>
    .error (if text.isEmpty then .after .endInValue text else .before .badNumber text)
  | '0' :: _ :: _ => .error (.before .badNumber (text.drop 1))
  | digits =>
    let (significand, excess) := absorb significandLimit 0 digits
    match rest with
    | '.' :: rest => readFraction negative significand excess.length rest
    | 'e' :: rest | 'E' :: rest => readExponent negative significand excess.length rest
    | rest =>
      if excess.isEmpty then
        match wholeNumber? negative significand with
        | some number => .ok (number, rest)
        | none => .error (.after .numberOutOfRange rest)
      else realNumber negative significand excess.length rest

def readNumber : Reader Number
  | '-' :: rest => readUnsigned true rest
  | text => readUnsigned false text

end SpellPack.Json
