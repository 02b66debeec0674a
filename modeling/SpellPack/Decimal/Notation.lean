import SpellPack.Decimal.Shortest

/-! The two ways in which numbers are written: in documents so that they read back,
in commands to hundredths. -/

namespace SpellPack

namespace Decimal

def zeros (count : Nat) : String := String.ofList (List.replicate count '0')

/-- Scientific exponents that are still written out with all their places. -/
def leastPositional : Int := -5

def greatestPositional : Int := 15

/-- Writes `coefficient * 10 ^ exponent`. A numeral without exponent always has a point,
and an exponent always has a sign. -/
def documentText (coefficient : Nat) (exponent : Int) : String :=
  let digits := Nat.toDigits 10 coefficient
  let scientific := exponent + (digits.length - 1 : Nat)
  if leastPositional ≤ scientific ∧ scientific ≤ greatestPositional then
    if 0 ≤ exponent then String.ofList digits ++ zeros exponent.toNat ++ ".0"
    else if 0 ≤ scientific then
      let whole := scientific.toNat + 1
      String.ofList (digits.take whole) ++ "." ++ String.ofList (digits.drop whole)
    else "0." ++ zeros (-scientific - 1).toNat ++ String.ofList digits
  else
    let lead := String.ofList (digits.take 1)
    let rest := digits.drop 1
    let mantissa := if rest.isEmpty then lead else lead ++ "." ++ String.ofList rest
    let sign := if scientific < 0 then "-" else "+"
    mantissa ++ "e" ++ sign ++ toString scientific.natAbs

end Decimal

namespace Binary64

/-- The text of a number in a document: the fewest digits that read back. -/
def Finite.documentText (x : Finite) : String :=
  let unsigned :=
    if x.rank = 0 then "0.0"
    else
      let (multiple, grid) := Decimal.shortest x.rank
      let (coefficient, exponent) := Decimal.stripZeros multiple grid
      Decimal.documentText coefficient exponent
  if x.negative then "-" ++ unsigned else unsigned

/-- The integer magnitude that `Finite.commandText` writes for an integral value: the fewest
digits that read back, filled up with zeros. -/
def Finite.wholeDigits (x : Finite) : Nat :=
  if x.rank = 0 then 0
  else
    let (multiple, grid) := Decimal.shortest x.rank
    multiple * Nat.pow 10 grid.toNat

/-- Writes a count of hundredths without zeros at the end. -/
def hundredthsText (count : Nat) : String :=
  let whole := toString (count / 100)
  let tenths := count % 100 / 10
  let rest := count % 10
  if rest ≠ 0 then whole ++ "." ++ toString tenths ++ toString rest
  else if tenths ≠ 0 then whole ++ "." ++ toString tenths
  else whole

/-- The exact value to the nearest hundredth, a tie to the even one. -/
def Finite.hundredths (x : Finite) : Nat :=
  divHalfEven (x.magnitude * 100) unitsPerOne

/-- The text of a number in a command. Zero has no sign there. -/
def Finite.commandText (x : Finite) : String :=
  let hundredths := if x.isIntegral then x.wholeDigits * 100 else x.hundredths
  let unsigned := hundredthsText hundredths
  if x.negative && hundredths ≠ 0 then "-" ++ unsigned else unsigned

/-- What is not finite counts as zero. -/
def commandText : Binary64 → String
  | .finite x => x.commandText
  | _ => "0"

end Binary64
end SpellPack
