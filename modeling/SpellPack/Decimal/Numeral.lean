import SpellPack.Decimal.Basic

/-! Numerals in free text: an optional sign, digits with at most one point and at
least one digit on either side of it, and an optional exponent. -/

namespace SpellPack

namespace Decimal

/-- Splits off a leading sign. -/
def readSign : List Char → Bool × List Char
  | '-' :: rest => (true, rest)
  | '+' :: rest => (false, rest)
  | text => (false, text)

def ofDigits (digits : List Char) : Nat := Nat.ofDigitChars 10 digits 0

/-- The text after the digits: nothing, or an exponent with at least one digit. -/
def readExponent? : List Char → Option Int
  | [] => some 0
  | mark :: rest =>
    let (negative, digits) := readSign rest
    if (mark == 'e' || mark == 'E') && !digits.isEmpty && digits.all Char.isDigit then
      some (if negative then -(ofDigits digits : Int) else ofDigits digits)
    else none

def ofChars? (text : List Char) : Option Decimal :=
  let (negative, unsigned) := readSign text
  let whole := unsigned.takeWhile Char.isDigit
  let (fraction, rest) :=
    match unsigned.dropWhile Char.isDigit with
    | '.' :: rest => (rest.takeWhile Char.isDigit, rest.dropWhile Char.isDigit)
    | rest => ([], rest)
  if whole.isEmpty && fraction.isEmpty then none
  else
    (readExponent? rest).map fun exponent =>
      ⟨negative, ofDigits (whole ++ fraction), exponent - fraction.length⟩

end Decimal

namespace Binary64

/-- The words for values that no numeral denotes. Their case does not matter. -/
def ofWord? (text : List Char) : Option Binary64 :=
  let (negative, word) := Decimal.readSign text
  let small := String.ofList (word.map Char.toLower)
  if small == "nan" then some .nan
  else if small == "inf" || small == "infinity" then some (.infinite negative)
  else none

/-- Reads a numeral, correctly rounded, or one of the words. -/
def ofText? (text : String) : Option Binary64 :=
  match Decimal.ofChars? text.toList with
  | some decimal => some decimal.toBinary64
  | none => ofWord? text.toList

end Binary64
end SpellPack
