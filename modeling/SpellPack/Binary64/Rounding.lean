import SpellPack.Binary64.Basic

/-! Correct rounding. Every operation rounds its exact result to the nearest
double, a tie to the even rank, so one division on natural numbers decides all. -/

namespace SpellPack

/-- The integer nearest to the quotient; a tie goes to the even one. -/
def divHalfEven (num den : Nat) : Nat :=
  let quotient := num / den
  let twice := 2 * (num % den)
  if twice < den then quotient
  else if den < twice then quotient + 1
  else quotient + quotient % 2

/-- The integer nearest to the quotient; a tie goes up. -/
def divHalfUp (num den : Nat) : Nat :=
  (2 * num + den) / (2 * den)

namespace Binary64

/-- The rank of the double nearest to `num / den` units. The spacing is read off the
length of the quotient; a result that rounds up to the next power of two carries
into the next block by itself. -/
def nearestRank (num den : Nat) : Nat :=
  let shift := (num / den).log2 - 52
  shift * blockSize + divHalfEven num (den * Nat.pow 2 shift)

def natRank (n : Nat) : Nat := nearestRank (n * unitsPerOne) 1

def mulRank (a b : Nat) : Nat := nearestRank (units a * units b) unitsPerOne

def divRank (a b : Nat) : Nat := nearestRank (units a * unitsPerOne) (units b)

/-- The double nearest to an integer. -/
def ofInt (n : Int) : Binary64 :=
  .ofRank (n < 0) (natRank n.natAbs)

end Binary64
end SpellPack
