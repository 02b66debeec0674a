import SpellPack.Binary64.Rounding

/-! Decimal numerals and the doubles nearest to them. -/

namespace SpellPack

/-- The number `± coefficient * 10 ^ exponent`. The sign is kept for zero too. -/
structure Decimal where
  negative : Bool
  coefficient : Nat
  exponent : Int
  deriving DecidableEq, Repr

namespace Decimal

/-- Past this exponent one is already infinite, and so far below zero nothing but zero is near. -/
def exponentReach : Nat := 400

/-- The rank of the double nearest to `coefficient * 10 ^ exponent`. Exponents out of
reach are settled without the power. -/
def rank (coefficient : Nat) : Int → Nat
  | .ofNat places =>
    if coefficient = 0 then 0
    else if exponentReach < places then Binary64.rankLimit
    else Binary64.nearestRank (coefficient * Nat.pow 10 places * Binary64.unitsPerOne) 1
  | .negSucc places =>
    if exponentReach + coefficient.log2 < places then 0
    else Binary64.nearestRank (coefficient * Binary64.unitsPerOne) (Nat.pow 10 (places + 1))

def toBinary64 (d : Decimal) : Binary64 :=
  .ofRank d.negative (rank d.coefficient d.exponent)

end Decimal
end SpellPack
