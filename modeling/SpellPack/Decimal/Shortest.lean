import SpellPack.Decimal.Basic

/-! The fewest digits that read back. A grid holds the multiples of one power of
ten. Grids are tried from coarse to fine, and on each only the two multiples next
to the value need a look: if any multiple reads back, one of those two does. -/

namespace SpellPack.Decimal

open Binary64 (units unitsPerOne)

/-- The value of a rank as a multiple of `10 ^ grid`, a numerator over a denominator. -/
def onGrid (rank : Nat) : Int → Nat × Nat
  | .ofNat places => (units rank, unitsPerOne * Nat.pow 10 places)
  | .negSucc places => (units rank * Nat.pow 10 (places + 1), unitsPerOne)

/-- The multiple next to the value that reads back: the nearer one if it does, a tie
going to the even one, and otherwise the one on the other side. -/
def readsBackOn? (rank : Nat) (grid : Int) : Option Nat :=
  let (num, den) := onGrid rank grid
  let near := divHalfEven num den
  let far := if near = num / den then near + 1 else num / den
  [near, far].find? fun multiple => Decimal.rank multiple grid == rank

/-- Tries `steps` grids from `grid` downward; the value must lie on the one after them. -/
def shortestFrom (rank : Nat) : Nat → Int → Nat × Int
  | 0, grid => let (num, den) := onGrid rank grid; (num / den, grid)
  | steps + 1, grid =>
    match readsBackOn? rank grid with
    | some multiple => (multiple, grid)
    | none => shortestFrom rank steps (grid - 1)

/-- A grid on which the value is at most ten steps from zero. The logarithm of two
to base ten lies between 0.30102 and 0.30103. -/
def coarsestGrid (rank : Nat) : Int :=
  let binaryPlaces : Int := (units rank).log2 + 1 - 1074
  if 0 ≤ binaryPlaces then binaryPlaces.toNat * 30103 / 100000
  else -(((-binaryPlaces).toNat * 30102 / 100000 : Nat) : Int) - 1

/-- A grid that holds the value. An integer lies on the grid of ones. -/
def finestGrid (rank : Nat) : Int :=
  if units rank % unitsPerOne = 0 then 0 else -1074

/-- A multiple and its grid, the coarsest on which the value of the rank reads back. -/
def shortest (rank : Nat) : Nat × Int :=
  let coarsest := coarsestGrid rank
  shortestFrom rank (coarsest - finestGrid rank).toNat coarsest

/-- Moves trailing zeros of the coefficient into the exponent. -/
def stripZeros (coefficient : Nat) (exponent : Int) : Nat × Int :=
  if trailing : 0 < coefficient ∧ coefficient % 10 = 0 then
    stripZeros (coefficient / 10) (exponent + 1)
  else (coefficient, exponent)
termination_by coefficient
decreasing_by omega

end SpellPack.Decimal
