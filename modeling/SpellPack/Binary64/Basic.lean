/-! Double precision numbers as exact values. The finite magnitudes are numbered
from zero upward, so order is order of ranks and rounding yields a rank. All of
them are multiples of the smallest positive one, which serves as the unit. -/

namespace SpellPack

namespace Binary64

/-- How many consecutive ranks have one spacing. -/
def blockSize : Nat := Nat.pow 2 52

/-- The first rank past the largest finite magnitude. -/
def rankLimit : Nat := 2047 * blockSize

/-- How many units make one. -/
def unitsPerOne : Nat := Nat.pow 2 1074

/-- The magnitude of a rank in units. The ranks of the first two blocks are a single
unit apart, those of every later block twice as far as those of the block before. -/
def units (rank : Nat) : Nat :=
  let block := rank / blockSize
  if block = 0 then rank else (blockSize + rank % blockSize) * Nat.pow 2 (block - 1)

/-- A finite double: a sign, which zero has too, and the rank of the magnitude. -/
structure Finite where
  negative : Bool
  rank : Nat
  rank_lt : rank < rankLimit
  deriving DecidableEq

end Binary64

/-- A double. Whether two values that are not numbers differ is never observed. -/
inductive Binary64 where
  | nan
  | infinite (negative : Bool)
  | finite (value : Binary64.Finite)
  deriving DecidableEq

namespace Binary64

def Finite.zero : Finite := ⟨false, 0, by decide⟩

instance : Inhabited Finite := ⟨.zero⟩

instance : Inhabited Binary64 := ⟨.finite .zero⟩

def zero : Binary64 := .finite .zero

/-- A magnitude past the largest finite one is infinite. -/
def ofRank (negative : Bool) (rank : Nat) : Binary64 :=
  if inside : rank < rankLimit then .finite ⟨negative, rank, inside⟩ else .infinite negative

def Finite.ofRank? (negative : Bool) (rank : Nat) : Option Finite :=
  if inside : rank < rankLimit then some ⟨negative, rank, inside⟩ else none

def finite? : Binary64 → Option Finite
  | .finite value => some value
  | _ => none

/-- The exact magnitude in units. -/
def Finite.magnitude (x : Finite) : Nat := units x.rank

def Finite.isPositive (x : Finite) : Bool := !x.negative && x.rank != 0

def Finite.isIntegral (x : Finite) : Bool := x.magnitude % unitsPerOne == 0

/-- The integer next to the value on the side of zero. -/
def Finite.truncate (x : Finite) : Int :=
  let whole : Int := (x.magnitude / unitsPerOne : Nat)
  if x.negative then -whole else whole

/-- Equality of numbers: zero has two signs, and what is not a number equals nothing. -/
def sameNumber : Binary64 → Binary64 → Bool
  | .nan, _ | _, .nan => false
  | .infinite a, .infinite b => a == b
  | .finite a, .finite b => a.rank == b.rank && (a.rank == 0 || a.negative == b.negative)
  | _, _ => false

end Binary64
end SpellPack
