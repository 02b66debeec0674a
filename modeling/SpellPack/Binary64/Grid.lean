import SpellPack.Binary64.Rounding

/-! The drag grid of the editor: hundredths of a block between the two edges. -/

namespace SpellPack.Binary64

/-- Half the width of the grid, in blocks. -/
def gridEdge : Nat := 3

/-- Moves a value beyond an edge onto it. -/
def clampToGrid : Binary64 → Binary64
  | .nan => .nan
  | .infinite negative => .ofRank negative (natRank gridEdge)
  | .finite x =>
    if gridEdge * unitsPerOne < x.magnitude then .ofRank x.negative (natRank gridEdge)
    else .finite x

/-- Rounds to hundredths, ties away from zero. Scaling rounds before and after. -/
def toHundredths : Binary64 → Binary64
  | .finite x =>
    let scaled := units (mulRank x.rank (natRank 100))
    .ofRank x.negative (divRank (natRank (divHalfUp scaled unitsPerOne)) (natRank 100))
  | other => other

def snapToGrid (x : Binary64) : Binary64 := (clampToGrid x).toHundredths

end SpellPack.Binary64
