import SpellPack.Binary64.Grid
import SpellPack.Document.Basic

/-! Edits of a document in the editor. A selection out of range stands for the last
point, and an edit of the selected point brings back a point if there is none. -/

namespace SpellPack.Document

/-- The place of the selected point, if there is a point at all. -/
def selection (document : Document) : Nat :=
  min document.selectedIndex (document.points.length - 1)

def selectPoint (document : Document) (index : Nat) : Document :=
  { document with selectedIndex := min index (document.points.length - 1) }

/-- Brings back a point and a selection in range. -/
def normalize (document : Document) : Document :=
  let points := if document.points.isEmpty then [{}] else document.points
  { document with points }.selectPoint document.selectedIndex

def selectedPoint? (document : Document) : Option Point :=
  document.points[document.selection]?

/-- Changes the selected point of the normalized document. -/
def editSelected (document : Document) (edit : Point → Point) : Document :=
  let document := document.normalize
  { document with points := document.points.modify document.selection edit }

def addPoint (document : Document) : Document :=
  { document with
    points := document.points ++ [{}]
    selectedIndex := document.points.length }

def clearSelectedCommands (document : Document) : Document :=
  document.editSelected fun point => { point with commands := [] }

def addCommand (document : Document) (command : String) : Document :=
  document.editSelected fun point => { point with commands := point.commands ++ [command] }

def setSelectedOffset (document : Document) (offset : Offset) : Document :=
  document.editSelected fun point => { point with offset }

def resetSelectedOffset (document : Document) : Document :=
  document.setSelectedOffset {}

/-- Drops the selected point on the grid. The height above the grid stays. -/
def setSelectedOffsetFromGrid (document : Document) (x y : Binary64) : Document :=
  document.editSelected fun point =>
    { point with offset := { point.offset with x := x.snapToGrid, y := y.snapToGrid } }

/-- Deletes the selected point and selects the one before it. The last point is never
deleted. -/
def deleteSelectedPoint? (document : Document) : Option Document :=
  if document.points.length ≤ 1 then none
  else
    some { document with
      points := document.points.eraseIdx document.selection
      selectedIndex := document.selection - 1 }

/-- The new ray is the last one. -/
def addRay (document : Document) : Document :=
  { document with rays := document.rays ++ [{}] }

/-- Returns the removed ray too. -/
def removeRay? (document : Document) (index : Nat) : Option (Ray × Document) :=
  document.rays[index]?.map fun ray =>
    (ray, { document with rays := document.rays.eraseIdx index })

end SpellPack.Document
