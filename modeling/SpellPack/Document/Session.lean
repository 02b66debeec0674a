import SpellPack.Document.Reading

/-! An editing session: edits that follow one another, each with its reply. -/

namespace SpellPack

inductive Edit where
  | addPoint
  | selectPoint (index : Nat)
  | clearCommands
  | deletePoint
  | addCommand (command : String)
  | setOffset (offset : Offset)
  | resetOffset
  | setOffsetFromGrid (x y : Binary64)
  | addRay
  | removeRay (index : Nat)
  | normalize
  | load (source : String)

/-- What an edit tells beside the new document. -/
inductive Reply where
  | none
  | pointDeleted (deleted : Bool)
  | rayAdded (index : Nat)
  | rayRemoved (ray : Option Ray)
  | loaded (result : Except Error Unit)

namespace Edit

/-- An edit that is refused leaves the document as it was. -/
def run (document : Document) : Edit → Reply × Document
  | addPoint => (.none, document.addPoint)
  | selectPoint index => (.none, document.selectPoint index)
  | clearCommands => (.none, document.clearSelectedCommands)
  | deletePoint =>
    match document.deleteSelectedPoint? with
    | some shorter => (.pointDeleted true, shorter)
    | none => (.pointDeleted false, document)
  | addCommand command => (.none, document.addCommand command)
  | setOffset offset => (.none, document.setSelectedOffset offset)
  | resetOffset => (.none, document.resetSelectedOffset)
  | setOffsetFromGrid x y => (.none, document.setSelectedOffsetFromGrid x y)
  | addRay => (.rayAdded document.rays.length, document.addRay)
  | removeRay index =>
    match document.removeRay? index with
    | some (ray, shorter) => (.rayRemoved (some ray), shorter)
    | none => (.rayRemoved none, document)
  | normalize => (.none, document.normalize)
  | load source =>
    match Document.opened source with
    | .ok opened => (.loaded (.ok ()), opened)
    | .error error => (.loaded (.error error), document)

end Edit

/-- The replies of a session and the document that it ends with. -/
def Document.edit (document : Document) : List Edit → List Reply × Document
  | [] => ([], document)
  | first :: later =>
    let (reply, edited) := first.run document
    let (replies, final) := edited.edit later
    (reply :: replies, final)

end SpellPack
