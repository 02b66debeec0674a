import SpellPack.Proofs.SessionRuns

/-! What the edits of the selected point change: that point, each in its way, and nothing else
of the normalized document. Several of them are one change of the same point. Of what was
just added a deletion leaves nothing behind. -/

namespace SpellPack.Proofs.SelectedPoint
open SessionRuns

def editsPoint : Edit → Bool
  | .clearCommands | .addCommand _ | .setOffset _ | .resetOffset | .setOffsetFromGrid _ _ => true
  | _ => false

def change (point : Point) : Edit → Point
  | .clearCommands => { point with commands := [] }
  | .addCommand command => { point with commands := point.commands ++ [command] }
  | .setOffset offset => { point with offset }
  | .resetOffset => { point with offset := {} }
  | .setOffsetFromGrid x y => { point with offset := ⟨x.snapToGrid, y.snapToGrid, point.offset.z⟩ }
  | _ => point

def changes (edits : List Edit) (point : Point) : Point := edits.foldl change point

/-- The edited document differs from the one before in its selected point only. -/
structure ChangesSelected (document edited : Document) (change : Point → Point) : Prop where
  rest : edited = { document with points := edited.points }
  length : edited.points.length = document.points.length
  others : ∀ index, index ≠ document.selectedIndex → edited.points[index]? = document.points[index]?
  selected : ∃ point, document.points[document.selectedIndex]? = some point ∧
    edited.points[document.selectedIndex]? = some (change point)

/-- One point is gone, those on either side of it are next to each other. -/
structure Deleted (document shorter : Document) : Prop where
  rest : shorter = { document with points := shorter.points, selectedIndex := shorter.selectedIndex }
  points : ∃ before point after, document.points = before ++ point :: after ∧ shorter.points = before ++ after ∧
    before.length = min document.selectedIndex (document.points.length - 1) ∧
    shorter.selectedIndex = before.length - 1

/-- All points are still there, and the one behind them is selected. -/
structure Added (document longer : Document) : Prop where
  rest : longer = { document with points := longer.points, selectedIndex := document.points.length }
  length : longer.points.length = document.points.length + 1
  kept : ∀ index, index < document.points.length → longer.points[index]? = document.points[index]?
  new : longer.points[document.points.length]? = some {}

section Edits

variable {document : Document}

theorem normalize_inOrder (order : InOrder document) : document.normalize = document :=
  SavedDocument.normalize_selected order.selected

theorem normalize_normalize (document : Document) : document.normalize.normalize = document.normalize :=
  normalize_inOrder (inOrder_normalize document)

theorem editSelected_normalize (document : Document) (edit : Point → Point) :
    document.normalize.editSelected edit = document.editSelected edit := by
  rw [Document.editSelected, Document.editSelected, normalize_normalize]

theorem editSelected_eq (document : Document) (edit : Point → Point) :
    document.editSelected edit = { document.normalize with
      points := document.normalize.points.modify document.normalize.selectedIndex edit } := by
  rw [← editSelected_normalize, editSelected_inOrder (inOrder_normalize document)]

/-- The selected point is still the selected one, so a second change finds the first. -/
theorem editSelected_editSelected (document : Document) (first second : Point → Point) :
    (document.editSelected first).editSelected second = document.editSelected (second ∘ first) := by
  rw [editSelected_inOrder (inOrder_editSelected document first), editSelected_eq, editSelected_eq]
  dsimp only
  rw [List.modify_modify_eq]

/-- What leaves the selected point alone leaves the document alone. -/
theorem editSelected_same (order : InOrder document) {edit : Point → Point} {point : Point}
    (found : document.points[document.selectedIndex]? = some point) (same : edit point = point) :
    document.editSelected edit = document := by
  have points : document.points.modify document.selectedIndex edit = document.points := by
    apply List.ext_getElem?
    intro index
    rw [List.getElem?_modify]
    split
    · next selected => rw [← selected, found, Option.map_eq_map, Option.map_some, same]
    · rw [Option.map_eq_map, Option.map_id']
  rw [editSelected_inOrder order, points]

theorem changesSelected_editSelected (document : Document) (edit : Point → Point) :
    ChangesSelected document.normalize (document.editSelected edit) edit := by
  obtain ⟨point, inside⟩ : ∃ point, document.normalize.points[document.normalize.selectedIndex]? = some point :=
    ⟨_, List.getElem?_eq_getElem (inOrder_normalize document).selected⟩
  rw [editSelected_eq]
  constructor
  · rfl
  · exact List.length_modify _ _ _
  · exact fun index other => List.getElem?_modify_ne _ _ other.symm
  · refine ⟨point, inside, ?_⟩
    rw [List.getElem?_modify_eq, inside]
    rfl

theorem run_editsPoint {edit : Edit} (point : editsPoint edit = true) (document : Document) :
    edit.run document = (.none, document.editSelected fun point => change point edit) := by
  cases edit with
  | clearCommands | addCommand | setOffset | resetOffset | setOffsetFromGrid => rfl
  | addPoint | selectPoint | deletePoint | addRay | removeRay | normalize | load => cases point

/-- Edits of the selected point add up to one change of it. -/
theorem edit_editsPoint (document : Document) {first : Edit} {later : List Edit}
    (points : ∀ edit ∈ first :: later, editsPoint edit = true) :
    document.edit (first :: later) =
      ((first :: later).map fun _ => .none, document.editSelected (changes (first :: later))) := by
  induction later generalizing document first with
  | nil => rw [edit_cons, run_editsPoint (points first List.mem_cons_self)]; rfl
  | cons second later ih =>
    rw [List.forall_mem_cons] at points
    rw [edit_cons, run_editsPoint points.1, ih _ points.2, editSelected_editSelected]
    rfl

theorem edit_normalize {edits : List Edit} (some : edits ≠ [])
    (points : ∀ edit ∈ edits, editsPoint edit = true) : document.edit edits = document.normalize.edit edits := by
  obtain ⟨first, later, rfl⟩ := List.exists_cons_of_ne_nil some
  rw [edit_editsPoint document points, edit_editsPoint document.normalize points, editSelected_normalize]

theorem changesSelected_edit {edits : List Edit} (some : edits ≠ [])
    (points : ∀ edit ∈ edits, editsPoint edit = true) :
    ChangesSelected document.normalize (document.edit edits).2 (changes edits) := by
  obtain ⟨first, later, rfl⟩ := List.exists_cons_of_ne_nil some
  rw [edit_editsPoint document points]
  exact changesSelected_editSelected document (changes (first :: later))

theorem added_addPoint (document : Document) : Added document document.addPoint := by
  have points : document.addPoint.points = document.points ++ [({} : Point)] := rfl
  constructor
  · rfl
  · exact List.length_append
  · intro index inside
    rw [points, List.getElem?_append_left inside]
  · rw [points, List.getElem?_append_right (Nat.le_refl _), Nat.sub_self]
    rfl

theorem deleted_deleteSelectedPoint? {shorter : Document} (deletes : document.deleteSelectedPoint? = some shorter) :
    Deleted document shorter := by
  obtain ⟨rfl, length, _⟩ := deleteSelectedPoint?_eq_some deletes
  have inside : document.selection < document.points.length := by
    dsimp only at length
    rw [Document.selection]
    omega
  have before : (document.points.take document.selection).length = document.selection := by
    rw [List.length_take, Nat.min_eq_left (Nat.le_of_lt inside)]
  refine ⟨rfl, document.points.take document.selection, document.points[document.selection],
    document.points.drop (document.selection + 1), ?_, ?_, before, ?_⟩
  · rw [List.getElem_cons_drop, List.take_append_drop]
  · exact List.eraseIdx_eq_take_drop_succ _ _
  · rw [before]

theorem deleted_run {shorter : Document} (deletes : Edit.deletePoint.run document = (.pointDeleted true, shorter)) :
    Deleted document shorter := by
  rcases run_deletePoint document with ⟨_, refused⟩ | ⟨found, deleted, done⟩
  · rw [refused] at deletes
    cases deletes
  · rw [done] at deletes
    cases deletes
    exact deleted_deleteSelectedPoint? deleted

theorem eraseIdx_concat (items : List α) (item : α) : (items ++ [item]).eraseIdx items.length = items := by
  rw [List.eraseIdx_append_of_length_le (Nat.le_refl _), Nat.sub_self, List.eraseIdx_cons_zero, List.append_nil]

/-- The new point is selected, so it is the one that is deleted. -/
theorem deleteSelectedPoint?_addPoint (some : document.points ≠ []) :
    document.addPoint.deleteSelectedPoint? =
      Option.some { document with selectedIndex := document.points.length - 1 } := by
  have positive := List.length_pos_iff.mpr some
  have length : document.addPoint.points.length = document.points.length + 1 := List.length_append
  have selection : document.addPoint.selection = document.points.length := by
    rw [Document.selection, length, Nat.add_sub_cancel]
    exact Nat.min_self _
  rw [Document.deleteSelectedPoint?, if_neg (by omega), selection]
  exact congrArg (fun points => Option.some { document with points, selectedIndex := document.points.length - 1 })
    (eraseIdx_concat document.points {})

theorem edit_addPoint_deletePoint (some : document.points ≠ []) :
    document.edit [.addPoint, .deletePoint] =
      ([.none, .pointDeleted true], { document with selectedIndex := document.points.length - 1 }) := by
  simp only [Document.edit, Edit.run, deleteSelectedPoint?_addPoint some]

theorem removeRay?_addRay (document : Document) :
    document.addRay.removeRay? document.rays.length = some ({}, document) := by
  have rays : document.addRay.rays = document.rays ++ [({} : Ray)] := rfl
  rw [Document.removeRay?, rays, List.getElem?_append_right (Nat.le_refl _), Nat.sub_self, List.getElem?_cons_zero,
    Option.map_some, eraseIdx_concat]
  rfl

end Edits

/-- Every edit reaches the point or the ray that it is about, and no other. -/
structure Confined (document : Document) : Prop where
  normalized : ∀ edit, editsPoint edit = true → edit.run document = edit.run document.normalize
  changed : ∀ edit, editsPoint edit = true →
    ChangesSelected document.normalize (edit.run document).2 fun point => change point edit
  several : ∀ edits, edits ≠ [] → (∀ edit ∈ edits, editsPoint edit = true) →
    document.edit edits = document.normalize.edit edits ∧
      ChangesSelected document.normalize (document.edit edits).2 (changes edits)
  fromGrid : ∀ x y, ∃ before after,
    document.normalize.points[document.normalize.selectedIndex]? = some before ∧
      (document.setSelectedOffsetFromGrid x y).points[document.normalize.selectedIndex]? = some after ∧
      after.offset.z = before.offset.z ∧ after.commands = before.commands
  deleted : ∀ shorter, Edit.deletePoint.run document = (.pointDeleted true, shorter) → Deleted document shorter
  added : Added document document.addPoint
  pointUndone : document.points ≠ [] → document.edit [.addPoint, .deletePoint] =
    ([.none, .pointDeleted true], { document with selectedIndex := document.points.length - 1 })
  rayUndone : ∃ index, (Edit.addRay.run document).1 = .rayAdded index ∧
    (Edit.removeRay index).run (Edit.addRay.run document).2 = (.rayRemoved (some {}), document)

theorem edits_confined (document : Document) : Confined document where
  normalized edit point := by rw [run_editsPoint point, run_editsPoint point, editSelected_normalize]
  changed edit point := by
    rw [run_editsPoint point]
    exact changesSelected_editSelected document _
  several edits some points := ⟨edit_normalize some points, changesSelected_edit some points⟩
  fromGrid x y := by
    obtain ⟨before, found, edited⟩ := (changesSelected_editSelected document fun point =>
      change point (.setOffsetFromGrid x y)).selected
    exact ⟨before, _, found, edited, rfl, rfl⟩
  deleted shorter deletes := deleted_run deletes
  added := added_addPoint document
  pointUndone some := edit_addPoint_deletePoint some
  rayUndone := ⟨document.rays.length, rfl, by rw [Edit.run, Edit.run, removeRay?_addRay]⟩

/-- Three points, of which the last stands in for a selection that is not there. -/
def strayDocument : Document where
  points := [{ commands := ["say one"] }, { commands := ["say two"] }, { commands := ["say three"] }]
  selectedIndex := 9

theorem confined_strayDocument :
    (strayDocument.edit [.clearCommands, .setOffsetFromGrid .nan (.infinite true)]).2.points.take 2 =
        strayDocument.points.take 2 ∧
      ChangesSelected strayDocument.normalize
        (strayDocument.edit [.clearCommands, .setOffsetFromGrid .nan (.infinite true)]).2
        (changes [.clearCommands, .setOffsetFromGrid .nan (.infinite true)]) ∧
      (Edit.deletePoint.run strayDocument).1 = .pointDeleted true ∧
      Deleted strayDocument (Edit.deletePoint.run strayDocument).2 ∧
      strayDocument.edit [.addPoint, .deletePoint] =
        ([.none, .pointDeleted true], { strayDocument with selectedIndex := 2 }) := by
  have confined := edits_confined strayDocument
  refine ⟨rfl, ?_, rfl, ?_, ?_⟩
  · exact (confined.several _ (List.cons_ne_nil _ _) (by simp [editsPoint])).2
  · exact confined.deleted _ rfl
  · exact confined.pointUndone (by decide)

end SpellPack.Proofs.SelectedPoint
