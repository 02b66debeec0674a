import SpellPack.Proofs.PackContents
import SpellPack.Proofs.SessionRuns

/-! What one edit changes in the pack of a document. An edit of a point reaches the file of
that point alone; where the last point changes, so does the one before it. -/

namespace SpellPack.Proofs.EditedPack
open Layout FileTable PackPaths PackFiles PackContents SessionRuns

def AgreeBut (excepted : String → Prop) (before after : Files) : Prop :=
  ∀ path, ¬ excepted path → after.get? path = before.get? path

/-- The last point is no longer the last, and a new one follows it. -/
structure PointAdded (document : Document) (before after : Files) : Prop where
  agree : AgreeBut (fun path =>
    path = pointPath document.spellId (document.points.length - 1) ∨
      path = pointPath document.spellId document.points.length) before after
  new : pointPath document.spellId document.points.length ∉ before.paths
  paths : ∀ path, path ∈ after.paths ↔ path ∈ before.paths ∨ path = pointPath document.spellId document.points.length

/-- All points behind the deleted one move up, so the last path is free. Of the points before
it only the one that is now the last can change. -/
structure PointDeleted (document : Document) (before after : Files) : Prop where
  manifest : after.get? manifestPath = before.get? manifestPath
  activation : after.get? (activationPath document.loadedSpellId) = before.get? (activationPath document.loadedSpellId)
  rays : ∀ index, after.get? (rayPath document.spellId index) = before.get? (rayPath document.spellId index)
  points : ∀ index, index < document.selectedIndex → index ≠ document.points.length - 2 →
    after.get? (pointPath document.spellId index) = before.get? (pointPath document.spellId index)
  gone : pointPath document.spellId (document.points.length - 1) ∈ before.paths
  paths : ∀ path, path ∈ after.paths ↔
    path ∈ before.paths ∧ path ≠ pointPath document.spellId (document.points.length - 1)

structure RayRemoved (document : Document) (before after : Files) : Prop where
  manifest : after.get? manifestPath = before.get? manifestPath
  points : ∀ index, after.get? (pointPath document.spellId index) = before.get? (pointPath document.spellId index)

/-- What an edit with some reply may change in the files of the pack. -/
def Recompiles (document : Document) (before after : Files) : Edit → Reply → Prop
  | .addCommand _, _ | .clearCommands, _ | .setOffset _, _ | .resetOffset, _ | .setOffsetFromGrid _ _, _ =>
    after.paths = before.paths ∧
      AgreeBut (· = pointPath document.spellId document.selectedIndex) before after
  | .selectPoint _, _ | .normalize, _ => after = before
  | .addPoint, _ => PointAdded document before after
  | .deletePoint, .pointDeleted true => PointDeleted document before after
  | .deletePoint, _ => after = before
  | .addRay, _ =>
    AgreeBut (fun path =>
      path = activationPath document.loadedSpellId ∨ path = rayPath document.spellId document.rays.length) before after
  | .removeRay _, .rayRemoved none => after = before
  | .removeRay _, _ => RayRemoved document before after
  | .load _, _ => True

section Edits

variable {document : Document} {before after : Package}

theorem sameSpell_editSelected (document : Document) (edit : Point → Point) :
    SameSpell document (document.editSelected edit) := ⟨rfl, rfl, rfl, rfl, rfl⟩

theorem sameSpell_run {edit : Edit} (stays : isLoad edit = false) : SameSpell document (edit.run document).2 := by
  cases edit with
  | deletePoint =>
    rcases run_deletePoint document with ⟨_, refused⟩ | ⟨shorter, deleted, done⟩
    · rw [refused]
      exact .refl document
    · rw [done, (deleteSelectedPoint?_eq_some deleted).1]
      exact ⟨rfl, rfl, rfl, rfl, rfl⟩
  | removeRay index =>
    rcases run_removeRay document index with refused | ⟨ray, shorter, removed, done⟩
    · rw [refused]
      exact .refl document
    · rw [done, (removeRay?_eq_some removed).1]
      exact ⟨rfl, rfl, rfl, rfl, rfl⟩
  | load => cases stays
  | clearCommands | addCommand | setOffset | resetOffset | setOffsetFromGrid => exact sameSpell_editSelected document _
  | addPoint | selectPoint | addRay | normalize => exact ⟨rfl, rfl, rfl, rfl, rfl⟩

/-- Nothing in the pack depends on the selection. -/
theorem assemble_selectPoint (document : Document) (index : Nat) :
    (document.selectPoint index).assemble = document.assemble := rfl

/-- A path that is no point's is no concern of a change of points. -/
theorem get?_samePoints (same : SameSpell document other) (kept : other.rays = document.rays)
    (assembled : document.assemble = .ok before) (assembled' : other.assemble = .ok after) {path : String}
    (points : ∀ index, path = pointPath document.spellId index → SamePoint document other index) :
    after.files.get? path = before.files.get? path := by
  apply get?_congr same assembled assembled' points
  · intro _ _
    rw [kept]
  · intro _
    exact kept

/-- A path that is neither a ray's nor that of the activation is no concern of a change of rays. -/
theorem get?_sameRays (same : SameSpell document other) (kept : other.points = document.points)
    (assembled : document.assemble = .ok before) (assembled' : other.assemble = .ok after) {path : String}
    (rays : ∀ index, path = rayPath document.spellId index → other.rays[index]? = document.rays[index]?)
    (inactive : path ≠ activationPath document.loadedSpellId) : after.files.get? path = before.files.get? path := by
  apply get?_congr same assembled assembled' _ rays
  · intro last
    exact absurd last inactive
  · intro _ _
    rw [SamePoint, kept]
    exact ⟨rfl, fun _ => Iff.rfl⟩

theorem get?_elsewhere (same : SameSpell document other) (kept : other.rays = document.rays)
    (assembled : document.assemble = .ok before) (assembled' : other.assemble = .ok after) {path : String}
    (noPoint : ∀ index, path ≠ pointPath document.spellId index) : after.files.get? path = before.files.get? path :=
  get?_samePoints same kept assembled assembled' fun index at? => absurd at? (noPoint index)

theorem point_mem_paths (assembled : document.assemble = .ok before) {index : Nat} :
    pointPath document.spellId index ∈ before.files.paths ↔ index < document.points.length := by
  rw [mem_paths_iff, get?_pointPath assembled, pointFile?, Option.isSome_map]
  simp

theorem recompiles_editSelected (order : InOrder document) (edit : Point → Point)
    (assembled : document.assemble = .ok before) (assembled' : (document.editSelected edit).assemble = .ok after) :
    after.files.paths = before.files.paths ∧
      AgreeBut (· = pointPath document.spellId document.selectedIndex) before.files after.files := by
  have same := sameSpell_editSelected document edit
  rw [editSelected_inOrder order] at assembled' same
  have agree : AgreeBut (· = pointPath document.spellId document.selectedIndex) before.files after.files := by
    intro path other
    apply get?_samePoints same rfl assembled assembled'
    intro index at?
    have different : index ≠ document.selectedIndex := fun equal => other (by rw [at?, equal])
    constructor
    · exact List.getElem?_modify_ne _ _ (Ne.symm different)
    · intro _
      rw [List.length_modify]
  refine ⟨paths_eq fun path => ?_, agree⟩
  by_cases selected : path = pointPath document.spellId document.selectedIndex
  · have still := @point_mem_paths _ _ assembled' document.selectedIndex
    rw [same.spellId, List.length_modify] at still
    rw [selected, point_mem_paths assembled, still]
  · rw [mem_paths_iff, mem_paths_iff, agree path selected]

theorem recompiles_addPoint (order : InOrder document) (assembled : document.assemble = .ok before)
    (assembled' : document.addPoint.assemble = .ok after) : PointAdded document before.files after.files := by
  have same : SameSpell document document.addPoint := ⟨rfl, rfl, rfl, rfl, rfl⟩
  have some := order.some
  have length : document.addPoint.points.length = document.points.length + 1 := List.length_append
  have agree : AgreeBut (fun path =>
      path = pointPath document.spellId (document.points.length - 1) ∨
        path = pointPath document.spellId document.points.length) before.files after.files := by
    intro path other
    rw [not_or] at other
    apply get?_samePoints same rfl assembled assembled'
    intro index at?
    have notLast : index ≠ document.points.length - 1 := fun equal => other.1 (by rw [at?, equal])
    have notNew : index ≠ document.points.length := fun equal => other.2 (by rw [at?, equal])
    constructor
    · change (document.points ++ [({} : Point)])[index]? = _
      grind
    · intro _
      omega
  have still (index : Nat) : pointPath document.spellId index ∈ after.files.paths ↔ index < document.points.length + 1 := by
    rw [← length]
    exact point_mem_paths assembled'
  refine ⟨agree, ?_, fun path => ?_⟩
  · rw [point_mem_paths assembled]
    omega
  by_cases excepted : path = pointPath document.spellId (document.points.length - 1) ∨
      path = pointPath document.spellId document.points.length
  · rcases excepted with rfl | rfl
    · rw [still, point_mem_paths assembled]
      exact iff_of_true (by omega) (.inl (by omega))
    · rw [still]
      exact iff_of_true (by omega) (.inr rfl)
  · rw [mem_paths_iff, mem_paths_iff, agree path excepted]
    rw [not_or] at excepted
    simp only [excepted.2, or_false]

/-- With one point less the last path is free, and no other one is. -/
theorem mem_paths_fewer (same : SameSpell document other) (kept : other.rays = document.rays)
    (assembled : document.assemble = .ok before) (assembled' : other.assemble = .ok after)
    (fewer : other.points.length + 1 = document.points.length) (path : String) :
    path ∈ after.files.paths ↔
      path ∈ before.files.paths ∧ path ≠ pointPath document.spellId (document.points.length - 1) := by
  by_cases point : ∃ index, path = pointPath document.spellId index
  · obtain ⟨index, rfl⟩ := point
    have still : pointPath document.spellId index ∈ after.files.paths ↔ index < other.points.length := by
      rw [← same.spellId]
      exact point_mem_paths assembled'
    rw [still, point_mem_paths assembled]
    constructor
    · intro inside
      refine ⟨by omega, fun equal => ?_⟩
      have last := pointPath_injective equal
      omega
    · rintro ⟨inside, notLast⟩
      have notLast : index ≠ document.points.length - 1 := fun equal => notLast (by rw [equal])
      omega
  · rw [not_exists] at point
    rw [mem_paths_iff, mem_paths_iff, get?_elsewhere same kept assembled assembled' point]
    exact (and_iff_left (point _)).symm

theorem recompiles_deletePoint (order : InOrder document) {shorter : Document}
    (deleted : document.deleteSelectedPoint? = some shorter) (assembled : document.assemble = .ok before)
    (assembled' : shorter.assemble = .ok after) : PointDeleted document before.files after.files := by
  obtain ⟨rfl, length, remaining⟩ := deleteSelectedPoint?_eq_some deleted
  have same : SameSpell document { document with
      points := document.points.eraseIdx document.selection
      selectedIndex := document.selection - 1 } := ⟨rfl, rfl, rfl, rfl, rfl⟩
  have selected := order.selected
  have more := remaining.some
  have selection : document.selection = document.selectedIndex := by
    rw [Document.selection]
    omega
  dsimp only at length more
  constructor
  · exact get?_elsewhere same rfl assembled assembled' fun index => manifestPath_ne (toList_pointPath _ index)
  · exact get?_elsewhere same rfl assembled assembled' fun index same => pointPath_ne_activationPath _ same.symm
  · intro _
    apply get?_elsewhere same rfl assembled assembled'
    exact fun index same => pointPath_ne_rayPath (slash_spellId document) same.symm
  · intro index before notLast
    apply get?_samePoints same rfl assembled assembled'
    intro other at?
    obtain rfl := pointPath_injective at?
    constructor
    · change (document.points.eraseIdx document.selection)[index]? = _
      exact List.getElem?_eraseIdx_of_lt (by omega)
    · intro _
      change index + 1 = (document.points.eraseIdx document.selection).length ↔ _
      omega
  · rw [point_mem_paths assembled]
    omega
  · exact mem_paths_fewer same rfl assembled assembled' length

theorem agree_addRay (assembled : document.assemble = .ok before)
    (assembled' : document.addRay.assemble = .ok after) :
    AgreeBut (fun path =>
      path = activationPath document.loadedSpellId ∨ path = rayPath document.spellId document.rays.length)
      before.files after.files := by
  have same : SameSpell document document.addRay := ⟨rfl, rfl, rfl, rfl, rfl⟩
  intro path other
  rw [not_or] at other
  refine get?_sameRays same rfl assembled assembled' (fun index at? => ?_) other.1
  have notNew : index ≠ document.rays.length := fun equal => other.2 (by rw [at?, equal])
  change (document.rays ++ [({} : Ray)])[index]? = _
  grind

theorem recompiles_removeRay {index : Nat} {ray : Ray} {shorter : Document}
    (removed : document.removeRay? index = some (ray, shorter)) (assembled : document.assemble = .ok before)
    (assembled' : shorter.assemble = .ok after) : RayRemoved document before.files after.files := by
  obtain ⟨rfl, _⟩ := removeRay?_eq_some removed
  have same : SameSpell document { document with rays := document.rays.eraseIdx index } := ⟨rfl, rfl, rfl, rfl, rfl⟩
  have elsewhere {path : String} (noRay : ∀ index, path ≠ rayPath document.spellId index)
      (inactive : path ≠ activationPath document.loadedSpellId) : after.files.get? path = before.files.get? path :=
    get?_sameRays same rfl assembled assembled' (fun index at? => absurd at? (noRay index)) inactive
  constructor
  · exact elsewhere (fun index => manifestPath_ne (toList_rayPath _ index)) (manifestPath_ne (toList_activationPath _))
  · intro index
    exact elsewhere (fun _ => pointPath_ne_rayPath (slash_spellId document)) (pointPath_ne_activationPath _)

theorem recompiles_run (order : InOrder document) {edit : Edit} (assembled : document.assemble = .ok before)
    (assembled' : (edit.run document).2.assemble = .ok after) :
    Recompiles document before.files after.files edit (edit.run document).1 := by
  cases edit with
  | clearCommands | addCommand | setOffset | resetOffset | setOffsetFromGrid =>
    exact recompiles_editSelected order _ assembled assembled'
  | selectPoint index =>
    have same : (document.selectPoint index).assemble = .ok before := by rw [assemble_selectPoint, assembled]
    rw [Recompiles, Except.ok.inj (assembled'.symm.trans same)]
  | normalize =>
    have same : document.normalize.assemble = .ok before := by
      rw [SavedDocument.normalize_selected order.selected, assembled]
    rw [Recompiles, Except.ok.inj (assembled'.symm.trans same)]
  | addPoint => exact recompiles_addPoint order assembled assembled'
  | addRay => exact agree_addRay assembled assembled'
  | deletePoint =>
    rcases run_deletePoint document with ⟨_, refused⟩ | ⟨shorter, deleted, done⟩
    · rw [refused] at assembled' ⊢
      exact congrArg Package.files (Except.ok.inj (assembled'.symm.trans assembled))
    · rw [done] at assembled' ⊢
      exact recompiles_deletePoint order deleted assembled assembled'
  | removeRay index =>
    rcases run_removeRay document index with refused | ⟨ray, shorter, removed, done⟩
    · rw [refused] at assembled' ⊢
      exact congrArg Package.files (Except.ok.inj (assembled'.symm.trans assembled))
    · rw [done] at assembled' ⊢
      exact recompiles_removeRay removed assembled assembled'
  | load => trivial

end Edits

/-- After one edit the spell still has its ids, and only the files that the edit is about change. -/
theorem edit_recompiles {document : Document} (named : Text.isBlankText document.name = false) (order : InOrder document)
    {edit : Edit} (stays : isLoad edit = false) :
    ∃ before after, document.assemble = .ok before ∧ (edit.run document).2.assemble = .ok after ∧
      after.spellId = before.spellId ∧ after.loadedSpellId = before.loadedSpellId ∧
      Recompiles document before.files after.files edit (edit.run document).1 := by
  have same := @sameSpell_run document edit stays
  obtain ⟨before, assembled⟩ := assembled_of_named named
  obtain ⟨after, assembled'⟩ := @assembled_of_named (edit.run document).2 (by rw [same.name, named])
  refine ⟨before, after, assembled, assembled', ?_, ?_, recompiles_run order assembled assembled'⟩
  · rw [spellId_assembled assembled, spellId_assembled assembled', same.spellId]
  · rw [loadedSpellId_assembled assembled, loadedSpellId_assembled assembled', same.loadedSpellId]

def boltDocument : Document where
  name := "Bolt"
  points := [{}, { commands := ["say go"] }, {}]
  rays := [{}]
  selectedIndex := 1

theorem recompiled_boltDocument :
    ∃ before after, boltDocument.assemble = .ok before ∧ (Edit.deletePoint.run boltDocument).2.assemble = .ok after ∧
      after.spellId = before.spellId ∧ after.loadedSpellId = before.loadedSpellId ∧
      PointDeleted boltDocument before.files after.files :=
  @edit_recompiles boltDocument (by decide +kernel) ⟨by decide, by decide⟩ .deletePoint rfl

end SpellPack.Proofs.EditedPack
