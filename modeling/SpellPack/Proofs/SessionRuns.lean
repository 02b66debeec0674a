import SpellPack.Document.Session
import SpellPack.Proofs.DocumentImport
import SpellPack.Proofs.SavedDocument

/-! Whole editing sessions. Every edit keeps a document in order, some edits bring it back
into order, and the replies account for every point and every ray. -/

namespace SpellPack.Proofs.SessionRuns

structure InOrder (document : Document) : Prop where
  some : 0 < document.points.length
  selected : document.selectedIndex < document.points.length

section Edits

variable {document : Document}

theorem inOrder_selectPoint (some : 0 < document.points.length) (index : Nat) :
    InOrder (document.selectPoint index) := by
  refine ⟨some, ?_⟩
  change min index (document.points.length - 1) < document.points.length
  omega

theorem length_normalize (document : Document) : document.normalize.points.length = max 1 document.points.length := by
  cases points : document.points <;> simp [Document.normalize, Document.selectPoint, points]

theorem inOrder_normalize (document : Document) : InOrder document.normalize := by
  have some : 0 < document.normalize.points.length := by
    rw [length_normalize]
    omega
  exact @inOrder_selectPoint { document with points := _ } some document.selectedIndex

theorem length_editSelected (document : Document) (edit : Point → Point) :
    (document.editSelected edit).points.length = max 1 document.points.length := by
  rw [← length_normalize]
  exact List.length_modify _ _ _

theorem inOrder_editSelected (document : Document) (edit : Point → Point) : InOrder (document.editSelected edit) := by
  obtain ⟨some, selected⟩ := inOrder_normalize document
  have length : (document.editSelected edit).points.length = document.normalize.points.length :=
    List.length_modify _ _ _
  constructor
  · rwa [length]
  · rwa [length]

theorem editSelected_inOrder (order : InOrder document) (edit : Point → Point) :
    document.editSelected edit = { document with points := document.points.modify document.selectedIndex edit } := by
  have selection : document.selection = document.selectedIndex := by
    have selected := order.selected
    rw [Document.selection]
    omega
  rw [Document.editSelected, SavedDocument.normalize_selected order.selected, selection]

theorem inOrder_addPoint (document : Document) : InOrder document.addPoint := by
  constructor <;> simp [Document.addPoint]

theorem deleteSelectedPoint?_eq_none_iff : document.deleteSelectedPoint? = none ↔ document.points.length ≤ 1 := by
  rw [Document.deleteSelectedPoint?]
  split <;> simp_all

theorem deleteSelectedPoint?_eq_some {shorter : Document} (deleted : document.deleteSelectedPoint? = some shorter) :
    shorter = { document with
      points := document.points.eraseIdx document.selection
      selectedIndex := document.selection - 1 } ∧
    shorter.points.length + 1 = document.points.length ∧ InOrder shorter := by
  have several : ¬ document.points.length ≤ 1 := by
    rw [← deleteSelectedPoint?_eq_none_iff, deleted]
    exact Option.some_ne_none shorter
  have inside : document.selection < document.points.length := by
    rw [Document.selection]
    omega
  rw [Document.deleteSelectedPoint?, if_neg several, Option.some.injEq] at deleted
  subst deleted
  have length := List.length_eraseIdx_add_one inside
  refine ⟨rfl, length, ⟨?_, ?_⟩⟩
  · change 0 < (document.points.eraseIdx document.selection).length
    omega
  · change document.selection - 1 < (document.points.eraseIdx document.selection).length
    omega

theorem removeRay?_eq_some {index : Nat} {ray : Ray} {shorter : Document}
    (removed : document.removeRay? index = some (ray, shorter)) :
    shorter = { document with rays := document.rays.eraseIdx index } ∧
      shorter.rays.length + 1 = document.rays.length := by
  rw [Document.removeRay?, Option.map_eq_some_iff] at removed
  obtain ⟨found, inside, same⟩ := removed
  cases same
  obtain ⟨bound, _⟩ := List.getElem?_eq_some_iff.mp inside
  exact ⟨rfl, List.length_eraseIdx_add_one bound⟩

/-- Opening selects the first point, and there is one. -/
theorem inOrder_opened {source : String} (opened : Document.opened source = .ok document) : InOrder document := by
  rw [Document.opened] at opened
  cases read : Document.ofText source with
  | error error => rw [read] at opened; cases opened
  | ok whole =>
    rw [read] at opened
    cases opened
    rw [Document.ofText, Json.bind_eq_ok] at read
    obtain ⟨value, _, valid⟩ := read
    have outcome := DocumentImport.outcome_ofJson value
    rw [valid] at outcome
    cases outcome with
    | read object readable wellFormed => exact ⟨wellFormed.some, wellFormed.some⟩

end Edits

/-- The edits that leave a document in order whatever it was before. A deletion and an
opened document do so only if they take place. -/
def restores : Edit → Reply → Bool
  | .addPoint, _ | .normalize, _ | .clearCommands, _ | .addCommand _, _ => true
  | .setOffset _, _ | .resetOffset, _ | .setOffsetFromGrid _ _, _ => true
  | .deletePoint, .pointDeleted deleted => deleted
  | .load _, .loaded (.ok ()) => true
  | _, _ => false

def addsPoint : Edit → Bool
  | .addPoint => true
  | _ => false

def addsRay : Edit → Bool
  | .addRay => true
  | _ => false

def isLoad : Edit → Bool
  | .load _ => true
  | _ => false

def deletesPoint : Reply → Bool
  | .pointDeleted deleted => deleted
  | _ => false

def removesRay : Reply → Bool
  | .rayRemoved ray => ray.isSome
  | _ => false

section Steps

variable {document : Document} {edit : Edit}

/-- What a deletion replies and leaves. -/
theorem run_deletePoint (document : Document) :
    (document.points.length ≤ 1 ∧ Edit.deletePoint.run document = (.pointDeleted false, document)) ∨
      ∃ shorter, document.deleteSelectedPoint? = some shorter ∧
        Edit.deletePoint.run document = (.pointDeleted true, shorter) := by
  rw [Edit.run]
  cases deleted : document.deleteSelectedPoint? with
  | none => exact .inl ⟨deleteSelectedPoint?_eq_none_iff.mp deleted, rfl⟩
  | some shorter => exact .inr ⟨shorter, rfl, rfl⟩

theorem run_removeRay (document : Document) (index : Nat) :
    (Edit.removeRay index).run document = (.rayRemoved none, document) ∨
      ∃ ray shorter, document.removeRay? index = some (ray, shorter) ∧
        (Edit.removeRay index).run document = (.rayRemoved (some ray), shorter) := by
  rw [Edit.run]
  cases removed : document.removeRay? index with
  | none => exact .inl rfl
  | some found => exact .inr ⟨found.1, found.2, rfl, rfl⟩

theorem run_load (document : Document) (source : String) :
    (∃ error, (Edit.load source).run document = (.loaded (.error error), document)) ∨
      ∃ opened, Document.opened source = .ok opened ∧
        (Edit.load source).run document = (.loaded (.ok ()), opened) := by
  rw [Edit.run]
  cases Document.opened source with
  | error error => exact .inl ⟨error, rfl⟩
  | ok opened => exact .inr ⟨opened, rfl, rfl⟩

theorem inOrder_restored (restored : restores edit (edit.run document).1 = true) : InOrder (edit.run document).2 := by
  cases edit with
  | addPoint => exact inOrder_addPoint document
  | normalize => exact inOrder_normalize document
  | clearCommands | addCommand | setOffset | resetOffset | setOffsetFromGrid => exact inOrder_editSelected document _
  | deletePoint =>
    rcases run_deletePoint document with ⟨_, refused⟩ | ⟨shorter, deleted, done⟩
    · rw [refused] at restored
      cases restored
    · rw [done]
      exact (deleteSelectedPoint?_eq_some deleted).2.2
  | load source =>
    rcases run_load document source with ⟨error, refused⟩ | ⟨opened, read, done⟩
    · rw [refused] at restored
      cases restored
    · rw [done]
      exact inOrder_opened read
  | selectPoint | addRay | removeRay => cases restored

/-- What is in order stays so, whatever is done to it. -/
theorem inOrder_run (order : InOrder document) (edit : Edit) : InOrder (edit.run document).2 := by
  cases edit with
  | selectPoint index => exact inOrder_selectPoint order.some index
  | addRay => exact ⟨order.some, order.selected⟩
  | removeRay index =>
    rcases run_removeRay document index with refused | ⟨ray, shorter, removed, done⟩
    · rwa [refused]
    · rw [done, (removeRay?_eq_some removed).1]
      exact ⟨order.some, order.selected⟩
  | deletePoint =>
    rcases run_deletePoint document with ⟨_, refused⟩ | ⟨shorter, deleted, done⟩
    · rwa [refused]
    · rw [done]
      exact (deleteSelectedPoint?_eq_some deleted).2.2
  | load source =>
    rcases run_load document source with ⟨error, refused⟩ | ⟨opened, read, done⟩
    · rwa [refused]
    · rw [done]
      exact inOrder_opened read
  | addPoint | normalize | clearCommands | addCommand | setOffset | resetOffset | setOffsetFromGrid =>
    exact inOrder_restored rfl

/-- One edit adds a point, takes one away, or leaves their number as it was. -/
theorem points_run (order : InOrder document) (stays : isLoad edit = false) :
    (edit.run document).2.points.length + (if deletesPoint (edit.run document).1 then 1 else 0) =
      document.points.length + if addsPoint edit then 1 else 0 := by
  have least : max 1 document.points.length = document.points.length := Nat.max_eq_right order.some
  cases edit with
  | addPoint => exact List.length_append
  | normalize => exact (length_normalize document).trans least
  | clearCommands | addCommand | setOffset | resetOffset | setOffsetFromGrid =>
    exact (length_editSelected document _).trans least
  | deletePoint =>
    rcases run_deletePoint document with ⟨_, refused⟩ | ⟨shorter, deleted, done⟩
    · rw [refused]
      rfl
    · rw [done]
      exact (deleteSelectedPoint?_eq_some deleted).2.1
  | removeRay index =>
    rcases run_removeRay document index with refused | ⟨ray, shorter, removed, done⟩
    · rw [refused]
      rfl
    · rw [done, (removeRay?_eq_some removed).1]
      rfl
  | selectPoint | addRay => rfl
  | load => cases stays

theorem rays_run (stays : isLoad edit = false) :
    (edit.run document).2.rays.length + (if removesRay (edit.run document).1 then 1 else 0) =
      document.rays.length + if addsRay edit then 1 else 0 := by
  cases edit with
  | addRay => exact List.length_append
  | deletePoint =>
    rcases run_deletePoint document with ⟨_, refused⟩ | ⟨shorter, deleted, done⟩
    · rw [refused]
      rfl
    · rw [done, (deleteSelectedPoint?_eq_some deleted).1]
      rfl
  | removeRay index =>
    rcases run_removeRay document index with refused | ⟨ray, shorter, removed, done⟩
    · rw [refused]
      rfl
    · rw [done]
      exact (removeRay?_eq_some removed).2
  | load => cases stays
  | addPoint | normalize | clearCommands | addCommand | setOffset | resetOffset | setOffsetFromGrid | selectPoint => rfl

/-- Only the last point is not deleted. -/
theorem refused_iff (order : InOrder document) :
    (Edit.deletePoint.run document).1 = .pointDeleted false ↔ document.points.length = 1 := by
  have some := order.some
  rcases run_deletePoint document with ⟨single, refused⟩ | ⟨shorter, deleted, done⟩
  · rw [refused]
    exact iff_of_true rfl (by omega)
  · obtain ⟨_, length, remaining⟩ := deleteSelectedPoint?_eq_some deleted
    have more := remaining.some
    rw [done]
    exact iff_of_false (by simp) (by omega)

end Steps

section Runs

variable {document : Document}

theorem edit_cons (document : Document) (first : Edit) (later : List Edit) :
    document.edit (first :: later) =
      ((first.run document).1 :: ((first.run document).2.edit later).1, ((first.run document).2.edit later).2) := rfl

theorem edit_append (document : Document) (before after : List Edit) :
    document.edit (before ++ after) =
      ((document.edit before).1 ++ ((document.edit before).2.edit after).1,
        ((document.edit before).2.edit after).2) := by
  induction before generalizing document with
  | nil => rfl
  | cons first later ih => rw [List.cons_append, edit_cons, ih, edit_cons, List.cons_append]

theorem inOrder_edit (order : InOrder document) (edits : List Edit) : InOrder (document.edit edits).2 := by
  induction edits generalizing document with
  | nil => exact order
  | cons first later ih => exact ih (inOrder_run order first)

theorem points_edit (order : InOrder document) {edits : List Edit} (stays : ∀ edit ∈ edits, isLoad edit = false) :
    (document.edit edits).2.points.length + (document.edit edits).1.countP deletesPoint =
      document.points.length + edits.countP addsPoint := by
  induction edits generalizing document with
  | nil => rfl
  | cons first later ih =>
    rw [List.forall_mem_cons] at stays
    have step := points_run order stays.1
    have rest := ih (inOrder_run order first) stays.2
    simp only [edit_cons, List.countP_cons]
    omega

theorem rays_edit {edits : List Edit} (stays : ∀ edit ∈ edits, isLoad edit = false) :
    (document.edit edits).2.rays.length + (document.edit edits).1.countP removesRay =
      document.rays.length + edits.countP addsRay := by
  induction edits generalizing document with
  | nil => rfl
  | cons first later ih =>
    rw [List.forall_mem_cons] at stays
    have step := @rays_run document first stays.1
    have rest := @ih (first.run document).2 stays.2
    simp only [edit_cons, List.countP_cons]
    omega

end Runs

/-- The account of a session that opens no other document. -/
structure Accounted (document : Document) (edits : List Edit) : Prop where
  order : InOrder (document.edit edits).2
  points : (document.edit edits).2.points.length + (document.edit edits).1.countP deletesPoint =
    document.points.length + edits.countP addsPoint
  refused : ∀ before after, edits = before ++ .deletePoint :: after →
    ((document.edit edits).1[before.length]? = some (.pointDeleted false) ↔
      (document.edit before).2.points.length = 1)
  rays : (document.edit edits).2.rays.length + (document.edit edits).1.countP removesRay =
    document.rays.length + edits.countP addsRay

section Replies

variable {document : Document}

theorem length_replies (document : Document) (edits : List Edit) :
    (document.edit edits).1.length = edits.length := by
  induction edits generalizing document with
  | nil => rfl
  | cons first later ih => rw [edit_cons, List.length_cons, ih, List.length_cons]

/-- The reply to an edit stands in its place. -/
theorem reply_at (document : Document) (before : List Edit) (step : Edit) (after : List Edit) :
    (document.edit (before ++ step :: after)).1[before.length]? = some (step.run (document.edit before).2).1 := by
  rw [edit_append, ← length_replies document before, List.getElem?_append_right (Nat.le_refl _), Nat.sub_self]
  rfl

theorem accounted_edit (order : InOrder document) {edits : List Edit} (stays : ∀ edit ∈ edits, isLoad edit = false) :
    Accounted document edits where
  order := inOrder_edit order edits
  points := points_edit order stays
  refused before after split := by
    subst split
    rw [reply_at, Option.some.injEq]
    exact refused_iff (inOrder_edit order before)
  rays := rays_edit stays

end Replies

/-- From the first edit that restores a document on it is in order, and then the replies
account for all points and rays. -/
theorem session_inOrder (document : Document) :
    (∀ before step after reply, (document.edit (before ++ step :: after)).1[before.length]? = some reply →
        restores step reply = true → InOrder (document.edit (before ++ step :: after)).2) ∧
      (InOrder document → ∀ edits, (∀ edit ∈ edits, isLoad edit = false) → Accounted document edits) := by
  constructor
  · intro before step after reply replied restored
    rw [reply_at, Option.some.injEq] at replied
    subst replied
    rw [edit_append]
    exact inOrder_edit (inOrder_restored restored) after
  · intro order edits stays
    exact accounted_edit order stays

def emptiedDocument : Document where
  points := []
  selectedIndex := 7

theorem inOrder_emptiedDocument :
    InOrder (emptiedDocument.edit [.selectPoint 3, .addRay, .deletePoint, .addCommand "say hi", .deletePoint]).2 ∧
      Accounted {} [.addPoint, .addRay, .selectPoint 0, .deletePoint, .deletePoint, .removeRay 4, .removeRay 0] := by
  constructor
  · exact (session_inOrder emptiedDocument).1 [.selectPoint 3, .addRay, .deletePoint] (.addCommand "say hi")
      [.deletePoint] .none rfl rfl
  · apply (session_inOrder {}).2 ⟨by decide, by decide⟩
    simp [isLoad]

end SpellPack.Proofs.SessionRuns
