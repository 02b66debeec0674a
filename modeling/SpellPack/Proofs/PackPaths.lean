import SpellPack.Pack.Assembly
import SpellPack.Proofs.FileLines

/-! Which paths of a pack can meet. -/

namespace SpellPack.Proofs.PackPaths
open Layout FileLines

theorem split_unique {separator : Char} {first rest first' rest' : List Char} (plain : separator ∉ first)
    (plain' : separator ∉ first') (same : first ++ separator :: rest = first' ++ separator :: rest') :
    first = first' ∧ rest = rest' := by
  induction first generalizing first' with
  | nil =>
    cases first' with
    | nil => exact ⟨rfl, (List.cons.inj same).2⟩
    | cons c later => exact absurd (List.cons.inj same).1 fun (head : separator = c) => plain' (by simp [head])
  | cons c later ih =>
    cases first' with
    | nil => exact absurd (List.cons.inj same).1 fun (head : c = separator) => plain (by simp [head])
    | cons c' later' =>
      obtain ⟨rfl, tails⟩ := List.cons.inj same
      rw [List.mem_cons, not_or] at plain plain'
      obtain ⟨rfl, rest⟩ := ih plain.2 plain'.2 tails
      exact ⟨rfl, rest⟩

theorem toString_injective {a b : Nat} (same : (toString a).toList = (toString b).toList) : a = b := by
  simp only [Nat.toString_eq_repr, Nat.toList_repr] at same
  rw [← Nat.ofDigitChars_ten_toDigits (n := a), same, Nat.ofDigitChars_ten_toDigits]

def spellPath (place : List Char) : List Char :=
  spellsRoot.toList ++ '/' :: (place ++ ".mcfunction".toList)

theorem spellPath_injective {place place' : List Char} (same : spellPath place = spellPath place') : place = place' := by
  have below := (List.cons.inj (List.append_cancel_left same)).2
  exact List.append_cancel_right below

section Shapes

variable (spellId : String) (index : Nat)

theorem toList_pointPath :
    (pointPath spellId index).toList =
      spellPath ("patterns".toList ++ '/' :: (spellId.toList ++ '/' :: (toString index).toList)) := by
  simp [pointPath, functionFile, spellPath]

theorem toList_rayPath :
    (rayPath spellId index).toList =
      spellPath (spellId.toList ++ '/' :: ("ray_tick_" ++ toString index).toList) := by
  simp [rayPath, functionFile, spellPath]

theorem toList_activationPath :
    (activationPath spellId).toList = spellPath ("activate".toList ++ '/' :: spellId.toList) := by
  simp [activationPath, functionFile, spellPath]

theorem manifestPath_ne {path : String} {place : List Char} (below : path.toList = spellPath place) :
    manifestPath ≠ path := by
  rintro rfl
  have first := congrArg List.head? below
  simp [manifestPath, spellPath, spellsRoot] at first

end Shapes

section Meetings

variable {spellId : String} {index index' : Nat}

theorem pointPath_injective (same : pointPath spellId index = pointPath spellId index') : index = index' := by
  have place := congrArg String.toList same
  rw [toList_pointPath, toList_pointPath] at place
  have behind := (List.cons.inj (List.append_cancel_left (spellPath_injective place))).2
  exact toString_injective (List.cons.inj (List.append_cancel_left behind)).2

theorem rayPath_injective (same : rayPath spellId index = rayPath spellId index') : index = index' := by
  have place := congrArg String.toList same
  rw [toList_rayPath, toList_rayPath, String.toList_append, String.toList_append] at place
  have behind := (List.cons.inj (List.append_cancel_left (spellPath_injective place))).2
  exact toString_injective (List.append_cancel_left behind)

/-- A point lies one folder deeper than a ray. -/
theorem pointPath_ne_rayPath (plain : '/' ∉ spellId.toList) : pointPath spellId index ≠ rayPath spellId index' := by
  intro same
  have place := congrArg String.toList same
  rw [toList_pointPath, toList_rayPath] at place
  obtain ⟨_, file⟩ := split_unique (by decide) plain (spellPath_injective place)
  have slash : '/' ∈ ("ray_tick_" ++ toString index').toList := by
    rw [← file]
    simp
  rw [String.toList_append, List.mem_append] at slash
  rcases slash with word | digits
  · exact absurd word (by decide)
  · exact foreign_digits (by decide) index' digits

theorem pointPath_ne_activationPath (loaded : String) : pointPath spellId index ≠ activationPath loaded := by
  intro same
  have place := congrArg String.toList same
  rw [toList_pointPath, toList_activationPath] at place
  obtain ⟨folder, _⟩ := split_unique (by decide) (by decide) (spellPath_injective place)
  exact absurd folder (by decide)

theorem rayPath_eq_activationPath_iff (plain : '/' ∉ spellId.toList) (loaded : String) :
    rayPath spellId index = activationPath loaded ↔ spellId = "activate" ∧ loaded = "ray_tick_" ++ toString index := by
  constructor
  · intro same
    have place := congrArg String.toList same
    rw [toList_rayPath, toList_activationPath] at place
    obtain ⟨folder, file⟩ := split_unique plain (by decide) (spellPath_injective place)
    exact ⟨String.toList_inj.mp folder, (String.toList_inj.mp file).symm⟩
  · rintro ⟨rfl, rfl⟩
    apply String.toList_inj.mp
    rw [toList_rayPath, toList_activationPath]

end Meetings

end SpellPack.Proofs.PackPaths
