import SpellPack.Proofs.CommandNumbers
import SpellPack.Proofs.RayMacros

/-! How far a ray moves with each step is what its step line shows, in hundredths of a
block. A step of half a hundredth or less is shown as zero, and the ray stays in place. -/

namespace SpellPack.Proofs.PrintedSteps
open Binary64 NearestRank ShortestDecimal CommandNumbers FileLines RayFile RayMacros Text

/-- What stands behind the three carets of a step line, up to a space. -/
def stepText (line : String) : List Char :=
  ((line.toList.dropWhile (· != '^')).drop "^ ^ ^".toList.length).takeWhile (· != ' ')

theorem stepText_append {front number : String} (plain : '^' ∉ front.toList) (unbroken : ' ' ∉ number.toList)
    (rest : String) : stepText (front ++ "^ ^ ^" ++ number ++ " " ++ rest) = number.toList := by
  have text : (front ++ "^ ^ ^" ++ number ++ " " ++ rest).toList =
      front.toList ++ '^' :: (" ^ ^".toList ++ (number.toList ++ ' ' :: rest.toList)) := by simp
  have carets : ∀ behind, '^' :: (" ^ ^".toList ++ behind) = "^ ^ ^".toList ++ behind := fun behind => by simp
  rw [stepText, text, dropWhile_until plain, carets, List.drop_left, takeWhile_until unbroken]

section Line

variable (ray : Ray) (index : Nat) (spellId : String)

/-- The number stands alone, whatever the spell is called and whatever macros the ray has. -/
theorem stepText_stepLine : stepText (stepLine ray index spellId) = ray.effectiveStep.commandText.toList := by
  have call : ∀ number target : String, "execute positioned ^ ^ ^" ++ number ++ " run function " ++ target =
      "execute positioned " ++ "^ ^ ^" ++ number ++ " " ++ ("run function " ++ target) := by
    intro number target
    apply String.toList_inj.mp
    simp
  have marked : ∀ number target arguments : String,
      "$" ++ ("execute positioned ^ ^ ^" ++ number ++ " run function " ++ target) ++ " " ++ arguments =
        "$execute positioned " ++ "^ ^ ^" ++ number ++ " " ++ ("run function " ++ target ++ " " ++ arguments) := by
    intro number target arguments
    apply String.toList_inj.mp
    simp
  have unbroken : ' ' ∉ ray.effectiveStep.commandText.toList := foreign_commandText rfl (.finite ray.effectiveStep)
  rw [stepLine_eq]
  unfold stepCall
  split
  · rw [marked]
    exact stepText_append (by decide) unbroken _
  · rw [call]
    exact stepText_append (by decide) unbroken _

theorem text_stepLine :
    ∃ before, RayFile.text ray index spellId = joinLines before ++ "\n" ++ stepLine ray index spellId :=
  ⟨_, joinLines_append (by simp) _⟩

end Line

section Number

variable (ray : Ray)

def shownStep : ℚ := shownHundredths ray.effectiveStep / 100

theorem shown_effectiveStep : shown (.finite ray.effectiveStep) = shownStep ray := by
  have positive := ray.isPositive_effectiveStep
  simp only [Finite.isPositive, Bool.and_eq_true, Bool.not_eq_true'] at positive
  rw [shown, positive.1]
  rfl

theorem shownStep_eq_zero_iff : shownStep ray = 0 ↔ size ray.effectiveStep.rank ≤ 1 / 200 := by
  rw [← shownHundredths_eq_zero_iff, shownStep, div_eq_zero_iff, Nat.cast_eq_zero]
  exact or_iff_left (by norm_num)

/-- The default step is long enough, so a short step is the ray's own. -/
theorem effectiveStep_short_iff : size ray.effectiveStep.rank ≤ 1 / 200 ↔
    ∃ step, ray.step = .finite step ∧ step.isPositive = true ∧ size step.rank ≤ 1 / 200 := by
  have default : ¬ size defaultStep.rank ≤ 1 / 200 := by
    rw [← shownHundredths_eq_zero_iff]
    decide +kernel
  rw [Ray.effectiveStep]
  cases ray.step with
  | finite step =>
    by_cases positive : step.isPositive = true
    · simp only [positive, if_true, finite.injEq, exists_eq_left', true_and]
    · simp only [positive, Bool.false_eq_true, if_false, default, finite.injEq, exists_eq_left', false_and]
  | _ => simp only [default, reduceCtorEq, false_and, exists_false]

end Number

/-- What the step line of a ray tells: the number behind its carets is that of a valid
numeral. It is zero exactly for the ray's own step of at most half a hundredth, and at
least a hundredth else. Integers are shown so that they read back, other steps to the
nearest hundredth. -/
structure Printed (ray : Ray) (index : Nat) (spellId : String) (number : ℚ) : Prop where
  last : ∃ before, RayFile.text ray index spellId = joinLines before ++ "\n" ++ stepLine ray index spellId
  denotes : Denotes (stepText (stepLine ray index spellId)) number
  still : number = 0 ↔ ∃ step, ray.step = .finite step ∧ step.isPositive = true ∧ size step.rank ≤ 1 / 200
  ahead : number ≠ 0 → 1 / 100 ≤ number
  whole : ray.effectiveStep.isIntegral = true → rounded (number * unitsPerOne) = ray.effectiveStep.rank
  near : ray.effectiveStep.isIntegral = false → |number - size ray.effectiveStep.rank| ≤ 1 / 200

theorem step_printed (ray : Ray) (index : Nat) (spellId : String) :
    ∃ number, Printed ray index spellId number := by
  refine ⟨shownStep ray, text_stepLine ray index spellId, ?_, ?_, ?_, ?_, ?_⟩
  · rw [stepText_stepLine, ← shown_effectiveStep]
    exact denotes_commandText (.finite ray.effectiveStep)
  · rw [shownStep_eq_zero_iff, effectiveStep_short_iff]
  · intro moves
    have some : shownHundredths ray.effectiveStep ≠ 0 := by
      rintro none
      rw [shownStep, none] at moves
      simp at moves
    have one : (1 : ℚ) ≤ shownHundredths ray.effectiveStep := by exact_mod_cast Nat.pos_of_ne_zero some
    rw [shownStep]
    linarith
  · intro integral
    rw [shownStep, shownHundredths, if_pos integral]
    push_cast
    rw [mul_div_cancel_right₀ _ (by norm_num)]
    exact rounded_wholeDigits integral
  · intro fractional
    rw [shownStep, shownHundredths, if_neg (by simp [fractional])]
    exact abs_hundredths_sub_le ray.effectiveStep

def shortStepRay : Ray := { step := .finite ⟨false, 4562254508917369340, by decide⟩ }

/-- Not every ray moves: this one is called where it stands until its steps are used up. -/
theorem still_shortStepRay : ¬ ∀ (ray : Ray) (index : Nat) (spellId : String),
    ∃ number, Denotes (stepText (stepLine ray index spellId)) number ∧ 0 < number := by
  intro moves
  obtain ⟨number, printed, positive⟩ := moves shortStepRay 0 "bolt"
  have none : shownStep shortStepRay = 0 := by
    rw [shownStep, show shownHundredths shortStepRay.effectiveStep = 0 by decide +kernel]
    simp
  have zero := denotes_commandText (.finite shortStepRay.effectiveStep)
  rw [shown_effectiveStep, none] at zero
  rw [stepText_stepLine] at printed
  rw [printed.unique zero] at positive
  exact lt_irrefl _ positive

end SpellPack.Proofs.PrintedSteps
