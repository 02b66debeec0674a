import SpellPack.Proofs.PackLines

/-! Particles and checks that give no line. They leave the lines of the others alone. But the
macros of a ray are looked for in all its fields, and a check that misses its subject or its
command may still hold a token in the other one. Such a token is handed on by the step line
and by the call of the ray, and it comes into nothing else. -/

namespace SpellPack.Proofs.SkippedEntries
open Macro Text RayFile MacroTokens FileLines RayMacros PackLines

def tidied (ray : Ray) : Ray :=
  { ray with
    particles := ray.particles.filter fun particle => isShown particle.name
    blockChecks := ray.blockChecks.filter isShownCheck
    entityChecks := ray.entityChecks.filter isShownCheck }

section Lists

variable {α β : Type} {kept : α → Bool} {items : List α}

theorem filterMap_kept {line? : α → Option β} (some : ∀ item, (line? item).isSome = kept item) (items : List α) :
    (items.filter kept).filterMap line? = items.filterMap line? := by
  have same : (fun item => if kept item = true then line? item else none) = line? := by
    funext item
    rw [← some]
    cases line? item <;> rfl
  rw [List.filterMap_filter, same]

theorem flatMap_kept {parts : α → List β} (idle : ∀ item ∈ items, kept item = false → parts item = []) :
    (items.filter kept).flatMap parts = items.flatMap parts := by
  induction items with
  | nil => rfl
  | cons item later ih =>
    obtain ⟨first, rest⟩ := List.forall_mem_cons.mp idle
    cases shown : kept item with
    | true => rw [List.filter_cons_of_pos shown, List.flatMap_cons, List.flatMap_cons, ih rest]
    | false => rw [List.filter_cons_of_neg (by simp [shown]), List.flatMap_cons, first shown, ih rest, List.nil_append]

end Lists

section Fields

variable {ray : Ray} {name : String}

/-- What is blank on one line holds no token. -/
theorem tokenNames_hidden {field : String} (hidden : isShown field = false) : tokenNames field.toList = [] := by
  have blank : isBlankText (singleLine field) = true := by simpa [isShown] using hidden
  rw [← isEmpty_singleLine, String.isEmpty_iff] at blank
  rw [← tokenNames_singleLine, blank]
  rfl

theorem checks_tidied (ray : Ray) : (tidied ray).checks = ray.checks.filter isShownCheck := (List.filter_append ..).symm

def checkNames (check : Check) : List String := Macro.names [check.subject, check.command]

theorem checkNames_eq_nil_iff {check : Check} :
    checkNames check = [] ↔ tokenNames check.subject.toList = [] ∧ tokenNames check.command.toList = [] := by
  simp [checkNames, names_eq_nil_iff, hasToken]

theorem mem_macroNames : name ∈ ray.macroNames ↔
    (∃ particle ∈ ray.particles, name.toList ∈ tokenNames particle.name.toList) ∨
      ∃ check ∈ ray.checks, name ∈ checkNames check := by
  simp only [Ray.macroNames, checkNames, mem_names, Ray.macroFields, List.mem_append, List.mem_map, List.mem_flatMap]
  constructor
  · rintro ⟨field, ⟨particle, member, rfl⟩ | ⟨check, member, inside⟩, token⟩
    · exact .inl ⟨particle, member, token⟩
    · exact .inr ⟨check, member, field, inside, token⟩
  · rintro (⟨particle, member, token⟩ | ⟨check, member, field, inside, token⟩)
    · exact ⟨particle.name, .inl ⟨particle, member, rfl⟩, token⟩
    · exact ⟨field, .inr ⟨check, member, inside⟩, token⟩

/-- The names that are lost with what gives no line are those of the checks among it. -/
theorem mem_macroNames_tidied : name ∈ ray.macroNames ↔ name ∈ (tidied ray).macroNames ∨
    ∃ check ∈ ray.checks, isShownCheck check = false ∧ name ∈ checkNames check := by
  rw [mem_macroNames, mem_macroNames, checks_tidied]
  constructor
  · rintro (⟨particle, member, token⟩ | ⟨check, member, inside⟩)
    · cases shown : isShown particle.name with
      | true => exact .inl (.inl ⟨particle, List.mem_filter.mpr ⟨member, shown⟩, token⟩)
      | false => simp [tokenNames_hidden shown] at token
    · cases shown : isShownCheck check with
      | true => exact .inl (.inr ⟨check, List.mem_filter.mpr ⟨member, shown⟩, inside⟩)
      | false => exact .inr ⟨check, member, shown, inside⟩
  · rintro ((⟨particle, member, token⟩ | ⟨check, member, inside⟩) | ⟨check, member, _, inside⟩)
    · exact .inl ⟨particle, (List.mem_filter.mp member).1, token⟩
    · exact .inr ⟨check, (List.mem_filter.mp member).1, inside⟩
    · exact .inr ⟨check, member, inside⟩

/-- Nothing is lost, nor does the order change, if no such check holds a token. -/
theorem macroNames_tidied
    (plain : ∀ check ∈ ray.checks, isShownCheck check = false → checkNames check = []) :
    (tidied ray).macroNames = ray.macroNames := by
  have particles : (tidied ray).particles.flatMap (fun particle => tokenNames particle.name.toList) =
      ray.particles.flatMap fun particle => tokenNames particle.name.toList :=
    flatMap_kept fun particle _ => tokenNames_hidden
  have checks : (tidied ray).checks.flatMap (fun check => tokenNames check.subject.toList ++ tokenNames check.command.toList) =
      ray.checks.flatMap fun check => tokenNames check.subject.toList ++ tokenNames check.command.toList := by
    rw [checks_tidied]
    apply flatMap_kept
    intro check member hidden
    rw [List.append_eq_nil_iff, ← checkNames_eq_nil_iff]
    exact plain check member hidden
  have split (ray : Ray) : ray.macroFields.flatMap (fun field => tokenNames field.toList) =
      ray.particles.flatMap (fun particle => tokenNames particle.name.toList) ++
        ray.checks.flatMap fun check => tokenNames check.subject.toList ++ tokenNames check.command.toList := by
    simp [Ray.macroFields, List.flatMap_map, List.flatMap_assoc]
  rw [Ray.macroNames, Ray.macroNames, names_eq, names_eq, split, split, particles, checks]

end Fields

section Lines

variable {ray other : Ray} {index : Nat} {spellId call : String} {names more : List String}

/-- A call with macros begins with the mark and hands each of them on. -/
def macroCall (call : String) (names : List String) : String :=
  if names = [] then call else "$" ++ call ++ " " ++ argumentsText names

theorem stepLine_eq_macroCall (ray : Ray) (index : Nat) (spellId : String) :
    stepLine ray index spellId = macroCall (stepCall ray index spellId) ray.macroNames := by
  rw [stepLine_eq, macroCall]
  by_cases none : ray.macroNames = []
  · rw [if_neg (mt takesMacros_iff.mp (not_not_intro none)), if_pos none]
  · rw [if_pos (takesMacros_iff.mpr none), if_neg none]

theorem argumentsText_injective (valid : ∀ name ∈ names, IsName name.toList) (valid' : ∀ name ∈ more, IsName name.toList)
    (some : names ≠ []) (some' : more ≠ []) (same : argumentsText names = argumentsText more) : names = more := by
  have inside := congrArg String.toList same
  rw [toList_argumentsText, toList_argumentsText, List.cons.injEq, List.append_left_inj] at inside
  rw [← arguments_apart valid some, inside.2, arguments_apart valid' some']

/-- A call tells which macros it hands on. -/
theorem macroCall_inj (valid : ∀ name ∈ names, IsName name.toList) (valid' : ∀ name ∈ more, IsName name.toList) :
    macroCall call names = macroCall call more ↔ names = more := by
  have longer (names : List String) : "$" ++ call ++ " " ++ argumentsText names ≠ call := by
    intro same
    have lengths := congrArg String.length same
    simp only [String.length_append] at lengths
    have mark : "$".length = 1 := rfl
    omega
  refine ⟨fun same => ?_, fun same => same ▸ rfl⟩
  unfold macroCall at same
  split at same
  · next none =>
    split at same
    · next none' => rw [none, none']
    · exact absurd same.symm (longer more)
  · next some =>
    split at same
    · exact absurd same (longer names)
    · next some' =>
      rw [String.append_right_inj] at same
      exact argumentsText_injective valid valid' some some' same

/-- All lines of the file but the last. -/
theorem fileLines_eq (ray : Ray) (index : Nat) (spellId : String) : fileLines ray index spellId =
    (fileLines ray index spellId).dropLast ++ [stepLine ray index spellId] := by
  rw [fileLines, List.dropLast_concat]

theorem dropLast_tidied (ray : Ray) (index : Nat) (spellId : String) :
    (fileLines (tidied ray) index spellId).dropLast = (fileLines ray index spellId).dropLast := by
  have particles : (tidied ray).particles.filterMap particleLine? = ray.particles.filterMap particleLine? :=
    filterMap_kept isSome_particleLine ray.particles
  have checks : (tidied ray).checks.filterMap checkLine? = ray.checks.filterMap checkLine? := by
    rw [checks_tidied]
    exact filterMap_kept isSome_checkLine ray.checks
  rw [fileLines, fileLines, List.dropLast_concat, List.dropLast_concat, particles, checks]
  rfl

theorem stepLine_tidied_iff (ray : Ray) (index : Nat) (spellId : String) :
    stepLine (tidied ray) index spellId = stepLine ray index spellId ↔ (tidied ray).macroNames = ray.macroNames := by
  have call : stepCall (tidied ray) index spellId = stepCall ray index spellId := rfl
  rw [stepLine_eq_macroCall, stepLine_eq_macroCall, call]
  exact macroCall_inj isName_macroNames isName_macroNames

theorem text_tidied_iff (ray : Ray) (index : Nat) (spellId : String) :
    text (tidied ray) index spellId = text ray index spellId ↔ (tidied ray).macroNames = ray.macroNames := by
  have some : (fileLines ray index spellId).dropLast ≠ [] := by simp [fileLines]
  rw [← stepLine_tidied_iff ray index spellId, text, text, fileLines_eq (tidied ray), fileLines_eq ray,
    dropLast_tidied, joinLines_append some, joinLines_append some, String.append_right_inj]

/-- How the activation calls a ray: its macros, if there are any, come from the caster. -/
def entityCall (call : String) (names : List String) : String :=
  if names = [] then call else call ++ " with entity @s"

theorem entityCall_inj : entityCall call names = entityCall call more ↔ (names = [] ↔ more = []) := by
  have longer : call ++ " with entity @s" ≠ call := by
    rw [ne_eq, String.append_eq_left_iff]
    decide
  unfold entityCall
  by_cases none : names = [] <;> by_cases none' : more = [] <;> simp [none, none', longer, longer.symm]

/-- The score that counts the steps, and the call. -/
theorem activationLines_eq (ray : Ray) (index : Nat) (spellId : String) : activationLines ray index spellId =
    ["scoreboard players set @s " ++ stepsObjective ++ " " ++ toString ray.effectiveMaxSteps.toNat,
      entityCall ("function " ++ Layout.rayFunction spellId index) ray.macroNames] := by
  unfold activationLines entityCall
  by_cases none : ray.macroNames = []
  · simp only [if_neg (mt takesMacros_iff.mp (not_not_intro none)), if_pos none]
  · simp only [if_pos (takesMacros_iff.mpr none), if_neg none]

end Lines

/-- What becomes of a ray's lines without the entries that give none. -/
structure Inert (ray : Ray) (index : Nat) (spellId : String) : Prop where
  others : (fileLines (tidied ray) index spellId).dropLast = (fileLines ray index spellId).dropLast
  step : ∃ call, stepLine (tidied ray) index spellId = macroCall call (tidied ray).macroNames ∧
    stepLine ray index spellId = macroCall call ray.macroNames
  text : RayFile.text (tidied ray) index spellId = RayFile.text ray index spellId ↔
    (tidied ray).macroNames = ray.macroNames
  started : ∃ score call, activationLines (tidied ray) index spellId = [score, entityCall call (tidied ray).macroNames] ∧
    activationLines ray index spellId = [score, entityCall call ray.macroNames]
  called : activationLines (tidied ray) index spellId = activationLines ray index spellId ↔
    ((tidied ray).macroNames = [] ↔ ray.macroNames = [])
  names : ∀ name, name ∈ ray.macroNames ↔ name ∈ (tidied ray).macroNames ∨
    ∃ check ∈ ray.checks, isShownCheck check = false ∧ name ∈ checkNames check
  plain : (∀ check ∈ ray.checks, isShownCheck check = false → checkNames check = []) →
    (tidied ray).macroNames = ray.macroNames

/-- What gives no line comes into no line, but for the tokens of its checks in the step line
and in the call. -/
theorem skipped_inert (ray : Ray) (index : Nat) (spellId : String) : Inert ray index spellId where
  others := dropLast_tidied ray index spellId
  step := ⟨stepCall ray index spellId, stepLine_eq_macroCall (tidied ray) index spellId,
    stepLine_eq_macroCall ray index spellId⟩
  text := text_tidied_iff ray index spellId
  started := ⟨_, _, activationLines_eq (tidied ray) index spellId, activationLines_eq ray index spellId⟩
  called := by
    have limit : (tidied ray).effectiveMaxSteps = ray.effectiveMaxSteps := rfl
    rw [activationLines_eq, activationLines_eq, limit, List.cons.injEq, List.cons.injEq, entityCall_inj]
    simp only [true_and, and_true]
  names _ := mem_macroNames_tidied
  plain := macroNames_tidied

def halfFilledRay : Ray := { blockChecks := [{ command := "say $(x)" }] }

/-- A check that gives no line may still come into the step line and into the call. -/
theorem token_halfFilledRay :
    ¬ ∀ ray index spellId, RayFile.text (tidied ray) index spellId = RayFile.text ray index spellId ∧
      activationLines (tidied ray) index spellId = activationLines ray index spellId := by
  intro all
  have kept := (text_tidied_iff halfFilledRay 0 "bolt").mp (all halfFilledRay 0 "bolt").1
  exact absurd kept (by decide)

end SpellPack.Proofs.SkippedEntries
