import SpellPack.Proofs.DocumentReopening

/-! A document in good order is the same after it was saved and opened again. -/

namespace SpellPack.Proofs.SavedDocument
open Json Binary64 ExactNumbers FieldReading DocumentReopening

/-- In good order: the selection is a point, every number is one, and rays lead somewhere.
The delay and the numbers are such that they survive by themselves. -/
structure Savable (document : Document) : Prop where
  selected : document.selectedIndex < document.points.length
  few : document.points.length ≤ 2 ^ 53
  finite : ∀ x ∈ numbers document, x.finite?.isSome
  steps : ∀ ray ∈ document.rays, ∀ step, ray.step = .finite step → step.isPositive
  limits : ∀ ray ∈ document.rays, 1 ≤ ray.maxSteps
  delay : DelayKept document.spellDelay
  survive : ∀ x ∈ numbers document, Survives x

/-- The same without a condition on what the numbers are read as. -/
structure Orderly (document : Document) : Prop where
  selected : document.selectedIndex < document.points.length
  few : document.points.length ≤ 2 ^ 53
  finite : ∀ x ∈ numbers document, x.finite?.isSome
  steps : ∀ ray ∈ document.rays, ∀ step, ray.step = .finite step → step.isPositive
  limits : ∀ ray ∈ document.rays, 1 ≤ ray.maxSteps
  delay : DelayKept document.spellDelay

theorem Savable.orderly {document : Document} (savable : Savable document) : Orderly document :=
  ⟨savable.selected, savable.few, savable.finite, savable.steps, savable.limits, savable.delay⟩

theorem Orderly.savable {document : Document} (orderly : Orderly document)
    (survive : ∀ x ∈ numbers document, Survives x) : Savable document :=
  ⟨orderly.selected, orderly.few, orderly.finite, orderly.steps, orderly.limits, orderly.delay, survive⟩

/-- A selected point is one of no more than can be counted. -/
theorem Orderly.word {document : Document} (orderly : Orderly document) : document.selectedIndex < 2 ^ 64 := by
  have few := orderly.few
  have selected := orderly.selected
  omega

theorem repairedNumber_finite {x : Binary64} (finite : x.finite?.isSome) : repairedNumber x = x := by
  cases x with
  | finite y => rfl
  | _ => cases finite

theorem repairedPoint_finite {point : Point} (finite : ∀ x ∈ offsetNumbers point.offset, x.finite?.isSome) :
    repairedPoint point = point := by
  simp only [offsetNumbers, List.forall_mem_cons] at finite
  obtain ⟨x, y, z, _⟩ := finite
  rw [repairedPoint, repairedOffset, repairedNumber_finite x, repairedNumber_finite y, repairedNumber_finite z]

theorem repairedParticle_finite {particle : Particle} (finite : ∀ x ∈ particleNumbers particle, x.finite?.isSome) :
    repairedParticle particle = particle := by
  simp only [particleNumbers, List.forall_mem_cons] at finite
  obtain ⟨dx, dy, dz, speed, _⟩ := finite
  rw [repairedParticle, repairedNumber_finite dx, repairedNumber_finite dy, repairedNumber_finite dz,
    repairedNumber_finite speed]

theorem effectiveStep_positive {ray : Ray} (finite : ray.step.finite?.isSome)
    (positive : ∀ step, ray.step = .finite step → step.isPositive) : .finite ray.effectiveStep = ray.step := by
  rw [Ray.effectiveStep]
  cases step : ray.step with
  | finite value => simp only [positive value step, if_true]
  | _ => simp [step, finite?] at finite

theorem repairedRay_finite {ray : Ray} (finite : ∀ x ∈ rayNumbers ray, x.finite?.isSome)
    (positive : ∀ step, ray.step = .finite step → step.isPositive) (limit : 1 ≤ ray.maxSteps) :
    repairedRay ray = ray := by
  simp only [rayNumbers, List.forall_mem_cons, List.forall_mem_flatMap] at finite
  obtain ⟨step, particles⟩ := finite
  have same : ray.particles.map repairedParticle = ray.particles := by
    rw [List.map_congr_left fun particle member => repairedParticle_finite (particles particle member), List.map_id']
  have most : ray.effectiveMaxSteps = ray.maxSteps := by
    apply UInt32.toNat_inj.mp
    rw [Ray.toNat_effectiveMaxSteps]
    exact Nat.max_eq_left (UInt32.le_iff_toNat_le.mp limit)
  rw [repairedRay, effectiveStep_positive step positive, most, same]

theorem normalize_selected {document : Document} (selected : document.selectedIndex < document.points.length) :
    document.normalize = document := by
  have some : document.points.isEmpty = false := by
    rw [List.isEmpty_eq_false_iff_exists_mem]
    exact ⟨_, List.getElem_mem selected⟩
  have last : min document.selectedIndex (document.points.length - 1) = document.selectedIndex := by omega
  simp [Document.normalize, Document.selectPoint, some, last]

theorem repaired_orderly {document : Document} (orderly : Orderly document) : repaired document = document := by
  have finite := orderly.finite
  simp only [numbers, List.forall_mem_append, List.forall_mem_flatMap] at finite
  obtain ⟨inPoints, inRays⟩ := finite
  have points : document.points.map repairedPoint = document.points := by
    rw [List.map_congr_left fun point member => repairedPoint_finite (inPoints point member), List.map_id']
  have rays : document.rays.map repairedRay = document.rays := by
    rw [List.map_congr_left fun ray member =>
      repairedRay_finite (inRays ray member) (orderly.steps ray member) (orderly.limits ray member), List.map_id']
  rw [repaired, normalize_selected orderly.selected, points, rays]

theorem ofText_savable {document : Document} (savable : Savable document) :
    Document.ofText document.toText = .ok document := by
  have read := ofText_toText savable.survive savable.few savable.orderly.word savable.delay
  rwa [repaired_orderly savable.orderly] at read

section Delays

variable {fields : Fields} {document : Document}

theorem delayKept_getD {delay? : Option Int64} (each : ∀ delay, delay? = some delay → DelayKept delay) :
    DelayKept (delay?.getD defaultDelay) := by
  cases delay? with
  | none => exact delayKept_default
  | some delay => exact each delay rfl

theorem delayKept_ofCurrent (read : Document.ofCurrent fields = .ok document) : DelayKept document.spellDelay := by
  rw [Document.ofCurrent, bind_eq_ok] at read
  obtain ⟨points, _, read⟩ := read
  rw [pure_eq_ok, Except.ok.injEq] at read
  subst read
  apply delayKept_getD
  intro delay found
  exact delayKept_read found

theorem delayKept_ofLegacy (read : Document.ofLegacy fields = .ok document) : DelayKept document.spellDelay := by
  simp only [Document.ofLegacy, bind_eq_ok] at read
  obtain ⟨points, _, read⟩ := read
  rw [pure_eq_ok, Except.ok.injEq] at read
  subst read
  apply delayKept_getD
  intro delay found
  exact delayKept_read (Option.filter_eq_some_iff.mp found).1

theorem delayKept_ofFields (read : Document.ofFields fields = .ok document) : DelayKept document.spellDelay := by
  simp only [Document.ofFields] at read
  split at read
  · split at read
    · exact delayKept_ofLegacy read
    · exact delayKept_ofCurrent read
  · split at read
    · exact delayKept_ofCurrent read
    · cases read

theorem delayKept_ofText {source : String} (read : Document.ofText source = .ok document) :
    DelayKept document.spellDelay := by
  rw [Document.ofText, bind_eq_ok] at read
  obtain ⟨value, _, read⟩ := read
  cases value with
  | object fields => exact delayKept_ofFields (mapError_eq_ok.mp read)
  | _ => cases read

end Delays

theorem savable_delay {delay : Int64} (kept : DelayKept delay) : Savable { spellDelay := delay } where
  selected := by simp
  few := by simp
  finite := show ∀ x ∈ [zero, zero, zero], x.finite?.isSome by decide
  steps := by simp
  limits := by simp
  delay := kept
  survive := show ∀ x ∈ [zero, zero, zero], Survives x by decide +kernel

/-- The delays that survive are those that reading can give. -/
theorem reopened_same :
    (∀ document, Savable document → Document.ofText document.toText = .ok document) ∧
      ∀ delay, DelayKept delay ↔ ∃ source document, Document.ofText source = .ok document ∧
        document.spellDelay = delay := by
  constructor
  · intro document savable
    exact ofText_savable savable
  intro delay
  constructor
  · intro kept
    exact ⟨_, _, ofText_savable (savable_delay kept), rfl⟩
  · rintro ⟨source, document, read, rfl⟩
    exact delayKept_ofText read

def fullDocument : Document where
  name := "Étoile \"1\""
  author := "two\nlines"
  spellDelay := Int64.maxValue
  loadedSpell := "next"
  finishCommands := ["say $(done)"]
  points := [{}, { commands := ["say \\"], offset := ⟨.finite defaultStep, zero, zero⟩ }]
  rays := [{ particles := [{ name := "flame", speed := .finite defaultStep, count := 3 }],
             blockChecks := [{ subject := "stone", invert := true }] }]
  selectedIndex := 1

theorem reopened_fullDocument :
    Savable fullDocument ∧ Document.ofText fullDocument.toText = .ok fullDocument := by
  have savable : Savable fullDocument := {
    selected := by decide
    few := by decide
    finite := by decide
    steps := by simp [fullDocument, defaultStep, Finite.isPositive, blockSize]
    limits := by decide
    delay := .inr rfl
    survive := by decide +kernel }
  exact ⟨savable, reopened_same.1 fullDocument savable⟩

end SpellPack.Proofs.SavedDocument
