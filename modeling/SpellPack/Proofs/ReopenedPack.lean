import SpellPack.Pack.Assembly
import SpellPack.Proofs.DocumentReopening

/-! A document that was saved and opened again is packed as before. Packing and reading
repair the same numbers in the same way, so it does not matter which of them does it. -/

namespace SpellPack.Proofs.ReopenedPack
open Json Binary64 IndentedReading FieldReading DocumentReopening

def DelayReadsBack (delay : Int64) : Prop :=
  ∃ value, Value.ofText (toString delay.toInt) = .ok value ∧
    Fields.integer? [("spellDelay", value)] "spellDelay" = some delay

theorem delayReadsBack_iff {delay : Int64} : DelayReadsBack delay ↔ DelayKept delay := by
  constructor
  · rintro ⟨value, _, same⟩
    exact delayKept_read same
  · intro kept
    have read := @ofText_indented _ _ (legible_delay delay) "" (by simp)
    rw [String.append_empty] at read
    exact ⟨_, read, delay_read kept rfl⟩

theorem commandText_repairedNumber (x : Binary64) : (repairedNumber x).commandText = x.commandText := by
  cases x with
  | finite y => rfl
  | nan => decide +kernel
  | infinite negative => exact (show zero.commandText = "0" by decide +kernel)

theorem spawnLine_repaired (offset : Offset) :
    PointFile.spawnLine (repairedOffset offset) = PointFile.spawnLine offset := by
  unfold PointFile.spawnLine repairedOffset
  simp only [commandText_repairedNumber]

theorem pointText_repaired (context : SpellContext) (point : Point) (index : Nat) (isFirst isLast : Bool) :
    PointFile.text context (repairedPoint point) index isFirst isLast =
      PointFile.text context point index isFirst isLast := by
  simp only [PointFile.text, PointFile.fileLines, repairedPoint, spawnLine_repaired]

theorem particleLine_repaired (particle : Particle) :
    RayFile.particleLine? (repairedParticle particle) = RayFile.particleLine? particle := by
  simp only [RayFile.particleLine?, repairedParticle, commandText_repairedNumber]

section Rays

variable (ray : Ray)

theorem effectiveStep_repaired : (repairedRay ray).effectiveStep = ray.effectiveStep := by
  rw [Ray.effectiveStep, repairedRay]
  simp only [ray.isPositive_effectiveStep, if_true]

theorem effectiveMaxSteps_repaired : (repairedRay ray).effectiveMaxSteps = ray.effectiveMaxSteps := by
  apply UInt32.toNat_inj.mp
  rw [Ray.toNat_effectiveMaxSteps, repairedRay, Ray.toNat_effectiveMaxSteps]
  omega

theorem macroFields_repaired : (repairedRay ray).macroFields = ray.macroFields := by
  simp only [Ray.macroFields, repairedRay, List.map_map]
  rfl

theorem fileLines_repaired (index : Nat) (spellId : String) :
    RayFile.fileLines (repairedRay ray) index spellId = RayFile.fileLines ray index spellId := by
  have particles : (repairedRay ray).particles.filterMap RayFile.particleLine? =
      ray.particles.filterMap RayFile.particleLine? := by
    simp only [repairedRay, List.filterMap_map, Function.comp_def, particleLine_repaired]
  have step : RayFile.stepLine (repairedRay ray) index spellId = RayFile.stepLine ray index spellId := by
    unfold RayFile.stepLine Ray.takesMacros Ray.macroNames
    rw [effectiveStep_repaired, macroFields_repaired]
  rw [RayFile.fileLines, particles, step]
  rfl

theorem activationLines_repaired (index : Nat) (spellId : String) :
    RayFile.activationLines (repairedRay ray) index spellId = RayFile.activationLines ray index spellId := by
  unfold RayFile.activationLines Ray.takesMacros
  rw [effectiveMaxSteps_repaired, macroFields_repaired]

end Rays

section Documents

variable {document : Document}

theorem repaired_eq (some : 0 < document.points.length) :
    repaired document = { document with
      points := document.points.map repairedPoint
      rays := document.rays.map repairedRay
      selectedIndex := document.selection } := by
  have points : document.points.isEmpty = false := by
    rw [List.isEmpty_eq_false_iff]
    exact List.ne_nil_of_length_pos some
  simp [repaired, Document.normalize, Document.selectPoint, Document.selection, points]

theorem pointText_document (some : 0 < document.points.length) (index : Nat) (point : Point) :
    (repaired document).pointText index (repairedPoint point) = document.pointText index point := by
  rw [repaired_eq some, Document.pointText, pointText_repaired, List.length_map]
  rfl

theorem enabledRays_repaired (some : 0 < document.points.length) :
    (repaired document).enabledRays = document.enabledRays.map fun (ray, index) => (repairedRay ray, index) := by
  rw [repaired_eq some, Document.enabledRays, List.zipIdx_map, List.filter_map]
  rfl

theorem packFiles_repaired (some : 0 < document.points.length) : (repaired document).packFiles = document.packFiles := by
  have points : (repaired document).pointFiles = document.pointFiles := by
    have mapped : (repaired document).points = document.points.map repairedPoint := by rw [repaired_eq some]
    rw [Document.pointFiles, mapped, List.zipIdx_map, List.map_map]
    apply List.map_congr_left
    intro ⟨point, index⟩ _
    simp only [Function.comp_apply, Prod.map_apply, id_eq, pointText_document some]
    rw [repaired_eq some]
    rfl
  have rays : (repaired document).rayFiles = document.rayFiles := by
    rw [Document.rayFiles, enabledRays_repaired some, List.map_map]
    apply List.map_congr_left
    intro ⟨ray, index⟩ _
    simp only [Function.comp_apply, RayFile.text, fileLines_repaired]
    rw [repaired_eq some]
    rfl
  have activation : (repaired document).activationFile = document.activationFile := by
    rw [Document.activationFile, Document.activationLines, enabledRays_repaired some, List.flatMap_map]
    simp only [activationLines_repaired]
    rw [repaired_eq some]
    rfl
  rw [Document.packFiles, points, rays, activation, repaired_eq some]
  rfl

theorem assemble_repaired (some : 0 < document.points.length) : (repaired document).assemble = document.assemble := by
  rw [Document.assemble, packFiles_repaired some, repaired_eq some]
  rfl

theorem previewPoint_repaired (some : 0 < document.points.length) (index : Nat) :
    (repaired document).previewPoint index = document.previewPoint index := by
  have mapped : (repaired document).points = document.points.map repairedPoint := by rw [repaired_eq some]
  rw [Document.previewPoint, Document.previewPoint, mapped, List.getElem?_map, List.length_map]
  cases document.points[index]? with
  | none => rfl
  | some point => simp only [Option.map_some, pointText_document some]

/-- Only numbers that do not survive by themselves can change what is packed. -/
theorem packed_reopened (some : 0 < document.points.length) (few : document.points.length ≤ 2 ^ 53)
    (word : document.selectedIndex < 2 ^ 64) (survive : ∀ x ∈ numbers document, Survives x)
    (delay : DelayReadsBack document.spellDelay) :
    ∃ reopened, Document.ofText document.toText = .ok reopened ∧ reopened.assemble = document.assemble ∧
      ∀ index, reopened.previewPoint index = document.previewPoint index := by
  refine ⟨repaired document, ?_, ?_, ?_⟩
  · exact ofText_toText survive few word (delayReadsBack_iff.mp delay)
  · exact assemble_repaired some
  · exact previewPoint_repaired some

end Documents

def brokenDocument : Document where
  name := "Bolt"
  points := [{ offset := ⟨.nan, .infinite true, .finite defaultStep⟩ }]
  rays := [
    { step := .infinite false, maxSteps := 0, particles := [{ name := "flame", dx := .nan }] },
    { step := zero }]
  selectedIndex := 7

theorem packed_brokenDocument :
    ∃ reopened, Document.ofText brokenDocument.toText = .ok reopened ∧
      reopened.assemble = brokenDocument.assemble ∧
      ∀ index, reopened.previewPoint index = brokenDocument.previewPoint index :=
  packed_reopened (by decide) (by decide) (by decide) (by decide +kernel) (delayReadsBack_iff.mpr delayKept_default)

end SpellPack.Proofs.ReopenedPack
