import Mathlib.Data.List.Basic
import SpellPack.Proofs.FieldReading

/-! Saving a document and opening it again. What comes back is the document with each of
its numbers as it is read alone, and repaired as reading repairs them, so a document in
good order is unchanged if its numbers are. -/

namespace SpellPack.Proofs.DocumentReopening
open Json Binary64 NumeralReading NumeralText ValueReading IndentedReading ExactNumbers FieldReading

def repairedOffset (offset : Offset) : Offset :=
  ⟨repairedNumber offset.x, repairedNumber offset.y, repairedNumber offset.z⟩

theorem offset_read (offset : Offset) : offset.toJson.fields?.map Offset.ofFields = some (repairedOffset offset) := by
  simp only [Offset.toJson, Value.fields?, Option.map_some, Offset.ofFields, repairedOffset]
  rw [number_read rfl, number_read rfl, number_read rfl]

def repairedPoint (point : Point) : Point := { point with offset := repairedOffset point.offset }

theorem point_read (point : Point) : Point.ofJson point.toJson = repairedPoint point := by
  simp only [Point.ofJson, Point.toJson, Value.fields?, Option.map_some, Option.getD_some, Point.ofFields]
  rw [texts_read rfl, show List.lookup "offset" _ = some point.offset.toJson from rfl, Option.bind_some, offset_read]
  rfl

def repairedParticle (particle : Particle) : Particle :=
  { particle with
    dx := repairedNumber particle.dx
    dy := repairedNumber particle.dy
    dz := repairedNumber particle.dz
    speed := repairedNumber particle.speed }

theorem particle_read (particle : Particle) :
    particle.toJson.fields?.map Particle.ofFields = some (repairedParticle particle) := by
  obtain ⟨x, number, count⟩ := lenient_count particle.count
  simp only [Particle.toJson, Value.fields?, Option.map_some, Particle.ofFields, repairedParticle]
  rw [text_read rfl, number_read rfl, number_read rfl, number_read rfl, number_read rfl, Fields.number?,
    show List.lookup "count" _ = some (.ofInt particle.count.toNat) from rfl, Option.bind_some, number,
    Option.getD_some, count]

theorem check_read (check : Check) : check.toJson.fields?.map Check.ofFields = some check := by
  simp only [Check.toJson, Value.fields?, Option.map_some, Check.ofFields]
  rw [text_read rfl, text_read rfl, flag_read rfl, flag_read rfl, Option.getD_some, Option.getD_some]

/-- Reading decides on steps and step limits as the pack does. -/
def repairedRay (ray : Ray) : Ray :=
  { ray with
    step := .finite ray.effectiveStep
    maxSteps := ray.effectiveMaxSteps
    particles := ray.particles.map repairedParticle }

theorem step_read (ray : Ray) :
    Binary64.finite ((ray.step.finite?.filter (·.isPositive)).getD defaultStep) = .finite ray.effectiveStep := by
  rw [Ray.effectiveStep]
  cases ray.step with
  | finite step => cases positive : step.isPositive <;> simp [finite?, Option.filter, positive]
  | _ => rfl

theorem ray_read (ray : Ray) : ray.toJson.fields?.map Ray.ofFields = some (repairedRay ray) := by
  obtain ⟨x, number, count⟩ := lenient_count ray.maxSteps
  simp only [Ray.toJson, Value.fields?, Option.map_some, Ray.ofFields, repairedRay]
  rw [text_read rfl, flag_read rfl, objects_read rfl particle_read, objects_read rfl check_read,
    objects_read rfl check_read, Fields.number?, show List.lookup "step" _ = some (.ofBinary64 ray.step) from rfl,
    show List.lookup "maxSteps" _ = some (.ofInt ray.maxSteps.toNat) from rfl, Option.bind_some, lenient_ofBinary64,
    step_read]
  simp only [number, Option.getD_some, count, Ray.effectiveMaxSteps, List.map_id']

def repaired (document : Document) : Document :=
  let document := document.normalize
  { document with points := document.points.map repairedPoint, rays := document.rays.map repairedRay }

theorem isCurrentVersion_written : Document.isCurrentVersion (.ofInt Document.schemaVersion) = true := by
  have finite := ofInt_finite (n := Document.schemaVersion) (by decide)
  simp only [Document.isCurrentVersion, Value.ofInt, Value.number?, Number.toBinary64]
  rw [finite]
  simp [sameNumber]

theorem readPoints_written {fields : Fields} {points : List Point}
    (found : fields.lookup "points" = some (.array (points.map Point.toJson))) :
    Document.readPoints fields = .ok (points.map repairedPoint) := by
  simp only [Document.readPoints, found, List.map_map]
  congr 1
  exact List.map_congr_left fun point _ => point_read point

theorem normalize_reread {document : Document} {index : Nat}
    (selected : min index (document.points.length - 1) = min document.selectedIndex (document.points.length - 1)) :
    ({ document with
        points := document.points.map repairedPoint
        rays := document.rays.map repairedRay
        selectedIndex := index } : Document).normalize = repaired document := by
  cases points : document.points with
  | nil =>
    simp [repaired, Document.normalize, Document.selectPoint, points, repairedPoint, repairedOffset, repairedNumber,
      zero]
  | cons point later =>
    rw [points] at selected
    simpa [repaired, Document.normalize, Document.selectPoint, points] using selected

/-- Reading the fields of a document, without the text between. -/
theorem ofJson_toJson {document : Document} (few : document.points.length ≤ 2 ^ 53)
    (word : document.selectedIndex < 2 ^ 64) (kept : DelayKept document.spellDelay) :
    Document.ofJson document.toJson = .ok (repaired document) := by
  have current : Document.ofFields (("schemaVersion", .ofInt Document.schemaVersion) :: document.toFields) =
      Document.ofCurrent (("schemaVersion", .ofInt Document.schemaVersion) :: document.toFields) := by
    rw [Document.ofFields, show List.lookup "schemaVersion" _ = some (.ofInt Document.schemaVersion) from rfl]
    simp only [isCurrentVersion_written, if_true]
  have selected := @index_read (("schemaVersion", .ofInt Document.schemaVersion) :: document.toFields)
    "selectedIndex" _ (document.points.length - 1) rfl word (by omega)
  rw [Document.toJson, Document.ofJson, current, Document.ofCurrent, readPoints_written rfl]
  simp only [ok_bind, pure_eq_ok]
  rw [text_read rfl, text_read rfl, delay_read kept rfl, text_read rfl, texts_read rfl, objects_read rfl ray_read,
    Option.getD_some, normalize_reread selected]
  rfl

/-! The numbers of a document, which alone can be lost in writing. -/

def offsetNumbers (offset : Offset) : List Binary64 := [offset.x, offset.y, offset.z]

def particleNumbers (particle : Particle) : List Binary64 := [particle.dx, particle.dy, particle.dz, particle.speed]

def rayNumbers (ray : Ray) : List Binary64 := ray.step :: ray.particles.flatMap particleNumbers

def numbers (document : Document) : List Binary64 :=
  document.points.flatMap (offsetNumbers ·.offset) ++ document.rays.flatMap rayNumbers

/-- What is not finite is not written as a number. -/
def Survives : Binary64 → Prop
  | .finite x => ReadsBack x
  | _ => True

instance : DecidablePred Survives
  | .finite x => inferInstanceAs (Decidable (ReadsBack x))
  | .nan | .infinite _ => inferInstanceAs (Decidable True)

section Renumbered

variable (f : Finite → Finite)

def renumber : Binary64 → Binary64
  | .finite x => .finite (f x)
  | other => other

def renumberedOffset (offset : Offset) : Offset :=
  ⟨renumber f offset.x, renumber f offset.y, renumber f offset.z⟩

def renumberedPoint (point : Point) : Point := { point with offset := renumberedOffset f point.offset }

def renumberedParticle (particle : Particle) : Particle :=
  { particle with
    dx := renumber f particle.dx
    dy := renumber f particle.dy
    dz := renumber f particle.dz
    speed := renumber f particle.speed }

def renumberedRay (ray : Ray) : Ray :=
  { ray with step := renumber f ray.step, particles := ray.particles.map (renumberedParticle f) }

def renumbered (document : Document) : Document :=
  { document with
    points := document.points.map (renumberedPoint f)
    rays := document.rays.map (renumberedRay f) }

end Renumbered

def Becomes (f : Finite → Finite) : Binary64 → Prop
  | .finite x => ReadsAs readNumber (Number.text (.real x)).toList (.real (f x))
  | _ => True

section Legible

variable {depth : Nat} {f : Finite → Finite}

theorem legible_delay (delay : Int64) : Legible depth (.ofInt delay.toInt) (.ofInt delay.toInt) := by
  have least := delay.le_toInt
  have greatest := delay.toInt_lt
  exact .number (integer_readsAs (by omega) (by omega))

theorem legible_objects {items : List α} {toJson : α → Value} {become : α → α}
    (each : ∀ item ∈ items, Legible depth (toJson item) (toJson (become item))) :
    Legible (depth + 1) (.array (items.map toJson)) (.array ((items.map become).map toJson)) := by
  have pairs := @Legible.array depth (items.map fun item => (toJson item, toJson (become item))) (by
    intro pair member
    obtain ⟨item, inside, rfl⟩ := List.mem_map.mp member
    exact each item inside)
  simpa only [List.map_map, Function.comp_def] using pairs

theorem legible_ofTexts (texts : List String) : Legible (depth + 1) (.ofTexts texts) (.ofTexts texts) := by
  have same := @legible_objects depth String texts .string id fun text _ => .string text
  rwa [List.map_id] at same

theorem legible_ofBinary64 {x : Binary64} (becomes : Becomes f x) :
    Legible depth (.ofBinary64 x) (.ofBinary64 (renumber f x)) := by
  cases x with
  | finite y => exact .number becomes
  | _ => exact .null

theorem legible_offset {offset : Offset} (become : ∀ x ∈ offsetNumbers offset, Becomes f x) :
    Legible (depth + 1) offset.toJson (renumberedOffset f offset).toJson := by
  simp only [offsetNumbers, List.forall_mem_cons] at become
  obtain ⟨x, y, z, _⟩ := become
  exact legible_fields rfl (by simp)
    (.cons (legible_ofBinary64 x) (.cons (legible_ofBinary64 y) (.cons (legible_ofBinary64 z) .nil)))

theorem legible_point {point : Point} (become : ∀ x ∈ offsetNumbers point.offset, Becomes f x) :
    Legible (depth + 2) point.toJson (renumberedPoint f point).toJson :=
  legible_fields rfl (by simp) (.cons (legible_ofTexts _) (.cons (legible_offset become) .nil))

theorem legible_particle {particle : Particle} (become : ∀ x ∈ particleNumbers particle, Becomes f x) :
    Legible (depth + 1) particle.toJson (renumberedParticle f particle).toJson := by
  have count : particle.count.toNat < 2 ^ 64 := Nat.lt_trans particle.count.toNat_lt (by decide)
  simp only [particleNumbers, List.forall_mem_cons] at become
  obtain ⟨dx, dy, dz, speed, _⟩ := become
  exact legible_fields rfl (by simp)
    (.cons (.string _) (.cons (legible_ofBinary64 dx) (.cons (legible_ofBinary64 dy) (.cons (legible_ofBinary64 dz)
      (.cons (legible_ofBinary64 speed) (.cons (legible_word count) .nil))))))

theorem legible_check (check : Check) : Legible (depth + 1) check.toJson check.toJson :=
  legible_fields rfl (by simp) (.cons (.string _) (.cons (.string _) (.cons (.bool _) (.cons (.bool _) .nil))))

theorem legible_checks (checks : List Check) :
    Legible (depth + 2) (.array (checks.map Check.toJson)) (.array (checks.map Check.toJson)) := by
  have same := @legible_objects (depth + 1) Check checks Check.toJson id fun check _ => legible_check check
  rwa [List.map_id] at same

theorem legible_ray {ray : Ray} (become : ∀ x ∈ rayNumbers ray, Becomes f x) :
    Legible (depth + 3) ray.toJson (renumberedRay f ray).toJson := by
  have limit : ray.maxSteps.toNat < 2 ^ 64 := Nat.lt_trans ray.maxSteps.toNat_lt (by decide)
  simp only [rayNumbers, List.forall_mem_cons, List.forall_mem_flatMap] at become
  obtain ⟨step, particles⟩ := become
  have inside := @legible_objects (depth + 1) _ ray.particles Particle.toJson (renumberedParticle f)
    fun particle member => legible_particle (particles particle member)
  exact legible_fields rfl (by simp)
    (.cons (.string _) (.cons (.bool _) (.cons (legible_ofBinary64 step) (.cons (legible_word limit) (.cons inside
      (.cons (legible_checks _) (.cons (legible_checks _) .nil)))))))

theorem legible_toJson {document : Document} (become : ∀ x ∈ numbers document, Becomes f x)
    (word : document.selectedIndex < 2 ^ 64) : Legible (depth + 5) document.toJson (renumbered f document).toJson := by
  simp only [numbers, List.forall_mem_append, List.forall_mem_flatMap] at become
  obtain ⟨inPoints, inRays⟩ := become
  have points := @legible_objects (depth + 3) _ document.points Point.toJson (renumberedPoint f)
    fun point member => legible_point (inPoints point member)
  have rays := @legible_objects (depth + 3) _ document.rays Ray.toJson (renumberedRay f)
    fun ray member => legible_ray (inRays ray member)
  exact legible_fields rfl (by simp [Document.toFields])
    (.cons (legible_word (by decide)) (.cons (.string _) (.cons (.string _) (.cons (legible_delay _) (.cons (.string _)
      (.cons (legible_ofTexts _) (.cons points (.cons rays (.cons (legible_word word) .nil)))))))))

end Legible

section Texts

variable {document : Document} {f : Finite → Finite}

/-- The text of a document is read as the document with its numbers read one by one. -/
theorem ofText_renumbered (become : ∀ x ∈ numbers document, Becomes f x) (few : document.points.length ≤ 2 ^ 53)
    (word : document.selectedIndex < 2 ^ 64) (kept : DelayKept document.spellDelay) :
    Document.ofText document.toText = .ok (repaired (renumbered f document)) := by
  have read := @ofText_indented _ _ (legible_toJson become word) "" (by simp)
  have fewer : (renumbered f document).points.length ≤ 2 ^ 53 := by simpa [renumbered] using few
  rw [String.append_empty] at read
  rw [Document.ofText, Document.toText, mapError_eq_ok.mpr read, ok_bind, ofJson_toJson fewer word kept]

theorem renumber_id (x : Binary64) : renumber id x = x := by cases x <;> rfl

theorem renumbered_id (document : Document) : renumbered id document = document := by
  have points : renumberedPoint id = id := by
    funext point
    simp [renumberedPoint, renumberedOffset, renumber_id]
  have particles : renumberedParticle id = id := by
    funext particle
    simp [renumberedParticle, renumber_id]
  have rays : renumberedRay id = id := by
    funext ray
    simp [renumberedRay, renumber_id, particles]
  simp [renumbered, points, rays]

theorem becomes_id {x : Binary64} (survives : Survives x) : Becomes id x := by
  cases x with
  | finite y => exact real_readsAs survives
  | _ => exact trivial

theorem ofText_toText (survive : ∀ x ∈ numbers document, Survives x) (few : document.points.length ≤ 2 ^ 53)
    (word : document.selectedIndex < 2 ^ 64) (kept : DelayKept document.spellDelay) :
    Document.ofText document.toText = .ok (repaired document) := by
  have read := ofText_renumbered (fun x member => becomes_id (survive x member)) few word kept
  rwa [renumbered_id] at read

end Texts

end SpellPack.Proofs.DocumentReopening
