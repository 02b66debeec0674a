import SpellPack.Proofs.DocumentReopening

/-! Reading any value as a document. Only what is no object, has another version or has points
that are no array is refused, and all that is read is in good order. -/

namespace SpellPack.Proofs.DocumentImport
open Json Binary64 DocumentReopening

inductive Unreadable : Value → Prop where
  | notObject {value : Value} (other : ∀ fields, value ≠ .object fields) : Unreadable value
  | version {fields : Fields} {version : Value} (written : fields.lookup "schemaVersion" = some version)
      (other : ∀ number, version = .number number → number.toBinary64 ≠ .ofInt 3) : Unreadable (.object fields)
  | points {fields : Fields} {points : Value} (written : fields.lookup "points" = some points)
      (other : ∀ items, points ≠ .array items) : Unreadable (.object fields)

/-- What the editor and the pack rely on. -/
structure WellFormed (fields : Fields) (document : Document) : Prop where
  some : 0 < document.points.length
  selected : document.selectedIndex < document.points.length
  points : document.points.length = max 1 (fields.array "points").length
  finite : ∀ x ∈ numbers document, ∃ value, x = .finite value
  steps : ∀ ray ∈ document.rays, ∃ step, ray.step = .finite step ∧ step.isPositive
  limits : ∀ ray ∈ document.rays, 1 ≤ ray.maxSteps

section Numbers

variable (fields : Fields)

theorem finite_offset : ∀ x ∈ offsetNumbers (Offset.ofFields fields), ∃ value, x = .finite value := by
  simp [offsetNumbers, Offset.ofFields, Fields.number]

theorem finite_point (value : Value) : ∀ x ∈ offsetNumbers (Point.ofJson value).offset, ∃ y, x = .finite y := by
  have origin : ∀ x ∈ offsetNumbers {}, ∃ y, x = .finite y := by simp [offsetNumbers, zero]
  rw [Point.ofJson]
  cases value.fields? with
  | none => exact origin
  | some fields =>
    rw [Option.map_some, Option.getD_some, Point.ofFields]
    cases (fields.lookup "offset").bind Value.fields? with
    | none => exact origin
    | some offset => exact finite_offset offset

theorem finite_particle : ∀ x ∈ particleNumbers (Particle.ofFields fields), ∃ value, x = .finite value := by
  simp [particleNumbers, Particle.ofFields, Fields.number]

theorem finite_ray : ∀ x ∈ rayNumbers (Ray.ofFields fields), ∃ value, x = .finite value := by
  rw [rayNumbers, List.forall_mem_cons]
  constructor
  · exact ⟨_, rfl⟩
  · rw [List.forall_mem_flatMap]
    intro particle member
    obtain ⟨source, _, rfl⟩ := List.mem_map.mp member
    exact finite_particle source

theorem step_positive : ∃ step, (Ray.ofFields fields).step = .finite step ∧ step.isPositive := by
  refine ⟨_, rfl, ?_⟩
  cases read : (fields.number? "step").filter (·.isPositive) with
  | none => decide
  | some step => exact (Option.filter_eq_some_iff.mp read).2

theorem maxSteps_positive : 1 ≤ (Ray.ofFields fields).maxSteps := by
  rw [Ray.ofFields]
  cases fields.lookup "maxSteps" with
  | none => exact show 1 ≤ defaultMaxSteps by decide
  | some value =>
    have most := Ray.toNat_effectiveMaxSteps { maxSteps := countOf (value.lenientNumber?.getD .zero) }
    rw [Ray.effectiveMaxSteps] at most
    rw [UInt32.le_iff_toNat_le, most]
    exact Nat.le_max_right _ _

end Numbers

section Points

variable {fields : Fields}

theorem read_default : ∀ point ∈ [({} : Point)], ∃ value, point = Point.ofJson value := by
  rw [List.forall_mem_singleton]
  exact ⟨.null, rfl⟩

theorem readPoints_refused : (∃ fault, Document.readPoints fields = .error fault) ↔
    ∃ points, fields.lookup "points" = some points ∧ ∀ items, points ≠ .array items := by
  rw [Document.readPoints]
  cases fields.lookup "points" with
  | none => simp
  | some points => cases points <;> simp

theorem readPoints_read {points : List Point} (read : Document.readPoints fields = .ok points) :
    (∀ point ∈ points, ∃ value, point = Point.ofJson value) ∧
      max 1 points.length = max 1 (fields.array "points").length := by
  rw [Document.readPoints] at read
  rw [Fields.array]
  cases written : fields.lookup "points" with
  | none =>
    rw [written] at read
    cases read
    exact ⟨read_default, rfl⟩
  | some value =>
    rw [written] at read
    cases value with
    | array items =>
      cases read
      simp [Value.items?]
    | _ => cases read

end Points

theorem wellFormed_normalize {fields : Fields} {document : Document}
    (points : Document.readPoints fields = .ok document.points)
    (rays : ∀ ray ∈ document.rays, ∃ source, ray = Ray.ofFields source) : WellFormed fields document.normalize := by
  obtain ⟨sources, count⟩ := readPoints_read points
  have length : document.normalize.points.length = max 1 document.points.length := by
    cases given : document.points <;> simp [Document.normalize, Document.selectPoint, given]
  have each : ∀ point ∈ document.normalize.points, ∃ value, point = Point.ofJson value := by
    rw [show document.normalize.points = if document.points.isEmpty then [{}] else document.points from rfl]
    split
    · exact read_default
    · exact sources
  have selection : document.normalize.selectedIndex ≤ document.normalize.points.length - 1 := Nat.min_le_right _ _
  constructor
  · omega
  · omega
  · rw [length, count]
  · rw [numbers, List.forall_mem_append, List.forall_mem_flatMap, List.forall_mem_flatMap]
    constructor
    · intro point member
      obtain ⟨value, rfl⟩ := each point member
      exact finite_point value
    · intro ray member
      obtain ⟨source, rfl⟩ := rays ray member
      exact finite_ray source
  · intro ray member
    obtain ⟨source, rfl⟩ := rays ray member
    exact step_positive source
  · intro ray member
    obtain ⟨source, rfl⟩ := rays ray member
    exact maxSteps_positive source

section Layouts

variable {fields : Fields}

/-- The points alone decide whether fields are read. The rest always comes out somehow. -/
inductive Completed (fields : Fields) : Except ImportFault Document → Prop where
  | refused {fault : ImportFault} (points : Document.readPoints fields = .error fault) : Completed fields (.error fault)
  | read {document : Document} (points : Document.readPoints fields = .ok document.points)
      (rays : ∀ ray ∈ document.rays, ∃ source, ray = Ray.ofFields source) : Completed fields (.ok document.normalize)

theorem completed_ofCurrent : Completed fields (Document.ofCurrent fields) := by
  rw [Document.ofCurrent]
  cases points : Document.readPoints fields with
  | error fault => exact .refused points
  | ok items =>
    apply Completed.read points
    intro ray member
    obtain ⟨source, _, rfl⟩ := List.mem_map.mp member
    exact ⟨source, rfl⟩

theorem completed_ofLegacy : Completed fields (Document.ofLegacy fields) := by
  rw [Document.ofLegacy]
  cases points : Document.readPoints fields with
  | error fault => exact .refused points
  | ok items =>
    apply Completed.read points
    intro ray member
    cases member

theorem isCurrentVersion_iff {version : Value} : Document.isCurrentVersion version = true ↔
    ∃ number, version = .number number ∧ number.toBinary64 = .ofInt 3 := by
  cases version with
  | number number =>
    have three := @ExactNumbers.ofInt_finite 3 (by decide)
    have same : Document.isCurrentVersion (.number number) = number.toBinary64.sameNumber (.ofInt 3) := rfl
    have nonzero : natRank (3 : Int).natAbs ≠ 0 := by decide +kernel
    rw [same, three, ExactNumbers.sameNumber_iff nonzero]
    simp
  | _ => simp [Document.isCurrentVersion, Value.number?]

theorem unreadable_iff : Unreadable (.object fields) ↔
    (∃ version, fields.lookup "schemaVersion" = some version ∧ ¬ Document.isCurrentVersion version) ∨
      ∃ fault, Document.readPoints fields = .error fault := by
  rw [readPoints_refused]
  constructor
  · intro unreadable
    cases unreadable with
    | notObject other => exact absurd rfl (other fields)
    | version written other =>
      refine .inl ⟨_, written, ?_⟩
      intro current
      obtain ⟨number, same, three⟩ := isCurrentVersion_iff.mp current
      exact other number same three
    | points written other => exact .inr ⟨_, written, other⟩
  · intro fault
    cases fault with
    | inl outdated =>
      obtain ⟨version, written, other⟩ := outdated
      apply Unreadable.version written
      intro number same three
      exact other (isCurrentVersion_iff.mpr ⟨number, same, three⟩)
    | inr noArray =>
      obtain ⟨points, written, other⟩ := noArray
      exact .points written other

theorem ofFields_outdated {version : Value} (written : fields.lookup "schemaVersion" = some version)
    (other : ¬ Document.isCurrentVersion version) :
    Document.ofFields fields = .error (.unsupportedVersion version) := by
  simp only [Document.ofFields, written, other, Bool.false_eq_true, if_false]

/-- The layouts differ in what they read but not in what they refuse. -/
theorem completed_ofFields
    (supported : ∀ version, fields.lookup "schemaVersion" = some version → Document.isCurrentVersion version) :
    Completed fields (Document.ofFields fields) := by
  rw [Document.ofFields.eq_def]
  cases written : fields.lookup "schemaVersion" with
  | none =>
    simp only []
    split
    · exact completed_ofLegacy
    · exact completed_ofCurrent
  | some version =>
    simp only [supported version written, if_true]
    exact completed_ofCurrent

end Layouts

inductive Outcome (value : Value) : Except Error Document → Prop where
  | refused {fault : ImportFault} (unreadable : Unreadable value) : Outcome value (.error (.invalidDocument fault))
  | read {fields : Fields} {document : Document} (object : value = .object fields) (readable : ¬ Unreadable value)
      (wellFormed : WellFormed fields document) : Outcome value (.ok document)

theorem outcome_ofFields (fields : Fields) :
    Outcome (.object fields) ((Document.ofFields fields).mapError .invalidDocument) := by
  by_cases supported : ∀ version, fields.lookup "schemaVersion" = some version → Document.isCurrentVersion version
  · have completed := completed_ofFields supported
    generalize Document.ofFields fields = attempt at completed ⊢
    cases completed with
    | refused points => exact .refused (unreadable_iff.mpr (.inr ⟨_, points⟩))
    | read points rays =>
      apply Outcome.read rfl _ (wellFormed_normalize points rays)
      rw [unreadable_iff, points]
      intro unreadable
      cases unreadable with
      | inl outdated =>
        obtain ⟨version, written, other⟩ := outdated
        exact other (supported version written)
      | inr noArray =>
        obtain ⟨fault, refused⟩ := noArray
        cases refused
  · simp only [not_forall] at supported
    obtain ⟨version, written, other⟩ := supported
    rw [ofFields_outdated written other]
    exact .refused (unreadable_iff.mpr (.inl ⟨version, written, other⟩))

theorem outcome_ofJson (value : Value) : Outcome value (Document.ofJson value) := by
  cases value with
  | object fields => exact outcome_ofFields fields
  | _ => exact .refused (.notObject fun fields => nofun)

/-- Nothing else makes a value unreadable, at whatever depth it stands. -/
theorem readable_or_not (value : Value) :
    ((∃ error, Document.ofJson value = .error error) ↔ Unreadable value) ∧
      (∀ error, Document.ofJson value = .error error → ∃ fault, error = .invalidDocument fault) ∧
      ∀ document, Document.ofJson value = .ok document →
        ∃ fields, value = .object fields ∧ WellFormed fields document := by
  have outcome := outcome_ofJson value
  generalize Document.ofJson value = attempt at outcome ⊢
  cases outcome with
  | refused unreadable => simp [unreadable]
  | read object readable wellFormed =>
    subst object
    simp [readable, wellFormed]

end SpellPack.Proofs.DocumentImport
