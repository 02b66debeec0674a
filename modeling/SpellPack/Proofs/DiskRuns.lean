import SpellPack.Disk.Access

/-! Steps on a tree, one after the other. A run ends with the first step that fails, and what
the steps before it did stays. -/

namespace SpellPack.Proofs.DiskRuns
open FileSystem (Step)

variable {disk changed after : Disk} {error : Error} {step : Step}

theorem perform_ok (done : Disk.system.runStep step disk = (.ok (), changed)) (later : List Step) :
    Disk.system.perform (step :: later) disk = Disk.system.perform later changed := by
  simp only [FileSystem.perform, bind, StateT.bind, done]

theorem perform_error (failed : Disk.system.runStep step disk = (.error error, changed)) (later : List Step) :
    Disk.system.perform (step :: later) disk = (.error error, changed) := by
  simp only [FileSystem.perform, bind, StateT.bind, failed]
  rfl

theorem perform_cons_ok {later : List Step} (performed : Disk.system.perform (step :: later) disk = (.ok (), after)) :
    ∃ changed, Disk.system.runStep step disk = (.ok (), changed) ∧
      Disk.system.perform later changed = (.ok (), after) := by
  cases ran : Disk.system.runStep step disk with
  | mk result changed =>
    cases result with
    | ok _ =>
      rw [perform_ok ran] at performed
      exact ⟨changed, rfl, performed⟩
    | error error =>
      rw [perform_error ran] at performed
      cases performed

theorem perform_append_ok {first later : List Step} :
    Disk.system.perform (first ++ later) disk = (.ok (), after) ↔
      ∃ changed, Disk.system.perform first disk = (.ok (), changed) ∧
        Disk.system.perform later changed = (.ok (), after) := by
  induction first generalizing disk with
  | nil =>
    constructor
    · intro performed
      exact ⟨disk, rfl, performed⟩
    · rintro ⟨changed, ⟨⟩, performed⟩
      exact performed
  | cons step others ih =>
    constructor
    · intro performed
      obtain ⟨changed, ran, rest⟩ := perform_cons_ok performed
      obtain ⟨last, begun, ended⟩ := ih.mp rest
      exact ⟨last, (perform_ok ran others).trans begun, ended⟩
    · rintro ⟨last, begun, ended⟩
      obtain ⟨changed, ran, rest⟩ := perform_cons_ok begun
      exact (perform_ok ran _).trans (ih.mpr ⟨last, rest, ended⟩)

/-- Steps that fail do so before others or after them. -/
theorem perform_append_error {first later : List Step}
    (failed : Disk.system.perform (first ++ later) disk = (.error error, after)) :
    Disk.system.perform first disk = (.error error, after) ∨ ∃ changed,
      Disk.system.perform first disk = (.ok (), changed) ∧
        Disk.system.perform later changed = (.error error, after) := by
  induction first generalizing disk with
  | nil => exact .inr ⟨disk, rfl, failed⟩
  | cons step others ih =>
    rw [List.cons_append] at failed
    cases ran : Disk.system.runStep step disk with
    | mk result changed =>
      cases result with
      | ok _ =>
        rw [perform_ok ran] at failed ⊢
        exact ih failed
      | error first =>
        rw [perform_error ran] at failed ⊢
        exact .inl failed

theorem runStep_makeDirectories_ok {path : String} :
    Disk.system.runStep (.makeDirectories path) disk = (.ok (), after) ↔
      Disk.system.makeDirectories path disk = (.ok (), after) := by
  have ran : Disk.system.runStep (.makeDirectories path) disk =
      ((Disk.system.makeDirectories path disk).1.mapError (Error.io .create path),
        (Disk.system.makeDirectories path disk).2) := rfl
  rw [ran, Prod.mk.injEq, Json.mapError_eq_ok, Prod.ext_iff]

theorem runStep_write_ok {path text : String} :
    Disk.system.runStep (.write path text) disk = (.ok (), after) ↔ disk.writeText path text = .ok after := by
  have ran : Disk.system.runStep (.write path text) disk =
      ((Disk.system.write path text disk).1.mapError (Error.io .write path),
        (Disk.system.write path text disk).2) := rfl
  have wrote : Disk.system.write path text disk = Disk.change (·.writeText path text) disk := rfl
  rw [ran, wrote, Disk.change]
  cases disk.writeText path text with
  | ok changed =>
    constructor
    · rintro ⟨⟩
      rfl
    · rintro ⟨⟩
      rfl
  | error fault =>
    constructor
    · rintro ⟨⟩
    · rintro ⟨⟩

def RefusedChange (error : Error) : Prop :=
  ∃ access path fault, error = .io access path fault ∧ (access = .create ∨ access = .write)

theorem mapError_eq_error {attempt : Except ε α} {name : ε → ε'} {failure : ε'} :
    attempt.mapError name = .error failure ↔ ∃ fault, attempt = .error fault ∧ name fault = failure := by
  cases attempt with
  | ok result =>
    constructor
    · rintro ⟨⟩
    · rintro ⟨_, ⟨⟩, _⟩
  | error fault =>
    constructor
    · rintro ⟨⟩
      exact ⟨fault, rfl, rfl⟩
    · rintro ⟨_, ⟨⟩, rfl⟩
      rfl

theorem refusedChange_runStep (failed : (Disk.system.runStep step disk).1 = .error error) : RefusedChange error := by
  cases step with
  | makeDirectories path =>
    change ((Disk.system.makeDirectories path disk).1.mapError (Error.io .create path)) = _ at failed
    obtain ⟨fault, _, named⟩ := mapError_eq_error.mp failed
    exact ⟨.create, path, fault, named.symm, .inl rfl⟩
  | write path text =>
    change ((Disk.system.write path text disk).1.mapError (Error.io .write path)) = _ at failed
    obtain ⟨fault, _, named⟩ := mapError_eq_error.mp failed
    exact ⟨.write, path, fault, named.symm, .inr rfl⟩

/-- Steps fail for no other reason than a refused change. -/
theorem refusedChange_perform {steps : List Step} (failed : (Disk.system.perform steps disk).1 = .error error) :
    RefusedChange error := by
  induction steps generalizing disk with
  | nil => cases failed
  | cons step later ih =>
    cases ran : Disk.system.runStep step disk with
    | mk result changed =>
      cases result with
      | ok _ =>
        rw [perform_ok ran] at failed
        exact ih failed
      | error first =>
        rw [perform_error ran] at failed
        cases failed
        exact refusedChange_runStep (congrArg Prod.fst ran)

end SpellPack.Proofs.DiskRuns
