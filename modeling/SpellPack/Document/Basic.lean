import SpellPack.Binary64.Basic

/-! The document of a spell as the editor holds it. Its fields may hold anything:
numbers that are not finite, steps that lead nowhere, a selection out of range. -/

namespace SpellPack

structure Offset where
  x : Binary64 := .zero
  y : Binary64 := .zero
  z : Binary64 := .zero
  deriving DecidableEq

/-- One point of the pattern, with the commands that run when it is reached. -/
structure Point where
  commands : List String := []
  offset : Offset := {}
  deriving DecidableEq

structure Particle where
  name : String := ""
  dx : Binary64 := .zero
  dy : Binary64 := .zero
  dz : Binary64 := .zero
  speed : Binary64 := .zero
  count : UInt32 := 0
  deriving DecidableEq

/-- A command guarded by a subject: a block pattern or an entity selector. -/
structure Check where
  subject : String := ""
  command : String := ""
  passThrough : Bool := false
  invert : Bool := false
  deriving DecidableEq

/-- One half. -/
def defaultStep : Binary64.Finite := ⟨false, 1022 * Binary64.blockSize, by decide⟩

def defaultMaxSteps : UInt32 := 20

structure Ray where
  name : String := ""
  enabled : Bool := true
  step : Binary64 := .finite defaultStep
  maxSteps : UInt32 := defaultMaxSteps
  particles : List Particle := []
  blockChecks : List Check := []
  entityChecks : List Check := []
  deriving DecidableEq

namespace Ray

/-- A step that is not finite or leads nowhere gives way to the default. -/
def effectiveStep (ray : Ray) : Binary64.Finite :=
  match ray.step with
  | .finite step => if step.isPositive then step else defaultStep
  | _ => defaultStep

theorem isPositive_effectiveStep (ray : Ray) : ray.effectiveStep.isPositive = true := by
  unfold effectiveStep
  split
  · split
    · assumption
    · decide
  · decide

def effectiveMaxSteps (ray : Ray) : UInt32 := max ray.maxSteps 1

theorem toNat_effectiveMaxSteps (ray : Ray) : ray.effectiveMaxSteps.toNat = max ray.maxSteps.toNat 1 := by
  change (if ray.maxSteps ≤ 1 then 1 else ray.maxSteps).toNat = _
  split
  · next least =>
    have : ray.maxSteps.toNat ≤ 1 := UInt32.le_iff_toNat_le.mp least
    exact (Nat.max_eq_right this).symm
  · next greater =>
    have : 1 < ray.maxSteps.toNat := UInt32.lt_iff_toNat_lt.mp (UInt32.not_le.mp greater)
    omega

/-- Block checks come before entity checks. -/
def checks (ray : Ray) : List Check := ray.blockChecks ++ ray.entityChecks

end Ray

def defaultDelay : Int64 := 50

structure Document where
  name : String := ""
  author : String := ""
  spellDelay : Int64 := defaultDelay
  loadedSpell : String := ""
  finishCommands : List String := []
  points : List Point := [{}]
  rays : List Ray := []
  selectedIndex : Nat := 0
  deriving DecidableEq

namespace Document

def named (name : String) : Document := { name }

/-- The enabled rays with their places in the document, which disabled rays keep too. -/
def enabledRays (document : Document) : List (Ray × Nat) :=
  document.rays.zipIdx.filter fun (ray, _) => ray.enabled

end Document

/-! Two documents are the same if their texts are equal and their numbers are equal
as numbers. -/

def Offset.same (a b : Offset) : Bool :=
  a.x.sameNumber b.x && a.y.sameNumber b.y && a.z.sameNumber b.z

def Point.same (a b : Point) : Bool :=
  a.commands == b.commands && a.offset.same b.offset

def Particle.same (a b : Particle) : Bool :=
  a.name == b.name && a.dx.sameNumber b.dx && a.dy.sameNumber b.dy && a.dz.sameNumber b.dz &&
    a.speed.sameNumber b.speed && a.count == b.count

def Ray.same (a b : Ray) : Bool :=
  a.name == b.name && a.enabled == b.enabled && a.step.sameNumber b.step &&
    a.maxSteps == b.maxSteps && a.particles.isEqv b.particles Particle.same &&
    a.blockChecks == b.blockChecks && a.entityChecks == b.entityChecks

def Document.same (a b : Document) : Bool :=
  a.name == b.name && a.author == b.author && a.spellDelay == b.spellDelay &&
    a.loadedSpell == b.loadedSpell && a.finishCommands == b.finishCommands &&
    a.points.isEqv b.points Point.same && a.rays.isEqv b.rays Ray.same &&
    a.selectedIndex == b.selectedIndex

end SpellPack
