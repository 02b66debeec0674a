import SpellPack.Proofs.SavedDocument
import SpellPack.Proofs.ShortNumbers

/-! Saving a document and opening it again keeps all but its numbers, and these it moves by
a few ranks at most. Numbers of few digits stay as they are, but not all numbers do. -/

namespace SpellPack.Proofs.ReopenedNumbers
open Json Binary64 ExactNumbers NearestRank ShortestDecimal NumeralReading WrittenNumerals NumberDrift ValueReading
  IndentedReading FieldReading DocumentReopening SavedDocument RereadNumbers ShortNumbers

/-- How a number may differ from the one that was saved. From `10 ^ -288` on it is scaled
in a single step. -/
structure Drift (saved opened : Finite) : Prop where
  sign : opened.negative = saved.negative
  zero : opened.rank = 0 ↔ saved.rank = 0
  near : Near 5 opened.rank saved.rank
  large : 1 ≤ size saved.rank * 10 ^ 288 → Near 3 opened.rank saved.rank
  short : ∀ coefficient exponent, Short coefficient exponent → Decimal.rank coefficient exponent = saved.rank →
    opened = saved

theorem drift_reread (x : Finite) : Drift x (reread x) where
  sign := rfl
  zero := rereadRank_eq_zero x.rank_lt
  near := near_rereadRank x.rank_lt
  large := near_rereadRank_large x.rank_lt
  short := by
    intro coefficient exponent short rounds
    obtain ⟨negative, rank, inside⟩ := x
    simp only [reread, rereadRank_short short rounds inside]

/-- One half has a single digit. -/
example : reread defaultStep = defaultStep :=
  (drift_reread defaultStep).short 5 (-1) ⟨by decide, by decide, by norm_num [amount]⟩ (by decide +kernel)

theorem ofText_real (x : Finite) : Value.ofText x.documentText = .ok (.number (.real (reread x))) := by
  have read := @ofText_indented _ _ (.number (real_reread x)) "" (by simp)
  rwa [String.append_empty, Value.indented] at read

/-- A number survives by itself if it is read as itself. -/
theorem survives_iff {x : Binary64} : Survives x ↔ renumber reread x = x := by
  cases x with
  | finite x =>
    simp only [renumber, finite.injEq]
    constructor
    · rintro ⟨number, read, same⟩
      rw [ofText_real, Except.ok.injEq, Value.number.injEq] at read
      subst read
      simpa [Number.toBinary64] using same
    · intro same
      exact ⟨_, ofText_real x, by rw [Number.toBinary64, same]⟩
  | _ => simp [Survives, renumber]

theorem becomes_reread (x : Binary64) : Becomes reread x := by
  cases x with
  | finite y => exact real_reread y
  | _ => exact trivial

section Documents

variable {document : Document}

theorem numbers_renumbered (f : Finite → Finite) (document : Document) :
    numbers (renumbered f document) = (numbers document).map (renumber f) := by
  simp only [numbers, renumbered, List.map_append, List.map_flatMap, List.flatMap_map]
  congr 1
  simp [rayNumbers, renumberedRay, List.map_flatMap, List.flatMap_map, particleNumbers, renumberedParticle]

theorem orderly_renumbered (orderly : Orderly document) : Orderly (renumbered reread document) where
  selected := by simpa [renumbered] using orderly.selected
  few := by simpa [renumbered] using orderly.few
  finite := by
    rw [numbers_renumbered]
    intro x member
    obtain ⟨y, inside, rfl⟩ := List.mem_map.mp member
    have finite := orderly.finite y inside
    cases y with
    | finite y => rfl
    | _ => cases finite
  steps := by
    intro ray member step same
    obtain ⟨old, inside, rfl⟩ := List.mem_map.mp member
    cases given : old.step with
    | finite length =>
      have positive := orderly.steps old inside length given
      rw [renumberedRay, given] at same
      obtain rfl : reread length = step := by simpa [renumber] using same
      have drift := drift_reread length
      simpa [Finite.isPositive, drift.sign, drift.zero] using positive
    | _ => simp [renumberedRay, given, renumber] at same
  limits := by
    intro ray member
    obtain ⟨old, inside, rfl⟩ := List.mem_map.mp member
    exact orderly.limits old inside
  delay := orderly.delay

theorem ofText_orderly (orderly : Orderly document) :
    Document.ofText document.toText = .ok (renumbered reread document) := by
  have read := ofText_renumbered (fun x _ => becomes_reread x) orderly.few orderly.word orderly.delay
  rwa [repaired_orderly (orderly_renumbered orderly)] at read

theorem same_iff (orderly : Orderly document) :
    Document.ofText document.toText = .ok document ↔ ∀ x ∈ numbers document, Survives x := by
  constructor
  · intro same x member
    rw [ofText_orderly orderly, Except.ok.injEq] at same
    have each : (numbers document).map (renumber reread) = (numbers document).map id := by
      rw [← numbers_renumbered, same, List.map_id]
    exact survives_iff.mpr (List.map_inj_left.mp each x member)
  · intro survive
    exact ofText_savable (orderly.savable survive)

end Documents

/-- Opening what was saved always succeeds. All but the numbers is as it was, each number
has moved as it would have alone, and nothing changed if none of them moved. -/
theorem reopened_drift (document : Document) (orderly : Orderly document) :
    Document.ofText document.toText = .ok (renumbered reread document) ∧
      (∀ x, Drift x (reread x)) ∧
      (Document.ofText document.toText = .ok document ↔ ∀ x ∈ numbers document, Survives x) :=
  ⟨ofText_orderly orderly, drift_reread, same_iff orderly⟩

def eleventh : Finite := ⟨false, 4591215111030249286, by decide⟩

def eleventhDocument : Document := { name := "x", points := [{ offset := ⟨.finite eleventh, zero, zero⟩ }] }

theorem orderly_eleventhDocument : Orderly eleventhDocument where
  selected := by decide
  few := by decide
  finite := by decide
  steps := by simp [eleventhDocument]
  limits := by simp [eleventhDocument]
  delay := delayKept_default

theorem reread_eleventh : (reread eleventh).rank = eleventh.rank + 1 := by decide +kernel

theorem opened_eleventhDocument :
    Orderly eleventhDocument ∧ Document.ofText eleventhDocument.toText =
      .ok { eleventhDocument with points := [{ offset := ⟨.finite (reread eleventh), zero, zero⟩ }] } := by
  have read := (reopened_drift eleventhDocument orderly_eleventhDocument).1
  have zeros : renumber reread zero = zero := by decide +kernel
  refine ⟨orderly_eleventhDocument, read.trans ?_⟩
  simp only [renumbered, eleventhDocument, renumberedPoint, renumberedOffset, zeros, List.map_cons, List.map_nil]
  rfl

/-- Its digits need more than 53 bits, and it comes back as the next double. -/
theorem changed_eleventhDocument :
    Orderly eleventhDocument ∧ Document.ofText eleventhDocument.toText ≠ .ok eleventhDocument := by
  refine ⟨orderly_eleventhDocument, fun same => ?_⟩
  have survives := (same_iff orderly_eleventhDocument).mp same (.finite eleventh)
    (by simp [numbers, eleventhDocument, offsetNumbers])
  have stays : reread eleventh = eleventh := by simpa [renumber] using survives_iff.mp survives
  have moves := reread_eleventh
  rw [stays] at moves
  omega

end SpellPack.Proofs.ReopenedNumbers
