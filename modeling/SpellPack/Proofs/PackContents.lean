import Mathlib.Data.List.Sort
import SpellPack.Proofs.PackLines

/-! What stands at a path of a pack, told from the parts of the document. Two documents with
the same ids have the same file wherever the parts behind its path are the same. -/

namespace SpellPack.Proofs.PackContents
open Layout FileTable PackPaths PackFiles

section Keys

theorem mem_keys_iff {entries : List (String × α)} {key : String} :
    key ∈ entries.map Prod.fst ↔ (entries.lookup key).isSome := by
  induction entries with
  | nil => simp
  | cons entry later ih =>
    obtain ⟨name, held⟩ := entry
    rw [lookup_cons, List.map_cons, List.mem_cons, ih]
    split
    · next same => simp [same]
    · next other => simp [other]

theorem mem_paths_iff {files : Files} {path : String} : path ∈ files.paths ↔ (files.get? path).isSome := mem_keys_iff

theorem lookup_eq_some_iff {entries : List (String × α)} (ascend : KeysAscend entries) {key : String} {value : α} :
    entries.lookup key = some value ↔ (key, value) ∈ entries := by
  induction entries with
  | nil => simp
  | cons entry later ih =>
    obtain ⟨name, held⟩ := entry
    obtain ⟨above, rest⟩ := List.pairwise_cons.mp ascend
    rw [lookup_cons, List.mem_cons, Prod.mk.injEq]
    split
    · next same =>
      subst same
      have fresh : (key, value) ∉ later := fun inside => String.lt_irrefl _ (above (key, value) inside)
      simp [fresh, eq_comm]
    · next other => simp [other, ih rest]

theorem get?_eq_some_iff {files : Files} {path text : String} :
    files.get? path = some text ↔ (path, text) ∈ files.entries := lookup_eq_some_iff files.ascend

/-- Paths are in order, so those of two packs are the same list if they are the same paths. -/
theorem paths_eq {files others : Files} (same : ∀ path, path ∈ files.paths ↔ path ∈ others.paths) :
    files.paths = others.paths := by
  have ascend : ∀ files : Files, files.paths.Pairwise (· < ·) := fun files => List.pairwise_map.mpr files.ascend
  have irreflexive : Std.Irrefl fun a b : String => a < b := ⟨String.lt_irrefl⟩
  apply (ascend files).eq_of_mem_iff (ascend others)
  intro path
  exact same path

end Keys

section Parts

variable {document : Document} {package : Package}

theorem spellId_assembled (assembled : document.assemble = .ok package) : package.spellId = document.spellId := by
  rw [Document.assemble] at assembled
  split at assembled
  · cases assembled
  · cases assembled
    rfl

theorem loadedSpellId_assembled (assembled : document.assemble = .ok package) :
    package.loadedSpellId = document.loadedSpellId := by
  rw [Document.assemble] at assembled
  split at assembled
  · cases assembled
  · cases assembled
    rfl

def pointFile? (document : Document) (index : Nat) : Option String :=
  document.points[index]?.map fun point => Text.closeLines (document.pointText index point)

def rayFile? (document : Document) (index : Nat) : Option String :=
  (document.rays[index]?.filter (·.enabled)).map fun ray =>
    Text.closeLines (RayFile.text ray index document.spellId)

/-- Nothing is found but the parts of the document. -/
theorem get?_foreign (assembled : document.assemble = .ok package) {path : String} (manifest : path ≠ manifestPath)
    (activation : path ≠ activationPath document.loadedSpellId)
    (points : ∀ index, path = pointPath document.spellId index → document.points.length ≤ index)
    (rays : ∀ entry ∈ document.enabledRays, path ≠ rayPath document.spellId entry.2) :
    package.files.get? path = none := by
  rw [← Option.not_isSome_iff_eq_none, ← mem_paths_iff]
  intro member
  rcases PackLines.covered assembled path member with first | last | ⟨index, inside, same⟩ | ⟨entry, enabled, same⟩
  · exact manifest first
  · exact activation last
  · have beyond := points index same
    omega
  · exact rays entry enabled same

theorem get?_pointPath (assembled : document.assemble = .ok package) (index : Nat) :
    package.files.get? (pointPath document.spellId index) = pointFile? document index := by
  rw [pointFile?]
  cases found : document.points[index]? with
  | some point => exact get?_point assembled found
  | none =>
    rw [List.getElem?_eq_none_iff] at found
    apply get?_foreign assembled
    · exact (manifestPath_ne (toList_pointPath _ index)).symm
    · exact pointPath_ne_activationPath _
    · intro other same
      rwa [← pointPath_injective same]
    · intro entry _
      exact pointPath_ne_rayPath (slash_spellId document)

theorem get?_rayPath (assembled : document.assemble = .ok package) {index : Nat}
    (apart : rayPath document.spellId index ≠ activationPath document.loadedSpellId) :
    package.files.get? (rayPath document.spellId index) = rayFile? document index := by
  rw [rayFile?]
  cases found : document.rays[index]?.filter (·.enabled) with
  | some ray => exact get?_ray assembled (mem_enabledRays.mpr (Option.filter_eq_some_iff.mp found)) apart
  | none =>
    apply get?_foreign assembled
    · exact (manifestPath_ne (toList_rayPath _ index)).symm
    · exact apart
    · intro other same
      exact absurd same.symm (pointPath_ne_rayPath (slash_spellId document))
    · intro entry enabled same
      rw [rayPath_injective same, Option.filter_eq_some_iff.mpr (mem_enabledRays.mp enabled)] at found
      cases found

end Parts

/-- Spells that differ in nothing but their points, their rays and the selection. -/
structure SameSpell (document other : Document) : Prop where
  name : other.name = document.name
  author : other.author = document.author
  spellDelay : other.spellDelay = document.spellDelay
  loadedSpell : other.loadedSpell = document.loadedSpell
  finishCommands : other.finishCommands = document.finishCommands

section Comparison

variable {document other : Document} {package changed : Package}

theorem SameSpell.refl (document : Document) : SameSpell document document := ⟨rfl, rfl, rfl, rfl, rfl⟩

theorem SameSpell.spellId (same : SameSpell document other) : other.spellId = document.spellId := by
  rw [Document.spellId, Document.spellId, same.name]

theorem SameSpell.loadedSpellId (same : SameSpell document other) : other.loadedSpellId = document.loadedSpellId := by
  rw [Document.loadedSpellId, Document.loadedSpellId, same.loadedSpell, same.spellId]

theorem SameSpell.context (same : SameSpell document other) : other.context = document.context := by
  rw [Document.context, Document.context, same.name, same.spellDelay, same.loadedSpellId]

/-- The same point in the same place, and both or neither of them the last. -/
def SamePoint (document other : Document) (index : Nat) : Prop :=
  other.points[index]? = document.points[index]? ∧
    (index < document.points.length → (index + 1 = other.points.length ↔ index + 1 = document.points.length))

theorem pointFile?_congr (same : SameSpell document other) {index : Nat} (point : SamePoint document other index) :
    pointFile? other index = pointFile? document index := by
  obtain ⟨found, last⟩ := point
  rw [pointFile?, pointFile?, found]
  cases held : document.points[index]? with
  | none => rw [Option.map_none, Option.map_none]
  | some point =>
    have inside := (List.getElem?_eq_some_iff.mp held).1
    have final : (index + 1 == other.points.length) = (index + 1 == document.points.length) := by
      rw [Bool.eq_iff_iff, beq_iff_eq, beq_iff_eq]
      exact last inside
    rw [Option.map_some, Option.map_some, Document.pointText, Document.pointText, same.context, final]

/-- What has a file in the pack is found in it again if nothing behind the file changed. -/
theorem get?_congr (same : SameSpell document other) (assembled : document.assemble = .ok package)
    (assembled' : other.assemble = .ok changed) {path : String}
    (points : ∀ index, path = pointPath document.spellId index → SamePoint document other index)
    (rays : ∀ index, path = rayPath document.spellId index → other.rays[index]? = document.rays[index]?)
    (activation : path = activationPath document.loadedSpellId → other.rays = document.rays) :
    changed.files.get? path = package.files.get? path := by
  by_cases manifest : path = manifestPath
  · rw [manifest, get?_manifest assembled, get?_manifest assembled', same.author]
  by_cases last : path = activationPath document.loadedSpellId
  · have lines : other.activationLines = document.activationLines := by
      rw [Document.activationLines, Document.activationLines, Document.enabledRays, Document.enabledRays,
        activation last, same.finishCommands, same.spellId]
    have found := get?_activation assembled'
    rw [same.loadedSpellId, lines] at found
    rw [last, get?_activation assembled, found]
  by_cases point : ∃ index, path = pointPath document.spellId index
  · obtain ⟨index, rfl⟩ := point
    have found := get?_pointPath assembled' index
    rw [same.spellId] at found
    rw [found, get?_pointPath assembled, pointFile?_congr same (points index rfl)]
  by_cases ray : ∃ index, path = rayPath document.spellId index
  · obtain ⟨index, rfl⟩ := ray
    have found := @get?_rayPath _ _ assembled' index
    rw [same.spellId, same.loadedSpellId] at found
    rw [found last, get?_rayPath assembled last, rayFile?, rayFile?, rays index rfl, same.spellId]
  rw [not_exists] at point ray
  rw [get?_foreign assembled manifest last, get?_foreign assembled' manifest]
  · rwa [same.loadedSpellId]
  · intro index at?
    exact absurd (same.spellId ▸ at?) (point index)
  · intro entry _ at?
    exact ray entry.2 (same.spellId ▸ at?)
  · intro index at?
    exact absurd at? (point index)
  · intro entry _
    exact ray entry.2

end Comparison

end SpellPack.Proofs.PackContents
