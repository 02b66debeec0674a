import SpellPack.Proofs.FileTable
import SpellPack.Proofs.PackPaths

/-! What of a pack arrives in it. No file takes the place of another but one: the
activation file of a spell lies among the rays of a spell with the name of its folder. -/

namespace SpellPack.Proofs.PackFiles
open Layout FileTable PackPaths

variable {document : Document} {package : Package}

/-- The activation file lies where a ray does. -/
def Meets (document : Document) : Prop :=
  document.spellId = "activate" ∧
    ∃ entry ∈ document.enabledRays, document.loadedSpellId = "ray_tick_" ++ toString entry.2

structure Complete (document : Document) (files : Files) : Prop where
  size : files.size = 2 + document.points.length + document.enabledRays.length
  manifest : files.get? manifestPath = some (manifest document.author)
  points : ∀ index point, document.points[index]? = some point →
    files.get? (pointPath document.spellId index) = some (Text.closeLines (document.pointText index point))
  rays : ∀ ray index, (ray, index) ∈ document.enabledRays →
    files.get? (rayPath document.spellId index) = some (Text.closeLines (RayFile.text ray index document.spellId))
  activation : files.get? (activationPath document.loadedSpellId) =
    some (Text.closeLines (Text.joinLines document.activationLines))

/-- All files but the one that is put in last. -/
def ownFiles (document : Document) : List (String × String) :=
  (manifestPath, manifest document.author) :: document.pointFiles ++ document.rayFiles

theorem slash_spellId (document : Document) : '/' ∉ document.spellId.toList :=
  FileLines.foreign_slug (by decide) document.name

theorem keys_pointFiles :
    document.pointFiles.map Prod.fst = (List.range' 0 document.points.length).map (pointPath document.spellId) := by
  rw [← List.zipIdx_map_snd, List.map_map, Document.pointFiles, List.map_map]
  rfl

theorem keys_rayFiles :
    document.rayFiles.map Prod.fst = (document.enabledRays.map Prod.snd).map (rayPath document.spellId) := by
  rw [Document.rayFiles, List.map_map, List.map_map]
  rfl

theorem nodup_enabledPlaces : (document.enabledRays.map Prod.snd).Nodup := by
  have all : (document.rays.zipIdx.map Prod.snd).Nodup := by
    rw [List.zipIdx_map_snd]
    exact List.nodup_range'
  exact all.sublist (List.filter_sublist.map Prod.snd)

/-- The enabled rays stand with the places that they have among all rays. -/
theorem mem_enabledRays {ray : Ray} {index : Nat} :
    (ray, index) ∈ document.enabledRays ↔ document.rays[index]? = some ray ∧ ray.enabled = true := by
  rw [Document.enabledRays, List.mem_filter, List.mem_zipIdx_iff_getElem?]

theorem length_ownFiles :
    (ownFiles document).length = 1 + document.points.length + document.enabledRays.length := by
  simp only [ownFiles, Document.pointFiles, Document.rayFiles, List.length_append, List.length_cons, List.length_map,
    List.length_zipIdx]
  omega

theorem nodup_ownFiles : ((ownFiles document).map Prod.fst).Nodup := by
  have plain := slash_spellId document
  rw [ownFiles, List.map_append, List.map_cons, keys_pointFiles, keys_rayFiles, List.cons_append, List.nodup_cons,
    List.nodup_append]
  refine ⟨?_, ?_, ?_, ?_⟩
  · intro member
    rcases List.mem_append.mp member with point | ray
    · obtain ⟨index, _, same⟩ := List.mem_map.mp point
      exact manifestPath_ne (toList_pointPath _ index) same.symm
    · obtain ⟨index, _, same⟩ := List.mem_map.mp ray
      exact manifestPath_ne (toList_rayPath _ index) same.symm
  · exact List.Pairwise.map _ (fun index index' different same => different (pointPath_injective same)) List.nodup_range'
  · exact List.Pairwise.map _ (fun index index' different same => different (rayPath_injective same))
      nodup_enabledPlaces
  · intro path point other ray same
    obtain ⟨index, _, rfl⟩ := List.mem_map.mp point
    obtain ⟨index', _, rfl⟩ := List.mem_map.mp ray
    exact pointPath_ne_rayPath plain same

theorem activationPath_mem_iff :
    activationPath document.loadedSpellId ∈ (ownFiles document).map Prod.fst ↔ Meets document := by
  have plain := slash_spellId document
  rw [ownFiles, List.map_append, List.map_cons, keys_pointFiles, keys_rayFiles, List.mem_append, List.mem_cons]
  constructor
  · rintro ((manifest | point) | ray)
    · exact absurd manifest.symm (manifestPath_ne (toList_activationPath _))
    · obtain ⟨index, _, same⟩ := List.mem_map.mp point
      exact absurd same (pointPath_ne_activationPath _)
    · obtain ⟨index, member, same⟩ := List.mem_map.mp ray
      obtain ⟨entry, enabled, rfl⟩ := List.mem_map.mp member
      obtain ⟨folder, file⟩ := (rayPath_eq_activationPath_iff plain _).mp same
      exact ⟨folder, entry, enabled, file⟩
  · rintro ⟨folder, entry, enabled, file⟩
    right
    exact List.mem_map.mpr
      ⟨entry.2, List.mem_map_of_mem enabled, (rayPath_eq_activationPath_iff plain _).mpr ⟨folder, file⟩⟩

theorem assembled_of_named (named : Text.isBlankText document.name = false) :
    ∃ package, document.assemble = .ok package := by
  rw [Document.assemble, named]
  exact ⟨_, rfl⟩

theorem files_assembled (assembled : document.assemble = .ok package) :
    package.files = (Files.ofList (ownFiles document)).insert (activationPath document.loadedSpellId)
      (Text.closeLines (Text.joinLines document.activationLines)) := by
  rw [Document.assemble] at assembled
  split at assembled
  · cases assembled
  · cases assembled
    exact ofList_concat (ownFiles document) document.activationFile

/-- What was put in before the activation file is found unless that lies in its place. -/
theorem get?_own (assembled : document.assemble = .ok package) {path text : String}
    (member : (path, text) ∈ ownFiles document) (apart : path ≠ activationPath document.loadedSpellId) :
    package.files.get? path = some text := by
  rw [files_assembled assembled, get?_insert, if_neg apart]
  exact get?_insertAll_of_mem _ nodup_ownFiles member

theorem get?_manifest (assembled : document.assemble = .ok package) :
    package.files.get? manifestPath = some (manifest document.author) := by
  apply get?_own assembled
  · exact List.mem_append_left _ List.mem_cons_self
  · exact manifestPath_ne (toList_activationPath _)

theorem get?_point (assembled : document.assemble = .ok package) {index : Nat} {point : Point}
    (found : document.points[index]? = some point) :
    package.files.get? (pointPath document.spellId index) = some (Text.closeLines (document.pointText index point)) := by
  apply get?_own assembled
  · apply List.mem_append_left
    apply List.mem_cons_of_mem
    exact List.mem_map.mpr ⟨(point, index), List.mk_mem_zipIdx_iff_getElem?.mpr found, rfl⟩
  · exact pointPath_ne_activationPath _

theorem get?_ray (assembled : document.assemble = .ok package) {ray : Ray} {index : Nat}
    (enabled : (ray, index) ∈ document.enabledRays)
    (apart : rayPath document.spellId index ≠ activationPath document.loadedSpellId) :
    package.files.get? (rayPath document.spellId index) =
      some (Text.closeLines (RayFile.text ray index document.spellId)) := by
  apply get?_own assembled
  · apply List.mem_append_right
    exact List.mem_map.mpr ⟨(ray, index), enabled, rfl⟩
  · exact apart

theorem get?_activation (assembled : document.assemble = .ok package) :
    package.files.get? (activationPath document.loadedSpellId) =
      some (Text.closeLines (Text.joinLines document.activationLines)) := by
  rw [files_assembled assembled, get?_insert, if_pos rfl]

theorem size_of_apart (assembled : document.assemble = .ok package) (apart : ¬ Meets document) :
    package.files.size = 2 + document.points.length + document.enabledRays.length := by
  have new : activationPath document.loadedSpellId ∉ (Files.ofList (ownFiles document)).paths := by
    rwa [mem_paths_ofList, activationPath_mem_iff]
  rw [files_assembled assembled, size_insert, if_neg new, size_ofList nodup_ownFiles, length_ownFiles]
  omega

theorem size_of_meets (assembled : document.assemble = .ok package) (meets : Meets document) :
    package.files.size = 1 + document.points.length + document.enabledRays.length := by
  have taken : activationPath document.loadedSpellId ∈ (Files.ofList (ownFiles document)).paths := by
    rwa [mem_paths_ofList, activationPath_mem_iff]
  rw [files_assembled assembled, size_insert, if_pos taken, size_ofList nodup_ownFiles, length_ownFiles]

/-- Each part but one ray has its own file, and in the place of that ray's file stands the
activation file. -/
structure ShortOfRay (document : Document) (files : Files) : Prop where
  size : files.size = 1 + document.points.length + document.enabledRays.length
  manifest : files.get? manifestPath = some (manifest document.author)
  points : ∀ index point, document.points[index]? = some point →
    files.get? (pointPath document.spellId index) = some (Text.closeLines (document.pointText index point))
  rays : ∀ ray index, (ray, index) ∈ document.enabledRays →
    document.loadedSpellId ≠ "ray_tick_" ++ toString index →
    files.get? (rayPath document.spellId index) = some (Text.closeLines (RayFile.text ray index document.spellId))
  taken : ∀ ray index, (ray, index) ∈ document.enabledRays →
    document.loadedSpellId = "ray_tick_" ++ toString index →
    files.get? (rayPath document.spellId index) = some (Text.closeLines (Text.joinLines document.activationLines))

theorem complete_of_apart (assembled : document.assemble = .ok package) (apart : ¬ Meets document) :
    Complete document package.files where
  size := size_of_apart assembled apart
  manifest := get?_manifest assembled
  points _ _ found := get?_point assembled found
  rays ray index enabled := by
    apply get?_ray assembled enabled
    intro same
    obtain ⟨folder, file⟩ := (rayPath_eq_activationPath_iff (slash_spellId document) _).mp same
    exact apart ⟨folder, (ray, index), enabled, file⟩
  activation := get?_activation assembled

theorem shortOfRay_of_meets (assembled : document.assemble = .ok package) (meets : Meets document) :
    ShortOfRay document package.files where
  size := size_of_meets assembled meets
  manifest := get?_manifest assembled
  points _ _ found := get?_point assembled found
  rays ray index enabled different := by
    apply get?_ray assembled enabled
    intro same
    exact different ((rayPath_eq_activationPath_iff (slash_spellId document) _).mp same).2
  taken ray index enabled file := by
    rw [(rayPath_eq_activationPath_iff (slash_spellId document) _).mpr ⟨meets.1, file⟩]
    exact get?_activation assembled

theorem not_complete_of_meets (assembled : document.assemble = .ok package) (meets : Meets document) :
    ¬ Complete document package.files := by
  intro complete
  have expected := complete.size
  have counted := size_of_meets assembled meets
  omega

/-- A pack is complete exactly if its activation file lies apart from its rays. -/
theorem complete_iff_apart (assembled : document.assemble = .ok package) :
    (Complete document package.files ↔ ¬ Meets document) ∧ (Meets document → ShortOfRay document package.files) := by
  constructor
  · constructor
    · intro complete meets
      exact not_complete_of_meets assembled meets complete
    · exact complete_of_apart assembled
  · exact shortOfRay_of_meets assembled

/-- Named like the folder of activation files, with one ray that has the given name in it. -/
def activateDocument (loadedSpell : String) : Document where
  name := "Activate"
  loadedSpell
  rays := [{}]

theorem complete_activateDocument :
    ∃ package, (activateDocument "ray_tick_1").assemble = .ok package ∧
      Complete (activateDocument "ray_tick_1") package.files := by
  have apart : ¬ Meets (activateDocument "ray_tick_1") := by
    rintro ⟨_, entry, member, file⟩
    obtain rfl : entry = ({}, 0) := List.mem_singleton.mp member
    exact absurd file (by decide +kernel)
  obtain ⟨package, assembled⟩ := @assembled_of_named (activateDocument "ray_tick_1") (by decide +kernel)
  exact ⟨package, assembled, (complete_iff_apart assembled).1.mpr apart⟩

/-- The ray's own file is lost. -/
theorem incomplete_activateDocument :
    ¬ ∀ document package, Document.assemble document = .ok package → Complete document package.files := by
  intro all
  have meets : Meets (activateDocument "ray_tick_0") := by
    refine ⟨?_, ({}, 0), ?_, ?_⟩
    · decide +kernel
    · exact List.mem_singleton.mpr rfl
    · decide +kernel
  obtain ⟨package, assembled⟩ := @assembled_of_named (activateDocument "ray_tick_0") (by decide +kernel)
  exact not_complete_of_meets assembled meets (all _ _ assembled)

end SpellPack.Proofs.PackFiles
