import Mathlib.Data.List.Forall2
import SpellPack.Proofs.PackLines

/-! The functions that the files of a pack call. Every id that a generated line names is that
of a file in the pack, and rays that are not enabled leave no trace but their places. -/

namespace SpellPack.Proofs.PackReferences
open Text Layout Macro FileLines RayMacros PackFiles PackLines

def calledId? (line : String) : Option String :=
  ((pieces ' ' line).dropWhile (· != "function"))[1]?

/-- The path at which the game looks for the file of a function. -/
def functionPath? (id : String) : Option String :=
  match pieces ':' id with
  | [space, place] => some ("data/" ++ space ++ "/function/" ++ place ++ ".mcfunction")
  | _ => none

section Calls

variable {name : String} {index : Nat} {ray : Ray}

theorem calledId?_words (before : List String) {after : List String} {id : String}
    (plain : ∀ word ∈ before ++ "function" :: id :: after, ' ' ∉ word.toList)
    (first : ∀ word ∈ before, word ≠ "function") :
    calledId? (" ".intercalate (before ++ "function" :: id :: after)) = some id := by
  have others : ∀ word ∈ before, (word != "function") = true := fun word member => bne_iff_ne.mpr (first word member)
  rw [calledId?, pieces_intercalate rfl plain (by simp), List.dropWhile_append_of_pos others,
    List.dropWhile_cons_of_neg (by simp)]
  rfl

theorem space_rayFunction (name : String) (index : Nat) : ' ' ∉ (rayFunction (slug name) index).toList :=
  not_mem_rayFunction rfl (not_mem_literal (by decide)) (not_mem_literal (by decide)) name index

/-! The texts that are put together, as words between spaces or names between colons. -/

theorem rayFunction_parts (folder file : String) :
    "spellcasting:spells/" ++ folder ++ "/ray_tick_" ++ file =
      ":".intercalate ["spellcasting", "spells/" ++ folder ++ "/ray_tick_" ++ file] := by
  apply String.toList_inj.mp
  simp

theorem rayPath_parts (folder file : String) :
    "data/" ++ "spellcasting" ++ "/function/" ++ ("spells/" ++ folder ++ "/ray_tick_" ++ file) ++ ".mcfunction" =
      "data/spellcasting/function/spells" ++ "/" ++ folder ++ "/ray_tick_" ++ file ++ ".mcfunction" := by
  apply String.toList_inj.mp
  simp

theorem call_words (id : String) : "function " ++ id = " ".intercalate ["function", id] := by
  apply String.toList_inj.mp
  simp

theorem entityCall_words (id : String) :
    "function " ++ id ++ " with entity @s" = " ".intercalate ["function", id, "with", "entity", "@s"] := by
  apply String.toList_inj.mp
  simp

theorem step_words (number id : String) :
    "execute positioned ^ ^ ^" ++ number ++ " run function " ++ id =
      " ".intercalate (["execute", "positioned", "^", "^", "^" ++ number, "run"] ++ ["function", id]) := by
  apply String.toList_inj.mp
  simp

theorem macroStep_words (number id arguments : String) :
    "$" ++ ("execute positioned ^ ^ ^" ++ number ++ " run function " ++ id) ++ " " ++ arguments =
      " ".intercalate (["$execute", "positioned", "^", "^", "^" ++ number, "run"] ++ ["function", id, arguments]) := by
  apply String.toList_inj.mp
  simp

theorem functionPath?_rayFunction (name : String) (index : Nat) :
    functionPath? (rayFunction (slug name) index) = some (rayPath (slug name) index) := by
  have apart : ∀ part ∈ ["spellcasting", "spells/" ++ slug name ++ "/ray_tick_" ++ toString index],
      ':' ∉ part.toList := by
    simp only [List.forall_mem_cons]
    refine ⟨not_mem_literal (by decide), ?_, List.forall_mem_nil _⟩
    apply not_mem_append _ (foreign_digits rfl index)
    apply not_mem_append _ (not_mem_literal (by decide))
    exact not_mem_append (not_mem_literal (by decide)) (foreign_slug rfl name)
  have split : pieces ':' (rayFunction (slug name) index) =
      ["spellcasting", "spells/" ++ slug name ++ "/ray_tick_" ++ toString index] := by
    unfold rayFunction
    rw [rayFunction_parts]
    exact pieces_intercalate rfl apart (List.cons_ne_nil _ _)
  rw [functionPath?, split]
  exact congrArg some (rayPath_parts (slug name) (toString index))

theorem calledId?_call (after : List String) (plain : ∀ word ∈ after, ' ' ∉ word.toList) :
    calledId? (" ".intercalate ("function" :: rayFunction (slug name) index :: after)) =
      some (rayFunction (slug name) index) := by
  apply calledId?_words []
  · simp only [List.nil_append, List.forall_mem_cons]
    exact ⟨not_mem_literal (by decide), space_rayFunction name index, plain⟩
  · exact List.forall_mem_nil _

def callLine (ray : Ray) (index : Nat) (spellId : String) : String :=
  "function " ++ rayFunction spellId index ++ if ray.takesMacros then " with entity @s" else ""

theorem calledId?_callLine : calledId? (callLine ray index (slug name)) = some (rayFunction (slug name) index) := by
  unfold callLine
  split
  · rw [entityCall_words]
    apply calledId?_call
    simp only [List.forall_mem_cons]
    exact ⟨not_mem_literal (by decide), not_mem_literal (by decide), not_mem_literal (by decide), List.forall_mem_nil _⟩
  · rw [String.append_empty, call_words]
    exact calledId?_call [] (List.forall_mem_nil _)

theorem calledId?_step (mark : String) (noSpace : ' ' ∉ mark.toList) (noCall : mark ≠ "function") (after : List String)
    (plain : ∀ word ∈ after, ' ' ∉ word.toList) :
    calledId? (" ".intercalate ([mark, "positioned", "^", "^", "^" ++ ray.effectiveStep.commandText, "run"] ++
      "function" :: rayFunction (slug name) index :: after)) = some (rayFunction (slug name) index) := by
  have number : ' ' ∉ ray.effectiveStep.commandText.toList := foreign_commandText rfl (.finite ray.effectiveStep)
  apply calledId?_words
  · simp only [List.forall_mem_append, List.forall_mem_cons]
    refine ⟨⟨noSpace, ?_, ?_, ?_, not_mem_append ?_ number, ?_, List.forall_mem_nil _⟩, ?_,
      space_rayFunction name index, plain⟩
    all_goals exact not_mem_literal (by decide)
  · simp only [List.forall_mem_cons]
    refine ⟨noCall, by decide, by decide, by decide, ?_, by decide, List.forall_mem_nil _⟩
    intro same
    have heads := congrArg (fun word => word.toList.head?) same
    simp at heads

theorem calledId?_stepLine :
    calledId? (RayFile.stepLine ray index (slug name)) = some (rayFunction (slug name) index) := by
  rw [stepLine_eq]
  split
  · unfold stepCall
    rw [macroStep_words]
    apply calledId?_step "$execute" (not_mem_literal (by decide)) (by decide)
    exact List.forall_mem_singleton.mpr (not_mem_argumentsText isName_macroNames ⟨by decide, by decide⟩ (by decide))
  · unfold stepCall
    rw [step_words]
    exact calledId?_step "execute" (not_mem_literal (by decide)) (by decide) [] (List.forall_mem_nil _)

end Calls

def loadedFront : String := PointFile.userData ++ ".loaded_spell set value "

def loadedId? (line : String) : Option String :=
  if loadedFront.toList <+: line.toList then some (String.ofList (line.toList.drop loadedFront.toList.length)) else none

section Loaded

theorem loadedId?_front (id : String) : loadedId? (loadedFront ++ id) = some id := by
  have front : loadedFront.toList <+: (loadedFront ++ id).toList := by simp
  rw [loadedId?, if_pos front, String.toList_append, List.drop_left, String.ofList_toList]

theorem loadedFront_begins : ∃ rest, loadedFront.toList = '$' :: 'd' :: rest := by
  obtain ⟨rest, begins⟩ : ∃ rest, PointFile.userData.toList = '$' :: 'd' :: rest := ⟨_, String.toList_ofList⟩
  exact ⟨rest ++ ".loaded_spell set value ".toList, by rw [loadedFront, String.toList_append, begins]; rfl⟩

/-- Most lines differ from one that loads a spell within two characters. -/
theorem loadedId?_append {a b : Char} {rest : List Char} (differs : ¬ (a = '$' ∧ b = 'd')) (back : String) :
    loadedId? (String.ofList (a :: b :: rest) ++ back) = none := by
  rw [loadedId?, if_neg]
  intro front
  obtain ⟨later, begins⟩ := loadedFront_begins
  rw [begins, String.toList_append, String.toList_ofList, List.cons_append, List.cons_append, List.cons_prefix_cons,
    List.cons_prefix_cons] at front
  exact differs ⟨front.1.symm, front.2.1.symm⟩

theorem loadedId?_literal {a b : Char} {rest : List Char} (differs : ¬ (a = '$' ∧ b = 'd')) :
    loadedId? (String.ofList (a :: b :: rest)) = none := by
  have alone := @loadedId?_append a b rest differs ""
  rwa [String.append_empty] at alone

theorem loadedId?_nextLine (index : Nat) : loadedId? (PointFile.nextLine index) = none := by
  rw [loadedId?, if_neg]
  unfold loadedFront PointFile.nextLine
  rw [String.append_assoc, String.toList_append, String.toList_append, List.prefix_append_right_inj]
  simp

theorem loadedId?_empty : loadedId? "" = none := by
  rw [loadedId?, if_neg]
  obtain ⟨rest, begins⟩ := loadedFront_begins
  simp [begins]

theorem loadedIds_footerLines (context : SpellContext) :
    (PointFile.footerLines context).filterMap loadedId? = [context.loadedSpellId] := by
  have before : ((PointFile.footerLines context).take 4).filterMap loadedId? = [] := by
    apply List.filterMap_eq_nil_iff.mpr
    unfold PointFile.footerLines
    simp only [List.take_succ_cons, List.take_zero, List.forall_mem_cons]
    exact ⟨loadedId?_literal (by decide), loadedId?_append (by decide) _, loadedId?_empty,
      loadedId?_append (by decide) _, List.forall_mem_nil _⟩
  have after : ((PointFile.footerLines context).drop 5).filterMap loadedId? = [] := by
    apply List.filterMap_eq_nil_iff.mpr
    unfold PointFile.footerLines
    simp only [List.drop_succ_cons, List.drop_zero, List.forall_mem_cons]
    exact ⟨loadedId?_empty, loadedId?_literal (by decide), loadedId?_literal (by decide), loadedId?_literal (by decide),
      loadedId?_empty, loadedId?_literal (by decide), List.forall_mem_nil _⟩
  have split : PointFile.footerLines context = (PointFile.footerLines context).take 4 ++
      (loadedFront ++ context.loadedSpellId) :: (PointFile.footerLines context).drop 5 := rfl
  rw [split, List.filterMap_append, before, List.filterMap_cons_some (loadedId?_front _), after]
  rfl

/-- Commands may load spells too, but the line that is written after them comes last. -/
theorem loadedIds_lastPoint (context : SpellContext) (point : Point) (index : Nat) (isFirst : Bool) :
    ((PointFile.fileLines context point index isFirst true ++ [""]).filterMap loadedId?).getLast? =
      some context.loadedSpellId := by
  have next : [PointFile.nextLine index].filterMap loadedId? = [] :=
    List.filterMap_cons_none (loadedId?_nextLine index)
  have behind : [""].filterMap loadedId? = [] := List.filterMap_cons_none loadedId?_empty
  rw [PointFile.fileLines, List.filterMap_append, List.filterMap_append, List.filterMap_append, next, behind,
    if_pos rfl, loadedIds_footerLines, List.append_nil, List.append_nil, List.getLast?_concat]

end Loaded

/-- The file of a ray is where its call leads, and ends in that call. -/
structure Reached (files : Files) (ray : Ray) (index : Nat) (spellId : String) : Prop where
  named : rayFunction spellId index = "spellcasting:spells/" ++ spellId ++ "/ray_tick_" ++ toString index
  called : calledId? (callLine ray index spellId) = some (rayFunction spellId index)
  found : ∃ path, functionPath? (rayFunction spellId index) = some path ∧
    files.get? path = some (RayFile.text ray index spellId ++ "\n")
  repeated : ∃ step, (pieces '\n' (RayFile.text ray index spellId)).getLast? = some step ∧
    calledId? step = some (rayFunction spellId index)

/-- Every id that is written into the files of a pack leads to one of them. -/
structure Resolved (document : Document) (files : Files) : Prop where
  places : ∀ ray index, (ray, index) ∈ document.enabledRays ↔ document.rays[index]? = some ray ∧ ray.enabled = true
  ordered : document.enabledRays.Pairwise fun first second => first.2 < second.2
  activation :
    let lines := (commandLines document.finishCommands).map markLine ++
      document.enabledRays.flatMap fun (ray, index) =>
        ["scoreboard players set @s spell_ray_steps " ++ toString (max 1 ray.maxSteps.toNat),
          callLine ray index document.spellId]
    if lines = [] then files.get? (activationPath document.loadedSpellId) = some "\n"
    else HasLines files (activationPath document.loadedSpellId) lines
  calls : ∀ ray index, (ray, index) ∈ document.enabledRays → Reached files ray index document.spellId
  loads : document.points ≠ [] → ∃ text id,
    files.get? (pointPath document.spellId (document.points.length - 1)) = some text ∧
    ((pieces '\n' text).filterMap loadedId?).getLast? = some id ∧
    activationPath document.loadedSpellId = "data/spellcasting/function/spells/activate/" ++ id ++ ".mcfunction"

def SameIfEnabled (a b : Ray) : Prop := a = b ∨ a.enabled = false ∧ b.enabled = false

section Documents

variable {document : Document} {package : Package}

theorem ordered_enabledRays : document.enabledRays.Pairwise fun first second => first.2 < second.2 := by
  have ascending : (document.rays.zipIdx.map Prod.snd).Pairwise (· < ·) := by
    rw [List.zipIdx_map_snd]
    exact List.pairwise_lt_range'
  exact (List.pairwise_map.mp ascending).filter _

theorem score_text (number : String) :
    "scoreboard players set @s " ++ "spell_ray_steps" ++ " " ++ number =
      "scoreboard players set @s spell_ray_steps " ++ number := by
  apply String.toList_inj.mp
  simp

theorem activationLines_ray (ray : Ray) (index : Nat) (spellId : String) :
    RayFile.activationLines ray index spellId =
      ["scoreboard players set @s spell_ray_steps " ++ toString (max 1 ray.maxSteps.toNat),
        callLine ray index spellId] := by
  unfold RayFile.activationLines RayFile.stepsObjective callLine
  rw [score_text, Ray.toNat_effectiveMaxSteps, Nat.max_comm]
  split
  · rfl
  · rw [String.append_empty]

theorem reached_ray (assembled : document.assemble = .ok package) {ray : Ray} {index : Nat}
    (enabled : (ray, index) ∈ document.enabledRays)
    (apart : rayPath document.spellId index ≠ activationPath document.loadedSpellId) :
    Reached package.files ray index document.spellId where
  named := rfl
  called := calledId?_callLine
  found := by
    refine ⟨_, functionPath?_rayFunction document.name index, ?_⟩
    rw [Document.spellId, ← closeLines_rayText]
    exact get?_ray assembled enabled apart
  repeated := by
    refine ⟨RayFile.stepLine ray index document.spellId, ?_, calledId?_stepLine⟩
    rw [Document.spellId, RayMacros.pieces_text, RayFile.fileLines, List.getLast?_concat]

theorem activationPath_text (id : String) :
    activationPath id = "data/spellcasting/function/spells/activate/" ++ id ++ ".mcfunction" := by
  apply String.toList_inj.mp
  simp [activationPath, functionFile, spellsRoot]

theorem loads_activation (assembled : document.assemble = .ok package) (some : document.points ≠ []) :
    ∃ text id, package.files.get? (pointPath document.spellId (document.points.length - 1)) = Option.some text ∧
      ((pieces '\n' text).filterMap loadedId?).getLast? = Option.some id ∧
      activationPath document.loadedSpellId = "data/spellcasting/function/spells/activate/" ++ id ++ ".mcfunction" := by
  have more : 0 < document.points.length := List.length_pos_iff.mpr some
  have last : (document.points.length - 1 + 1 == document.points.length) = true := by
    rw [beq_iff_eq]
    omega
  obtain ⟨text, found, lines⟩ := hasLines_point assembled
    (List.getElem?_eq_getElem (show document.points.length - 1 < document.points.length by omega))
  rw [last] at lines
  refine ⟨text, document.loadedSpellId, found, ?_, activationPath_text document.loadedSpellId⟩
  rw [lines]
  exact loadedIds_lastPoint document.context _ _ _

theorem enabledRays_congr {rays others : List Ray} (same : List.Forall₂ SameIfEnabled rays others) (start : Nat) :
    (rays.zipIdx start).filter (fun entry => entry.1.enabled) =
      (others.zipIdx start).filter fun entry => entry.1.enabled := by
  induction same generalizing start with
  | nil => rfl
  | cons first later ih =>
    rw [List.zipIdx_cons, List.zipIdx_cons, List.filter_cons, List.filter_cons, ih]
    rcases first with rfl | ⟨off, otherOff⟩
    · rfl
    · simp [off, otherOff]

theorem assemble_congr {rays : List Ray} {selectedIndex : Nat}
    (same : ({ document with rays, selectedIndex } : Document).enabledRays = document.enabledRays) :
    ({ document with rays, selectedIndex } : Document).assemble = document.assemble := by
  unfold Document.assemble Document.packFiles Document.rayFiles Document.activationFile Document.activationLines
  rw [same]
  rfl

theorem resolved_assembled (assembled : document.assemble = .ok package)
    (apart : ∀ entry ∈ document.enabledRays, rayPath document.spellId entry.2 ≠ activationPath document.loadedSpellId) :
    Resolved document package.files where
  places _ _ := mem_enabledRays
  ordered := ordered_enabledRays
  activation := by
    have lines := (lined_assembled assembled).activation
    simpa only [activationLines_ray] using lines
  calls ray index enabled := reached_ray assembled enabled (apart (ray, index) enabled)
  loads some := loads_activation assembled some

/-- Every id that the files of a pack name is found in it, and nothing in the pack depends on
disabled rays or on the selection. -/
theorem references_resolved (assembled : document.assemble = .ok package)
    (apart : ∀ entry ∈ document.enabledRays, rayPath document.spellId entry.2 ≠ activationPath document.loadedSpellId) :
    Resolved document package.files ∧
      ∀ rays selectedIndex, List.Forall₂ SameIfEnabled document.rays rays →
        ({ document with rays, selectedIndex } : Document).assemble = document.assemble := by
  constructor
  · exact resolved_assembled assembled apart
  · intro rays selectedIndex same
    exact assemble_congr (enabledRays_congr same 0).symm

end Documents

def stormDocument : Document where
  name := "Storm"
  loadedSpell := "After Burn"
  finishCommands := ["function other:run"]
  points := [{}, { commands := [loadedFront ++ "other"] }]
  rays := [
    { maxSteps := 0 },
    { enabled := false, name := "off" },
    { entityChecks := [{ subject := "entity @e[tag=$(UUID)]", command := "say hit" }] }]

theorem references_stormDocument :
    ∃ package, stormDocument.assemble = .ok package ∧ Resolved stormDocument package.files ∧
      ({ stormDocument with
          rays := stormDocument.rays.set 1 { enabled := false, name := "still off", maxSteps := 3 }
          selectedIndex := 1 } : Document).assemble = .ok package := by
  obtain ⟨package, assembled⟩ := @assembled_of_named stormDocument (by decide +kernel)
  have folder : stormDocument.spellId ≠ "activate" := by decide +kernel
  have apart : ∀ entry ∈ stormDocument.enabledRays,
      rayPath stormDocument.spellId entry.2 ≠ activationPath stormDocument.loadedSpellId := by
    intro entry _ same
    exact folder ((PackPaths.rayPath_eq_activationPath_iff (slash_spellId stormDocument) _).mp same).1
  obtain ⟨resolved, inert⟩ := references_resolved assembled apart
  refine ⟨package, assembled, resolved, ?_⟩
  rw [← assembled]
  apply inert
  exact .cons (.inl rfl) (.cons (.inr ⟨rfl, rfl⟩) (.cons (.inl rfl) .nil))

end SpellPack.Proofs.PackReferences
