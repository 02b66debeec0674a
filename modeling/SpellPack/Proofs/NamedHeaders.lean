import SpellPack.Proofs.PackContents

/-! Under which name a spell runs. A name is asked for twice: the pack is refused if nothing
is left of it without white space, and the placeholder is taken if nothing is left without
control characters either. What lies between the two is packed without a name. -/

namespace SpellPack.Proofs.NamedHeaders
open Text Layout TextEnds

section Cleaning

/-- What is put in the place of a character when a text is to stand on one line. -/
def replaced (c : Char) : Char := if isControl c then ' ' else c

theorem toList_singleLine (text : String) : (singleLine text).toList = trimmed (text.toList.map replaced) := by
  rw [singleLine, String.toList_ofList]
  rfl

theorem isBlank_replaced {c : Char} : isBlank (replaced c) = true ↔ isBlank c = true ∨ isControl c = true := by
  unfold replaced
  split
  · next control => exact iff_of_true rfl (.inr control)
  · next control => simp [control]

theorem blank_replaced {blanks : List Char} (blank : ∀ c ∈ blanks, isBlank c = true) :
    ∀ c ∈ blanks.map replaced, isBlank c = true := by
  rw [List.forall_mem_map]
  intro c member
  exact isBlank_replaced.mpr (.inl (blank c member))

/-- It does not matter that the blanks around a name have been dropped before. -/
theorem singleLine_trim (text : String) : singleLine (trim text) = singleLine text := by
  obtain ⟨before, after, split, blankBefore, blankAfter⟩ := (trims_trimmed text.toList).around
  rw [← String.toList_inj, toList_singleLine, toList_singleLine, toList_trim]
  conv_rhs => rw [split, List.map_append, List.map_append, trimmed_append_blank (blank_replaced blankAfter),
    trimmed_blank_append (blank_replaced blankBefore)]

def Visible (text : String) : Prop := ∃ c ∈ text.toList, isBlank c = false ∧ isControl c = false

theorem singleLine_ne_empty_iff {text : String} : singleLine text ≠ "" ↔ Visible text := by
  rw [ne_eq, ← String.toList_inj, toList_singleLine, String.toList_empty, trimmed_eq_nil_iff, List.all_map,
    List.all_eq_true]
  simp only [Function.comp_apply, isBlank_replaced, Visible, not_forall, not_or, Bool.not_eq_true, exists_prop]

end Cleaning

def nameLine (name : String) : String := PointFile.userData ++ ".current_point.spell_name set value " ++ name

theorem headerLine_trim (name : String) : PointFile.headerLine (trim name) =
    nameLine (if singleLine name = "" then PointFile.namePlaceholder else singleLine name) := by
  simp only [PointFile.headerLine, singleLine_trim, String.isEmpty_iff, nameLine]

def BeginsWith (text line : String) : Prop := ∃ later, pieces '\n' text = line :: later

/-- The text runs under the name of the document, as it stands on one line. -/
structure Named (document : Document) (text : String) : Prop where
  cleaned : singleLine document.name ≠ ""
  header : BeginsWith text (nameLine (singleLine document.name))

/-- The text runs under the placeholder, since nothing is left of the name. -/
structure Unnamed (document : Document) (text : String) : Prop where
  cleaned : singleLine document.name = ""
  header : BeginsWith text (nameLine PointFile.namePlaceholder)

section Headers

variable {document : Document} {package : Package} {text : String}

/-- The header of either kind, as the lines of a first file begin. -/
theorem named_or_unnamed (begins : BeginsWith text (PointFile.headerLine document.context.name)) :
    (Named document text ↔ Visible document.name) ∧ (Unnamed document text ↔ ¬ Visible document.name) := by
  rw [Document.context, headerLine_trim] at begins
  by_cases visible : Visible document.name
  · have cleaned := singleLine_ne_empty_iff.mpr visible
    rw [if_neg cleaned] at begins
    exact ⟨iff_of_true ⟨cleaned, begins⟩ visible,
      iff_of_false (fun unnamed => cleaned unnamed.cleaned) (not_not_intro visible)⟩
  · have cleaned : singleLine document.name = "" := by
      by_contra left
      exact visible (singleLine_ne_empty_iff.mp left)
    rw [if_pos cleaned] at begins
    exact ⟨iff_of_false (fun named => named.cleaned cleaned) visible, iff_of_true ⟨cleaned, begins⟩ visible⟩

theorem fileLines_first (context : SpellContext) (point : Point) (isLast : Bool) :
    ∃ later, PointFile.fileLines context point 0 true isLast = PointFile.headerLine context.name :: later :=
  ⟨_, by rw [PointFile.fileLines, if_pos rfl, List.append_assoc, List.append_assoc, List.singleton_append]⟩

theorem begins_packed (assembled : document.assemble = .ok package) (points : document.points ≠ []) :
    ∃ text, package.files.get? (pointPath package.spellId 0) = some text ∧
      BeginsWith text (PointFile.headerLine document.context.name) := by
  obtain ⟨point, later, first⟩ := List.exists_cons_of_ne_nil points
  have found : document.points[0]? = some point := by rw [first, List.getElem?_cons_zero]
  obtain ⟨text, held, lines⟩ := PackLines.hasLines_point assembled found
  obtain ⟨behind, header⟩ := fileLines_first document.context point (0 + 1 == document.points.length)
  rw [beq_self_eq_true, header] at lines
  rw [PackContents.spellId_assembled assembled]
  exact ⟨text, held, _, lines⟩

theorem begins_previewed (previewed : document.previewPoint 0 = .ok text) :
    BeginsWith text (PointFile.headerLine document.context.name) := by
  unfold Document.previewPoint at previewed
  split at previewed
  · next point found =>
    cases previewed
    obtain ⟨behind, header⟩ := fileLines_first document.context point (0 + 1 == document.points.length)
    exact ⟨behind, by rw [PackLines.pieces_pointText, beq_self_eq_true, header]⟩
  · cases previewed

theorem assembled_iff :
    (∃ package, document.assemble = .ok package) ↔ ∃ c ∈ document.name.toList, isBlank c = false := by
  have named : isBlankText document.name = false ↔ ∃ c ∈ document.name.toList, isBlank c = false := by
    simp [isBlankText]
  rw [← named]
  refine ⟨?_, PackFiles.assembled_of_named⟩
  rintro ⟨package, assembled⟩
  by_contra blank
  rw [Document.assemble, if_pos (by simpa using blank)] at assembled
  cases assembled

/-- Only the first file says the name. -/
theorem fileLines_later (context : SpellContext) (name : String) (point : Point) (index : Nat) (isLast : Bool) :
    PointFile.fileLines { context with name } point index false isLast =
      PointFile.fileLines context point index false isLast := by
  have footer : PointFile.footerLines { context with name } = PointFile.footerLines context := rfl
  simp only [PointFile.fileLines, footer, Bool.false_eq_true, if_false]

end Headers

/-- Under which name the first file of a spell runs, in the pack and in the preview. -/
structure Headed (document : Document) : Prop where
  accepted : (∃ package, document.assemble = .ok package) ↔ ∃ c ∈ document.name.toList, isBlank c = false
  packed : ∀ package, document.assemble = .ok package → document.points ≠ [] →
    ∃ text, package.files.get? (pointPath package.spellId 0) = some text ∧
      (Named document text ↔ Visible document.name) ∧ (Unnamed document text ↔ ¬ Visible document.name)
  hidden : ∀ package, document.assemble = .ok package → ¬ Visible document.name →
    ∃ c ∈ document.name.toList, isControl c = true ∧ isBlank c = false
  previewed : ∀ text, document.previewPoint 0 = .ok text →
    (Named document text ↔ Visible document.name) ∧ (Unnamed document text ↔ ¬ Visible document.name)
  unread : ∀ index point, index ≠ 0 → document.points[index]? = some point → ∀ name,
    document.previewPoint index = .ok (PointFile.text { document.context with name } point index false
      (index + 1 == document.points.length))

/-- The placeholder is taken exactly if each character of the name is white space or a
control character, in a pack as in a preview. -/
theorem headed (document : Document) : Headed document where
  accepted := assembled_iff
  packed package assembled points := by
    obtain ⟨text, held, begins⟩ := begins_packed assembled points
    exact ⟨text, held, named_or_unnamed begins⟩
  hidden package assembled invisible := by
    obtain ⟨c, member, solid⟩ := assembled_iff.mp ⟨package, assembled⟩
    refine ⟨c, member, ?_, solid⟩
    by_contra plain
    exact invisible ⟨c, member, solid, Bool.eq_false_iff.mpr plain⟩
  previewed text previewed := named_or_unnamed (begins_previewed previewed)
  unread index point later found name := by
    simp only [Document.previewPoint, found, Document.pointText, beq_eq_false_iff_ne.mpr later, PointFile.text,
      fileLines_later]

def framedDocument : Document := { name := "\x01Bolt\x7f" }

theorem named_framedDocument :
    framedDocument.points ≠ [] ∧ ∃ package text, framedDocument.assemble = .ok package ∧
      package.files.get? (pointPath package.spellId 0) = some text ∧ Named framedDocument text := by
  obtain ⟨package, assembled⟩ := @PackFiles.assembled_of_named framedDocument (by decide +kernel)
  have points : framedDocument.points ≠ [] := List.cons_ne_nil _ _
  have visible : Visible framedDocument.name := ⟨'B', by decide +kernel, by decide, by decide⟩
  obtain ⟨text, held, named, _⟩ := (headed framedDocument).packed package assembled points
  exact ⟨points, package, text, assembled, held, named.mpr visible⟩

/-- The whole name is a control character that is no white space. -/
def controlDocument : Document := { name := "\x01" }

theorem unnamed_controlDocument :
    controlDocument.points ≠ [] ∧ ∃ package text, controlDocument.assemble = .ok package ∧
      package.files.get? (pointPath package.spellId 0) = some text ∧ Unnamed controlDocument text := by
  obtain ⟨package, assembled⟩ := @PackFiles.assembled_of_named controlDocument (by decide +kernel)
  have points : controlDocument.points ≠ [] := List.cons_ne_nil _ _
  have invisible : ¬ Visible controlDocument.name := by
    rw [← singleLine_ne_empty_iff, ne_eq, not_not]
    decide +kernel
  obtain ⟨text, held, begins⟩ := begins_packed assembled points
  exact ⟨points, package, text, assembled, held, (named_or_unnamed begins).2.mpr invisible⟩

end SpellPack.Proofs.NamedHeaders
