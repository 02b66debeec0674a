import SpellPack.Proofs.FileLines
import SpellPack.Proofs.TextForms

/-! A slug is what can be kept of a name, in blocks. The blocks are the longest runs of kept
characters, one underscore stands between two of them, and texts of that form are left alone. -/

namespace SpellPack.Proofs.SlugBlocks
open Text TextEnds SlugText FileLines TextForms
open scoped Computability

section Lowercase

/-- Capitals stand in front of the small letters, or behind all characters of identifiers. -/
theorem capitals_apart : ∀ run ∈ capitalRuns, run.first = 0x41 ∧ run.last = 0x5A ∨ 0x7A < run.first := by
  decide +kernel

theorem isIdChar_code {c : Char} (id : IsIdChar c) : c.toNat < 0x41 ∨ 0x5A < c.toNat ∧ c.toNat ≤ 0x7A := by
  rcases id with kept | rfl
  · simp only [isSlugChar, Bool.or_eq_true, Bool.and_eq_true, decide_eq_true_eq, beq_iff_eq] at kept
    rcases kept with (⟨least, greatest⟩ | ⟨_, greatest⟩) | rfl
    · exact .inr ⟨Nat.lt_of_lt_of_le (by decide) least, greatest⟩
    · exact .inl (Nat.lt_of_le_of_lt greatest (by decide))
    · decide
  · decide

theorem lowercase_idChar {c : Char} (id : IsIdChar c) : lowercase c = [c] := by
  have code := isIdChar_code id
  have small : capitalRuns.find? (·.holds c.toNat) = none := by
    rw [List.find?_eq_none]
    intro run member
    have apart := capitals_apart run member
    simp only [CapitalRun.holds, Bool.and_eq_true, decide_eq_true_eq]
    omega
  have undotted : (c == '\u0130') = false := by
    rw [beq_eq_false_iff_ne]
    rintro rfl
    exact absurd code (by decide)
  rw [lowercase, undotted, small]
  rfl

theorem flatMap_lowercase {text : List Char} (id : ∀ c ∈ text, IsIdChar c) : text.flatMap lowercase = text := by
  rw [List.flatMap_congr fun c member => lowercase_idChar (id c member), List.flatMap_singleton']

end Lowercase

def keptPieces (text : List Char) : List (List Char) := text.splitOnP fun c => !isSlugChar c

/-- The longest runs of characters that are kept. -/
def keptRuns (text : List Char) : List (List Char) := (keptPieces text).filter fun run => !run.isEmpty

example : keptRuns " __a--b !c_".toList = ["a--b".toList, "c".toList] := by decide

section Runs

variable {text first : List Char} {later : List (List Char)}

/-- The text is broken at a character that is not kept. Any other joins the first piece. -/
theorem keptPieces_cons (c : Char) (text : List Char) :
    ∃ first later, keptPieces text = first :: later ∧
      keptPieces (c :: text) = if isSlugChar c then (c :: first) :: later else [] :: first :: later := by
  obtain ⟨first, later, pieces⟩ := List.exists_cons_of_ne_nil (List.splitOnP_ne_nil (fun c => !isSlugChar c) text)
  refine ⟨first, later, pieces, ?_⟩
  rw [keptPieces, List.splitOnP_cons_eq_if_modifyHead, pieces]
  cases isSlugChar c <;> rfl

theorem isSlugChar_keptPieces (text : List Char) : ∀ piece ∈ keptPieces text, ∀ c ∈ piece, isSlugChar c = true := by
  induction text with
  | nil => simp [keptPieces]
  | cons c text ih =>
    obtain ⟨first, later, pieces, broken⟩ := keptPieces_cons c text
    rw [pieces, List.forall_mem_cons] at ih
    rw [broken]
    split
    · next kept => exact List.forall_mem_cons.mpr ⟨List.forall_mem_cons.mpr ⟨kept, ih.1⟩, ih.2⟩
    · exact List.forall_mem_cons.mpr ⟨List.forall_mem_nil _, List.forall_mem_cons.mpr ih⟩

theorem keptRuns_kept (text : List Char) : ∀ run ∈ keptRuns text, run ≠ [] ∧ ∀ c ∈ run, isSlugChar c = true := by
  intro run member
  obtain ⟨piece, visible⟩ := List.mem_filter.mp member
  exact ⟨by simpa using visible, isSlugChar_keptPieces text run piece⟩

theorem ne_underscore {c : Char} (kept : isSlugChar c = true) : c ≠ '_' := by
  rintro rfl
  exact absurd kept (by decide)

/-- An underscore at the front stands for one more character. -/
theorem underscored_other {c : Char} (other : isSlugChar c = false) (text : List Char) :
    underscored (c :: text) =
      if (underscored text).head? = some '_' then underscored text else '_' :: underscored text := by
  rw [underscored, other, if_neg Bool.false_ne_true]
  split
  · next behind same => rw [same, List.head?_cons, if_pos rfl]
  · next different =>
    rw [if_neg]
    intro begins
    obtain ⟨behind, same⟩ := List.head?_eq_some_iff.mp begins
    exact different behind same

theorem head?_underscored (pieces : keptPieces text = first :: later) (nonempty : text ≠ []) :
    (underscored text).head? = some '_' ↔ first = [] := by
  obtain ⟨c, behind, rfl⟩ := List.exists_cons_of_ne_nil nonempty
  obtain ⟨front, others, _, broken⟩ := keptPieces_cons c behind
  rw [pieces] at broken
  by_cases kept : isSlugChar c = true
  · rw [if_pos kept] at broken
    simp [underscored, kept, (List.cons.inj broken).1, ne_underscore kept]
  · rw [if_neg kept] at broken
    rw [underscored_other (by simpa using kept), (List.cons.inj broken).1]
    simp [apply_ite]

/-- Without its end, the underscored text is the first piece and the runs behind it. -/
theorem dropEndWhile_underscored (pieces : keptPieces text = first :: later) :
    dropEndWhile (· == '_') (underscored text) =
      first ++ (later.filter fun run => !run.isEmpty).flatMap (['_'] ++ ·) := by
  induction text generalizing first later with
  | nil =>
    obtain ⟨rfl, rfl⟩ := List.cons.inj (List.splitOnP_nil.symm.trans pieces)
    rfl
  | cons c text ih =>
    obtain ⟨front, others, split, broken⟩ := keptPieces_cons c text
    have remaining := ih split
    rw [broken] at pieces
    split at pieces
    · next kept =>
      obtain ⟨rfl, rfl⟩ := List.cons.inj pieces
      rw [underscored, if_pos kept, dropEndWhile_cons, if_neg (by simp [ne_underscore kept]), remaining,
        List.cons_append]
    · next other =>
      obtain ⟨rfl, rfl⟩ := List.cons.inj pieces
      rw [underscored_other (by simpa using other)]
      by_cases empty : text = []
      · subst empty
        obtain ⟨rfl, rfl⟩ := List.cons.inj (List.splitOnP_nil.symm.trans split)
        rfl
      have begins := head?_underscored split empty
      by_cases gap : front = []
      · rw [if_pos (begins.mpr gap), remaining, gap]
        rfl
      · rw [if_neg (mt begins.mp gap), dropEndWhile_cons, remaining, if_neg (by simp [gap]),
          List.filter_cons_of_pos (by simpa using gap)]
        rfl

theorem dropWhile_run {run : List Char} (visible : run ≠ []) (kept : ∀ c ∈ run, isSlugChar c = true)
    (rest : List Char) : (run ++ rest).dropWhile (· == '_') = run ++ rest := by
  obtain ⟨c, behind, rfl⟩ := List.exists_cons_of_ne_nil visible
  exact List.dropWhile_cons_of_neg (by simpa using ne_underscore (kept c List.mem_cons_self))

theorem slugChars_eq (text : List Char) :
    slugChars text = ['_'].intercalate (keptRuns (text.flatMap lowercase)) := by
  rw [slugChars, dropEndWhile_dropWhile]
  generalize text.flatMap lowercase = small
  obtain ⟨first, later, pieces⟩ := List.exists_cons_of_ne_nil (List.splitOnP_ne_nil (fun c => !isSlugChar c) small)
  have kept := keptRuns_kept small
  rw [dropEndWhile_underscored pieces]
  rw [keptRuns, keptPieces, pieces] at kept ⊢
  by_cases gap : first = []
  · rw [List.filter_cons_of_neg (by simpa using gap)] at kept ⊢
    rw [gap, List.nil_append]
    cases runs : later.filter fun run => !run.isEmpty with
    | nil => rfl
    | cons run others =>
      rw [runs, List.forall_mem_cons] at kept
      rw [intercalate_cons, List.flatMap_cons, List.append_assoc]
      exact dropWhile_run kept.1.1 kept.1.2 _
  · rw [List.filter_cons_of_pos (by simpa using gap), List.forall_mem_cons] at kept
    rw [List.filter_cons_of_pos (by simpa using gap), dropWhile_run gap kept.1.2, intercalate_cons]

end Runs

/-- Blocks of kept characters, joined by single underscores. -/
def slugForm : Language Char :=
  repeated (character isSlugChar) * ({['_']} * repeated (character isSlugChar))∗

section Form

variable {blocks : List (List Char)}

theorem mem_slugForm {text : List Char} : text ∈ slugForm ↔
    ∃ blocks, blocks ≠ [] ∧ (∀ block ∈ blocks, block ≠ [] ∧ ∀ c ∈ block, isSlugChar c = true) ∧
      text = ['_'].intercalate blocks := by
  simp only [slugForm, mem_separated, mem_repeated_character]

theorem keptPieces_intercalate (kept : ∀ block ∈ blocks, ∀ c ∈ block, isSlugChar c = true) (nonempty : blocks ≠ []) :
    keptPieces (['_'].intercalate blocks) = blocks := by
  obtain ⟨first, later, rfl⟩ := List.exists_cons_of_ne_nil nonempty
  rw [intercalate_cons]
  clear nonempty
  induction later generalizing first with
  | nil =>
    rw [List.forall_mem_singleton] at kept
    rw [List.flatMap_nil, List.append_nil]
    exact List.splitOnP_eq_singleton (by simpa using kept)
  | cons second later ih =>
    rw [List.forall_mem_cons] at kept
    rw [List.flatMap_cons, List.append_assoc, List.singleton_append, keptPieces,
      List.splitOnP_append_cons_of_forall_mem (by simpa using kept.1) '_' rfl]
    exact congrArg (first :: ·) (ih second kept.2)

theorem slugChars_intercalate (kept : ∀ block ∈ blocks, block ≠ [] ∧ ∀ c ∈ block, isSlugChar c = true)
    (nonempty : blocks ≠ []) : slugChars (['_'].intercalate blocks) = ['_'].intercalate blocks := by
  have id : ∀ c ∈ ['_'].intercalate blocks, IsIdChar c := by
    intro c member
    by_contra other
    exact not_mem_intercalate (fun same => other (.inr same))
      (fun block joined inside => other (.inl ((kept block joined).2 c inside))) member
  have visible : blocks.filter (fun block => !block.isEmpty) = blocks := by
    rw [List.filter_eq_self]
    intro block member
    simpa using (kept block member).1
  rw [slugChars_eq, flatMap_lowercase id, keptRuns,
    keptPieces_intercalate (fun block member => (kept block member).2) nonempty, visible]

end Form

section Names

variable {name : String}

def lowered (name : String) : List Char := name.toList.flatMap lowercase

theorem lowered_ascii (ascii : ∀ c ∈ name.toList, c.toNat < 0x80) : lowered name = name.toList.map Char.toLower := by
  rw [lowered, List.flatMap_congr fun c member => lowercase_ascii (ascii c member), ← List.flatMap_pure_eq_map]
  rfl

theorem slug_of_nil (nothing : keptRuns (lowered name) = []) : slug name = defaultSlug := by
  rw [slug, slugChars_eq, ← lowered, nothing]
  rfl

theorem slug_of_ne_nil (something : keptRuns (lowered name) ≠ []) :
    slug name = "_".intercalate ((keptRuns (lowered name)).map String.ofList) := by
  have kept := keptRuns_kept (lowered name)
  have joined : (slugChars name.toList) = ['_'].intercalate (keptRuns (lowered name)) := slugChars_eq name.toList
  have visible : slugChars name.toList ≠ [] := by
    obtain ⟨run, others, runs⟩ := List.exists_cons_of_ne_nil something
    rw [runs, List.forall_mem_cons] at kept
    rw [joined, runs, intercalate_cons]
    exact List.append_ne_nil_of_left_ne_nil kept.1.1 _
  rw [slug]
  split
  · next nothing => exact absurd nothing visible
  · apply String.toList_inj.mp
    rw [joined, String.toList_ofList, String.toList_intercalate, List.map_map]
    simp [Function.comp_def]

theorem slug_mem (name : String) : (slug name).toList ∈ slugForm := by
  rw [mem_slugForm]
  by_cases nothing : keptRuns (lowered name) = []
  · rw [slug_of_nil nothing]
    exact ⟨[defaultSlug.toList], by simp, by simp [defaultSlug, isSlugChar], by simp⟩
  · refine ⟨_, nothing, keptRuns_kept _, ?_⟩
    rw [slug_of_ne_nil nothing, String.toList_intercalate, List.map_map]
    simp [Function.comp_def]

theorem slug_of_mem (form : name.toList ∈ slugForm) : slug name = name := by
  obtain ⟨blocks, nonempty, kept, text⟩ := mem_slugForm.mp form
  obtain ⟨block, others, rfl⟩ := List.exists_cons_of_ne_nil nonempty
  have same : slugChars name.toList = name.toList := by rw [text, slugChars_intercalate kept nonempty]
  rw [slug, same]
  split
  · next nothing =>
    rw [nothing, intercalate_cons] at text
    exact absurd (List.append_eq_nil_iff.mp text.symm).1 (kept block List.mem_cons_self).1
  · exact String.ofList_toList

structure Slugged (name : String) : Prop where
  ascii : (∀ c ∈ name.toList, c.toNat < 0x80) → lowered name = name.toList.map Char.toLower
  blocks : slug name =
    if keptRuns (lowered name) = [] then defaultSlug
    else "_".intercalate ((keptRuns (lowered name)).map String.ofList)
  form : (slug name).toList ∈ slugForm
  fixed : slug name = name ↔ name.toList ∈ slugForm
  again : slug (slug name) = slug name

theorem name_slugged (name : String) : Slugged name where
  ascii := lowered_ascii
  blocks := by
    split
    · next nothing => exact slug_of_nil nothing
    · next something => exact slug_of_ne_nil something
  form := slug_mem name
  fixed := ⟨fun same => same ▸ slug_mem name, slug_of_mem⟩
  again := slug_of_mem (slug_mem name)

example : slug "  __Fire--Ball_\u0130!\u212A" = "fire--ball_i_k" := by decide +kernel

end Names

end SpellPack.Proofs.SlugBlocks
