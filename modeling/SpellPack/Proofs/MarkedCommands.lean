import SpellPack.Proofs.PackLines

/-! What the mark of a macro line leaves of the tokens of a command. The mark is no part of
the command, so only what stands behind it counts. A command that begins with a token already
begins with a dollar sign, which is then taken for the mark, and that token is lost. -/

namespace SpellPack.Proofs.MarkedCommands
open Text Layout Macro MacroTokens PackLines

def LeadsWith (name text : List Char) : Prop := IsName name ∧ tokenText name <+: text

/-- What a line carries of the tokens of its command. -/
structure Carries (command line : String) : Prop where
  plain : hasToken command = false → line = command
  marked : hasToken command = true → line.toList.head? = some '$'
  kept : hasToken command = true →
    (tokenNames line.toList.tail = tokenNames command.toList ↔ ∀ name, ¬ LeadsWith name command.toList)
  lost : ∀ name, LeadsWith name command.toList → tokenNames command.toList = name :: tokenNames line.toList.tail

section Lines

variable {command : String}

theorem leadsWith_iff {name text : List Char} : LeadsWith name text ↔ tokenName? text = some name :=
  tokenName?_eq_some.symm

theorem LeadsWith.head {name text : List Char} (leads : LeadsWith name text) : text.head? = some '$' := by
  obtain ⟨_, rest, rfl⟩ := leads
  rfl

theorem LeadsWith.some {name : List Char} (leads : LeadsWith name command.toList) : hasToken command = true := by
  obtain ⟨valid, rest, text⟩ := leads
  apply hasToken_iff.mpr
  simp only [← text, tokenNames_token valid, ne_eq, List.cons_ne_nil, not_false_eq_true]

/-- A line without a token is left as it is. -/
theorem carries_plain (plain : hasToken command = false) : Carries command command where
  plain _ := rfl
  marked token := by simp [plain] at token
  kept token := by simp [plain] at token
  lost name leads := by exact absurd leads.some (by simp [plain])

/-- The mark that is put in front of a line leaves the whole line behind it. -/
theorem carries_marked (token : hasToken command = true) (unmarked : command.toList.head? ≠ some '$') :
    Carries command ("$" ++ command) := by
  have none : ∀ name, ¬ LeadsWith name command.toList := fun name leads => unmarked leads.head
  constructor
  · intro plain
    simp [plain] at token
  · intro _
    simp
  · intro _
    exact iff_of_true (by simp) none
  · intro name leads
    exact absurd leads (none name)

/-- A line that begins with a dollar sign loses the token that this one belongs to. -/
theorem carries_itself (marked : command.toList.head? = some '$') :
    Carries command command := by
  obtain ⟨rest, text⟩ := List.head?_eq_some_iff.mp marked
  have names : tokenNames command.toList = (tokenName? command.toList).toList ++ tokenNames command.toList.tail := by
    simp only [text, tokenNames, List.tail_cons]
  constructor
  · intro _
    rfl
  · intro _
    exact marked
  · intro _
    simp only [leadsWith_iff, names]
    cases tokenName? command.toList with
    | none => simp
    | some name => simp
  · intro name leads
    simpa only [leadsWith_iff.mp leads, Option.toList_some, List.singleton_append] using names

theorem carries_markLine (command : String) : Carries command (markLine command) := by
  unfold markLine
  cases token : hasToken command with
  | false => exact carries_plain token
  | true =>
    by_cases marked : command.toList.head? = some '$'
    · simpa [marked] using carries_itself marked
    · simpa [marked] using carries_marked token marked

end Lines

/-- The line in the place of a finish command carries that command. -/
theorem carries_finish {document : Document} {package : Package} (assembled : document.assemble = .ok package)
    {index : Nat} {command : String} (found : (commandLines document.finishCommands)[index]? = some command) :
    ∃ lines line, HasLines package.files (activationPath document.loadedSpellId) lines ∧
      lines[index]? = some line ∧ Carries command line := by
  have written : document.activationLines[index]? = some (markLine command) := by
    have inside : index < (commandLines document.finishCommands).length := (List.getElem?_eq_some_iff.mp found).1
    unfold Document.activationLines
    simp only [List.getElem?_append_left, List.length_map, inside, List.getElem?_map, found, Option.map_some]
  have some : document.activationLines ≠ [] := List.ne_nil_of_mem (List.mem_of_getElem? written)
  exact ⟨_, _, hasLines_activation assembled some, written, carries_markLine command⟩

/-- A marked line keeps the tokens of a command exactly if the command does not begin with one.
Each finish command of a pack stands in such a line. -/
theorem tokens_behindMark (command : String) :
    Carries command (markLine command) ∧
      ∀ document package, Document.assemble document = .ok package →
        ∀ index : Nat, (commandLines document.finishCommands)[index]? = some command →
          ∃ (lines : List String) (line : String),
            HasLines package.files (activationPath document.loadedSpellId) lines ∧
            lines[index]? = some line ∧ Carries command line := by
  constructor
  · exact carries_markLine command
  · intro document package assembled index found
    exact carries_finish assembled found

def finishDocument : Document where
  name := "Bolt"
  finishCommands := ["say $(target)\n $(command) now"]

theorem carries_finishDocument :
    ∃ (package : Package) (lines : List String) (line : String), finishDocument.assemble = .ok package ∧
      HasLines package.files (activationPath finishDocument.loadedSpellId) lines ∧
      lines[1]? = some line ∧ Carries "$(command) now" line := by
  obtain ⟨package, assembled⟩ := @PackFiles.assembled_of_named finishDocument rfl
  obtain ⟨lines, line, written, found, carried⟩ := (tokens_behindMark "$(command) now").2 _ _ assembled 1 rfl
  exact ⟨package, lines, line, assembled, written, found, carried⟩

/-- The token's own dollar sign is taken for the mark. -/
theorem lost_leadingToken :
    ¬ ∀ command, hasToken command = true →
      (markLine command).toList.head? = some '$' ∧
        tokenNames (markLine command).toList.tail = tokenNames command.toList := by
  intro all
  have kept := (all "$(command) now" rfl).2
  exact absurd kept (by decide)

end SpellPack.Proofs.MarkedCommands
