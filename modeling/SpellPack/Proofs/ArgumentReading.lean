import SpellPack.Command.Arguments
import SpellPack.Proofs.FileLines
import SpellPack.Proofs.NumeralText

/-! Commands are read from their arguments as they are meant, whatever the values hold, as
long as each value is attached to its option. -/

namespace SpellPack.Proofs.ArgumentReading

def option (name value : String) : String := "--" ++ name ++ "=" ++ value

theorem toList_option (name value : String) :
    (option name value).toList = '-' :: '-' :: (name.toList ++ '=' :: value.toList) := by
  simp [option]

theorem option_ne_dashes (name value : String) : (option name value == "--") = false := by
  rw [beq_eq_false_iff_ne, ne_eq, ← String.toList_inj, toList_option]
  simp

theorem asksForHelp_option (name value : String) : Command.asksForHelp (option name value) = false := by
  rw [Command.asksForHelp, Bool.or_eq_false_iff, beq_eq_false_iff_ne, beq_eq_false_iff_ne]
  constructor
  · rw [ne_eq, ← String.toList_inj, toList_option]
    intro same
    have ended : '=' ∈ '-' :: '-' :: (name.toList ++ '=' :: value.toList) := by simp
    rw [same] at ended
    exact absurd ended (by decide)
  · simp [toList_option]

theorem splitOption?_option {name : String} (plain : '=' ∉ name.toList) (value : String) :
    Command.splitOption? (option name value) = some (name, some value) := by
  simp only [Command.splitOption?, toList_option, FileLines.takeWhile_until plain, FileLines.dropWhile_until plain,
    String.ofList_toList]

theorem readOptions?_option {name : String} (plain : '=' ∉ name.toList) {known : List String}
    (expected : known.contains name = true) (value : String) (later : List String) :
    Command.readOptions? known (option name value :: later) =
      (Command.readOptions? (known.erase name) later).map ((name, value) :: ·) := by
  rw [Command.readOptions?]
  simp only [option_ne_dashes, asksForHelp_option, Bool.false_eq_true, if_false, splitOption?_option plain,
    Option.bind_eq_bind, Option.bind_some, expected, if_true]
  cases Command.readOptions? (known.erase name) later <;> rfl

theorem readPosition?_toString {index : Nat} (word : index < UInt64.size) :
    Command.readPosition? (toString index) = some index := by
  have some : (toString index).toList ≠ [] := by
    rw [Nat.toString_eq_repr, Nat.toList_repr]
    exact Nat.toDigits_ne_nil
  have all : (toString index).toList.all Char.isDigit = true := by
    rw [List.all_eq_true, Nat.toString_eq_repr, Nat.toList_repr]
    exact fun c => NumeralText.isDigit_toDigits
  have value : Nat.ofDigitChars 10 (toString index).toList 0 = index := by
    rw [Nat.toString_eq_repr, Nat.toList_repr, Nat.ofDigitChars_ten_toDigits]
  unfold Command.readPosition?
  split
  · next digits signed =>
    rw [signed, List.all_cons] at all
    exact absurd all (by simp)
  · simp only [List.isEmpty_eq_false_iff.mpr some, all, value, word, Bool.not_false, Bool.and_self, decide_true, if_true]

/-- The commands for the words of `preview`, once its options are read. -/
theorem previewWord_eq (arguments : List String) : Command.ofArguments? ("preview" :: arguments) =
    (Command.readOptions? ["document", "point"] arguments).bind fun options =>
      ((options.lookup "point").mapM Command.readPosition?).bind fun point =>
        Command.orHelp "preview" Help.preview options
          ((options.lookup "document").bind fun path => some (.preview path point)) := rfl

theorem buildWord_eq (arguments : List String) : Command.ofArguments? ("build" :: arguments) =
    (Command.readOptions? ["document", "out-dir"] arguments).bind fun options =>
      Command.orHelp "build" Help.build options
        ((options.lookup "document").bind fun path =>
          (options.lookup "out-dir").bind fun outDir => some (.build path outDir)) := rfl

theorem ofArguments?_preview (path : String) :
    Command.ofArguments? ["preview", option "document" path] = some (.preview path none) := by
  rw [previewWord_eq, readOptions?_option (by decide) rfl]
  rfl

theorem ofArguments?_point (path : String) {index : Nat} (word : index < UInt64.size) :
    Command.ofArguments? ["preview", option "document" path, option "point" (toString index)] =
      some (.preview path (some index)) := by
  have position : (some (toString index)).mapM Command.readPosition? = some (some index) := by
    rw [Option.mapM_some, readPosition?_toString word]
    rfl
  rw [previewWord_eq, readOptions?_option (by decide) rfl, readOptions?_option (by decide) rfl]
  change ((some (toString index)).mapM Command.readPosition?).bind _ = _
  rw [position]
  rfl

theorem ofArguments?_build (path outDir : String) :
    Command.ofArguments? ["build", option "document" path, option "out-dir" outDir] = some (.build path outDir) := by
  rw [buildWord_eq, readOptions?_option (by decide) rfl, readOptions?_option (by decide) rfl]
  rfl

end SpellPack.Proofs.ArgumentReading
