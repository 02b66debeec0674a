import SpellPack.Pack.RayFile
import SpellPack.Proofs.FileLines
import SpellPack.Proofs.MacroTokens

/-! The macros of a ray. Its file uses no macro that its step line does not hand on, and
the step line, the call and the lines between agree on which macros there are. -/

namespace SpellPack.Proofs.RayMacros
open Macro Text RayFile MacroTokens FileLines

/-- A line put together from fields, with the tokens of these fields and no others. -/
structure Joins (line : String) (fields : List String) : Prop where
  first : ∃ c rest, line.toList = c :: rest ∧ c ≠ '$' ∧ c ≠ '('
  unbroken : ∀ c, isControl c = true → c ∉ line.toList
  tokens : tokenNames line.toList = fields.flatMap fun field => tokenNames field.toList

section Marked

variable {line : String} {fields : List String}

theorem Joins.marked (joins : Joins line fields) :
    (markLine line).toList.head? = some '$' ↔ hasToken (markLine line) = true := by
  obtain ⟨c, rest, text, noDollar, noParen⟩ := joins.first
  rw [marked_iff text noDollar, hasToken_iff, hasToken_iff, tokenNames_markLine text noParen]

theorem Joins.names (joins : Joins line fields) : Macro.names [markLine line] = Macro.names fields := by
  obtain ⟨c, rest, text, _, noParen⟩ := joins.first
  rw [names_eq, names_eq, List.flatMap_singleton, tokenNames_markLine text noParen, joins.tokens]

theorem Joins.unbroken_mark (joins : Joins line fields) {c : Char} (control : isControl c = true) :
    c ∉ (markLine line).toList := by
  have other : c ≠ '$' := by
    rintro rfl
    exact absurd control (by decide)
  rw [mem_markLine other]
  exact joins.unbroken c control

end Marked

/-- A field on one line keeps its tokens behind words that hold none and before a space. -/
theorem joins_field {front tail field : String} {others : List String}
    (first : ∃ c rest, front.toList = c :: rest ∧ c ≠ '(') (plain : '$' ∉ front.toList)
    (frontUnbroken : ∀ c, isControl c = true → c ∉ front.toList) (space : tail.toList.head? = some ' ')
    (tailUnbroken : ∀ c, isControl c = true → c ∉ tail.toList)
    (tokens : tokenNames tail.toList = others.flatMap fun other => tokenNames other.toList) :
    Joins (front ++ singleLine field ++ tail) (field :: others) := by
  obtain ⟨c, rest, text, noParen⟩ := first
  refine ⟨⟨c, rest ++ ((singleLine field).toList ++ tail.toList), ?_, ?_, noParen⟩, ?_, ?_⟩
  · simp [text]
  · rintro rfl
    simp [text] at plain
  · intro c control
    simp [frontUnbroken c control, tailUnbroken c control, control_singleLine control]
  · rw [String.toList_append, String.toList_append, List.append_assoc, tokenNames_plain_append plain,
      tokenNames_append, tokenNames_singleLine, tokens, List.flatMap_cons]
    intro c head
    rw [space] at head
    cases head
    decide

def numbersText (particle : Particle) : String :=
  " ^ ^ ^ " ++ particle.dx.commandText ++ " " ++ particle.dy.commandText ++ " " ++ particle.dz.commandText ++ " " ++
    particle.speed.commandText ++ " " ++ toString particle.count.toNat

theorem foreign_numbersText {c : Char} (other : foreign c = true) (word : c ∉ " ^ ^ ^ ".toList) (particle : Particle) :
    c ∉ (numbersText particle).toList := by
  have space : c ∉ " ".toList := by
    intro member
    rw [List.mem_singleton.mp member] at word
    exact word (by decide)
  have number := foreign_commandText other
  unfold numbersText
  simp only [String.toList_append, List.mem_append, not_or, and_assoc]
  exact ⟨word, number _, space, number _, space, number _, space, number _, space, foreign_digits other _⟩

theorem particleLine_joins {particle : Particle} {line : String} (emitted : particleLine? particle = some line) :
    ∃ body, line = markLine body ∧ Joins body [particle.name] := by
  simp only [particleLine?] at emitted
  split at emitted
  · cases emitted
  · refine ⟨"particle " ++ singleLine particle.name ++ numbersText particle, ?_, ?_⟩
    · apply (Option.some.inj emitted).symm.trans
      unfold numbersText
      simp only [String.append_assoc]
    · have plain := foreign_numbersText (c := '$') (by decide) (by decide) particle
      apply joins_field ⟨'p', _, rfl, by decide⟩ (by decide)
      · exact fun c control => not_mem_fixed control rfl
      · unfold numbersText
        simp
      · intro c control
        exact foreign_numbersText (foreign_control control) (not_mem_fixed control rfl) particle
      · exact tokenNames_plain plain

theorem checkLine_joins {check : Check} {line : String} (emitted : checkLine? check = some line) :
    ∃ body, line = markLine body ∧ Joins body [check.subject, check.command] := by
  simp only [checkLine?] at emitted
  split at emitted
  · cases emitted
  · refine ⟨"execute " ++ (if check.invert then "unless" else "if") ++ " " ++ singleLine check.subject ++
      (" run " ++ (if check.passThrough then "" else "return ") ++ singleLine check.command), ?_, ?_⟩
    · apply (Option.some.inj emitted).symm.trans
      simp only [String.append_assoc]
    · apply joins_field
      · cases check.invert <;> exact ⟨'e', _, rfl, by decide⟩
      · cases check.invert <;> decide
      · intro c control
        apply not_mem_append _ (not_mem_fixed control rfl)
        apply not_mem_append (not_mem_fixed control rfl)
        split <;> exact not_mem_fixed control rfl
      · simp
      · intro c control
        apply not_mem_append _ (control_singleLine control _)
        apply not_mem_append (not_mem_fixed control rfl)
        split <;> exact not_mem_fixed control rfl
      · rw [String.toList_append, tokenNames_plain_append, tokenNames_singleLine, List.flatMap_singleton]
        cases check.passThrough <;> decide

/-- The names before the colons in the braces of a line, in order; none if it has no braces. -/
def argumentNames (line : String) : List String :=
  match line.toList.dropWhile (· != '\x7b') with
  | [] => []
  | _ :: object =>
    (splitAt ',' (object.takeWhile (· != '\x7d'))).map fun argument => String.ofList (argument.takeWhile (· != ':'))

def argument (name : List Char) : List Char := name ++ ':' :: tokenText name

section Arguments

variable {names : List String}

theorem not_mem_argument {name : List Char} (valid : IsName name) {c : Char} (plain : Plain c) (colon : c ≠ ':') :
    c ∉ argument name := by
  intro member
  rcases List.mem_append.mp member with inside | behind
  · have nameChar := valid.2 c inside
    simp [Plain, insideToken, nameChar] at plain
  · rcases List.mem_cons.mp behind with same | token
    · exact colon same
    · exact not_plain_of_mem valid token plain

theorem toList_argumentsText :
    (argumentsText names).toList = '{' :: ([','].intercalate (names.map fun name => argument name.toList) ++ ['}']) := by
  simp [argumentsText, argument, tokenText, String.toList_intercalate, Function.comp_def]

theorem tokenNames_argument {name : List Char} (valid : IsName name) (rest : List Char) :
    tokenNames (argument name ++ rest) = name :: tokenNames rest := by
  have plain : '$' ∉ name ++ [':'] := by
    intro member
    rcases List.mem_append.mp member with inside | colon
    · exact absurd (valid.2 '$' inside) (by decide)
    · exact absurd colon (by decide)
  have text : argument name ++ rest = name ++ [':'] ++ (tokenText name ++ rest) := by simp [argument]
  rw [text, tokenNames_plain_append plain, tokenNames_token valid]

theorem tokenNames_laterArguments (valid : ∀ name ∈ names, IsName name.toList) :
    tokenNames (names.flatMap (fun name => ',' :: argument name.toList) ++ ['}']) = names.map String.toList := by
  induction names with
  | nil => decide
  | cons name later ih =>
    rw [List.forall_mem_cons] at valid
    have comma := tokenNames_plain_append (a := [',']) (by simp)
    rw [List.flatMap_cons, List.append_assoc, ← List.singleton_append, List.append_assoc, comma,
      tokenNames_argument valid.1, ih valid.2, List.map_cons]

theorem tokenNames_argumentsText (valid : ∀ name ∈ names, IsName name.toList) :
    tokenNames (argumentsText names).toList = names.map String.toList := by
  have brace := tokenNames_plain_append (a := ['{']) (by simp)
  rw [toList_argumentsText, ← List.singleton_append, brace]
  cases names with
  | nil => decide
  | cons name later =>
    rw [List.forall_mem_cons] at valid
    have remaining := tokenNames_laterArguments valid.2
    rw [List.map_cons, intercalate_cons, List.flatMap_map, List.append_assoc, tokenNames_argument valid.1]
    exact congrArg (name.toList :: ·) remaining

/-- The names in an argument object are those that were put into it. -/
theorem arguments_apart (valid : ∀ name ∈ names, IsName name.toList) (nonempty : names ≠ []) :
    (splitAt ',' ([','].intercalate (names.map fun name => argument name.toList))).map
      (fun argument => String.ofList (argument.takeWhile (· != ':'))) = names := by
  have parts : ∀ part ∈ names.map fun name => argument name.toList, ',' ∉ part := by
    intro part member
    obtain ⟨name, inside, rfl⟩ := List.mem_map.mp member
    exact not_mem_argument (valid name inside) ⟨by decide, by decide⟩ (by decide)
  have read : ∀ name ∈ names, String.ofList ((argument name.toList).takeWhile (· != ':')) = name := by
    intro name member
    have plain : ':' ∉ name.toList := fun inside => absurd ((valid name member).2 ':' inside) (by decide)
    rw [argument, takeWhile_until plain, String.ofList_toList]
  rw [splitAt_intercalate parts (by simpa using nonempty), List.map_map, Function.comp_def, List.map_congr_left read,
    List.map_id']

theorem argumentNames_object {front : String} (plain : '{' ∉ front.toList) (valid : ∀ name ∈ names, IsName name.toList)
    (nonempty : names ≠ []) : argumentNames (front ++ argumentsText names) = names := by
  have inside : '}' ∉ [','].intercalate (names.map fun name => argument name.toList) := by
    apply not_mem_intercalate (by decide)
    intro part member
    obtain ⟨name, inside, rfl⟩ := List.mem_map.mp member
    exact not_mem_argument (valid name inside) ⟨by decide, by decide⟩ (by decide)
  rw [argumentNames, String.toList_append, toList_argumentsText, dropWhile_until plain]
  dsimp only
  rw [takeWhile_until inside, arguments_apart valid nonempty]

theorem not_mem_argumentsText (valid : ∀ name ∈ names, IsName name.toList) {c : Char} (plain : Plain c)
    (marks : c ∉ ['{', '}', ',', ':']) : c ∉ (argumentsText names).toList := by
  simp only [List.mem_cons, List.not_mem_nil, or_false, not_or] at marks
  obtain ⟨left, right, comma, colon⟩ := marks
  have inside : c ∉ [','].intercalate (names.map fun name => argument name.toList) := by
    apply not_mem_intercalate comma
    intro part member
    obtain ⟨name, inside, rfl⟩ := List.mem_map.mp member
    exact not_mem_argument (valid name inside) plain colon
  rw [toList_argumentsText]
  simp [left, right, inside]

theorem argumentNames_without {line : String} (plain : '{' ∉ line.toList) : argumentNames line = [] := by
  rw [argumentNames, dropWhile_without plain]

end Arguments

section Step

variable {ray : Ray} {index : Nat} {name : String}

def stepCall (ray : Ray) (index : Nat) (spellId : String) : String :=
  "execute positioned ^ ^ ^" ++ ray.effectiveStep.commandText ++ " run function " ++ Layout.rayFunction spellId index

theorem stepLine_eq (spellId : String) : stepLine ray index spellId =
    if ray.takesMacros then "$" ++ stepCall ray index spellId ++ " " ++ argumentsText ray.macroNames
    else stepCall ray index spellId := rfl

theorem foreign_stepCall {c : Char} (other : foreign c = true)
    (words : c ∉ "execute positioned ^ ^ ^".toList ∧ c ∉ " run function ".toList ∧
      c ∉ "spellcasting:spells/".toList ∧ c ∉ "/ray_tick_".toList) : c ∉ (stepCall ray index (slug name)).toList := by
  have step : c ∉ ray.effectiveStep.commandText.toList := foreign_commandText other (.finite ray.effectiveStep)
  obtain ⟨first, second, third, fourth⟩ := words
  unfold stepCall Layout.rayFunction
  simp only [String.toList_append, List.mem_append, not_or, and_assoc]
  exact ⟨first, step, second, third, foreign_slug other name, fourth, foreign_digits other index⟩

theorem dollar_stepCall : '$' ∉ (stepCall ray index (slug name)).toList := foreign_stepCall (by decide) (by decide)

theorem brace_stepCall : '{' ∉ (stepCall ray index (slug name)).toList := foreign_stepCall (by decide) (by decide)

theorem control_stepCall {c : Char} (control : isControl c = true) : c ∉ (stepCall ray index (slug name)).toList := by
  apply foreign_stepCall (foreign_control control)
  refine ⟨?_, ?_, ?_, ?_⟩
  all_goals exact not_mem_fixed control rfl

theorem isName_macroNames : ∀ name ∈ ray.macroNames, IsName name.toList := fun _ => isName_of_mem_names

theorem takesMacros_iff : ray.takesMacros = true ↔ ray.macroNames ≠ [] := names_ne_nil_iff.symm

theorem argumentNames_stepLine : argumentNames (stepLine ray index (slug name)) = ray.macroNames := by
  rw [stepLine_eq]
  split
  · next takes =>
    apply argumentNames_object _ isName_macroNames (takesMacros_iff.mp takes)
    simp only [String.toList_append, List.mem_append, not_or, and_assoc]
    exact ⟨by decide, brace_stepCall, by decide⟩
  · next plain =>
    rw [argumentNames_without brace_stepCall]
    exact (Classical.not_not.mp (mt takesMacros_iff.mpr plain)).symm

theorem head_stepCall : (stepCall ray index (slug name)).toList.head? = some 'e' := by
  unfold stepCall
  simp

theorem marked_stepLine :
    (stepLine ray index (slug name)).toList.head? = some '$' ↔ ray.takesMacros = true := by
  rw [stepLine_eq]
  split
  · next takes => simp [takes]
  · next plain => simp [plain, head_stepCall]

/-- The step line holds the macros that it hands on, each of them once. -/
theorem tokenNames_stepLine :
    tokenNames (stepLine ray index (slug name)).toList = ray.macroNames.map String.toList := by
  rw [stepLine_eq]
  split
  · obtain ⟨rest, call⟩ := List.head?_eq_some_iff.mp (@head_stepCall ray index name)
    have plain : '$' ∉ (stepCall ray index (slug name)).toList ++ [' '] := by simp [dollar_stepCall]
    calc tokenNames ("$" ++ stepCall ray index (slug name) ++ " " ++ argumentsText ray.macroNames).toList
        = tokenNames ('$' :: 'e' :: (rest ++ ' ' :: (argumentsText ray.macroNames).toList)) := by simp [call]
      _ = tokenNames ('e' :: (rest ++ ' ' :: (argumentsText ray.macroNames).toList)) := tokenNames_dollar (by decide)
      _ = tokenNames ((stepCall ray index (slug name)).toList ++ [' '] ++ (argumentsText ray.macroNames).toList) := by
        simp [call]
      _ = ray.macroNames.map String.toList := by
        rw [tokenNames_plain_append plain, tokenNames_argumentsText isName_macroNames]
  · next plain =>
    rw [tokenNames_plain dollar_stepCall, Classical.not_not.mp (mt takesMacros_iff.mpr plain)]
    rfl

theorem control_stepLine {c : Char} (control : isControl c = true) : c ∉ (stepLine ray index (slug name)).toList := by
  have marks : c ∉ ['{', '}', ',', ':'] := by
    have plain := @not_mem_fixed c isControl control ['{', '}', ',', ':'] rfl
    rwa [String.toList_ofList] at plain
  have arguments := not_mem_argumentsText (@isName_macroNames ray) (plain_of_control control) marks
  rw [stepLine_eq]
  split
  · apply not_mem_append _ arguments
    apply not_mem_append _ (not_mem_fixed control rfl)
    exact not_mem_append (not_mem_fixed control rfl) (control_stepCall control)
  · exact control_stepCall control

theorem called_iff :
    "function " ++ Layout.rayFunction (slug name) index ++ " with entity @s" ∈
      activationLines ray index (slug name) ↔ ray.takesMacros = true := by
  generalize call : "function " ++ Layout.rayFunction (slug name) index = text
  have first : text.toList.head? = some 'f' := by
    rw [← call]
    simp
  have longer : text ++ " with entity @s" ≠ text := by
    rw [ne_eq, String.append_eq_left_iff]
    decide
  unfold activationLines
  dsimp only
  rw [call, List.mem_cons, List.mem_singleton]
  constructor
  · rintro (score | same)
    · have heads := congrArg (fun line => line.toList.head?) score
      simp [first] at heads
    · split at same
      · assumption
      · exact absurd same longer
  · intro takes
    right
    rw [if_pos takes]

end Step

section File

variable {ray : Ray} {index : Nat} {name : String}

theorem mem_fileLines {spellId line : String} (member : line ∈ fileLines ray index spellId) :
    line = titleLine ray index ∨ line ∈ [guardLine, countLine] ∨
      (∃ particle ∈ ray.particles, particleLine? particle = some line) ∨
      (∃ check ∈ ray.checks, checkLine? check = some line) ∨ line = stepLine ray index spellId := by
  simp only [fileLines, List.mem_append, List.mem_cons, List.not_mem_nil, or_false, List.mem_filterMap] at member
  grind

theorem head_titleLine : (titleLine ray index).toList.head? = some '#' := by
  unfold titleLine
  dsimp only
  split <;> simp

theorem control_titleLine {c : Char} (control : isControl c = true) : c ∉ (titleLine ray index).toList := by
  unfold titleLine
  dsimp only
  split
  · exact not_mem_append (not_mem_fixed control rfl) (foreign_digits (foreign_control control) index)
  · exact not_mem_append (not_mem_fixed control rfl) (control_singleLine control _)

theorem dollar_fixedLines : ∀ line ∈ [guardLine, countLine], '$' ∉ line.toList := by
  unfold guardLine countLine stepsObjective
  simp

theorem control_fixedLines {c : Char} (control : isControl c = true) :
    ∀ line ∈ [guardLine, countLine], c ∉ line.toList := by
  unfold guardLine countLine stepsObjective
  simp only [List.forall_mem_cons]
  refine ⟨not_mem_append (not_mem_append ?_ ?_) ?_, not_mem_append (not_mem_append ?_ ?_) ?_, List.forall_mem_nil _⟩
  all_goals exact not_mem_fixed control rfl

theorem names_subset {fields others : List String} (inside : fields ⊆ others) :
    Macro.names fields ⊆ Macro.names others := by
  intro name member
  obtain ⟨field, known, token⟩ := mem_names.mp member
  exact mem_names.mpr ⟨field, inside known, token⟩

theorem Joins.names_subset {body : String} {fields : List String} (joins : Joins body fields)
    (own : fields ⊆ ray.macroFields) : Macro.names [markLine body] ⊆ ray.macroNames := by
  rw [joins.names]
  exact RayMacros.names_subset own

theorem names_plain {line : String} (plain : '$' ∉ line.toList) : Macro.names [line] = [] := by
  rw [names_eq, List.flatMap_singleton, tokenNames_plain plain]
  rfl

theorem names_stepLine : Macro.names [stepLine ray index (slug name)] ⊆ ray.macroNames := by
  intro macroName inside
  obtain ⟨line, same, token⟩ := mem_names.mp inside
  rw [List.mem_singleton.mp same, tokenNames_stepLine] at token
  obtain ⟨known, handedOn, chars⟩ := List.mem_map.mp token
  rwa [← String.toList_inj.mp chars]

theorem particleFields_subset {particle : Particle} (used : particle ∈ ray.particles) :
    [particle.name] ⊆ ray.macroFields := by
  rw [List.cons_subset]
  exact ⟨List.mem_append_left _ (List.mem_map_of_mem used), List.nil_subset _⟩

theorem checkFields_subset {check : Check} (used : check ∈ ray.checks) :
    [check.subject, check.command] ⊆ ray.macroFields :=
  fun _ own => List.mem_append_right _ (List.mem_flatMap_of_mem used own)

/-- What holds of every line of the file, by the part that it comes from. -/
theorem fileLine_sound {line : String} (member : line ∈ fileLines ray index (slug name)) :
    (∀ c, isControl c = true → c ∉ line.toList) ∧
      (line.toList.head? ≠ some '#' → Macro.names [line] ⊆ ray.macroNames) := by
  rcases mem_fileLines member with title | fixed | ⟨particle, used, emitted⟩ | ⟨check, used, emitted⟩ | step
  · rw [title]
    exact ⟨fun c => control_titleLine, fun noComment => absurd head_titleLine noComment⟩
  · rw [names_plain (dollar_fixedLines line fixed)]
    exact ⟨fun c control => control_fixedLines control line fixed, fun _ => List.nil_subset _⟩
  · obtain ⟨body, marked, joins⟩ := particleLine_joins emitted
    rw [marked]
    exact ⟨fun c => joins.unbroken_mark, fun _ => joins.names_subset (particleFields_subset used)⟩
  · obtain ⟨body, marked, joins⟩ := checkLine_joins emitted
    rw [marked]
    exact ⟨fun c => joins.unbroken_mark, fun _ => joins.names_subset (checkFields_subset used)⟩
  · rw [step]
    exact ⟨fun c => control_stepLine, fun _ => names_stepLine⟩

theorem pieces_text : pieces '\n' (RayFile.text ray index (slug name)) = fileLines ray index (slug name) := by
  apply pieces_joinLines
  · intro line member
    exact (fileLine_sound member).1 '\n' (by decide)
  · simp [fileLines]

end File

/-- The macros of a ray's file are those that its step line hands on. The fields, the step
line and the call of the ray agree on whether there are any. -/
structure Closed (ray : Ray) (index : Nat) (spellId : String) : Prop where
  lines : pieces '\n' (RayFile.text ray index spellId) = [titleLine ray index, guardLine, countLine] ++
    ray.particles.filterMap particleLine? ++ ray.checks.filterMap checkLine? ++ [stepLine ray index spellId]
  marked : (stepLine ray index spellId).toList.head? = some '$' ↔ argumentNames (stepLine ray index spellId) ≠ []
  taken : argumentNames (stepLine ray index spellId) ≠ [] ↔ ∃ field ∈ ray.macroFields, hasToken field = true
  called : (∃ field ∈ ray.macroFields, hasToken field = true) ↔
    "function " ++ Layout.rayFunction spellId index ++ " with entity @s" ∈ activationLines ray index spellId
  once : (argumentNames (stepLine ray index spellId)).Nodup
  scanned : argumentNames (stepLine ray index spellId) = Macro.names ray.macroFields
  particles : ∀ particle ∈ ray.particles, ∀ line, particleLine? particle = some line →
    (line.toList.head? = some '$' ↔ hasToken line = true) ∧ Macro.names [line] = Macro.names [particle.name]
  checks : ∀ check ∈ ray.checks, ∀ line, checkLine? check = some line →
    (line.toList.head? = some '$' ↔ hasToken line = true) ∧
      Macro.names [line] = Macro.names [check.subject, check.command]
  closed : ∀ line ∈ pieces '\n' (RayFile.text ray index spellId), line.toList.head? ≠ some '#' →
    ∀ macroName ∈ Macro.names [line], macroName ∈ argumentNames (stepLine ray index spellId)

theorem closed_macros (ray : Ray) (index : Nat) (name : String) : Closed ray index (slug name) where
  lines := pieces_text
  marked := by rw [argumentNames_stepLine, ← takesMacros_iff, marked_stepLine]
  taken := by rw [argumentNames_stepLine, ← takesMacros_iff, Ray.takesMacros, List.any_eq_true]
  called := by rw [called_iff, Ray.takesMacros, List.any_eq_true]
  once := by
    rw [argumentNames_stepLine]
    exact nodup_names
  scanned := argumentNames_stepLine
  particles := by
    intro particle _ line emitted
    obtain ⟨body, rfl, joins⟩ := particleLine_joins emitted
    exact ⟨joins.marked, joins.names⟩
  checks := by
    intro check _ line emitted
    obtain ⟨body, rfl, joins⟩ := checkLine_joins emitted
    exact ⟨joins.marked, joins.names⟩
  closed := by
    intro line member noComment macroName inside
    rw [pieces_text] at member
    rw [argumentNames_stepLine]
    exact (fileLine_sound member).2 noComment inside

end SpellPack.Proofs.RayMacros
