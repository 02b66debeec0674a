import SpellPack.Macro.Token
import SpellPack.Proofs.TextEnds
import SpellPack.Text.Lines

/-! What changes of a text leave its macro tokens alone. A token is a run of a few
characters after a dollar sign, so whatever consists of others neither makes nor breaks one. -/

namespace SpellPack.Proofs.MacroTokens
open Macro Text TextEnds

def IsName (name : List Char) : Prop := name ≠ [] ∧ ∀ c ∈ name, isNameChar c = true

def tokenText (name : List Char) : List Char := '$' :: '(' :: name ++ [')']

def insideToken (c : Char) : Bool := isNameChar c || c == '(' || c == ')'

theorem takeWhile_name {name rest : List Char} (valid : ∀ c ∈ name, isNameChar c = true) :
    (name ++ ')' :: rest).takeWhile isNameChar = name ∧ (name ++ ')' :: rest).dropWhile isNameChar = ')' :: rest := by
  have stop : isNameChar ')' = false := by decide
  constructor
  · rw [List.takeWhile_append_of_pos valid, List.takeWhile_cons_of_neg (by simp [stop]), List.append_nil]
  · rw [List.dropWhile_append_of_pos valid, List.dropWhile_cons_of_neg (by simp [stop])]

theorem tokenName?_eq_some {text name : List Char} :
    tokenName? text = some name ↔ IsName name ∧ tokenText name <+: text := by
  constructor
  · intro found
    unfold tokenName? at found
    split at found
    · next rest =>
      dsimp only at found
      split at found
      · next closed =>
        cases found
        simp only [Bool.and_eq_true, Bool.not_eq_true', List.isEmpty_eq_false_iff, beq_iff_eq] at closed
        obtain ⟨nonempty, head⟩ := closed
        obtain ⟨later, behind⟩ := List.head?_eq_some_iff.mp head
        refine ⟨⟨nonempty, List.all_eq_true.mp List.all_takeWhile⟩, later, ?_⟩
        simp [tokenText, ← behind]
      · cases found
    · cases found
  · rintro ⟨⟨nonempty, valid⟩, rest, rfl⟩
    obtain ⟨taken, dropped⟩ := @takeWhile_name name rest valid
    have text : tokenText name ++ rest = '$' :: '(' :: (name ++ ')' :: rest) := by simp [tokenText]
    rw [text, tokenName?, taken, dropped]
    simp [nonempty]

theorem tokenName?_of_ne {c : Char} (plain : c ≠ '$') (rest : List Char) : tokenName? (c :: rest) = none := by
  unfold tokenName?
  split
  · next same => exact absurd (List.cons.inj same).1 plain
  · rfl

theorem insideToken_of_mem {name : List Char} (valid : IsName name) :
    ∀ c ∈ '(' :: name ++ [')'], insideToken c = true := by
  intro c member
  simp only [List.cons_append, List.mem_cons, List.mem_append, List.not_mem_nil, or_false] at member
  rcases member with rfl | inside | rfl
  · decide
  · simp [insideToken, valid.2 c inside]
  · decide

/-- A token does not reach a character that none holds. -/
theorem tokenText_prefix_append {name a b : List Char} (valid : IsName name) (nonempty : a ≠ [])
    (ends : ∀ c, b.head? = some c → insideToken c = false) : tokenText name <+: a ++ b ↔ tokenText name <+: a := by
  constructor
  · intro token
    rcases List.prefix_or_prefix_of_prefix token (List.prefix_append a b) with inside | ⟨tail, split⟩
    · exact inside
    cases tail with
    | nil =>
      rw [List.append_nil] at split
      subst split
      exact List.prefix_rfl
    | cons c later =>
      exfalso
      rw [← split, List.prefix_append_right_inj] at token
      obtain ⟨rest, rfl⟩ := token
      obtain ⟨first, front, rfl⟩ := List.exists_cons_of_ne_nil nonempty
      have behind : front ++ c :: later = '(' :: name ++ [')'] := (List.cons.inj split).2
      have inside := insideToken_of_mem valid c (by rw [← behind]; simp)
      rw [ends c rfl] at inside
      cases inside
  · intro token
    exact token.trans (List.prefix_append a b)

theorem tokenName?_append {a b : List Char} (nonempty : a ≠ [])
    (ends : ∀ c, b.head? = some c → insideToken c = false) : tokenName? (a ++ b) = tokenName? a := by
  apply Option.ext
  intro name
  rw [tokenName?_eq_some, tokenName?_eq_some]
  constructor
  · rintro ⟨valid, token⟩
    exact ⟨valid, (tokenText_prefix_append valid nonempty ends).mp token⟩
  · rintro ⟨valid, token⟩
    exact ⟨valid, (tokenText_prefix_append valid nonempty ends).mpr token⟩

theorem tokenNames_append {a b : List Char} (ends : ∀ c, b.head? = some c → insideToken c = false) :
    tokenNames (a ++ b) = tokenNames a ++ tokenNames b := by
  induction a with
  | nil => rfl
  | cons c rest ih =>
    have first := tokenName?_append (List.cons_ne_nil c rest) ends
    rw [List.cons_append] at first
    rw [List.cons_append, tokenNames, first, ih, tokenNames, List.append_assoc]

theorem tokenNames_plain_append {a : List Char} (plain : '$' ∉ a) (b : List Char) :
    tokenNames (a ++ b) = tokenNames b := by
  induction a with
  | nil => rfl
  | cons c rest ih =>
    rw [List.mem_cons, not_or] at plain
    rw [List.cons_append, tokenNames, tokenName?_of_ne (Ne.symm plain.1), ih plain.2]
    rfl

theorem tokenNames_plain {text : List Char} (plain : '$' ∉ text) : tokenNames text = [] := by
  have alone := tokenNames_plain_append plain []
  rwa [List.append_nil] at alone

theorem tokenNames_token {name : List Char} (valid : IsName name) (rest : List Char) :
    tokenNames (tokenText name ++ rest) = name :: tokenNames rest := by
  have first : tokenName? (tokenText name ++ rest) = some name :=
    tokenName?_eq_some.mpr ⟨valid, List.prefix_append _ _⟩
  have plain : '$' ∉ '(' :: name ++ [')'] := by
    intro member
    exact absurd (insideToken_of_mem valid '$' member) (by decide)
  rw [tokenText, List.cons_append, List.cons_append] at first ⊢
  rw [tokenNames, first]
  exact congrArg (name :: ·) (tokenNames_plain_append plain rest)

theorem isName_of_mem {text name : List Char} (member : name ∈ tokenNames text) : IsName name := by
  induction text with
  | nil => cases member
  | cons c rest ih =>
    rw [tokenNames, List.mem_append, Option.mem_toList] at member
    rcases member with first | later
    · exact (tokenName?_eq_some.mp first).1
    · exact ih later

def Plain (c : Char) : Prop := c ≠ '$' ∧ insideToken c = false

theorem not_plain_of_mem {name : List Char} (valid : IsName name) {c : Char} (member : c ∈ tokenText name) :
    ¬ Plain c := by
  intro plain
  rw [tokenText, List.cons_append, List.cons_append, List.mem_cons] at member
  rcases member with dollar | inside
  · exact plain.1 dollar
  · exact absurd (insideToken_of_mem valid c inside) (by simp [plain.2])

/-- Only characters that no token holds are changed, and into such characters. -/
def SparesTokens (change : Char → Char) : Prop := ∀ c, change c = c ∨ (Plain c ∧ Plain (change c))

theorem map_spared {change : Char → Char} (spares : SparesTokens change) {name text : List Char} (valid : IsName name)
    (token : text.map change = tokenText name ∨ text = tokenText name) : text.map change = text := by
  have same : ∀ c ∈ text, change c = c := by
    intro c member
    rcases spares c with same | ⟨plain, plain'⟩
    · exact same
    rcases token with mapped | rfl
    · exact absurd plain' (not_plain_of_mem valid (mapped ▸ List.mem_map_of_mem member))
    · exact absurd plain (not_plain_of_mem valid member)
  rw [List.map_congr_left same, List.map_id']

theorem tokenText_prefix_map {change : Char → Char} (spares : SparesTokens change) {name text : List Char}
    (valid : IsName name) : tokenText name <+: text.map change ↔ tokenText name <+: text := by
  rw [List.prefix_iff_eq_take, List.prefix_iff_eq_take, ← List.map_take]
  constructor
  · intro same
    rwa [map_spared spares valid (.inl same.symm)] at same
  · intro same
    rwa [map_spared spares valid (.inr same.symm)]

theorem tokenNames_map {change : Char → Char} (spares : SparesTokens change) (text : List Char) :
    tokenNames (text.map change) = tokenNames text := by
  induction text with
  | nil => rfl
  | cons c rest ih =>
    have first : tokenName? ((c :: rest).map change) = tokenName? (c :: rest) := by
      apply Option.ext
      intro name
      rw [tokenName?_eq_some, tokenName?_eq_some]
      constructor
      · rintro ⟨valid, token⟩
        exact ⟨valid, (tokenText_prefix_map spares valid).mp token⟩
      · rintro ⟨valid, token⟩
        exact ⟨valid, (tokenText_prefix_map spares valid).mpr token⟩
    rw [List.map_cons] at first
    rw [List.map_cons, tokenNames, first, ih, tokenNames]

theorem insideToken_range {c : Char} (inside : insideToken c = true) : 0x28 ≤ c.toNat ∧ c.toNat ≤ 0x7A := by
  simp only [insideToken, isNameChar, Bool.or_eq_true, Bool.and_eq_true, decide_eq_true_eq, beq_iff_eq, Char.le_def,
    UInt32.le_iff_toNat_le] at inside
  have letters : 'A'.val.toNat = 0x41 ∧ 'Z'.val.toNat = 0x5A ∧ 'a'.val.toNat = 0x61 ∧ 'z'.val.toNat = 0x7A ∧
    '0'.val.toNat = 0x30 ∧ '9'.val.toNat = 0x39 := by decide
  rw [Char.toNat]
  rcases inside with ((range | rfl) | rfl) | rfl
  · omega
  all_goals decide

theorem plain_of_range {c : Char} (outside : c.toNat ≤ 0x20 ∨ 0x7F ≤ c.toNat) : Plain c := by
  constructor
  · rintro rfl
    revert outside
    decide
  · cases inside : insideToken c with
    | false => rfl
    | true =>
      have range := insideToken_range inside
      omega

theorem plain_of_blank {c : Char} (blank : isBlank c = true) : Plain c := by
  apply plain_of_range
  simp only [isBlank, Bool.or_eq_true, Bool.and_eq_true, decide_eq_true_eq, beq_iff_eq] at blank
  omega

theorem plain_of_control {c : Char} (control : isControl c = true) : Plain c := by
  apply plain_of_range
  simp only [isControl, Bool.or_eq_true, Bool.and_eq_true, decide_eq_true_eq] at control
  omega

theorem tokenNames_blank_append {blanks : List Char} (blank : ∀ c ∈ blanks, isBlank c = true) (text : List Char) :
    tokenNames (blanks ++ text) = tokenNames text := by
  apply tokenNames_plain_append
  intro dollar
  exact (plain_of_blank (blank '$' dollar)).1 rfl

theorem tokenNames_append_blank {blanks : List Char} (blank : ∀ c ∈ blanks, isBlank c = true) (text : List Char) :
    tokenNames (text ++ blanks) = tokenNames text := by
  have alone := tokenNames_blank_append blank []
  rw [List.append_nil] at alone
  rw [tokenNames_append, alone, tokenNames, List.append_nil]
  intro c head
  exact (plain_of_blank (blank c (List.mem_of_head? head))).2

theorem tokenNames_trimmed (text : List Char) : tokenNames (trimmed text) = tokenNames text := by
  obtain ⟨behind, split, blank⟩ := @dropEndWhile_split _ isBlank (text.dropWhile isBlank)
  calc tokenNames (trimmed text) = tokenNames (trimmed text ++ behind) := (tokenNames_append_blank blank _).symm
    _ = tokenNames (text.dropWhile isBlank) := by rw [trimmed, ← split]
    _ = tokenNames (text.takeWhile isBlank ++ text.dropWhile isBlank) :=
      (tokenNames_blank_append (List.all_eq_true.mp List.all_takeWhile) _).symm
    _ = tokenNames text := by rw [List.takeWhile_append_dropWhile]

/-- Putting a field on one line leaves its tokens alone. -/
theorem tokenNames_singleLine (text : String) : tokenNames (singleLine text).toList = tokenNames text.toList := by
  have spares : SparesTokens fun c => if isControl c then ' ' else c := by
    intro c
    dsimp only
    split
    · next control => exact .inr ⟨plain_of_control control, plain_of_range (.inl (by decide))⟩
    · exact .inl rfl
  rw [singleLine, String.toList_ofList, tokenNames_trimmed, tokenNames_map spares]

section Lines

variable {line : String} {c : Char} {rest : List Char}

theorem hasToken_iff : hasToken line = true ↔ tokenNames line.toList ≠ [] := by
  simp [hasToken]

theorem tokenNames_dollar (noParen : c ≠ '(') : tokenNames ('$' :: c :: rest) = tokenNames (c :: rest) := by
  have none : tokenName? ('$' :: c :: rest) = none := by
    unfold tokenName?
    split
    · next same => exact absurd (List.cons.inj (List.cons.inj same).2).1 noParen
    · rfl
  rw [tokenNames, none]
  rfl

/-- The mark is no part of a token, unless the line begins with a parenthesis. -/
theorem tokenNames_markLine (text : line.toList = c :: rest) (noParen : c ≠ '(') :
    tokenNames (markLine line).toList = tokenNames line.toList := by
  rw [markLine]
  split
  · rw [String.toList_append, text]
    exact tokenNames_dollar noParen
  · rfl

/-- The mark adds nothing but itself. -/
theorem mem_markLine {d : Char} (other : d ≠ '$') : d ∈ (markLine line).toList ↔ d ∈ line.toList := by
  rw [markLine]
  split
  · rw [String.toList_append, List.mem_append, or_iff_right]
    simpa using other
  · rfl

theorem markLine_ne_empty (visible : line ≠ "") : markLine line ≠ "" := by
  rw [markLine]
  split
  · simp
  · exact visible

theorem marked_iff (text : line.toList = c :: rest) (noDollar : c ≠ '$') :
    (markLine line).toList.head? = some '$' ↔ hasToken line = true := by
  have first : (line.toList.head? != some '$') = true := by simp [text, noDollar]
  rw [markLine, first, Bool.and_true]
  split
  · next token => simp [token]
  · next token => simp [token, text, noDollar]

end Lines

section Names

variable {fields : List String}

theorem mem_firstSeen [DecidableEq α] {items : List α} {item : α} : item ∈ firstSeen items ↔ item ∈ items := by
  induction items with
  | nil => rfl
  | cons first later ih =>
    rw [firstSeen, List.mem_cons, List.mem_filter, ih, List.mem_cons]
    by_cases same : item = first <;> simp [same]

theorem nodup_firstSeen [DecidableEq α] (items : List α) : (firstSeen items).Nodup := by
  induction items with
  | nil => exact List.nodup_nil
  | cons first later ih =>
    rw [firstSeen, List.nodup_cons]
    refine ⟨?_, ih.filter _⟩
    intro member
    simpa using (List.mem_filter.mp member).2

theorem names_eq : names fields = firstSeen ((fields.flatMap fun field => tokenNames field.toList).map String.ofList) := by
  rw [names, List.map_flatMap]

theorem nodup_names : (names fields).Nodup := nodup_firstSeen _

theorem mem_names {name : String} :
    name ∈ names fields ↔ ∃ field ∈ fields, name.toList ∈ tokenNames field.toList := by
  rw [names, mem_firstSeen, List.mem_flatMap]
  constructor
  · rintro ⟨field, member, inside⟩
    obtain ⟨chars, token, rfl⟩ := List.mem_map.mp inside
    exact ⟨field, member, by rwa [String.toList_ofList]⟩
  · rintro ⟨field, member, token⟩
    exact ⟨field, member, List.mem_map.mpr ⟨_, token, String.ofList_toList⟩⟩

theorem isName_of_mem_names {name : String} (member : name ∈ names fields) : IsName name.toList := by
  obtain ⟨field, _, token⟩ := mem_names.mp member
  exact isName_of_mem token

theorem names_ne_nil_iff : names fields ≠ [] ↔ fields.any hasToken = true := by
  rw [List.any_eq_true]
  constructor
  · intro some
    obtain ⟨name, member⟩ := List.exists_mem_of_ne_nil _ some
    obtain ⟨field, inside, token⟩ := mem_names.mp member
    exact ⟨field, inside, hasToken_iff.mpr (List.ne_nil_of_mem token)⟩
  · rintro ⟨field, inside, token⟩
    obtain ⟨chars, member⟩ := List.exists_mem_of_ne_nil _ (hasToken_iff.mp token)
    apply List.ne_nil_of_mem (a := String.ofList chars)
    exact mem_names.mpr ⟨field, inside, by rwa [String.toList_ofList]⟩

theorem names_eq_nil_iff : names fields = [] ↔ ∀ field ∈ fields, hasToken field = false := by
  rw [← Classical.not_not (a := names fields = []), ← ne_eq, names_ne_nil_iff]
  simp

end Names

end SpellPack.Proofs.MacroTokens
