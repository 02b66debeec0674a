import Mathlib.Data.Prod.Lex
import SpellPack.Proofs.MacroTokens

/-! Which macro names are found, and in which order. They are the names of exactly those tokens
that stand in one of the fields, each in the place of its first token. A search that goes on
behind each token finds the same, since no token begins within another. -/

namespace SpellPack.Proofs.TokenSearch
open Macro MacroTokens

section Search

/-- Searches from left to right, and goes on behind what it has found. -/
def searched : List Char → List (List Char)
  | [] => []
  | c :: rest =>
    match tokenName? (c :: rest) with
    | some name => name :: searched (rest.drop (name.length + 2))
    | none => searched rest
termination_by text => text.length
decreasing_by all_goals simp only [List.length_drop, List.length_cons]; omega

/-- No token begins within another, so nothing is missed behind one. -/
theorem searched_eq (text : List Char) : searched text = tokenNames text := by
  fun_induction searched text with
  | case1 => rfl
  | case2 c rest name found ih =>
    obtain ⟨valid, behind, text⟩ := tokenName?_eq_some.mp found
    have passed : rest.drop (name.length + 2) = behind := by
      have whole : (c :: rest).drop (name.length + 3) = behind := by simp [← text, tokenText]
      simpa using whole
    rw [ih, passed, ← text, tokenNames_token valid]
  | case3 c rest none ih =>
    rw [ih, tokenNames, none, Option.toList_none, List.nil_append]

theorem mem_tokenNames {name text : List Char} :
    name ∈ tokenNames text ↔ IsName name ∧ tokenText name <:+: text := by
  induction text with
  | nil => simp [tokenNames, tokenText]
  | cons c rest ih =>
    rw [tokenNames, List.mem_append, Option.mem_toList, tokenName?_eq_some, ih, List.infix_cons_iff, and_or_left]

end Search

section Firsts

variable {Place Name : Type} [Preorder Place] {entries : List (Place × Name)} {name : Name}

def First (entries : List (Place × Name)) (name : Name) (place : Place) : Prop :=
  (place, name) ∈ entries ∧ ∀ other, (other, name) ∈ entries → place ≤ other

theorem first_cons {entry : Place × Name} {place : Place} (differs : name ≠ entry.2) (first : First entries name place) :
    First (entry :: entries) name place := by
  refine ⟨List.mem_cons_of_mem _ first.1, fun other member => ?_⟩
  cases List.mem_cons.mp member with
  | inl same => exact absurd (congrArg Prod.snd same) differs
  | inr later => exact first.2 other later

/-- In a list in order of the places, the first entry is in the first place of its name. -/
theorem first_head {entry : Place × Name} (above : ∀ other ∈ entries, entry.1 < other.1) :
    First (entry :: entries) entry.2 entry.1 := by
  refine ⟨List.mem_cons_self, fun other member => ?_⟩
  cases List.mem_cons.mp member with
  | inl here => exact (congrArg Prod.fst here).symm.le
  | inr later => exact (above _ later).le

theorem exists_first (ascend : entries.Pairwise fun a b => a.1 < b.1) (member : name ∈ entries.map Prod.snd) :
    ∃ place, First entries name place := by
  induction entries with
  | nil => cases member
  | cons entry later ih =>
    obtain ⟨above, rest⟩ := List.pairwise_cons.mp ascend
    by_cases same : name = entry.2
    · exact ⟨entry.1, same ▸ first_head above⟩
    · obtain ⟨place, first⟩ := ih rest ((List.mem_cons.mp member).resolve_left same)
      exact ⟨place, first_cons same first⟩

variable [DecidableEq Name]

/-- Names are kept in the order of their first places. -/
theorem pairwise_firstSeen (ascend : entries.Pairwise fun a b => a.1 < b.1) :
    (firstSeen (entries.map Prod.snd)).Pairwise fun a b =>
      ∃ here there, First entries a here ∧ First entries b there ∧ here < there := by
  induction entries with
  | nil => exact List.Pairwise.nil
  | cons entry later ih =>
    obtain ⟨above, rest⟩ := List.pairwise_cons.mp ascend
    have other {name : Name} (member : name ∈ (firstSeen (later.map Prod.snd)).filter (· ≠ entry.2)) :
        name ≠ entry.2 ∧ name ∈ later.map Prod.snd := by
      obtain ⟨seen, differs⟩ := List.mem_filter.mp member
      exact ⟨by simpa using differs, mem_firstSeen.mp seen⟩
    rw [List.map_cons, firstSeen, List.pairwise_cons]
    constructor
    · intro name member
      obtain ⟨differs, known⟩ := other member
      obtain ⟨place, first⟩ := exists_first rest known
      exact ⟨entry.1, place, first_head above, first_cons differs first, above _ first.1⟩
    · refine ((ih rest).filter _).imp_of_mem ?_
      rintro a b inside inside' ⟨here, there, first, first', before⟩
      exact ⟨here, there, first_cons (other inside).1 first, first_cons (other inside').1 first', before⟩

theorem firstSeen_append (items more : List Name) :
    firstSeen (items ++ more) = firstSeen items ++ (firstSeen more).filter (· ∉ items) := by
  induction items with
  | nil =>
    rw [List.nil_append, firstSeen, List.nil_append, List.filter_eq_self.mpr]
    simp
  | cons item later ih =>
    rw [List.cons_append, firstSeen, ih, List.filter_append, List.filter_filter, firstSeen, List.cons_append]
    congr 2
    apply List.filter_congr
    intro name _
    simp [List.mem_cons, not_or]

end Firsts

section Places

variable {fields : List String} {name : String}

/-- The token of a name stands in a field, so far behind its beginning. Places are compared by
the fields first. -/
def StandsAt (fields : List String) (name : String) (place : ℕ ×ₗ ℕ) : Prop :=
  ∃ field, fields[(ofLex place).1]? = some field ∧ tokenText name.toList <+: field.toList.drop (ofLex place).2

/-- The tokens of a text with their places in the field of that index. -/
def tokensFrom (index : Nat) : Nat → List Char → List ((ℕ ×ₗ ℕ) × String)
  | _, [] => []
  | position, c :: rest =>
    (tokenName? (c :: rest)).toList.map (fun name => (toLex (index, position), String.ofList name)) ++
      tokensFrom index (position + 1) rest

def tokens (fields : List String) : List ((ℕ ×ₗ ℕ) × String) :=
  fields.zipIdx.flatMap fun (field, index) => tokensFrom index 0 field.toList

theorem map_tokensFrom (index position : Nat) (text : List Char) :
    (tokensFrom index position text).map Prod.snd = (tokenNames text).map String.ofList := by
  induction text generalizing position with
  | nil => rfl
  | cons c rest ih => simp [tokensFrom, tokenNames, ih, Function.comp_def]

theorem names_eq_tokens (fields : List String) : names fields = firstSeen ((tokens fields).map Prod.snd) := by
  have split : (tokens fields).map Prod.snd =
      fields.zipIdx.flatMap fun entry => (tokenNames entry.1.toList).map String.ofList := by
    simp only [tokens, List.map_flatMap, map_tokensFrom]
  have fields' : fields = fields.zipIdx.map Prod.fst := by simp
  rw [names, split]
  conv_lhs => rw [fields', List.flatMap_map]

theorem mem_tokensFrom {index position : Nat} {text : List Char} {entry : (ℕ ×ₗ ℕ) × String} :
    entry ∈ tokensFrom index position text ↔
      ∃ offset, entry.1 = toLex (index, position + offset) ∧ tokenName? (text.drop offset) = some entry.2.toList := by
  induction text generalizing position with
  | nil => simp [tokensFrom, tokenName?]
  | cons c rest ih =>
    rw [tokensFrom, List.mem_append, ih]
    constructor
    · rintro (here | ⟨offset, place, found⟩)
      · obtain ⟨name, found, rfl⟩ := List.mem_map.mp here
        exact ⟨0, rfl, by simpa using Option.mem_toList.mp found⟩
      · exact ⟨offset + 1, by rw [place, Nat.add_assoc, Nat.add_comm 1], found⟩
    · rintro ⟨offset, place, found⟩
      cases offset with
      | zero =>
        left
        exact List.mem_map.mpr ⟨_, Option.mem_toList.mpr found, by rw [String.ofList_toList]; exact Prod.ext place.symm rfl⟩
      | succ offset => exact .inr ⟨offset, by rw [place, Nat.add_assoc, Nat.add_comm 1], found⟩

theorem mem_tokens {place : ℕ ×ₗ ℕ} : (place, name) ∈ tokens fields ↔ IsName name.toList ∧ StandsAt fields name place := by
  unfold tokens StandsAt
  rw [List.mem_flatMap]
  constructor
  · rintro ⟨⟨field, index⟩, member, inside⟩
    obtain ⟨offset, same, found⟩ := mem_tokensFrom.mp inside
    obtain ⟨valid, token⟩ := tokenName?_eq_some.mp found
    obtain rfl : place = toLex (index, 0 + offset) := same
    refine ⟨valid, field, ?_, ?_⟩
    · exact List.mem_zipIdx_iff_getElem?.mp member
    · simpa using token
  · rintro ⟨valid, field, found, token⟩
    refine ⟨(field, (ofLex place).1), List.mem_zipIdx_iff_getElem?.mpr found, ?_⟩
    exact mem_tokensFrom.mpr ⟨(ofLex place).2, by simp, tokenName?_eq_some.mpr ⟨valid, token⟩⟩

theorem pairwise_tokensFrom (index position : Nat) (text : List Char) :
    (tokensFrom index position text).Pairwise fun a b => a.1 < b.1 := by
  induction text generalizing position with
  | nil => exact List.Pairwise.nil
  | cons c rest ih =>
    rw [tokensFrom, List.pairwise_append]
    refine ⟨?_, ih (position + 1), ?_⟩
    · cases tokenName? (c :: rest) <;> simp
    · rintro a here b later
      obtain ⟨name, _, rfl⟩ := List.mem_map.mp here
      obtain ⟨offset, place, _⟩ := mem_tokensFrom.mp later
      rw [place]
      exact Prod.Lex.toLex_lt_toLex.mpr (.inr ⟨rfl, by dsimp only; omega⟩)

theorem pairwise_tokens (fields : List String) : (tokens fields).Pairwise fun a b => a.1 < b.1 := by
  unfold tokens
  rw [List.pairwise_flatMap]
  refine ⟨fun entry _ => pairwise_tokensFrom entry.2 0 entry.1.toList, ?_⟩
  have indices : fields.zipIdx.Pairwise fun a b => a.2 < b.2 := by
    have ascend : (fields.zipIdx.map Prod.snd).Pairwise (· < ·) := by simpa using List.pairwise_lt_range'
    exact List.pairwise_map.mp ascend
  refine indices.imp ?_
  intro first second before a inside b inside'
  obtain ⟨_, place, _⟩ := mem_tokensFrom.mp inside
  obtain ⟨_, place', _⟩ := mem_tokensFrom.mp inside'
  rw [place, place']
  exact Prod.Lex.toLex_lt_toLex.mpr (.inl before)

end Places

def FirstAt (fields : List String) (name : String) (place : ℕ ×ₗ ℕ) : Prop :=
  StandsAt fields name place ∧ ∀ other, StandsAt fields name other → place ≤ other

/-- The names are those of the tokens that stand in a single field, each once, in the order of
their first places. -/
structure Finds (fields found : List String) : Prop where
  exactly : ∀ name, name ∈ found ↔ IsName name.toList ∧ ∃ field ∈ fields, tokenText name.toList <:+: field.toList
  once : found.Nodup
  ordered : found.Pairwise fun a b => ∃ here there, FirstAt fields a here ∧ FirstAt fields b there ∧ here < there
  empty : found = [] ↔ ∀ field ∈ fields, hasToken field = false
  searched : found = firstSeen (fields.flatMap fun field => (searched field.toList).map String.ofList)

section Names

variable {fields : List String} {name : String}

theorem firstAt_of_first {place : ℕ ×ₗ ℕ} (first : First (tokens fields) name place) : FirstAt fields name place := by
  obtain ⟨valid, stands⟩ := mem_tokens.mp first.1
  exact ⟨stands, fun other stands' => first.2 other (mem_tokens.mpr ⟨valid, stands'⟩)⟩

theorem names_append (fields more : List String) :
    names (fields ++ more) = names fields ++ (names more).filter (· ∉ names fields) := by
  simp only [names, List.flatMap_append, firstSeen_append, mem_firstSeen]

end Names

/-- The macro names of fields are found exactly. Further fields add the names that are new. -/
theorem tokens_found (fields more : List String) :
    Finds fields (names fields) ∧ names (fields ++ more) = names fields ++ (names more).filter (· ∉ names fields) := by
  refine ⟨⟨?_, nodup_names, ?_, names_eq_nil_iff, ?_⟩, names_append fields more⟩
  · intro name
    rw [mem_names]
    simp only [mem_tokenNames]
    constructor
    · rintro ⟨field, member, valid, token⟩
      exact ⟨valid, field, member, token⟩
    · rintro ⟨valid, field, member, token⟩
      exact ⟨field, member, valid, token⟩
  · rw [names_eq_tokens]
    refine (pairwise_firstSeen (pairwise_tokens fields)).imp ?_
    rintro a b ⟨here, there, first, first', before⟩
    exact ⟨here, there, firstAt_of_first first, firstAt_of_first first', before⟩
  · simp only [searched_eq, names]

/-- Tokens begin behind others that break off, and none begins in one field and ends in the next. -/
example : names ["$($(b) $$(a)", "$(c", ")$(b)$(c)"] = ["b", "a", "c"] := by decide

end SpellPack.Proofs.TokenSearch
