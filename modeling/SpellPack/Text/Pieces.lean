/-! Text between separators. -/

namespace SpellPack.Text

/-- The pieces between the separators, empty ones included. There is always one more
piece than there are separators. -/
def splitAt (separator : Char) : List Char → List (List Char)
  | [] => [[]]
  | c :: rest =>
    if c = separator then [] :: splitAt separator rest
    else
      match splitAt separator rest with
      | [] => [[c]]
      | piece :: later => (c :: piece) :: later

def pieces (separator : Char) (text : String) : List String :=
  (splitAt separator text.toList).map String.ofList

theorem length_splitAt (separator : Char) (text : List Char) :
    (splitAt separator text).length = text.count separator + 1 := by
  induction text with
  | nil => rfl
  | cons c rest ih =>
    rw [splitAt]
    split
    · next same => simp [ih, same]
    · next other =>
      cases pieces : splitAt separator rest with
      | nil => simp [pieces] at ih
      | cons piece later => simpa [pieces, other] using ih

theorem intercalate_cons (separator first : List α) (later : List (List α)) :
    separator.intercalate (first :: later) = first ++ later.flatMap (separator ++ ·) := by
  induction later generalizing first with
  | nil => simp
  | cons next later ih => rw [List.intercalate_cons_cons, ih, List.flatMap_cons, List.append_assoc, List.append_assoc]

end SpellPack.Text
