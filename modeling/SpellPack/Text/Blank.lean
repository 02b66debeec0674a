/-! Blank and control characters. Fields are trimmed of white space only, so a
control character inside a field survives trimming unless it is white space too. -/

namespace SpellPack.Text

/-- The Unicode property White_Space. Zero-width characters do not have it. -/
def isBlank (c : Char) : Bool :=
  let n := c.toNat
  (0x9 ≤ n && n ≤ 0xD) || n == 0x20 || n == 0x85 || n == 0xA0 || n == 0x1680 ||
    (0x2000 ≤ n && n ≤ 0x200A) || n == 0x2028 || n == 0x2029 || n == 0x202F ||
    n == 0x205F || n == 0x3000

/-- The Unicode category Cc. -/
def isControl (c : Char) : Bool :=
  let n := c.toNat
  n ≤ 0x1F || (0x7F ≤ n && n ≤ 0x9F)

/-- Drops the longest end of the list that satisfies `drop`. -/
def dropEndWhile (drop : α → Bool) (items : List α) : List α :=
  (items.reverse.dropWhile drop).reverse

def trimmed (text : List Char) : List Char :=
  dropEndWhile isBlank (text.dropWhile isBlank)

def trim (text : String) : String :=
  String.ofList (trimmed text.toList)

/-- Trimming leaves nothing of a blank text. -/
def isBlankText (text : String) : Bool :=
  text.toList.all isBlank

private theorem dropWhile_eq_nil_iff_all (drop : α → Bool) (items : List α) :
    items.dropWhile drop = [] ↔ items.all drop = true := by
  induction items with
  | nil => simp
  | cons first rest ih => by_cases dropped : drop first = true <;> simp_all

theorem dropEndWhile_eq_nil_iff (drop : α → Bool) (items : List α) :
    dropEndWhile drop items = [] ↔ items.all drop = true := by
  rw [dropEndWhile, List.reverse_eq_nil_iff, dropWhile_eq_nil_iff_all, List.all_reverse]

theorem trimmed_eq_nil_iff (text : List Char) : trimmed text = [] ↔ text.all isBlank = true := by
  induction text with
  | nil => simp [trimmed, dropEndWhile]
  | cons first rest ih =>
    by_cases blank : isBlank first = true
    · simpa [trimmed, blank] using ih
    · simp [trimmed, blank, dropEndWhile_eq_nil_iff]

@[simp] theorem toList_trim (text : String) : (trim text).toList = trimmed text.toList := by
  simp [trim]

theorem trim_eq_empty_iff (text : String) : trim text = "" ↔ isBlankText text = true := by
  rw [← String.toList_inj, toList_trim]
  exact trimmed_eq_nil_iff text.toList

end SpellPack.Text
