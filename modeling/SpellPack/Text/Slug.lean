import SpellPack.Text.Blank
import SpellPack.Text.Lowercase

/-! Identifier-safe forms of display names. They name files and functions of the
pack, so they keep to characters that both allow. -/

namespace SpellPack.Text

/-- A character that an identifier keeps. -/
def isSlugChar (c : Char) : Bool :=
  ('a' ≤ c && c ≤ 'z') || ('0' ≤ c && c ≤ '9') || c == '-'

/-- Writes one underscore for each maximal run of characters that are not kept. -/
def underscored : List Char → List Char
  | [] => []
  | c :: rest =>
    if isSlugChar c then c :: underscored rest
    else
      match underscored rest with
      | '_' :: later => '_' :: later
      | later => '_' :: later

def slugChars (text : List Char) : List Char :=
  dropEndWhile (· == '_') ((underscored (text.flatMap lowercase)).dropWhile (· == '_'))

/-- Stands for a name of which nothing can be kept. -/
def defaultSlug : String := "spell"

/-- Small letters, digits and hyphens in blocks joined by single underscores. -/
def slug (name : String) : String :=
  match slugChars name.toList with
  | [] => defaultSlug
  | kept => String.ofList kept

end SpellPack.Text
