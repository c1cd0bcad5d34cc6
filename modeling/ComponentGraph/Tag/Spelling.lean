import ComponentGraph.Text.Split
/-!
# Spellings of a tag

A component may be mentioned in upper camel case (`AddCard`), in kebab case (`add-card`), or
as its file happens to be spelled. Only the letters `A` to `Z` have a case here.
-/

namespace ComponentGraph.Tag

/-- The first letter in upper case. -/
def capitalize : List Char → List Char
  | [] => []
  | c :: cs => c.toUpper :: cs

/-- The segments between hyphens, each capitalized, without the hyphens. -/
def upperCamel (s : String) : String :=
  String.ofList ((Text.splitOn '-' s.toList).flatMap capitalize)

/-- Letters, digits and the underscore: a capital after one of them starts a new word. -/
def isWordChar (c : Char) : Bool := c.isAlphanum || c = '_'

/-- Lower case, with a hyphen before each capital that follows a word character. The first
argument is the character before the text. -/
def kebabAfter : Option Char → List Char → List Char
  | _, [] => []
  | before, c :: cs =>
    if c.isUpper then
      if before.any isWordChar then '-' :: c.toLower :: kebabAfter (some c) cs
      else c.toLower :: kebabAfter (some c) cs
    else c :: kebabAfter (some c) cs

def kebab (s : String) : String := String.ofList (kebabAfter none s.toList)

/-- The spellings under which a tag is looked for, in order. -/
def spellings (tag : String) : List String := [upperCamel tag, kebab tag, tag]

end ComponentGraph.Tag
