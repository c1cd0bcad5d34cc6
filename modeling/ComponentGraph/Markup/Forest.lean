import ComponentGraph.Markup.Token
/-!
# The forest of a template

The elements of a template are built from its tag tokens with a stack of open elements.
A closing tag must name the innermost open element, in any mixture of cases; a closing tag
of a void element that is not open means nothing.
-/

namespace ComponentGraph.Markup

/-- The tag stands for a whole element. -/
def OpenTag.isLeaf (tag : OpenTag) : Bool := tag.selfClosing || tag.isVoid || tag.isRawText

/-- The element of a tag. -/
def OpenTag.element (tag : OpenTag) (children : List Element) : Element :=
  ⟨tag.name, tag.attributes, children, []⟩

/-- An open element: its tag, where it began, and its elder siblings, of which the latest comes
first. -/
structure Frame where
  tag : OpenTag
  place : List Char
  elder : List Element

def Frame.isNamed (f : Frame) (name : String) : Bool := Text.SameLetters f.tag.name name

/-- Take in the tokens one by one. `siblings` are the finished children of the innermost open
element, or the finished roots if none is open; the latest comes first. -/
def grow : List Token → List Frame → List Element → Except Problem (List Frame × List Element)
  | [], frames, siblings => .ok (frames, siblings)
  | .opening tag place :: rest, frames, siblings =>
    if tag.isLeaf then grow rest frames ((tag.element []).attach siblings)
    else grow rest (⟨tag, place, siblings⟩ :: frames) []
  | .closing name place :: rest, [], siblings =>
    if Tag.isVoid name then grow rest [] siblings else .error ⟨.strayEnd name, place⟩
  | .closing name place :: rest, top :: frames, siblings =>
    if top.isNamed name then grow rest frames ((top.tag.element siblings.reverse).attach top.elder)
    else if Tag.isVoid name then grow rest (top :: frames) siblings
    else if frames.any (·.isNamed name) then .error ⟨.missingEnd top.tag.name, top.place⟩
    else .error ⟨.strayEnd name, place⟩

/-- The elements of a text, unless a tag cannot be read or an element is not closed. -/
def forest (text : List Char) : Except Problem (List Element) :=
  let s := scan .template text
  match grow s.tokens [] [] with
  | .error problem => .error problem
  | .ok (frames, siblings) =>
    match s.problem, frames with
    | some problem, _ => .error problem
    | none, top :: _ => .error ⟨.missingEnd top.tag.name, top.place⟩
    | none, [] => .ok siblings.reverse

/-- The top-level elements of a template. -/
def compile (template : String) : Except ParseError (List Element) :=
  match forest template.toList with
  | .error problem => .error (problem.toError template.toList)
  | .ok elements => .ok elements

end ComponentGraph.Markup
