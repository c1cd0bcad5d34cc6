import ComponentGraph.Markup.Token
/-!
# The template block of a component

A component's source is a sequence of blocks. The first one named `template`, in any
mixture of cases, holds the template; the others are passed over whole. Inside the
template block the tags named `template` are counted, so that the block ends with the
closing tag that matches.
-/

namespace ComponentGraph.Markup

def isTemplateName (name : String) : Bool := Text.SameLetters name "template"

/-- A template tag that has to be closed. -/
def OpenTag.opensTemplate (tag : OpenTag) : Bool := isTemplateName tag.name && !tag.selfClosing

/-- The place of the closing tag that matches, when `depth` further template tags are open. -/
def matchingClose? (depth : Nat) : List Token → Option (List Char)
  | [] => none
  | .opening tag _ :: rest =>
    if tag.opensTemplate then matchingClose? (depth + 1) rest else matchingClose? depth rest
  | .closing name place :: rest =>
    if isTemplateName name then
      match depth with
      | 0 => some place
      | depth + 1 => matchingClose? depth rest
    else matchingClose? depth rest

/-- The content of a template block whose opening tag began at `place`; `content` is the text
behind that tag. -/
def templateContent (place content : List Char) : Except Problem (List Char) :=
  let s := scan .block content
  match matchingClose? 0 s.tokens, s.problem with
  | some close, _ => .ok (content.take (content.length - close.length))
  | none, some problem => .error problem
  | none, none => .error ⟨.unclosedBlock "template", place⟩

/-- The text behind a block that holds no template. -/
def afterBlock (tag : OpenTag) (place rest : List Char) : Except Problem (List Char) :=
  match findClosing? tag.name rest with
  | none => .error ⟨.unclosedBlock tag.name, place⟩
  | some close =>
    match readCloseTag close with
    | .error fault => .error ⟨fault, close⟩
    | .ok (_, rest) => .ok rest

theorem length_afterBlock {tag : OpenTag} {place rest after : List Char}
    (h : afterBlock tag place rest = .ok after) : after.length ≤ rest.length := by
  simp only [afterBlock] at h
  split at h
  · cases h
  · rename_i close hclose
    split at h
    · cases h
    · rename_i hread
      have hle := length_findClosing? hclose
      have hlt := length_readCloseTag hread
      simp only [Except.ok.injEq] at h
      subst h
      omega

/-- The content of the first template block, if there is one. -/
def findTemplate : List Char → Except Problem (Option (List Char))
  | [] => .ok none
  | c :: cs =>
    match beginning (c :: cs) with
    | .comment =>
      match _h : afterComment? (c :: cs) with
      | none => .error ⟨.unterminatedComment, c :: cs⟩
      | some rest => findTemplate rest
    | .closing =>
      match _h : readCloseTag (c :: cs) with
      | .error fault => .error ⟨fault, c :: cs⟩
      | .ok (_, rest) => findTemplate rest
    | .opening =>
      match _h : readOpenTag (c :: cs) with
      | .error fault => .error ⟨fault, c :: cs⟩
      | .ok (tag, rest) =>
        if isTemplateName tag.name then
          if tag.selfClosing then .ok (some []) else (templateContent (c :: cs) rest).map some
        else if tag.selfClosing then findTemplate rest
        else
          match _h' : afterBlock tag (c :: cs) rest with
          | .error problem => .error problem
          | .ok after => findTemplate after
    | .interpolation | .other => findTemplate cs
termination_by cs => cs.length
decreasing_by
  · exact Nat.lt_succ_of_le (length_afterComment? _h)
  · exact length_readCloseTag _h
  · exact length_readOpenTag _h
  · exact Nat.lt_of_le_of_lt (length_afterBlock _h') (length_readOpenTag _h)
  · exact Nat.lt_succ_self _

/-- The template of a component, if it has one. -/
def template? (source : String) : Except ParseError (Option String) :=
  match findTemplate source.toList with
  | .error problem => .error (problem.toError source.toList)
  | .ok content => .ok (content.map String.ofList)

end ComponentGraph.Markup
