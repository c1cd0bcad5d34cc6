/-!
# Faults of markup

What can be wrong with a component's markup, and where. A place in a text is the text that
remains there, so that it does not depend on what stands before; `Problem.line` turns it into
a line of the whole text.
-/

namespace ComponentGraph.Markup

inductive Fault where
  | unterminatedComment
  | unterminatedTag (tag : String)
  | unterminatedValue (tag : String)
  | unterminatedClosing (tag : String)
  | unclosedBlock (tag : String)
  | missingEnd (tag : String)
  | strayEnd (tag : String)
deriving DecidableEq, Repr

def Fault.message : Fault → String
  | .unterminatedComment => "unterminated comment"
  | .unterminatedTag tag => "unterminated tag <" ++ tag ++ ">"
  | .unterminatedValue tag => "unterminated attribute value in <" ++ tag ++ ">"
  | .unterminatedClosing tag => "unterminated closing tag </" ++ tag ++ ">"
  | .unclosedBlock tag => "unclosed <" ++ tag ++ "> block"
  | .missingEnd tag => "element <" ++ tag ++ "> is missing end tag"
  | .strayEnd tag => "invalid end tag </" ++ tag ++ ">"

/-- A fault and the text that remains where it begins. -/
structure Problem where
  fault : Fault
  place : List Char
deriving DecidableEq, Repr

/-- The number of the line, in the whole text, on which the place stands. -/
def Problem.line (p : Problem) (source : List Char) : Nat :=
  source.count '\n' - p.place.count '\n' + 1

/-- A fault and its line: what is told of a problem. -/
structure ParseError where
  line : Nat
  fault : Fault
deriving DecidableEq, Repr

def ParseError.message (e : ParseError) : String :=
  "template parse error at line " ++ Nat.repr e.line ++ ": " ++ e.fault.message

def Problem.toError (p : Problem) (source : List Char) : ParseError := ⟨p.line source, p.fault⟩

end ComponentGraph.Markup
