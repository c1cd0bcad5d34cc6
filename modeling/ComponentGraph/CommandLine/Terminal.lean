import ComponentGraph.Notice
/-!
# Showing notices on a terminal

A notice is one line. A coloured terminal marks its level by a symbol, any other by a word. Colour
itself takes escape sequences, which are written only if they are asked for. Errors and
warnings go to the error stream, everything else to the output.
-/

namespace ComponentGraph

inductive Style where
  | red
  | green
  | yellow
  | blue
  | cyan
  | dimmed
deriving DecidableEq, Repr

def Style.code : Style → String
  | .red => "31"
  | .green => "32"
  | .yellow => "33"
  | .blue => "34"
  | .cyan => "36"
  | .dimmed => "2"

/-- The sequence that begins a style. -/
def Style.sequence (s : Style) : String := "\x1b[" ++ s.code ++ "m"

/-- The sequence that ends every style. -/
def resetSequence : String := "\x1b[0m"

/-- A text in which a style begins anew behind every end of a style. -/
def resumeStyle (s : Style) : List Char → List Char
  | '\x1b' :: '[' :: '0' :: 'm' :: rest =>
    resetSequence.toList ++ s.sequence.toList ++ resumeStyle s rest
  | c :: rest => c :: resumeStyle s rest
  | [] => []

structure Terminal where
  /-- Levels are shown by symbols, and names stand out. -/
  coloured : Bool
  /-- Styles are written as escape sequences. -/
  escapes : Bool
  /-- Debug notices are shown. -/
  verbose : Bool
deriving DecidableEq, Repr

namespace Terminal

def paint (t : Terminal) (s : Style) (text : String) : String :=
  if t.escapes then s.sequence ++ String.ofList (resumeStyle s text.toList) ++ resetSequence
  else text

/-- A name that stands out in a notice. -/
def highlight (t : Terminal) (name : String) : String :=
  if t.coloured then t.paint .blue name else name

/-- The notice on a coloured terminal. -/
def colouredLine (t : Terminal) (n : Notice) : String :=
  match n.level with
  | .error => t.paint .red "✖" ++ " " ++ t.paint .red n.text
  | .warn => t.paint .yellow "⚠" ++ " " ++ t.paint .yellow n.text
  | .info => t.paint .cyan "ℹ" ++ " " ++ n.text
  | .success => t.paint .green "✔" ++ " " ++ t.paint .green n.text
  | .debug => t.paint .dimmed n.text

/-- The line of a notice, unless it is not shown. -/
def line? (t : Terminal) (n : Notice) : Option String :=
  if n.level = .debug ∧ t.verbose = false then none
  else if t.coloured then some (t.colouredLine n)
  else some (n.level.name ++ ": " ++ n.text)

end Terminal

/-- Errors and warnings go to the error stream. -/
def Level.isComplaint : Level → Bool
  | .error | .warn => true
  | .info | .success | .debug => false

/-- What was written to the two streams. -/
structure Written where
  out : String := ""
  err : String := ""
deriving DecidableEq, Repr

namespace Written

def append (v w : Written) : Written := ⟨v.out ++ w.out, v.err ++ w.err⟩

instance : Append Written := ⟨append⟩

end Written

namespace Terminal

def writeNotice (t : Terminal) (n : Notice) : Written :=
  match t.line? n with
  | none => {}
  | some line => if n.level.isComplaint then { err := line ++ "\n" } else { out := line ++ "\n" }

def writeLog (t : Terminal) : List Notice → Written
  | [] => {}
  | n :: rest => t.writeNotice n ++ t.writeLog rest

end Terminal

end ComponentGraph
