import ComponentGraph.Text.Split
/-!
# Output formats
-/

namespace ComponentGraph

inductive Format where
  /-- Data for the preview in the browser. -/
  | graph
  /-- An outline on the terminal. -/
  | stdout
  /-- A table of degrees. -/
  | report
  | json
  | dot
deriving DecidableEq, Repr

namespace Format

def all : List Format := [.graph, .stdout, .report, .json, .dot]

def name : Format → String
  | .graph => "graph"
  | .stdout => "stdout"
  | .report => "report"
  | .json => "json"
  | .dot => "dot"

theorem mem_all (f : Format) : f ∈ all := by cases f <;> decide

/-- The format of that name, in that very spelling. -/
def ofName? (name : String) : Option Format := all.find? (·.name = name)

/-- The format of that name in any mixture of cases. -/
def ofNameIgnoringCase? (name : String) : Option Format := ofName? (Text.foldCase name)

theorem ofName?_name (f : Format) : ofName? f.name = some f := by cases f <;> decide

/-- The file that a format is written to when no other is given. The other formats go to the
terminal. -/
def defaultOutput? : Format → Option String
  | .json => some "vurif.json"
  | .dot => some "vurif.dot"
  | .graph | .stdout | .report => none

end Format

end ComponentGraph
