import ComponentGraph.Graph.Element
import ComponentGraph.Keyed
import ComponentGraph.Text.Padding
/-!
# Degrees and the report

How many edges end and begin at each label, and the table that shows it, the labels with the
most incoming edges first. A cell is filled up by characters, while headers and their row are
measured in bytes.
-/

namespace ComponentGraph

structure Degrees where
  name : String
  indegree : Nat
  outdegree : Nat
deriving DecidableEq, Repr

namespace Degrees

/-- Count one edge at both its ends, which may be the same label. -/
def countEdge (counts : List (String × Nat × Nat)) (ends : String × String) :
    List (String × Nat × Nat) :=
  let counts := Keyed.alter ends.2
    (fun d => let d := d.getD (0, 0); (d.1 + 1, d.2)) counts
  Keyed.alter ends.1 (fun d => let d := d.getD (0, 0); (d.1, d.2 + 1)) counts

/-- The degrees of all labels at which an edge begins or ends, sorted by label. -/
def ofElements (elements : List GraphElement) : List Degrees :=
  ((elements.filterMap GraphElement.ends?).foldl countEdge []).map fun (name, degrees) =>
    ⟨name, degrees.1, degrees.2⟩

end Degrees

/-- The layout of a table of degrees. -/
structure DegreeTable where
  rows : List Degrees
  nameWidth : Nat

namespace DegreeTable

def margin : String := "  "

def numberHeader : String := " # "

def nameHeader : String := " name "

def indegreeHeader : String := " indegree "

def outdegreeHeader : String := " outdegree "

/-- Rows by falling indegree; rows of equal indegree stay in their order. The column of names
leaves two places beside the longest. -/
def ofDegrees (degrees : List Degrees) : DegreeTable where
  rows := degrees.mergeSort fun a b => b.indegree ≤ a.indegree
  nameWidth := max ((degrees.map (·.name.length)).foldr max 0 + 2) nameHeader.utf8ByteSize

/-- A row of cells between bars. -/
def row (t : DegreeTable) (number name indegree outdegree : String) : String :=
  "|".intercalate
    ["", Text.pad .left numberHeader.utf8ByteSize number, Text.pad .left t.nameWidth name,
     Text.pad .right indegreeHeader.utf8ByteSize indegree,
     Text.pad .right outdegreeHeader.utf8ByteSize outdegree, ""]

def header (t : DegreeTable) : String :=
  t.row numberHeader nameHeader indegreeHeader outdegreeHeader

/-- A line of dashes below and above the header, as many as the header has bytes. -/
def border (t : DegreeTable) : String := Text.repeated '-' t.header.utf8ByteSize

/-- The width of the table with its margin. -/
def width (t : DegreeTable) : Nat := margin.utf8ByteSize + t.border.utf8ByteSize

/-- The rows of the labels, numbered from one. -/
def body (t : DegreeTable) : List String :=
  t.rows.zipIdx.map fun (d, i) =>
    t.row (Nat.repr (i + 1)) d.name (Nat.repr d.indegree) (Nat.repr d.outdegree)

/-- The whole table, between two empty lines. -/
def text (t : DegreeTable) : String :=
  "\n".intercalate <|
    (["", t.border, t.header, t.border] ++ t.body ++ [t.border, ""]).map (margin ++ ·)

end DegreeTable

/-- How many nodes and edges there are. -/
def summary (elements : List GraphElement) : String :=
  let edges := (elements.filter GraphElement.isEdge).length
  "\n".intercalate
    [DegreeTable.margin ++ "🔸 Total nodes: " ++ Nat.repr (elements.length - edges),
     DegreeTable.margin ++ "➣  Total edges: " ++ Nat.repr edges]

def report (elements : List GraphElement) : String :=
  let table := DegreeTable.ofDegrees (Degrees.ofElements elements)
  "\n".intercalate
    ["Node degrees:", table.text, Text.repeated '-' table.width, "Summary: ", "",
     summary elements, ""]

end ComponentGraph
