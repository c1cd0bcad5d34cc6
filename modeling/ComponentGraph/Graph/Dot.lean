import ComponentGraph.Graph.Element
import ComponentGraph.Keyed
/-!
# Dot text

A directed graph with numbered labels, and its text in the dot language. The graph of a list of
elements is put together in two passes, which share one register of the labels and their numbers:
nodes come first, so that they have the lowest numbers. In a quoted label a backslash stands before
each quote and each backslash.
-/

namespace ComponentGraph

structure DotGraph where
  labels : List String
  edges : List (Nat × Nat)
deriving DecidableEq, Repr

namespace DotGraph

/-- A graph under construction, with a register of the numbers of its labels. A label has a number
in it if, and only if, it stands in the place of that number. -/
structure Draft where
  labels : List String
  edges : List (Nat × Nat)
  numbers : List (String × Nat)
  sorted : Keyed.Sorted numbers
  get?_numbers : ∀ label n, Keyed.get? label numbers = some n ↔ labels[n]? = some label

namespace Draft

def empty : Draft where
  labels := []
  edges := []
  numbers := []
  sorted := List.Pairwise.nil
  get?_numbers label n := by simp [Keyed.get?]

/-- Under the next number a new label is found, and all others as before. -/
theorem get?_insert_new {d : Draft} {new : String} (h : Keyed.get? new d.numbers = none)
    (label : String) (n : Nat) :
    Keyed.get? label (Keyed.insert new d.labels.length d.numbers) = some n ↔
      (d.labels ++ [new])[n]? = some label := by
  have habsent : ∀ i : Nat, d.labels[i]? ≠ some new := by
    intro i hi
    rw [(d.get?_numbers new i).mpr hi] at h
    cases h
  rw [Keyed.insert, Keyed.get?_alter d.sorted]
  rcases Nat.lt_trichotomy n d.labels.length with hlt | rfl | hgt
  · rw [List.getElem?_append_left hlt, ← d.get?_numbers]
    split
    · rename_i heq
      rw [heq, d.get?_numbers]
      simp only [habsent, iff_false, Option.some.injEq]
      omega
    · rfl
  · rw [List.getElem?_concat_length]
    split
    · rename_i heq
      simp [heq]
    · rename_i hne
      rw [d.get?_numbers, List.getElem?_eq_none (Nat.le_refl _)]
      simp [Ne.symm hne]
  · rw [List.getElem?_eq_none (by simp; omega)]
    split
    · simp only [Option.some.injEq, reduceCtorEq, iff_false]
      omega
    · rw [d.get?_numbers, List.getElem?_eq_none (Nat.le_of_lt hgt)]

/-- The number of a label. A label that has none gets the next one, and becomes a node. -/
def number (d : Draft) (label : String) : Nat × Draft :=
  match h : Keyed.get? label d.numbers with
  | some n => (n, d)
  | none =>
    (d.labels.length,
      { labels := d.labels ++ [label]
        edges := d.edges
        numbers := Keyed.insert label d.labels.length d.numbers
        sorted := d.sorted.alter
        get?_numbers := get?_insert_new h })

/-- The first pass: the nodes. -/
def addNode (d : Draft) : GraphElement → Draft
  | .node id _ => (d.number id).2
  | .edge .. => d

/-- The second pass: the edges. An end that is not a node yet becomes one, the source first. -/
def addEdge (d : Draft) : GraphElement → Draft
  | .node .. => d
  | .edge _ source target =>
    let (i, d) := d.number source
    let (j, d) := d.number target
    { d with edges := d.edges ++ [(i, j)] }

end Draft

/-- Each label is a node, and each edge joins the numbers of its ends. -/
def ofElements (elements : List GraphElement) : DotGraph :=
  let nodes := elements.foldl Draft.addNode Draft.empty
  let draft := elements.foldl Draft.addEdge nodes
  ⟨draft.labels, draft.edges⟩

/-- Put a text in the place of every occurrence of a character. -/
def replace (c : Char) (text : List Char) (cs : List Char) : List Char :=
  cs.flatMap fun d => if d = c then text else [d]

/-- A label inside quotes. The backslashes come first, or those before the quotes would be
doubled. -/
def escape (label : String) : String :=
  String.ofList (replace '"' ['\\', '"'] (replace '\\' ['\\', '\\'] label.toList))

def nodeLine (number : Nat) (label : String) : String :=
  "    " ++ Nat.repr number ++ " [label=\"" ++ escape label ++ "\", shape=box]\n"

def edgeLine (edge : Nat × Nat) : String :=
  "    " ++ Nat.repr edge.1 ++ " -> " ++ Nat.repr edge.2 ++ "\n"

def text (g : DotGraph) : String :=
  "digraph \x7b\n" ++
    String.join (g.labels.zipIdx.map fun (label, number) => nodeLine number label) ++
    String.join (g.edges.map edgeLine) ++ "\x7d\n"

end DotGraph

end ComponentGraph
