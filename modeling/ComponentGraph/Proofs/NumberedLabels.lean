import ComponentGraph.Graph.Dot
import Mathlib.Data.List.Forall2
import Mathlib.Data.List.Nodup
/-!
# Numbered labels

The graph of a list of elements has every label once: the ids of its nodes first, and then the ends
of its edges that are not among them, each in the order in which it is met. A draft is told by what
it has met so far. Both passes meet label after label, and a label that was met keeps its number, so
that the edges that are there stay as they are.
-/

namespace ComponentGraph

/-- The id of a node. -/
def GraphElement.nodeId? : GraphElement → Option String
  | node id _ => some id
  | edge .. => none

namespace DotGraph

/-- The numbers of an edge are those of its ends. -/
def Joins (labels : List String) (edge : Nat × Nat) (ends : String × String) : Prop :=
  labels[edge.1]? = some ends.1 ∧ labels[edge.2]? = some ends.2

namespace Draft

variable {d : Draft} {met : List String} {joined : List (String × String)}

/-- No label stands in two places, as it has one number. -/
theorem nodup_labels (d : Draft) : d.labels.Nodup := by
  rw [List.nodup_iff_getElem?_ne_getElem?]
  intro i j hij hj heq
  have hi := (d.get?_numbers d.labels[j] i).mpr (heq.trans (List.getElem?_eq_getElem hj))
  have hj := (d.get?_numbers d.labels[j] j).mpr (List.getElem?_eq_getElem hj)
  rw [hi] at hj
  exact Nat.ne_of_lt hij (Option.some.inj hj)

theorem getElem?_number (d : Draft) (label : String) :
    (d.number label).2.labels[(d.number label).1]? = some label := by
  unfold number
  split
  · rename_i n hn
    exact (d.get?_numbers label n).mp hn
  · exact List.getElem?_concat_length

theorem edges_number (d : Draft) (label : String) : (d.number label).2.edges = d.edges := by
  unfold number
  split <;> rfl

theorem labels_number (d : Draft) (label : String) :
    (d.number label).2.labels = if label ∈ d.labels then d.labels else d.labels ++ [label] := by
  have hmem : label ∈ d.labels ↔ ∃ n, Keyed.get? label d.numbers = some n := by
    simp only [List.mem_iff_getElem?, d.get?_numbers]
  unfold number
  split
  · rename_i n hn
    rw [if_pos (hmem.mpr ⟨n, hn⟩)]
  · rename_i hnone
    rw [if_neg]
    rw [hmem, hnone]
    simp

/-- A label that has a place keeps it. -/
theorem getElem?_labels_number {n : Nat} {old : String} (h : d.labels[n]? = some old)
    (label : String) : (d.number label).2.labels[n]? = some old := by
  rw [labels_number]
  split
  · exact h
  · obtain ⟨hn, _⟩ := List.getElem?_eq_some_iff.mp h
    rw [List.getElem?_append_left hn, h]

/-- What the draft has met: its labels are all that were met, each where it came first, and its
edges join the ends of those that were met. -/
structure Holds (d : Draft) (met : List String) (joined : List (String × String)) : Prop where
  labels : d.labels = met.eraseDups
  edges : List.Forall₂ (Joins d.labels) d.edges joined

theorem holds_empty : empty.Holds [] [] := ⟨rfl, .nil⟩

theorem Holds.number (h : d.Holds met joined) (label : String) :
    (d.number label).2.Holds (met ++ [label]) joined where
  labels := by
    rw [labels_number, h.labels, List.eraseDups_append]
    by_cases hmet : label ∈ met <;> simp [List.removeAll, List.eraseDups_cons, hmet]
  edges := by
    rw [edges_number]
    exact h.edges.imp fun edge ends hjoins =>
      ⟨getElem?_labels_number hjoins.1 label, getElem?_labels_number hjoins.2 label⟩

/-- The source of an edge is met before its target, and the edge joins their numbers. -/
theorem Holds.addEdge (h : d.Holds met joined) (id source target : String) :
    (d.addEdge (.edge id source target)).Holds (met ++ [source, target])
      (joined ++ [(source, target)]) := by
  have hends := (h.number source).number target
  have hsource := getElem?_labels_number (getElem?_number d source) target
  have htarget := getElem?_number (d.number source).2 target
  constructor
  · have hlabels := hends.labels
    rw [List.append_assoc] at hlabels
    exact hlabels
  · exact List.rel_append hends.edges (.cons ⟨hsource, htarget⟩ .nil)

/-- The first pass meets the ids of the nodes. -/
theorem Holds.addNodes (h : d.Holds met joined) (elements : List GraphElement) :
    (elements.foldl addNode d).Holds (met ++ elements.filterMap GraphElement.nodeId?) joined := by
  induction elements generalizing d met with
  | nil => simpa using h
  | cons e elements ih =>
    cases e with
    | node id name =>
      have hrest := ih (h.number id)
      rw [List.append_assoc] at hrest
      exact hrest
    | edge id source target => exact ih h

/-- The second pass meets the ends of the edges. -/
theorem Holds.addEdges (h : d.Holds met joined) (elements : List GraphElement) :
    (elements.foldl Draft.addEdge d).Holds
      (met ++ (elements.filterMap GraphElement.ends?).flatMap fun ends => [ends.1, ends.2])
      (joined ++ elements.filterMap GraphElement.ends?) := by
  induction elements generalizing d met joined with
  | nil => simpa using h
  | cons e elements ih =>
    cases e with
    | node id name => exact ih h
    | edge id source target =>
      have hrest := ih (h.addEdge id source target)
      rw [List.append_assoc, List.append_assoc] at hrest
      exact hrest

end Draft

/-- **The graph of a list of elements.** Its labels differ from each other: they are the ids of the
nodes, and then the ends of edges that are no such id, a source before its target, each where it
is first met. It has one edge for each edge of the list, in the same order, and the labels at its
numbers are the source and the target. -/
theorem ofElements_joins (elements : List GraphElement) :
    let g := ofElements elements
    let ids := elements.filterMap GraphElement.nodeId?
    let edges := elements.filterMap GraphElement.ends?
    let ends := edges.flatMap fun ends => [ends.1, ends.2]
    g.labels.Nodup ∧ g.labels = ids.eraseDups ++ (ends.filter (· ∉ ids)).eraseDups ∧
      g.edges.length = edges.length ∧
      ∀ i (hi : i < g.edges.length) (hi' : i < edges.length),
        g.labels[g.edges[i].1]? = some edges[i].1 ∧ g.labels[g.edges[i].2]? = some edges[i].2 := by
  intro g ids edges ends
  have hdraft := (Draft.holds_empty.addNodes elements).addEdges elements
  have hlabels : g.labels = (ids ++ ends).eraseDups := hdraft.labels
  have hjoins : List.Forall₂ (Joins g.labels) g.edges edges := hdraft.edges
  refine ⟨Draft.nodup_labels _, ?_, hjoins.length_eq, fun i hi hi' => ?_⟩
  · rw [hlabels, List.eraseDups_append]
    simp [List.removeAll]
  · exact hjoins.get hi hi'

/-- The end of an edge that is not a node comes behind all nodes, and the edge from a label to
itself joins one number to itself. -/
example :
    ofElements [.edge "C-B" "C" "B", .edge "B-B" "B" "B", .node "B" "B", .edge "A-C" "A" "C"] =
      ⟨["B", "C", "A"], [(1, 0), (0, 0), (2, 1)]⟩ := by
  decide

end DotGraph

end ComponentGraph
