import ComponentGraph.Proofs.LoadedGraph
import Mathlib.Data.List.Nodup
/-!
# The ends of edges

An edge comes out while the node that it leaves is entered, and the node of its source follows. Its
target is met after it, but what is met is an id: nodes and edges share one cache, so the node of
the target is missing if, and only if, some edge has the target's label as its id.
-/

namespace ComponentGraph

/-- An element tells whether it is an edge, and then which ends it has. -/
structure Shape.TellsEnds {ε : Type} (shape : Shape ε) (ends? : ε → Option (String × String)) :
    Prop where
  node : ∀ l, ends? (shape.node l) = none
  edge : ∀ source target, ends? (shape.edge source target) = some (source, target)

theorem GraphElement.tellsEnds_shape : GraphElement.shape.TellsEnds GraphElement.ends? :=
  ⟨fun _ => rfl, fun _ _ => rfl⟩

theorem PreviewElement.tellsEnds_shape : PreviewElement.shape.TellsEnds PreviewElement.ends? :=
  ⟨fun _ => rfl, fun _ _ => rfl⟩

/-- Every edge leaves a node that is there, and enters one that is there unless an edge has the
label of that node as its id. -/
structure Shape.KeepsEnds {ε : Type} (shape : Shape ε) (ends? : ε → Option (String × String))
    (elements : List ε) : Prop where
  source : ∀ e ∈ elements, ∀ source target, ends? e = some (source, target) →
    shape.node source ∈ elements
  target : ∀ e ∈ elements, ∀ source target, ends? e = some (source, target) →
    (shape.node target ∈ elements ↔
      ∀ f ∈ elements, (ends? f).isSome = true → shape.id f ≠ target)

variable {ε : Type} {shape : Shape ε} {ends? : ε → Option (String × String)} {r : Registry}

/-- The node of a source is among the elements, and the label of a target has been met. -/
def Cache.HasEnds (shape : Shape ε) (ends? : ε → Option (String × String)) (elements : List ε)
    (c : Cache) : Prop :=
  ∀ e ∈ elements, ∀ source target, ends? e = some (source, target) →
    shape.node source ∈ elements ∧ shape.id (shape.node target) ∈ c.ids

theorem Cache.HasEnds.append {es fs : List ε} {c d : Cache} (he : c.HasEnds shape ends? es)
    (hf : d.HasEnds shape ends? fs) (hids : ∀ id ∈ c.ids, id ∈ d.ids) :
    d.HasEnds shape ends? (es ++ fs) := by
  intro e hmem source target hends
  rcases List.mem_append.mp hmem with hmem | hmem
  · obtain ⟨hsource, htarget⟩ := he e hmem source target hends
    exact ⟨List.mem_append_left fs hsource, hids _ htarget⟩
  · obtain ⟨hsource, htarget⟩ := hf e hmem source target hends
    exact ⟨List.mem_append_right es hsource, htarget⟩

/-- Flattening meets the node itself, now or before. -/
theorem label_mem_flatten_ids (c : Cache) (t : Tree) :
    shape.id (shape.node (r.label t.name)) ∈ (flatten shape r c t).2.ids := by
  obtain ⟨name, edges⟩ := t
  by_cases h : shape.id (shape.node (r.label name)) ∈ c.ids
  · rwa [flatten_met (t := ⟨name, edges⟩) h]
  · rw [flatten_new h]
    exact mem_flattenEdges_ids edges List.mem_cons_self

theorem flattenEdges_hasEnds (hshape : shape.TellsEnds ends?) {edges : List (String × Tree)}
    (hchild : ∀ key child, (key, child) ∈ edges → ∀ c : Cache,
      (flatten shape r c child).2.HasEnds shape ends? (flatten shape r c child).1)
    (label : String) (c : Cache) :
    (flattenEdges shape r label c edges).2.HasEnds shape ends?
      ((flattenEdges shape r label c edges).1 ++ [shape.node label]) := by
  induction edges generalizing c with
  | nil =>
    intro e hmem source target hends
    rw [List.mem_singleton.mp hmem, hshape.node] at hends
    cases hends
  | cons edge rest ih =>
    obtain ⟨key, child⟩ := edge
    rw [flattenEdges_cons]
    have hbelow := hchild key child List.mem_cons_self
      (c.mark (shape.id (shape.edge label (r.label child.name)))).2
    have hrest := ih (fun k t hmem => hchild k t (List.mem_cons_of_mem _ hmem))
      (flatten shape r (c.mark (shape.id (shape.edge label (r.label child.name)))).2 child).2
    have hothers := hbelow.append hrest fun id => mem_flattenEdges_ids rest
    rw [List.append_assoc, List.append_assoc]
    intro e hmem source target hends
    rcases List.mem_append.mp hmem with hedge | hmem
    · -- The edge to the child leaves the node that is yet to come, and the child was met below it.
      split at hedge
      · rw [List.mem_singleton.mp hedge, hshape.edge] at hends
        cases hends
        refine ⟨by simp, mem_flattenEdges_ids rest (label_mem_flatten_ids _ child)⟩
      · cases hedge
    · obtain ⟨hsource, htarget⟩ := hothers e hmem source target hends
      exact ⟨List.mem_append_right _ hsource, htarget⟩

theorem flatten_hasEnds (hshape : shape.TellsEnds ends?) (t : Tree) (c : Cache) :
    (flatten shape r c t).2.HasEnds shape ends? (flatten shape r c t).1 := by
  induction t using Tree.induction generalizing c with
  | node name edges ih =>
    by_cases h : shape.id (shape.node (r.label name)) ∈ c.ids
    · rw [flatten_met (t := ⟨name, edges⟩) h]
      exact fun _ hmem => nomatch hmem
    · rw [flatten_new h]
      exact flattenEdges_hasEnds hshape ih (r.label name) _

theorem flattenAll_hasEnds (hshape : shape.TellsEnds ends?) (trees : List Tree) (c : Cache) :
    (flattenAll shape r c trees).2.HasEnds shape ends? (flattenAll shape r c trees).1 := by
  induction trees generalizing c with
  | nil => exact fun _ hmem => nomatch hmem
  | cons t rest ih =>
    refine (flatten_hasEnds hshape t c).append (ih _) fun id hid => ?_
    exact ((flattenAll_emits rest _).ids id).mpr (Or.inl hid)

theorem keepsEnds_graphOf (hshape : shape.TellsEnds ends?) (hlabelled : shape.IsLabelled)
    (r : Registry) (trees : List Tree) :
    shape.KeepsEnds ends? (graphOf shape r trees) := by
  have hends : (flattenAll shape r .empty trees).2.HasEnds shape ends? (graphOf shape r trees) :=
    flattenAll_hasEnds hshape trees Cache.empty
  have hemits : Cache.empty.Emits shape (graphOf shape r trees)
      (flattenAll shape r .empty trees).2 := flattenAll_emits trees Cache.empty
  refine ⟨fun e he source target h => (hends e he source target h).1, ?_⟩
  intro e he source target h
  constructor
  · intro hnode f hf hedge hid
    have heq : f = shape.node target := by
      apply List.inj_on_of_nodup_map hemits.nodup hf hnode
      rw [hid, hlabelled.node]
    rw [heq, hshape.node] at hedge
    cases hedge
  · intro hfree
    have hmet := (hends e he source target h).2
    rw [hlabelled.node] at hmet
    have hemitted := ((hemits.ids target).mp hmet).resolve_left List.not_mem_nil
    obtain ⟨f, hf, hid⟩ := List.mem_map.mp hemitted
    rcases draws_of_mem_flattenAll hf with ⟨l, _, rfl⟩ | ⟨p, _, rfl⟩
    · rw [hlabelled.node] at hid
      rwa [← hid]
    · exact absurd hid (hfree _ hf (by rw [hshape.edge]; rfl))

/-- **Edges and their ends.** In the graph of any trees the source of an edge has its node, and so
has the target, unless its label is the id of an edge. -/
theorem graphOf_keepsEnds (r : Registry) (trees : List Tree) :
    GraphElement.shape.KeepsEnds GraphElement.ends? (graphOf GraphElement.shape r trees) ∧
      PreviewElement.shape.KeepsEnds PreviewElement.ends?
        (graphOf PreviewElement.shape r trees) :=
  ⟨keepsEnds_graphOf GraphElement.tellsEnds_shape GraphElement.isLabelled_shape r trees,
    keepsEnds_graphOf PreviewElement.tellsEnds_shape PreviewElement.isLabelled_shape r trees⟩

/-- The label of the second component is the id of the edge to the first, so that the edge to the
second leads nowhere. -/
theorem graphOf_missing_target :
    let elements := graphOf GraphElement.shape
      (.ofList [("B", "B.vue"), ("P.vue", "P.vue"), ("P.vue-B", "P.vue-B.vue")])
      [⟨"P.vue", [("B", .bare "B"), ("P.vue-B", .bare "P.vue-B")]⟩]
    GraphElement.shape.edge "P.vue" "P.vue-B.vue" ∈ elements ∧
      GraphElement.shape.node "P.vue-B.vue" ∉ elements := by
  decide +kernel

end ComponentGraph
