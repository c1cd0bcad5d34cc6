import ComponentGraph.Graph.Drawing
import ComponentGraph.Proofs.Flattening
import Mathlib.Data.List.Forall2
/-!
# One graph in two shapes

Flattening asks elements for nothing but their ids. Two shapes whose nodes and edges have the same
ids therefore go through a tree in step: they meet the same ids, stop at the same nodes, emit an
element at the same moments, and leave the same cache. The plain elements of the printed formats and
the elements of the preview are two such shapes.
-/

namespace ComponentGraph

variable {ε δ : Type} {σ : Shape ε} {τ : Shape δ} {R : ε → δ → Prop} {r : Registry}

/-- Nodes of one label stand for each other, and so do edges of the same ends; what stands for each
other has one id. -/
structure Shape.Agrees (σ : Shape ε) (τ : Shape δ) (R : ε → δ → Prop) : Prop where
  node : ∀ label, R (σ.node label) (τ.node label)
  edge : ∀ source target, R (σ.edge source target) (τ.edge source target)
  id : ∀ e f, R e f → σ.id e = τ.id f

/-- The elements of two runs stand for each other place by place, and the caches are the same. -/
structure RunsAlike (R : ε → δ → Prop) (run : List ε × Cache) (run' : List δ × Cache) : Prop where
  elements : List.Forall₂ R run.1 run'.1
  cache : run.2 = run'.2

theorem flattenEdges_alike (h : σ.Agrees τ R) {edges : List (String × Tree)}
    (hchild : ∀ key child, (key, child) ∈ edges → ∀ c : Cache,
      RunsAlike R (flatten σ r c child) (flatten τ r c child))
    (source : String) (c : Cache) :
    RunsAlike R (flattenEdges σ r source c edges) (flattenEdges τ r source c edges) := by
  induction edges generalizing c with
  | nil => exact ⟨.nil, rfl⟩
  | cons edge rest ih =>
    obtain ⟨key, child⟩ := edge
    have hedge := h.edge source (r.label child.name)
    have hbelow := hchild key child List.mem_cons_self
      (c.mark (τ.id (τ.edge source (r.label child.name)))).2
    have hothers := ih (fun k t hmem => hchild k t (List.mem_cons_of_mem _ hmem))
      (flatten τ r (c.mark (τ.id (τ.edge source (r.label child.name)))).2 child).2
    -- The edge is new in both runs or in neither, since it has one id.
    rw [flattenEdges_cons, flattenEdges_cons]
    dsimp only
    rw [h.id _ _ hedge, hbelow.cache]
    refine ⟨List.rel_append (List.rel_append ?_ hbelow.elements) hothers.elements, hothers.cache⟩
    split
    · exact .cons hedge .nil
    · exact .nil

theorem flatten_alike (h : σ.Agrees τ R) (t : Tree) (c : Cache) :
    RunsAlike R (flatten σ r c t) (flatten τ r c t) := by
  induction t using Tree.induction generalizing c with
  | node name edges ih =>
    have hnode := h.node (r.label name)
    have hid := h.id _ _ hnode
    by_cases hmet : τ.id (τ.node (r.label name)) ∈ c.ids
    · rw [flatten_met (t := ⟨name, edges⟩) hmet, flatten_met (t := ⟨name, edges⟩) (hid ▸ hmet)]
      exact ⟨.nil, rfl⟩
    · rw [flatten_new hmet, flatten_new (hid ▸ hmet), hid]
      have hbelow := flattenEdges_alike h ih (r.label name)
        ⟨τ.id (τ.node (r.label name)) :: c.ids⟩
      exact ⟨List.rel_append hbelow.elements (.cons hnode .nil), hbelow.cache⟩

theorem flattenAll_alike (h : σ.Agrees τ R) (trees : List Tree) (c : Cache) :
    RunsAlike R (flattenAll σ r c trees) (flattenAll τ r c trees) := by
  induction trees generalizing c with
  | nil => exact ⟨.nil, rfl⟩
  | cons t rest ih =>
    have hfirst := flatten_alike (r := r) h t c
    have hothers := ih (flatten τ r c t).2
    rw [flattenAll_cons, flattenAll_cons]
    dsimp only
    rw [hfirst.cache]
    exact ⟨List.rel_append hfirst.elements hothers.elements, hothers.cache⟩

/-! ## Plain elements and the preview -/

/-- The plain element and that of the preview have one id and are both nodes, or both edges of the
same ends. -/
structure GraphElement.Matches (e : GraphElement) (p : PreviewElement) : Prop where
  id : e.id = p.id
  ends : e.ends? = p.ends?

/-- The plain element of what the preview shows. -/
def PreviewElement.plain (p : PreviewElement) : GraphElement :=
  match p.ends? with
  | none => .node p.id p.id
  | some (source, target) => .edge p.id source target

theorem PreviewElement.matches_plain (p : PreviewElement) : p.plain.Matches p := by
  obtain ⟨id, ends?⟩ := p
  cases ends? with
  | none => exact ⟨rfl, rfl⟩
  | some ends => exact ⟨rfl, rfl⟩

theorem agrees_plain :
    GraphElement.shape.Agrees PreviewElement.shape fun e p => e = p.plain where
  node _ := rfl
  edge _ _ := rfl
  id _ p h := h ▸ p.matches_plain.id

/-- **One graph in two shapes.** A tree, or several with one cache, gives as many plain elements as
elements of the preview, whatever the cache holds; those in the same place match, and the caches
afterwards are the same. So all formats show one graph: what is drawn as text are the plain elements
of what the preview shows. -/
theorem flatten_matches (r : Registry) :
    (∀ (t : Tree) (c : Cache),
      List.Forall₂ GraphElement.Matches (flatten GraphElement.shape r c t).1
        (flatten PreviewElement.shape r c t).1 ∧
      (flatten GraphElement.shape r c t).2 = (flatten PreviewElement.shape r c t).2) ∧
    (∀ (trees : List Tree) (c : Cache),
      List.Forall₂ GraphElement.Matches (flattenAll GraphElement.shape r c trees).1
        (flattenAll PreviewElement.shape r c trees).1 ∧
      (flattenAll GraphElement.shape r c trees).2 = (flattenAll PreviewElement.shape r c trees).2) ∧
    ∀ trees : List Tree,
      let preview := graphOf PreviewElement.shape r trees
      let shown := preview.map PreviewElement.plain
      List.Forall₂ GraphElement.Matches (graphOf GraphElement.shape r trees) preview ∧
      ∀ (outDir : Path) (files : FileSystem),
        draw .graph outDir r files trees =
          (writePreview files outDir preview).map (fun (files, path) =>
            (files,
              "Wrote " ++ Nat.repr shown.length ++ " graph elements to " ++ path.text ++ "\n")) ∧
        draw .json outDir r files trees = .ok (files, GraphElement.listing shown ++ "\n") ∧
        draw .dot outDir r files trees = .ok (files, (DotGraph.ofElements shown).text) ∧
        draw .report outDir r files trees = .ok (files, report shown) := by
  have hmatches : ∀ e p, e = PreviewElement.plain p → e.Matches p := fun e p h =>
    h ▸ p.matches_plain
  refine ⟨fun t c => ?_, fun trees c => ?_, fun trees => ?_⟩
  · have halike := flatten_alike (r := r) agrees_plain t c
    exact ⟨halike.elements.imp hmatches, halike.cache⟩
  · have halike := flattenAll_alike (r := r) agrees_plain trees c
    exact ⟨halike.elements.imp hmatches, halike.cache⟩
  · have hplain := (flattenAll_alike (r := r) agrees_plain trees Cache.empty).elements
    have hshown : graphOf GraphElement.shape r trees =
        (graphOf PreviewElement.shape r trees).map PreviewElement.plain := by
      rw [← List.forall₂_map_right_iff, List.forall₂_eq_eq_eq] at hplain
      exact hplain
    refine ⟨hplain.imp hmatches, fun outDir files => ?_⟩
    simp only [draw, hshown, List.length_map, and_self, and_true]
    cases writePreview files outDir (graphOf PreviewElement.shape r trees) <;> rfl

end ComponentGraph
