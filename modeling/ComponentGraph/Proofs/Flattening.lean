import ComponentGraph.Graph.Flatten
import ComponentGraph.Proofs.Chains
/-!
# What flattening emits

Flattening runs on a cache of ids. Whatever it emits is new to the cache, in the cache afterwards,
and there only once; and it emits nothing but nodes of labels and edges of pairs of labels that
occur in the tree. Both hold of any tree and any shape of elements.
-/

namespace ComponentGraph

variable {ε : Type} {shape : Shape ε} {r : Registry}

namespace Cache

variable {c d : Cache} {id : String}

theorem mark_of_mem (h : id ∈ c.ids) : c.mark id = (false, c) := by
  simp [mark, contains, h]

theorem mark_of_not_mem (h : id ∉ c.ids) : c.mark id = (true, ⟨id :: c.ids⟩) := by
  simp [mark, contains, h]

theorem mem_mark_ids (c : Cache) (id i : String) :
    i ∈ (c.mark id).2.ids ↔ i = id ∨ i ∈ c.ids := by
  by_cases h : id ∈ c.ids
  · rw [mark_of_mem h]
    exact ⟨Or.inr, fun hi => hi.elim (· ▸ h) fun hi => hi⟩
  · rw [mark_of_not_mem h, List.mem_cons]

/-- Between two states of a cache some elements were emitted: their ids were new, differ from each
other, and are all that was added. -/
structure Emits (shape : Shape ε) (c : Cache) (elements : List ε) (d : Cache) : Prop where
  nodup : (elements.map shape.id).Nodup
  fresh : ∀ e ∈ elements, shape.id e ∉ c.ids
  ids : ∀ id, id ∈ d.ids ↔ id ∈ c.ids ∨ id ∈ elements.map shape.id

/-- The relation holds of the steps that flattening is made of, between two states of a cache and
with the elements that come out: of doing nothing, of meeting the id of an element, and of steps in
a row, in whatever order their elements come out. -/
structure HoldsOfSteps (shape : Shape ε) (R : Cache → List ε → Cache → Prop) : Prop where
  nil : ∀ c, R c [] c
  mark : ∀ c e, R c (if (c.mark (shape.id e)).1 then [e] else []) (c.mark (shape.id e)).2
  append : ∀ {b c d es fs}, R b es c → R c fs d → R b (es ++ fs) d
  perm : ∀ {c d es fs}, R c es d → es.Perm fs → R c fs d

theorem Emits.nil (c : Cache) : c.Emits shape [] c :=
  ⟨List.nodup_nil, by simp, by simp⟩

theorem Emits.append {b : Cache} {es fs : List ε} (he : b.Emits shape es c)
    (hf : c.Emits shape fs d) : b.Emits shape (es ++ fs) d := by
  constructor
  · rw [List.map_append, List.nodup_append]
    refine ⟨he.nodup, hf.nodup, fun i hi j hj heq => ?_⟩
    obtain ⟨f, hmem, rfl⟩ := List.mem_map.mp hj
    exact hf.fresh f hmem ((he.ids _).mpr (Or.inr (heq ▸ hi)))
  · intro e hmem hold
    rcases List.mem_append.mp hmem with hmem | hmem
    · exact he.fresh e hmem hold
    · exact hf.fresh e hmem ((he.ids _).mpr (Or.inl hold))
  · intro id
    rw [hf.ids, he.ids, List.map_append, List.mem_append, or_assoc]

theorem Emits.perm {es fs : List ε} (he : c.Emits shape es d) (h : es.Perm fs) :
    c.Emits shape fs d := by
  constructor
  · exact (h.map shape.id).nodup he.nodup
  · exact fun e hmem => he.fresh e (h.mem_iff.mpr hmem)
  · intro id
    rw [he.ids, (h.map shape.id).mem_iff]

/-- An element is emitted if its id is met for the first time. -/
theorem emits_mark (c : Cache) (e : ε) :
    c.Emits shape (if (c.mark (shape.id e)).1 then [e] else []) (c.mark (shape.id e)).2 := by
  by_cases h : shape.id e ∈ c.ids
  · rw [mark_of_mem h]
    exact .nil c
  · rw [mark_of_not_mem h]
    refine ⟨by simp, by simpa using h, fun id => ?_⟩
    simp only [↓reduceIte, List.mem_cons, List.map_cons, List.map_nil, List.not_mem_nil, or_false]
    exact or_comm

theorem holdsOfSteps_emits (shape : Shape ε) : HoldsOfSteps shape (Emits shape) :=
  ⟨.nil, emits_mark, .append, .perm⟩

end Cache

/-- A node whose id was met is not entered. -/
theorem flatten_met {c : Cache} {t : Tree} (h : shape.id (shape.node (r.label t.name)) ∈ c.ids) :
    flatten shape r c t = ([], c) := by
  obtain ⟨name, edges⟩ := t
  rw [flatten]
  simp only [Cache.mark_of_mem h]

/-- A new node comes behind what its edges give. -/
theorem flatten_new {c : Cache} {name : String} {edges : List (String × Tree)}
    (h : shape.id (shape.node (r.label name)) ∉ c.ids) :
    flatten shape r c ⟨name, edges⟩ =
      let below := flattenEdges shape r (r.label name)
        ⟨shape.id (shape.node (r.label name)) :: c.ids⟩ edges
      (below.1 ++ [shape.node (r.label name)], below.2) := by
  rw [flatten]
  simp only [Cache.mark_of_not_mem h]

theorem flattenEdges_cons {c : Cache} {source key : String} {child : Tree}
    {rest : List (String × Tree)} :
    flattenEdges shape r source c ((key, child) :: rest) =
      let edge := shape.edge source (r.label child.name)
      let met := c.mark (shape.id edge)
      let below := flatten shape r met.2 child
      let others := flattenEdges shape r source below.2 rest
      ((if met.1 then [edge] else []) ++ below.1 ++ others.1, others.2) := by
  cases child
  rfl

theorem flattenAll_cons {c : Cache} {t : Tree} {rest : List Tree} :
    flattenAll shape r c (t :: rest) =
      let first := flatten shape r c t
      let others := flattenAll shape r first.2 rest
      (first.1 ++ others.1, others.2) := rfl

section Steps

variable {R : Cache → List ε → Cache → Prop}

theorem flattenEdges_steps (hR : Cache.HoldsOfSteps shape R) {edges : List (String × Tree)}
    (h : ∀ key child, (key, child) ∈ edges → ∀ c : Cache,
      R c (flatten shape r c child).1 (flatten shape r c child).2)
    (source : String) (c : Cache) :
    R c (flattenEdges shape r source c edges).1 (flattenEdges shape r source c edges).2 := by
  induction edges generalizing c with
  | nil => exact hR.nil c
  | cons edge rest ih =>
    obtain ⟨key, child⟩ := edge
    rw [flattenEdges_cons]
    have hedge : R c _ _ := hR.mark c (shape.edge source (r.label child.name))
    have hbelow := h key child List.mem_cons_self
      (c.mark (shape.id (shape.edge source (r.label child.name)))).2
    have hrest := ih (fun k t hmem => h k t (List.mem_cons_of_mem _ hmem))
    exact hR.append (hR.append hedge hbelow) (hrest _)

/-- What holds of the steps holds of flattening a tree. -/
theorem flatten_steps (hR : Cache.HoldsOfSteps shape R) (t : Tree) (c : Cache) :
    R c (flatten shape r c t).1 (flatten shape r c t).2 := by
  induction t using Tree.induction generalizing c with
  | node name edges ih =>
    by_cases h : shape.id (shape.node (r.label name)) ∈ c.ids
    · rw [flatten_met (t := ⟨name, edges⟩) h]
      exact hR.nil c
    · rw [flatten_new h]
      have hnode : R c _ _ := hR.mark c (shape.node (r.label name))
      rw [Cache.mark_of_not_mem h] at hnode
      exact hR.perm (hR.append hnode (flattenEdges_steps hR ih _ _)) List.perm_append_comm

theorem flattenAll_steps (hR : Cache.HoldsOfSteps shape R) (trees : List Tree) (c : Cache) :
    R c (flattenAll shape r c trees).1 (flattenAll shape r c trees).2 := by
  induction trees generalizing c with
  | nil => exact hR.nil c
  | cons t rest ih => exact hR.append (flatten_steps hR t c) (ih _)

end Steps

theorem flatten_emits (t : Tree) (c : Cache) :
    c.Emits shape (flatten shape r c t).1 (flatten shape r c t).2 :=
  flatten_steps (Cache.holdsOfSteps_emits shape) t c

theorem flattenAll_emits (trees : List Tree) (c : Cache) :
    c.Emits shape (flattenAll shape r c trees).1 (flattenAll shape r c trees).2 :=
  flattenAll_steps (Cache.holdsOfSteps_emits shape) trees c

/-- What was met stays met. -/
theorem mem_flatten_ids {c : Cache} {id : String} (t : Tree) (h : id ∈ c.ids) :
    id ∈ (flatten shape r c t).2.ids :=
  ((flatten_emits t c).ids id).mpr (Or.inl h)

theorem mem_flattenEdges_ids {c : Cache} {id source : String} (edges : List (String × Tree))
    (h : id ∈ c.ids) : id ∈ (flattenEdges shape r source c edges).2.ids :=
  ((flattenEdges_steps (Cache.holdsOfSteps_emits shape) (fun _ child _ => flatten_emits child)
    source c).ids id).mpr (Or.inl h)

namespace Tree

/-- The labels of all nodes. -/
def labels (r : Registry) (t : Tree) : List String := t.nodes.map fun u => r.label u.name

/-- The labels of the ends of all edges. -/
def pairs (r : Registry) (t : Tree) : List (String × String) :=
  t.nodes.flatMap fun u => u.edges.map fun edge => (r.label u.name, r.label edge.2.name)

theorem mem_labels {l name : String} {edges : List (String × Tree)} :
    l ∈ labels r ⟨name, edges⟩ ↔
      l = r.label name ∨ ∃ key child, (key, child) ∈ edges ∧ l ∈ child.labels r := by
  simp only [labels, List.mem_map]
  constructor
  · rintro ⟨u, hu, rfl⟩
    rcases mem_nodes.mp hu with rfl | ⟨key, child, hmem, hu⟩
    · exact Or.inl rfl
    · exact Or.inr ⟨key, child, hmem, u, hu, rfl⟩
  · rintro (rfl | ⟨key, child, hmem, u, hu, rfl⟩)
    · exact ⟨_, mem_nodes_self _, rfl⟩
    · exact ⟨u, mem_nodes.mpr (Or.inr ⟨key, child, hmem, hu⟩), rfl⟩

theorem label_mem_labels (r : Registry) (t : Tree) : r.label t.name ∈ t.labels r :=
  List.mem_map.mpr ⟨t, mem_nodes_self t, rfl⟩

theorem mem_pairs {p : String × String} {name : String} {edges : List (String × Tree)} :
    p ∈ pairs r ⟨name, edges⟩ ↔
      (∃ key child, (key, child) ∈ edges ∧ p = (r.label name, r.label child.name)) ∨
        ∃ key child, (key, child) ∈ edges ∧ p ∈ child.pairs r := by
  simp only [pairs, List.mem_flatMap, List.mem_map]
  constructor
  · rintro ⟨u, hu, ⟨k, c⟩, hedge, rfl⟩
    rcases mem_nodes.mp hu with rfl | ⟨key, child, hmem, hu⟩
    · exact Or.inl ⟨k, c, hedge, rfl⟩
    · exact Or.inr ⟨key, child, hmem, u, hu, (k, c), hedge, rfl⟩
  · rintro (⟨key, child, hmem, rfl⟩ | ⟨key, child, hmem, u, hu, edge, hedge, rfl⟩)
    · exact ⟨_, mem_nodes_self _, (key, child), hmem, rfl⟩
    · exact ⟨u, mem_nodes.mpr (Or.inr ⟨key, child, hmem, hu⟩), edge, hedge, rfl⟩

end Tree

/-- The element is the node of a label or the edge of a pair. -/
def Shape.Draws (shape : Shape ε) (labels : List String) (pairs : List (String × String))
    (e : ε) : Prop :=
  (∃ l ∈ labels, e = shape.node l) ∨ ∃ p ∈ pairs, e = shape.edge p.1 p.2

theorem Shape.Draws.mono {labels labels' : List String} {pairs pairs' : List (String × String)}
    {e : ε} (h : shape.Draws labels pairs e) (hl : ∀ l ∈ labels, l ∈ labels')
    (hp : ∀ p ∈ pairs, p ∈ pairs') : shape.Draws labels' pairs' e := by
  rcases h with ⟨l, hmem, rfl⟩ | ⟨p, hmem, rfl⟩
  · exact Or.inl ⟨l, hl l hmem, rfl⟩
  · exact Or.inr ⟨p, hp p hmem, rfl⟩

theorem mem_flattenEdges {edges : List (String × Tree)} {source : String} {e : ε} {c : Cache}
    (h : e ∈ (flattenEdges shape r source c edges).1) :
    ∃ key child, (key, child) ∈ edges ∧
      (e = shape.edge source (r.label child.name) ∨ ∃ d, e ∈ (flatten shape r d child).1) := by
  induction edges generalizing c with
  | nil => cases h
  | cons edge rest ih =>
    obtain ⟨key, child⟩ := edge
    rw [flattenEdges_cons] at h
    simp only [List.mem_append] at h
    rcases h with (h | h) | h
    · refine ⟨key, child, List.mem_cons_self, Or.inl ?_⟩
      split at h
      · exact List.mem_singleton.mp h
      · cases h
    · exact ⟨key, child, List.mem_cons_self, Or.inr ⟨_, h⟩⟩
    · obtain ⟨k, t, hmem, h⟩ := ih h
      exact ⟨k, t, List.mem_cons_of_mem _ hmem, h⟩

/-- Only labels and pairs of the tree are drawn. -/
theorem draws_of_mem_flatten {t : Tree} {c : Cache} {e : ε}
    (h : e ∈ (flatten shape r c t).1) : shape.Draws (t.labels r) (t.pairs r) e := by
  induction t using Tree.induction generalizing c with
  | node name edges ih =>
    by_cases hmet : shape.id (shape.node (r.label name)) ∈ c.ids
    · rw [flatten_met (t := ⟨name, edges⟩) hmet] at h
      cases h
    · rw [flatten_new hmet] at h
      rcases List.mem_append.mp h with h | h
      · obtain ⟨key, child, hmem, heq | ⟨d, h⟩⟩ := mem_flattenEdges h
        · exact Or.inr ⟨_, Tree.mem_pairs.mpr (Or.inl ⟨key, child, hmem, rfl⟩), heq⟩
        · refine (ih key child hmem h).mono (fun l hl => ?_) (fun p hp => ?_)
          · exact Tree.mem_labels.mpr (Or.inr ⟨key, child, hmem, hl⟩)
          · exact Tree.mem_pairs.mpr (Or.inr ⟨key, child, hmem, hp⟩)
      · exact Or.inl ⟨_, Tree.label_mem_labels r ⟨name, edges⟩, List.mem_singleton.mp h⟩

theorem draws_of_mem_flattenAll {trees : List Tree} {c : Cache} {e : ε}
    (h : e ∈ (flattenAll shape r c trees).1) :
    shape.Draws (trees.flatMap (Tree.labels r)) (trees.flatMap (Tree.pairs r)) e := by
  induction trees generalizing c with
  | nil => cases h
  | cons t rest ih =>
    rcases List.mem_append.mp h with h | h
    · refine (draws_of_mem_flatten h).mono (fun l hl => ?_) (fun p hp => ?_)
      · exact List.mem_flatMap_of_mem List.mem_cons_self hl
      · exact List.mem_flatMap_of_mem List.mem_cons_self hp
    · refine (ih h).mono (fun l hl => ?_) (fun p hp => ?_)
      · rw [List.flatMap_cons]
        exact List.mem_append_right _ hl
      · rw [List.flatMap_cons]
        exact List.mem_append_right _ hp

end ComponentGraph
