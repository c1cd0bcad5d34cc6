import ComponentGraph.Reference.Tree
/-!
# Chains of a tree

A tree is looked at through its nodes, in the order of a walk from above, and through the chains
of names that lead down from its root. New children are bare or there already, and keep the edges
sorted.
-/

namespace ComponentGraph.Tree

/-- What holds of a node once it holds of its children holds of every tree. -/
@[elab_as_elim] theorem induction {motive : Tree → Prop}
    (node : ∀ (name : String) (edges : List (String × Tree)),
      (∀ key child, (key, child) ∈ edges → motive child) → motive ⟨name, edges⟩)
    (t : Tree) : motive t :=
  match t with
  | ⟨name, edges⟩ => node name edges fun _ child _ => induction node child
termination_by t
decreasing_by
  rename_i hmem
  have hlt := List.sizeOf_lt_of_mem hmem
  simp only [Prod.mk.sizeOf_spec, Tree.mk.sizeOf_spec] at hlt ⊢
  omega

mutual

/-- The nodes of a tree, each before those below it. -/
def nodes : Tree → List Tree
  | ⟨name, edges⟩ => ⟨name, edges⟩ :: nodesBelow edges

def nodesBelow : List (String × Tree) → List Tree
  | [] => []
  | (_, child) :: rest => child.nodes ++ nodesBelow rest

end

theorem mem_nodes_self (t : Tree) : t ∈ t.nodes := by
  obtain ⟨name, edges⟩ := t
  rw [nodes]
  exact List.mem_cons_self

theorem mem_nodesBelow {u : Tree} {edges : List (String × Tree)} :
    u ∈ nodesBelow edges ↔ ∃ key child, (key, child) ∈ edges ∧ u ∈ child.nodes := by
  induction edges with
  | nil => simp [nodesBelow]
  | cons edge rest ih =>
    obtain ⟨key, child⟩ := edge
    rw [nodesBelow, List.mem_append, ih]
    constructor
    · rintro (h | ⟨k, c, hmem, h⟩)
      · exact ⟨key, child, List.mem_cons_self, h⟩
      · exact ⟨k, c, List.mem_cons_of_mem _ hmem, h⟩
    · rintro ⟨k, c, hmem, h⟩
      rcases List.mem_cons.mp hmem with heq | hmem
      · cases heq
        exact Or.inl h
      · exact Or.inr ⟨k, c, hmem, h⟩

theorem mem_nodes {u : Tree} {name : String} {edges : List (String × Tree)} :
    u ∈ nodes ⟨name, edges⟩ ↔
      u = ⟨name, edges⟩ ∨ ∃ key child, (key, child) ∈ edges ∧ u ∈ child.nodes := by
  rw [nodes, List.mem_cons, mem_nodesBelow]

/-- Nodes of the given names hang one below the other, the first of them below the root. -/
def HasChain : Tree → List String → Prop
  | _, [] => True
  | t, key :: keys => ∃ child, t.edge? key = some child ∧ child.name = key ∧ child.HasChain keys

/-- The node hangs directly below the other. -/
def IsChildOf (child t : Tree) : Prop := ∃ key, (key, child) ∈ t.edges

theorem edge?_eq_some_iff {name key : String} {edges : List (String × Tree)} {child : Tree}
    (h : Keyed.Sorted edges) :
    edge? ⟨name, edges⟩ key = some child ↔ (key, child) ∈ edges :=
  Keyed.get?_eq_some_iff h

@[simp] theorem name_bare (name : String) : (bare name).name = name := rfl

theorem addEdges_cons (t child : Tree) (children : List Tree) :
    t.addEdges (child :: children) =
      (⟨t.name, Keyed.insertNew child.name child t.edges⟩ : Tree).addEdges children := rfl

theorem sorted_addEdges {t : Tree} (h : Keyed.Sorted t.edges) (children : List Tree) :
    Keyed.Sorted (t.addEdges children).edges := by
  induction children generalizing t with
  | nil => exact h
  | cons child children ih =>
    rw [addEdges_cons]
    exact ih h.alter

theorem mem_keys_addEdges {t : Tree} {children : List Tree} {key : String} :
    key ∈ (t.addEdges children).edges.map Prod.fst ↔
      key ∈ t.edges.map Prod.fst ∨ ∃ child ∈ children, child.name = key := by
  induction children generalizing t with
  | nil => simp [addEdges]
  | cons child children ih =>
    rw [addEdges_cons, ih, Keyed.insertNew, Keyed.mem_keys_alter]
    simp only [List.mem_cons, exists_eq_or_imp, eq_comm (a := key)]
    rw [or_comm (a := child.name = key), or_assoc]

/-- An edge after children were added is an old one or leads to one of them. -/
theorem mem_edges_addEdges {t child : Tree} {children : List Tree} {key : String}
    (h : (key, child) ∈ (t.addEdges children).edges) :
    (key, child) ∈ t.edges ∨ child ∈ children ∧ child.name = key := by
  induction children generalizing t with
  | nil => exact Or.inl h
  | cons first children ih =>
    rw [addEdges_cons] at h
    rcases ih h with hold | ⟨hmem, hname⟩
    · rcases Keyed.mem_of_mem_insertNew hold with hold | heq
      · exact Or.inl hold
      · cases heq
        exact Or.inr ⟨List.mem_cons_self, rfl⟩
    · exact Or.inr ⟨List.mem_cons_of_mem _ hmem, hname⟩

end ComponentGraph.Tree
