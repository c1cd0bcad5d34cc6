import ComponentGraph.Markup.Element
/-!
# The elements of a forest

A forest is looked at through the list of all its elements: each stands before its children, and
these before its branches. Attaching an element to its elder siblings puts it, with all that is in
it, at the end of that list, whether it becomes a sibling or a branch.
-/

namespace ComponentGraph.Element

/-- What holds of an element once it holds of its children and branches holds of all. -/
@[elab_as_elim] theorem induction {motive : Element → Prop}
    (element : ∀ (tag : String) (attributes : List Attribute) (children branches : List Element),
      (∀ e ∈ children, motive e) → (∀ e ∈ branches, motive e) →
        motive ⟨tag, attributes, children, branches⟩)
    (e : Element) : motive e :=
  match e with
  | ⟨tag, attributes, children, branches⟩ =>
    element tag attributes children branches (fun e _ => induction element e)
      (fun e _ => induction element e)
termination_by e
decreasing_by
  all_goals
    rename_i hmem
    have hlt := List.sizeOf_lt_of_mem hmem
    simp only [Element.mk.sizeOf_spec]
    omega

mutual

/-- An element, then all in its children, then all in its branches. -/
def nodes : Element → List Element
  | ⟨tag, attributes, children, branches⟩ =>
    ⟨tag, attributes, children, branches⟩ :: (nodesOfAll children ++ nodesOfAll branches)

def nodesOfAll : List Element → List Element
  | [] => []
  | e :: es => e.nodes ++ nodesOfAll es

end

theorem nodes_eq (e : Element) :
    e.nodes = e :: (nodesOfAll e.children ++ nodesOfAll e.branches) := by
  cases e
  rw [nodes]

@[simp] theorem nodesOfAll_nil : nodesOfAll [] = [] := rfl

@[simp] theorem nodesOfAll_cons (e : Element) (es : List Element) :
    nodesOfAll (e :: es) = e.nodes ++ nodesOfAll es := rfl

@[simp] theorem nodesOfAll_append (es fs : List Element) :
    nodesOfAll (es ++ fs) = nodesOfAll es ++ nodesOfAll fs := by
  induction es with
  | nil => rfl
  | cons e es ih => rw [List.cons_append, nodesOfAll_cons, ih, nodesOfAll_cons, List.append_assoc]

theorem mem_nodesOfAll {forest : List Element} {e : Element} :
    e ∈ nodesOfAll forest ↔ ∃ f ∈ forest, e ∈ f.nodes := by
  induction forest with
  | nil => simp
  | cons f forest ih => simp [ih]

theorem mem_nodes_self (e : Element) : e ∈ e.nodes := by
  rw [nodes_eq]
  exact List.mem_cons_self

/-- All in the children of an element is in the element. -/
theorem mem_nodes_of_children {e f g : Element} (hf : f ∈ e.children) (hg : g ∈ f.nodes) :
    g ∈ e.nodes := by
  rw [nodes_eq, List.mem_cons, List.mem_append, mem_nodesOfAll]
  exact .inr (.inl ⟨f, hf, hg⟩)

theorem mem_nodes_of_branches {e f g : Element} (hf : f ∈ e.branches) (hg : g ∈ f.nodes) :
    g ∈ e.nodes := by
  rw [nodes_eq, List.mem_cons, List.mem_append, mem_nodesOfAll, mem_nodesOfAll]
  exact .inr (.inr ⟨f, hf, hg⟩)

/-- What is written in the opening tag of an element. -/
def head (e : Element) : String × List Attribute := (e.tag, e.attributes)

/-- The opening tags of a forest. -/
def heads (forest : List Element) : List (String × List Attribute) := (nodesOfAll forest).map head

theorem heads_attach (e : Element) (elder : List Element) :
    heads (e.attach elder).reverse = heads elder.reverse ++ heads [e] := by
  cases elder with
  | nil => rfl
  | cons latest elder =>
    rw [attach]
    split
    · simp [heads, nodes_eq, head]
    · simp [heads]

end ComponentGraph.Element
