import ComponentGraph.Proofs.Chains
import ComponentGraph.Reference.Loading
/-!
# One step of loading

What loading does with a node, case by case: the name may have no file, the file may be active,
it may be broken, it may refer to nothing, and else the node is expanded. Each case is one
equation for the result and the notices; nothing else looks into the definition of loading.
-/

namespace ComponentGraph

namespace Registry

variable {r : Registry}

/-- The references among some tags are the keys found for those that are no plain markup. -/
theorem mem_references {tags : List String} {key : String} :
    key ∈ (r.references tags).value ↔
      ∃ tag ∈ tags, Tag.isPlainMarkup tag = false ∧ ∃ path, r.find? tag = some (key, path) := by
  induction tags with
  | nil => simp [references]
  | cons tag rest ih =>
    simp only [List.mem_cons, exists_eq_or_imp]
    rw [references]
    split
    · rename_i hplain
      rw [ih]
      simp [hplain]
    · rename_i hplain
      split
      · rename_i hfind
        rw [Logged.value_bind, ih]
        simp [hfind]
      · rename_i found path hfind
        rw [Bool.not_eq_true] at hplain
        rw [Logged.value_bind, Logged.value_pure, List.mem_cons, ih]
        simp [hplain, hfind, eq_comm (a := key)]

theorem resolve?_of_get? {name path : String} (h : r.get? name = some path) :
    r.resolve? name = some path := by
  rw [resolve?, h, Option.some_or]

theorem label_of_get? {name path : String} (h : r.get? name = some path) :
    r.label name = path := by
  rw [label, h, Option.getD_some]

end Registry

section Edges

variable {load : Tree → Logged Loaded}

theorem loadEdges_nil : loadEdges load [] = pure ([], none) := rfl

theorem value_loadEdges_stopped {key : String} {child : Tree} {rest : List (String × Tree)}
    {failure : Failure} (h : (load child).value.failure = some failure) :
    (loadEdges load ((key, child) :: rest)).value =
      ((key, (load child).value.tree) :: rest, some failure) := by
  rw [loadEdges, Logged.value_bind, h]
  rfl

theorem value_loadEdges_next {key : String} {child : Tree} {rest : List (String × Tree)}
    (h : (load child).value.failure = none) :
    (loadEdges load ((key, child) :: rest)).value =
      ((key, (load child).value.tree) :: (loadEdges load rest).value.1,
        (loadEdges load rest).value.2) := by
  rw [loadEdges, Logged.value_bind, h]
  rfl

/-- Loading edges succeeds only if every child is loaded, and then each is in its place. -/
theorem loadEdges_ok {edges : List (String × Tree)}
    (h : (loadEdges load edges).value.2 = none) :
    (∀ edge ∈ edges, (load edge.2).value.failure = none) ∧
      (loadEdges load edges).value.1 =
        edges.map fun edge => (edge.1, (load edge.2).value.tree) := by
  induction edges with
  | nil => simp [loadEdges_nil]
  | cons edge rest ih =>
    obtain ⟨key, child⟩ := edge
    cases hchild : (load child).value.failure with
    | some failure =>
      rw [value_loadEdges_stopped hchild] at h
      cases h
    | none =>
      rw [value_loadEdges_next hchild] at h ⊢
      obtain ⟨hrest, hedges⟩ := ih h
      refine ⟨List.forall_mem_cons.mpr ⟨hchild, hrest⟩, ?_⟩
      rw [hedges, List.map_cons]

/-- An edge after loading leads to the child that it led to before, loaded or as it was. -/
theorem mem_loadEdges {edges : List (String × Tree)} {key : String} {t : Tree}
    (h : (key, t) ∈ (loadEdges load edges).value.1) :
    ∃ child, (key, child) ∈ edges ∧ (t = child ∨ t = (load child).value.tree) := by
  induction edges with
  | nil => cases h
  | cons edge rest ih =>
    obtain ⟨k, c⟩ := edge
    cases hchild : (load c).value.failure with
    | some failure =>
      rw [value_loadEdges_stopped hchild] at h
      rcases List.mem_cons.mp h with heq | hmem
      · cases heq
        exact ⟨c, List.mem_cons_self, Or.inr rfl⟩
      · exact ⟨t, List.mem_cons_of_mem _ hmem, Or.inl rfl⟩
    | none =>
      rw [value_loadEdges_next hchild] at h
      rcases List.mem_cons.mp h with heq | hmem
      · cases heq
        exact ⟨c, List.mem_cons_self, Or.inr rfl⟩
      · obtain ⟨child, hold, ht⟩ := ih hmem
        exact ⟨child, List.mem_cons_of_mem _ hold, ht⟩

/-- Loading edges asks for nothing but the loading of their children. -/
theorem loadEdges_congr {load' : Tree → Logged Loaded} {edges : List (String × Tree)}
    (h : ∀ edge ∈ edges, load edge.2 = load' edge.2) :
    loadEdges load edges = loadEdges load' edges := by
  induction edges with
  | nil => rfl
  | cons edge rest ih =>
    obtain ⟨key, child⟩ := edge
    have hchild := h (key, child) List.mem_cons_self
    rw [loadEdges, loadEdges, hchild, ih fun e he => h e (List.mem_cons_of_mem _ he)]

end Edges

namespace Sources

variable {s : Sources} {active : List String} {node : Tree} {file : String}

theorem loadBelow_unresolved (h : s.registry.resolve? node.name = none) :
    s.loadBelow active node =
      ⟨⟨node, none⟩, [⟨.warn, node.name ++ " does not found in directory"⟩]⟩ := by
  rw [loadBelow]
  split
  · rfl
  · rename_i heq
    rw [h] at heq
    cases heq

theorem loadBelow_active (h : s.registry.resolve? node.name = some file) (hactive : file ∈ active) :
    s.loadBelow active node =
      ⟨⟨node, none⟩, [⟨.warn, "cycle detected: " ++ active.headD file ++ " -> " ++ file⟩]⟩ := by
  rw [loadBelow]
  split
  · rename_i heq
    rw [h] at heq
    cases heq
  · rename_i found heq
    rw [h] at heq
    cases heq
    rw [dif_pos hactive]
    rfl

/-- The node's file is read. -/
theorem loadBelow_inactive (h : s.registry.resolve? node.name = some file)
    (hactive : file ∉ active) :
    s.loadBelow active node = (do
      Logged.say .debug ("loading " ++ file)
      match s.tags file with
      | .error failure => pure ⟨node, some failure⟩
      | .ok tags => do
        let keys ← s.registry.references tags
        if keys.isEmpty then pure ⟨node, none⟩
        else do
          let (edges, failure) ←
            loadEdges (s.loadBelow (file :: active)) (node.addEdges (keys.map Tree.bare)).edges
          pure ⟨⟨node.name, edges⟩, failure⟩) := by
  rw [loadBelow]
  split
  · rename_i heq
    rw [h] at heq
    cases heq
  · rename_i found heq
    rw [h] at heq
    cases heq
    exact dif_neg hactive

theorem loadBelow_broken (h : s.registry.resolve? node.name = some file) (hactive : file ∉ active)
    {failure : Failure} (htags : s.tags file = .error failure) :
    s.loadBelow active node = ⟨⟨node, some failure⟩, [⟨.debug, "loading " ++ file⟩]⟩ := by
  rw [loadBelow_inactive h hactive, htags]
  rfl

theorem loadBelow_leaf (h : s.registry.resolve? node.name = some file) (hactive : file ∉ active)
    {tags : List String} (htags : s.tags file = .ok tags) {told : List Notice}
    (hkeys : s.registry.references tags = ⟨[], told⟩) :
    s.loadBelow active node = ⟨⟨node, none⟩, ⟨.debug, "loading " ++ file⟩ :: told⟩ := by
  rw [loadBelow_inactive h hactive, htags]
  apply Logged.ext
  · simp [hkeys]
  · simp [hkeys]

theorem loadBelow_expanded (h : s.registry.resolve? node.name = some file) (hactive : file ∉ active)
    {tags : List String} (htags : s.tags file = .ok tags) {keys : List String}
    {told : List Notice} (hkeys : s.registry.references tags = ⟨keys, told⟩) (hne : keys ≠ [])
    {edges : List (String × Tree)} {failure : Option Failure} {below : List Notice}
    (hedges : loadEdges (s.loadBelow (file :: active)) (node.addEdges (keys.map Tree.bare)).edges =
      ⟨(edges, failure), below⟩) :
    s.loadBelow active node =
      ⟨⟨⟨node.name, edges⟩, failure⟩, ⟨.debug, "loading " ++ file⟩ :: (told ++ below)⟩ := by
  rw [loadBelow_inactive h hactive, htags]
  apply Logged.ext
  · simp [hkeys, hne, hedges]
  · simp [hkeys, hne, hedges]

/-- Loading never renames a node. -/
theorem name_loadBelow (s : Sources) (active : List String) (node : Tree) :
    (s.loadBelow active node).value.tree.name = node.name := by
  cases hfile : s.registry.resolve? node.name with
  | none => rw [loadBelow_unresolved hfile]
  | some file =>
    by_cases hactive : file ∈ active
    · rw [loadBelow_active hfile hactive]
    · cases htags : s.tags file with
      | error failure => rw [loadBelow_broken hfile hactive htags]
      | ok tags =>
        rcases hkeys : s.registry.references tags with ⟨keys, told⟩
        by_cases hne : keys = []
        · subst hne
          rw [loadBelow_leaf hfile hactive htags hkeys]
        · rcases hedges : loadEdges (s.loadBelow (file :: active))
            (node.addEdges (keys.map Tree.bare)).edges with ⟨⟨edges, failure⟩, below⟩
          rw [loadBelow_expanded hfile hactive htags hkeys hne hedges]

end Sources

end ComponentGraph
