import ComponentGraph.Proofs.BrokenFiles
import ComponentGraph.Proofs.LoadingAgain
/-!
# Loading only adds

Whatever edges a node has, loading keeps them all, and what it adds is named by keys of the
registry. An extension of a tree is known by its chains of names: the old ones are kept, and a new
one ends with a key. Extensions of the children make one of the node, so that it does not matter at
which child loading stops.
-/

namespace ComponentGraph

namespace Keyed

variable {β : Type}

/-- Putting in a new value takes none away. -/
theorem mem_insertNew_of_mem {key k : String} {value v : β} {entries : List (String × β)}
    (h : (k, v) ∈ entries) : (k, v) ∈ insertNew key value entries := by
  unfold insertNew
  induction entries with
  | nil => cases h
  | cons entry rest ih =>
    obtain ⟨j, w⟩ := entry
    rw [alter]
    split
    · exact List.mem_cons_of_mem _ h
    · split
      · exact h
      · rcases List.mem_cons.mp h with heq | h
        · exact heq ▸ List.mem_cons_self
        · exact List.mem_cons_of_mem _ (ih h)

end Keyed

/-- A child has its place after loading, whether or not it was loaded. -/
theorem exists_mem_loadEdges {load : Tree → Logged Loaded} {edges : List (String × Tree)}
    {key : String} {child : Tree} (h : (key, child) ∈ edges) :
    ∃ t, (key, t) ∈ (loadEdges load edges).value.1 ∧
      (t = child ∨ t = (load child).value.tree) := by
  induction edges with
  | nil => cases h
  | cons edge rest ih =>
    obtain ⟨k, c⟩ := edge
    cases hfirst : (load c).value.failure with
    | some failure =>
      rw [value_loadEdges_stopped hfirst]
      rcases List.mem_cons.mp h with heq | h
      · cases heq
        exact ⟨_, List.mem_cons_self, .inr rfl⟩
      · exact ⟨child, List.mem_cons_of_mem _ h, .inl rfl⟩
    | none =>
      rw [value_loadEdges_next hfirst]
      rcases List.mem_cons.mp h with heq | h
      · cases heq
        exact ⟨_, List.mem_cons_self, .inr rfl⟩
      · obtain ⟨t, hmem, ht⟩ := ih h
        exact ⟨t, List.mem_cons_of_mem _ hmem, ht⟩

namespace Tree

/-- Edges of the given names lead from the node down to the other. -/
def Leads : Tree → List String → Tree → Prop
  | t, [], u => u = t
  | t, key :: keys, u => ∃ child, (key, child) ∈ t.edges ∧ child.Leads keys u

theorem leads_append {t u : Tree} {keys more : List String} :
    t.Leads (keys ++ more) u ↔ ∃ v, t.Leads keys v ∧ v.Leads more u := by
  induction keys generalizing t with
  | nil => simp [Leads]
  | cons key keys ih =>
    simp only [List.cons_append, Leads, ih]
    constructor
    · rintro ⟨child, hmem, v, hkeys, hmore⟩
      exact ⟨v, ⟨child, hmem, hkeys⟩, hmore⟩
    · rintro ⟨v, ⟨child, hmem, hkeys⟩, hmore⟩
      exact ⟨child, hmem, v, hkeys, hmore⟩

theorem eq_nil_of_leads_bare {name : String} {keys : List String} {u : Tree}
    (h : (bare name).Leads keys u) : keys = [] := by
  cases keys with
  | nil => rfl
  | cons key keys =>
    obtain ⟨child, hmem, -⟩ := h
    cases hmem

/-- Every node holds its children in order, each under its name. -/
def IsKeyed (t : Tree) : Prop :=
  ∀ u ∈ t.nodes, Keyed.Sorted u.edges ∧ ∀ edge ∈ u.edges, edge.2.name = edge.1

instance (t : Tree) : Decidable t.IsKeyed :=
  inferInstanceAs (Decidable (∀ u ∈ t.nodes,
    (u.edges.map Prod.fst).Pairwise (· < ·) ∧ ∀ edge ∈ u.edges, edge.2.name = edge.1))

theorem isKeyed_iff {t : Tree} :
    t.IsKeyed ↔ Keyed.Sorted t.edges ∧
      ∀ key child, (key, child) ∈ t.edges → child.name = key ∧ child.IsKeyed := by
  obtain ⟨name, edges⟩ := t
  constructor
  · intro h
    have hself := h _ (mem_nodes_self _)
    refine ⟨hself.1, fun key child hmem => ⟨hself.2 _ hmem, fun u hu => ?_⟩⟩
    exact h u (mem_nodes.mpr (.inr ⟨key, child, hmem, hu⟩))
  · rintro ⟨hsorted, hchildren⟩ u hu
    rcases mem_nodes.mp hu with rfl | ⟨key, child, hmem, hu⟩
    · exact ⟨hsorted, fun edge hmem => (hchildren edge.1 edge.2 hmem).1⟩
    · exact (hchildren key child hmem).2 u hu

theorem isKeyed_bare (name : String) : (bare name).IsKeyed :=
  isKeyed_iff.mpr ⟨List.Pairwise.nil, fun _ _ h => nomatch h⟩

theorem mem_addEdges_of_mem {t child : Tree} {children : List Tree} {key : String}
    (h : (key, child) ∈ t.edges) : (key, child) ∈ (t.addEdges children).edges := by
  induction children generalizing t with
  | nil => exact h
  | cons first children ih =>
    rw [addEdges_cons]
    exact ih (Keyed.mem_insertNew_of_mem h)

end Tree

/-- The second tree is the first with more edges: their names are keys of the registry. -/
structure Registry.Extends (r : Registry) (t t' : Tree) : Prop where
  name : t'.name = t.name
  kept : ∀ keys u, t.Leads keys u → ∃ v, t'.Leads keys v ∧ v.name = u.name
  keyed : t.IsKeyed → t'.IsKeyed
  added : ∀ keys key v, t'.Leads (keys ++ [key]) v →
    (∃ u, t.Leads (keys ++ [key]) u) ∨ ∃ path, r.get? key = some path

namespace Registry

variable {r : Registry}

theorem Extends.refl (t : Tree) : r.Extends t t :=
  ⟨rfl, fun _ u h => ⟨u, h, rfl⟩, id, fun _ _ v h => .inl ⟨v, h⟩⟩

theorem Extends.trans {t u v : Tree} (h : r.Extends t u) (h' : r.Extends u v) : r.Extends t v where
  name := h'.name.trans h.name
  kept keys w hw := by
    obtain ⟨w', hw', hname⟩ := h.kept keys w hw
    obtain ⟨w'', hw'', hname'⟩ := h'.kept keys w' hw'
    exact ⟨w'', hw'', hname'.trans hname⟩
  keyed hkeyed := h'.keyed (h.keyed hkeyed)
  added keys key w hw := by
    rcases h'.added keys key w hw with ⟨w', hw'⟩ | hkey
    · exact h.added keys key w' hw'
    · exact .inr hkey

/-- A bare child for each of some keys extends a node. -/
theorem extends_addEdges (t : Tree) {keys : List String}
    (hkeys : ∀ key ∈ keys, ∃ path, r.get? key = some path) :
    r.Extends t (t.addEdges (keys.map Tree.bare)) := by
  have hedge : ∀ {key child}, (key, child) ∈ (t.addEdges (keys.map Tree.bare)).edges →
      (key, child) ∈ t.edges ∨ child = Tree.bare key ∧ key ∈ keys := by
    intro key child hmem
    refine (Tree.mem_edges_addEdges hmem).imp_right ?_
    rintro ⟨hnew, rfl⟩
    obtain ⟨k, hk, rfl⟩ := List.mem_map.mp hnew
    exact ⟨rfl, hk⟩
  refine ⟨rfl, fun chain u hu => ?_, fun hkeyed => ?_, fun chain key v hv => ?_⟩
  · cases chain with
    | nil =>
      obtain rfl : u = t := hu
      exact ⟨_, rfl, rfl⟩
    | cons k chain =>
      obtain ⟨child, hmem, hchild⟩ := hu
      exact ⟨u, ⟨child, Tree.mem_addEdges_of_mem hmem, hchild⟩, rfl⟩
  · obtain ⟨hsorted, hchildren⟩ := Tree.isKeyed_iff.mp hkeyed
    refine Tree.isKeyed_iff.mpr ⟨Tree.sorted_addEdges hsorted _, fun key child hmem => ?_⟩
    rcases hedge hmem with hold | ⟨rfl, -⟩
    · exact hchildren key child hold
    · exact ⟨rfl, Tree.isKeyed_bare key⟩
  · cases chain with
    | nil =>
      obtain ⟨child, hmem, -⟩ := hv
      rcases hedge hmem with hold | ⟨-, hkey⟩
      · exact .inl ⟨child, child, hold, rfl⟩
      · exact .inr (hkeys key hkey)
    | cons k chain =>
      obtain ⟨child, hmem, hchild⟩ := hv
      rcases hedge hmem with hold | ⟨rfl, -⟩
      · exact .inl ⟨v, child, hold, hchild⟩
      · exact absurd (Tree.eq_nil_of_leads_bare hchild) (by simp)

/-- Extended children extend their node. -/
theorem extends_of_children {t : Tree} {edges : List (String × Tree)}
    (hkeys : edges.map Prod.fst = t.edges.map Prod.fst)
    (hforth : ∀ key child, (key, child) ∈ t.edges →
      ∃ child', (key, child') ∈ edges ∧ r.Extends child child')
    (hback : ∀ key child', (key, child') ∈ edges →
      ∃ child, (key, child) ∈ t.edges ∧ r.Extends child child') :
    r.Extends t ⟨t.name, edges⟩ := by
  refine ⟨rfl, fun chain u hu => ?_, fun hkeyed => ?_, fun chain key v hv => ?_⟩
  · cases chain with
    | nil =>
      obtain rfl : u = t := hu
      exact ⟨_, rfl, rfl⟩
    | cons k chain =>
      obtain ⟨child, hmem, hchild⟩ := hu
      obtain ⟨child', hmem', hextends⟩ := hforth k child hmem
      obtain ⟨v, hv, hname⟩ := hextends.kept chain u hchild
      exact ⟨v, ⟨child', hmem', hv⟩, hname⟩
  · obtain ⟨hsorted, hchildren⟩ := Tree.isKeyed_iff.mp hkeyed
    refine Tree.isKeyed_iff.mpr ⟨?_, fun key child' hmem' => ?_⟩
    · rwa [Keyed.Sorted, hkeys]
    · obtain ⟨child, hmem, hextends⟩ := hback key child' hmem'
      obtain ⟨hname, hchild⟩ := hchildren key child hmem
      exact ⟨hextends.name.trans hname, hextends.keyed hchild⟩
  · cases chain with
    | nil =>
      obtain ⟨child', hmem', -⟩ := hv
      obtain ⟨child, hmem, -⟩ := hback key child' hmem'
      exact .inl ⟨child, child, hmem, rfl⟩
    | cons k chain =>
      obtain ⟨child', hmem', hchild'⟩ := hv
      obtain ⟨child, hmem, hextends⟩ := hback k child' hmem'
      refine (hextends.added chain key v hchild').imp_left ?_
      rintro ⟨u, hu⟩
      exact ⟨u, child, hmem, hu⟩

theorem Extends.registered_of_new {t t' v : Tree} {old new : List String} {key : String}
    (h : r.Extends t t') (hchain : t'.Leads (old ++ key :: new) v)
    (hnew : ∀ u, ¬ t.Leads (old ++ [key]) u) :
    ∀ k ∈ key :: new, ∃ path, r.get? k = some path := by
  intro k hk
  obtain ⟨before, after, hsplit⟩ := List.append_of_mem hk
  have hkeys : old ++ key :: new = (old ++ before ++ [k]) ++ after := by
    rw [hsplit]
    simp
  rw [hkeys, Tree.leads_append] at hchain
  obtain ⟨w, hw, -⟩ := hchain
  refine (h.added _ k w hw).resolve_left ?_
  -- An old chain that goes on behind `old` would go on with `key`.
  rintro ⟨u, hu⟩
  have hfirst : ∃ rest, before ++ [k] = key :: rest := by
    cases before with
    | nil => exact ⟨[], by rw [← (List.cons.inj hsplit).1]; rfl⟩
    | cons first before => exact ⟨before ++ [k], by rw [← (List.cons.inj hsplit).1]; rfl⟩
  obtain ⟨rest, hrest⟩ := hfirst
  rw [List.append_assoc, hrest, List.append_cons, Tree.leads_append] at hu
  obtain ⟨w', hw', -⟩ := hu
  exact hnew w' hw'

end Registry

namespace Sources

variable {s : Sources}

theorem extends_loadBelow (active : List String) (node : Tree) :
    s.registry.Extends node (s.loadBelow active node).value.tree := by
  induction active, node using loadBelow.induct s with
  | case1 active node hnone =>
    rw [loadBelow_unresolved hnone]
    exact .refl node
  | case2 active node file hfile hactive =>
    rw [loadBelow_active hfile hactive]
    exact .refl node
  | case3 active node file hfile hactive ih =>
    cases htags : s.tags file with
    | error failure =>
      rw [loadBelow_broken hfile hactive htags]
      exact .refl node
    | ok tags =>
      rcases hkeys : s.registry.references tags with ⟨keys, told⟩
      by_cases hne : keys = []
      · subst hne
        rw [loadBelow_leaf hfile hactive htags hkeys]
        exact .refl node
      · rcases hedges : loadEdges (s.loadBelow (file :: active))
            (node.addEdges (keys.map Tree.bare)).edges with ⟨⟨edges, failure⟩, below⟩
        rw [loadBelow_expanded hfile hactive htags hkeys hne hedges]
        have hregistered : ∀ key ∈ keys, ∃ path, s.registry.get? key = some path := by
          intro key hkey
          have hrefers : s.Refers file key := by rwa [refers_iff_mem_references htags, hkeys]
          exact hrefers.get?
        -- Each child is loaded or left as it is, wherever loading stops.
        have hextends : ∀ child t, t = child ∨ t = (s.loadBelow (file :: active) child).value.tree →
            s.registry.Extends child t := by
          rintro child t (rfl | rfl)
          · exact .refl t
          · exact ih child
        have hnames := keys_loadEdges (s.loadBelow (file :: active))
          (node.addEdges (keys.map Tree.bare)).edges
        rw [hedges] at hnames
        have hadded := Registry.extends_addEdges node hregistered
        refine hadded.trans (Registry.extends_of_children hnames ?_ ?_)
        · intro key child hmem
          obtain ⟨t, ht, hchild⟩ := exists_mem_loadEdges hmem
          exact ⟨t, by rwa [hedges] at ht, hextends child t hchild⟩
        · intro key t hmem
          obtain ⟨child, hold, hchild⟩ := mem_loadEdges (by rw [hedges]; exact hmem)
          exact ⟨child, hold, hextends child t hchild⟩

end Sources

/-- **Loading only adds.** Whatever edges the node has, and whether or not loading succeeds, the
node keeps its name, every chain of edges is still there and leads to a node of the same name, each
edge is still under its child's name, and the names of a new chain are, from its first new edge on,
keys of the registry. -/
theorem load_extends (s : Sources) (node : Tree) :
    (s.load node).value.tree.name = node.name ∧
      (∀ keys u, node.Leads keys u →
        ∃ v, (s.load node).value.tree.Leads keys v ∧ v.name = u.name) ∧
      (node.IsKeyed → (s.load node).value.tree.IsKeyed) ∧
      ∀ old key new v, (s.load node).value.tree.Leads (old ++ key :: new) v →
        (∀ u, ¬ node.Leads (old ++ [key]) u) →
          ∀ k ∈ key :: new, ∃ path, s.registry.get? k = some path := by
  have hextends : s.registry.Extends node (s.load node).value.tree := s.extends_loadBelow [] node
  refine ⟨hextends.name, hextends.kept, hextends.keyed, ?_⟩
  exact fun old key new v hchain hnew => hextends.registered_of_new hchain hnew

/-- The node has edges already, and the file of one of them is no text: loading stops there, behind
the edge that it added and before the last. -/
theorem load_extends_torn :
    let node : Tree :=
      ⟨"App", [("Box", ⟨"Box", [("Own", .bare "Own")]⟩), ("Zoo", ⟨"Zoo", [("App", .bare "App")]⟩)]⟩
    let loaded : Tree :=
      ⟨"App", [("App", .bare "App"), ("Box", ⟨"Box", [("Own", .bare "Own")]⟩),
        ("Zoo", ⟨"Zoo", [("App", .bare "App")]⟩)]⟩
    (Sources.torn.load node).value.tree = loaded ∧
      (Sources.torn.load node).value.failure.isSome = true ∧ node.IsKeyed ∧
      (∃ v, loaded.Leads ["Box", "Own"] v ∧ v.name = "Own") ∧ loaded.IsKeyed ∧
      ∀ k ∈ ["App"], ∃ path, Sources.torn.registry.get? k = some path := by
  intro node loaded
  have hload : (Sources.torn.load node).value.tree = loaded ∧
      (Sources.torn.load node).value.failure.isSome = true := by
    decide +kernel
  have hkeyed : node.IsKeyed := by decide +kernel
  obtain ⟨-, hkept, hstays, hadded⟩ := load_extends Sources.torn node
  rw [hload.1] at hkept hstays hadded
  have hold : node.Leads ["Box", "Own"] (.bare "Own") :=
    ⟨_, List.mem_cons_self, _, List.mem_cons_self, rfl⟩
  have hchain : loaded.Leads ([] ++ ["App"]) (.bare "App") := ⟨_, List.mem_cons_self, rfl⟩
  have hnew : ∀ u, ¬ node.Leads ([] ++ ["App"]) u := by
    rintro u ⟨child, hmem, -⟩
    simp [node] at hmem
  exact ⟨hload.1, hload.2, hkeyed, hkept _ _ hold, hstays hkeyed, hadded [] "App" [] _ hchain hnew⟩

end ComponentGraph
