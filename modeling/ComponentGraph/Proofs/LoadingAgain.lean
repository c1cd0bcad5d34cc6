import ComponentGraph.Proofs.Unfolding
/-!
# Loading again

A loaded tree is loaded again without a change, and the same is told on the way. What a file
mentions has edges already, and new children take no place from the old ones; below each edge loading
stands as it stood before, and a node that was left as it was is left so again. Nothing is
assumed of the edges that a node has from the start, not even that they are sorted.
-/

namespace ComponentGraph

namespace Keyed

variable {β : Type} {key k : String} {keys : List String}

/-- Where it is looked for in a list of keys, a key is found: before it come only smaller ones. -/
inductive Stands (key : String) : List String → Prop
  | here (rest : List String) : Stands key (key :: rest)
  | behind {k : String} {rest : List String} : k < key → Stands key rest → Stands key (k :: rest)

/-- What has a key already is not put in under it. -/
theorem insertNew_of_stands {entries : List (String × β)} {value : β}
    (h : Stands key (entries.map Prod.fst)) : insertNew key value entries = entries := by
  unfold insertNew
  induction entries with
  | nil => cases h
  | cons entry rest ih =>
    obtain ⟨k, v⟩ := entry
    rw [List.map_cons] at h
    cases h with
    | here =>
      rw [alter, if_neg (String.lt_irrefl k), if_pos rfl]
      rfl
    | behind hlt hrest =>
      have hne : key ≠ k := fun heq => String.lt_irrefl k (heq ▸ hlt)
      rw [alter, if_neg (String.lt_asymm hlt), if_neg hne, ih hrest]

theorem stands_insertNew (key : String) (value : β) (entries : List (String × β)) :
    Stands key ((insertNew key value entries).map Prod.fst) := by
  unfold insertNew
  induction entries with
  | nil => exact .here []
  | cons entry rest ih =>
    obtain ⟨k, v⟩ := entry
    rw [alter]
    split
    · exact .here _
    · rename_i hlt
      split
      · rename_i heq
        subst heq
        exact .here _
      · rename_i hne
        exact .behind (lt_of_not_lt_of_ne hlt hne) ih

/-- Other keys come only where they do not stand in the way. -/
theorem Stands.insertNew {value : β} {entries : List (String × β)}
    (h : Stands key (entries.map Prod.fst)) :
    Stands key ((Keyed.insertNew k value entries).map Prod.fst) := by
  unfold Keyed.insertNew
  induction entries with
  | nil => cases h
  | cons entry rest ih =>
    obtain ⟨j, v⟩ := entry
    rw [alter]
    split
    · rename_i hlt
      have hkey : k < key := by
        cases h with
        | here => exact hlt
        | behind hj _ => exact String.lt_trans hlt hj
      exact .behind hkey h
    · split
      · exact h
      · rw [List.map_cons] at h ⊢
        cases h with
        | here => exact .here _
        | behind hj hrest => exact .behind hj (ih hrest)

end Keyed

namespace Tree

variable {t : Tree} {children : List Tree} {key : String}

theorem stands_addEdges_of_stands (h : Keyed.Stands key (t.edges.map Prod.fst)) :
    Keyed.Stands key ((t.addEdges children).edges.map Prod.fst) := by
  induction children generalizing t with
  | nil => exact h
  | cons child children ih =>
    rw [addEdges_cons]
    exact ih h.insertNew

/-- Every child that was added has its edge. -/
theorem stands_addEdges {child : Tree} (h : child ∈ children) :
    Keyed.Stands child.name ((t.addEdges children).edges.map Prod.fst) := by
  induction children generalizing t with
  | nil => cases h
  | cons first children ih =>
    rw [addEdges_cons]
    rcases List.mem_cons.mp h with rfl | h
    · exact stands_addEdges_of_stands (Keyed.stands_insertNew child.name child t.edges)
    · exact ih h

/-- Children that all have an edge add nothing. -/
theorem addEdges_eq_self
    (h : ∀ child ∈ children, Keyed.Stands child.name (t.edges.map Prod.fst)) :
    t.addEdges children = t := by
  induction children with
  | nil =>
    cases t
    rfl
  | cons first children ih =>
    rw [addEdges_cons, Keyed.insertNew_of_stands (h first List.mem_cons_self)]
    exact ih fun child hmem => h child (List.mem_cons_of_mem first hmem)

end Tree

section Edges

variable {load : Tree → Logged Loaded} {edges : List (String × Tree)}

theorem loadEdges_next {key : String} {child : Tree} {rest : List (String × Tree)}
    (h : (load child).value.failure = none) :
    loadEdges load ((key, child) :: rest) =
      ⟨((key, (load child).value.tree) :: (loadEdges load rest).value.1,
        (loadEdges load rest).value.2), (load child).log ++ (loadEdges load rest).log⟩ := by
  apply Logged.ext
  · rw [value_loadEdges_next h]
  · rw [loadEdges, Logged.log_bind, h]
    simp

/-- Loading edges keeps their names. -/
theorem keys_loadEdges (load : Tree → Logged Loaded) (edges : List (String × Tree)) :
    (loadEdges load edges).value.1.map Prod.fst = edges.map Prod.fst := by
  induction edges with
  | nil => rfl
  | cons edge rest ih =>
    obtain ⟨key, child⟩ := edge
    cases hchild : (load child).value.failure with
    | some failure => rw [value_loadEdges_stopped hchild, List.map_cons, List.map_cons]
    | none => rw [value_loadEdges_next hchild, List.map_cons, ih, List.map_cons]

/-- Children that are loaded again without a change make edges that are. -/
theorem loadEdges_again (hok : (loadEdges load edges).value.2 = none)
    (hagain : ∀ edge ∈ edges, (load edge.2).value.failure = none →
      load (load edge.2).value.tree = load edge.2) :
    loadEdges load (loadEdges load edges).value.1 = loadEdges load edges := by
  induction edges with
  | nil => rfl
  | cons edge rest ih =>
    obtain ⟨key, child⟩ := edge
    have hchild : (load child).value.failure = none :=
      (loadEdges_ok hok).1 _ List.mem_cons_self
    have hself := hagain _ List.mem_cons_self hchild
    rw [value_loadEdges_next hchild] at hok
    have hrest := ih hok fun e he => hagain e (List.mem_cons_of_mem _ he)
    rw [value_loadEdges_next hchild, loadEdges_next (by rw [hself]; exact hchild), hself, hrest,
      loadEdges_next hchild]

end Edges

namespace Sources

variable {s : Sources}

theorem loadBelow_again {active : List String} {node : Tree}
    (hok : (s.loadBelow active node).value.failure = none) :
    s.loadBelow active (s.loadBelow active node).value.tree = s.loadBelow active node := by
  induction active, node using loadBelow.induct s with
  | case1 active node hnone =>
    rw [loadBelow_unresolved hnone]
    exact loadBelow_unresolved hnone
  | case2 active node file hfile hactive =>
    rw [loadBelow_active hfile hactive]
    exact loadBelow_active hfile hactive
  | case3 active node file hfile hactive ih =>
    cases htags : s.tags file with
    | error failure =>
      rw [loadBelow_broken hfile hactive htags] at hok
      cases hok
    | ok tags =>
      rcases hkeys : s.registry.references tags with ⟨keys, told⟩
      by_cases hne : keys = []
      · subst hne
        rw [loadBelow_leaf hfile hactive htags hkeys]
        exact loadBelow_leaf hfile hactive htags hkeys
      · rcases hedges : loadEdges (s.loadBelow (file :: active))
            (node.addEdges (keys.map Tree.bare)).edges with ⟨⟨edges, failure⟩, below⟩
        rw [loadBelow_expanded hfile hactive htags hkeys hne hedges] at hok ⊢
        obtain rfl : failure = none := hok
        have hnames := keys_loadEdges (s.loadBelow (file :: active))
          (node.addEdges (keys.map Tree.bare)).edges
        have hagain : loadEdges (s.loadBelow (file :: active)) _ = _ :=
          loadEdges_again (by rw [hedges]) fun edge _ => ih edge.2
        rw [hedges] at hnames hagain
        -- What the file mentions has its edges from the first time.
        let loaded : Tree := ⟨node.name, edges⟩
        have hloaded : s.registry.resolve? loaded.name = some file := hfile
        have hsame : loaded.addEdges (keys.map Tree.bare) = loaded := by
          refine Tree.addEdges_eq_self fun child hchild => ?_
          rw [show loaded.edges.map Prod.fst = _ from hnames]
          exact Tree.stands_addEdges hchild
        exact loadBelow_expanded hloaded hactive htags hkeys hne (by rw [hsame]; exact hagain)

end Sources

/-- **Loading twice is loading once.** If loading a node succeeds, whatever edges it has, then so
does loading what has become of it, which leaves that as it is and tells the same again. -/
theorem load_again {s : Sources} {node : Tree} (h : (s.load node).value.failure = none) :
    s.load (s.load node).value.tree = s.load node :=
  Sources.loadBelow_again h

/-- The node has an edge that its file does not mention, and its file mentions itself. -/
theorem load_again_pair :
    let loaded : Tree :=
      ⟨"App", [("App", .bare "App"), ("Box", .bare "Box"), ("Own", .bare "Own")]⟩
    (Sources.pair.load ⟨"App", [("Own", .bare "Own")]⟩).value = ⟨loaded, none⟩ ∧
      Sources.pair.load loaded = Sources.pair.load ⟨"App", [("Own", .bare "Own")]⟩ := by
  intro loaded
  have hvalue : (Sources.pair.load ⟨"App", [("Own", .bare "Own")]⟩).value = ⟨loaded, none⟩ := by
    have hloaded : (Sources.pair.load ⟨"App", [("Own", .bare "Own")]⟩).value.tree = loaded ∧
        (Sources.pair.load ⟨"App", [("Own", .bare "Own")]⟩).value.failure = none := by
      decide +kernel
    rw [← hloaded.1, ← hloaded.2]
  have hagain : Sources.pair.load (Sources.pair.load ⟨"App", [("Own", .bare "Own")]⟩).value.tree =
      Sources.pair.load ⟨"App", [("Own", .bare "Own")]⟩ := load_again (by rw [hvalue])
  rw [hvalue] at hagain
  exact ⟨hvalue, hagain⟩

end ComponentGraph
