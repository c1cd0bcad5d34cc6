import ComponentGraph.Proofs.Unfolding
import Mathlib.Data.Finset.Card
import Mathlib.Data.Finset.SDiff
import Mathlib.Data.List.Dedup
import Mathlib.Logic.Function.Iterate
import Mathlib.Logic.Relation
/-!
# Loading ends

Loading is looked at as visits, each of a node below active files. A visit that expands its node
leads on to those children that the guard lets through: a child whose file is active is not
visited. Along the visits the active files never repeat, so no more of them lie below one another
than the registry has paths, and unrolled that many times and once more, loading asks for no
further visit. Nothing is assumed of the edges that a node has from the start, and no tree that
grows from a bare node is deeper than the visits that grew it.
-/

namespace ComponentGraph

/-- The different paths of the registry that are not active. -/
def Registry.free (r : Registry) (active : List String) : Finset String :=
  r.paths.toFinset \ active.toFinset

theorem Registry.mem_free {r : Registry} {active : List String} {path : String} :
    path ∈ r.free active ↔ path ∈ r.paths ∧ path ∉ active := by
  simp [free]

theorem Registry.card_free_cons_lt {r : Registry} {active : List String} {path : String}
    (hpath : path ∈ r.paths) (hactive : path ∉ active) :
    (r.free (path :: active)).card < (r.free active).card := by
  apply Finset.card_lt_card
  rw [Finset.ssubset_iff_of_subset]
  · exact ⟨path, mem_free.mpr ⟨hpath, hactive⟩, fun h => (mem_free.mp h).2 List.mem_cons_self⟩
  · intro p hp
    obtain ⟨hpaths, hfree⟩ := mem_free.mp hp
    exact mem_free.mpr ⟨hpaths, fun h => hfree (List.mem_cons_of_mem _ h)⟩

/-- A node that is loaded below active files, of which the latest comes first. -/
structure Visit where
  active : List String
  node : Tree

namespace Sources

variable {s : Sources}

/-- The files of a visit are registered, differ from each other, and differ from the file of its
node. -/
structure Guarded (s : Sources) (v : Visit) : Prop where
  nodup : v.active.Nodup
  registered : ∀ file ∈ v.active, file ∈ s.registry.paths
  fresh : ∀ file, s.registry.resolve? v.node.name = some file → file ∉ v.active

/-- Where a visit leads: to each child, old or new, of a node that is expanded, unless the child's
file is active. -/
inductive LeadsTo (s : Sources) : Visit → Visit → Prop
  | child {active : List String} {node child : Tree} {file key : String} {tags : List String} :
      s.registry.resolve? node.name = some file → s.tags file = .ok tags →
        (s.registry.references tags).value ≠ [] →
        (key, child) ∈
          (node.addEdges ((s.registry.references tags).value.map Tree.bare)).edges →
        (∀ path, s.registry.resolve? child.name = some path → path ∉ file :: active) →
          s.LeadsTo ⟨active, node⟩ ⟨file :: active, child⟩

/-- Visit a child, unless its file is active. -/
def visitFree (s : Sources) (visit : Visit → Logged Loaded) (active : List String)
    (child : Tree) : Logged Loaded :=
  match s.registry.resolve? child.name with
  | none => visit ⟨active, child⟩
  | some path =>
    if path ∈ active then do
      Logged.say .warn ("cycle detected: " ++ active.headD path ++ " -> " ++ path)
      pure ⟨child, none⟩
    else visit ⟨active, child⟩

/-- A single visit; those that it leads to are left to `visit`. -/
def visitOnce (s : Sources) (visit : Visit → Logged Loaded) (v : Visit) : Logged Loaded :=
  match s.registry.resolve? v.node.name with
  | none => do
    Logged.say .warn (v.node.name ++ " does not found in directory")
    pure ⟨v.node, none⟩
  | some file => do
    Logged.say .debug ("loading " ++ file)
    match s.tags file with
    | .error failure => pure ⟨v.node, some failure⟩
    | .ok tags => do
      let keys ← s.registry.references tags
      if keys.isEmpty then pure ⟨v.node, none⟩
      else do
        let (edges, failure) ← loadEdges (s.visitFree visit (file :: v.active))
          (v.node.addEdges (keys.map Tree.bare)).edges
        pure ⟨⟨v.node.name, edges⟩, failure⟩

/-! ## The guard is kept -/

theorem guarded_root (s : Sources) (node : Tree) : s.Guarded ⟨[], node⟩ :=
  ⟨List.nodup_nil, by simp, fun _ _ => List.not_mem_nil⟩

theorem Guarded.of_leadsTo {v w : Visit} (h : s.Guarded v) (hvw : s.LeadsTo v w) :
    s.Guarded w := by
  obtain ⟨hfile, _, _, _, hfresh⟩ := hvw
  refine ⟨List.nodup_cons.mpr ⟨h.fresh _ hfile, h.nodup⟩, ?_, hfresh⟩
  exact List.forall_mem_cons.mpr ⟨Registry.mem_paths_of_resolve? hfile, h.registered⟩

theorem Guarded.card_free_lt {v w : Visit} (h : s.Guarded v) (hvw : s.LeadsTo v w) :
    (s.registry.free w.active).card < (s.registry.free v.active).card := by
  obtain ⟨hfile, _, _, _, _⟩ := hvw
  exact Registry.card_free_cons_lt (Registry.mem_paths_of_resolve? hfile) (h.fresh _ hfile)

theorem guarded_of_visits {node : Tree} {v : Visit}
    (h : Relation.ReflTransGen s.LeadsTo ⟨[], node⟩ v) : s.Guarded v := by
  induction h with
  | refl => exact guarded_root s node
  | tail _ hvw ih => exact ih.of_leadsTo hvw

/-! ## Loading is made of visits -/

theorem visitFree_congr {f g : Visit → Logged Loaded} {active : List String} {child : Tree}
    (h : (∀ path, s.registry.resolve? child.name = some path → path ∉ active) →
      f ⟨active, child⟩ = g ⟨active, child⟩) :
    s.visitFree f active child = s.visitFree g active child := by
  unfold visitFree
  split
  · rename_i hnone
    exact h fun path hpath => absurd (hnone.symm.trans hpath) (by simp)
  · rename_i found hfound
    split
    · rfl
    · rename_i hfree
      refine h fun path hpath => ?_
      rwa [← Option.some.inj (hfound.symm.trans hpath)]

/-- A visit asks for nothing but the visits that it leads to. -/
theorem visitOnce_congr {f g : Visit → Logged Loaded} {v : Visit}
    (h : ∀ w, s.LeadsTo v w → f w = g w) : s.visitOnce f v = s.visitOnce g v := by
  unfold visitOnce
  cases hfile : s.registry.resolve? v.node.name with
  | none => rfl
  | some file =>
    cases htags : s.tags file with
    | error failure => simp only [htags]
    | ok tags =>
      rcases hkeys : s.registry.references tags with ⟨keys, told⟩
      by_cases hne : keys = []
      · subst hne
        simp only [htags]
        apply Logged.ext <;> simp [hkeys]
      · have hedges : loadEdges (s.visitFree f (file :: v.active))
              (v.node.addEdges (keys.map Tree.bare)).edges =
            loadEdges (s.visitFree g (file :: v.active))
              (v.node.addEdges (keys.map Tree.bare)).edges := by
          refine loadEdges_congr fun edge hmem => visitFree_congr fun hfree => h _ ?_
          obtain ⟨key, child⟩ := edge
          exact .child hfile htags (by rwa [hkeys]) (by rw [hkeys]; exact hmem) hfree
        simp only [htags]
        apply Logged.ext <;> simp [hkeys, hne, hedges]

/-- The guard of a child may as well stand where the child is loaded. -/
theorem visitFree_loadBelow (active : List String) (child : Tree) :
    s.visitFree (fun v => s.loadBelow v.active v.node) active child =
      s.loadBelow active child := by
  unfold visitFree
  split
  · rfl
  · rename_i path hpath
    split
    · rename_i hactive
      rw [loadBelow_active hpath hactive]
      rfl
    · rfl

theorem visitOnce_loadBelow {v : Visit} (h : s.Guarded v) :
    s.visitOnce (fun w => s.loadBelow w.active w.node) v = s.loadBelow v.active v.node := by
  cases hfile : s.registry.resolve? v.node.name with
  | none =>
    rw [loadBelow_unresolved hfile, visitOnce, hfile]
    rfl
  | some file =>
    have hload := loadBelow_inactive hfile (h.fresh file hfile)
    have hfun : s.visitFree (fun w => s.loadBelow w.active w.node) (file :: v.active) =
        s.loadBelow (file :: v.active) := funext (visitFree_loadBelow _)
    rw [← hfun] at hload
    rw [visitOnce, hfile]
    exact hload.symm

/-- Unrolled more often than paths are free, loading asks for no further visit. -/
theorem iterate_visitOnce (below : Visit → Logged Loaded) {n : Nat} {v : Visit} (h : s.Guarded v)
    (hn : (s.registry.free v.active).card < n) :
    s.visitOnce^[n] below v = s.loadBelow v.active v.node := by
  induction n generalizing v with
  | zero => exact absurd hn (Nat.not_lt_zero _)
  | succ n ih =>
    rw [Function.iterate_succ_apply', ← visitOnce_loadBelow h]
    refine visitOnce_congr fun w hvw => ih (h.of_leadsTo hvw) ?_
    exact Nat.lt_of_lt_of_le (h.card_free_lt hvw) (Nat.le_of_lt_succ hn)

/-! ## How deep a tree grows -/

/-- What grows from a bare node below active files, whether or not loading succeeds: a bare node, or
one whose file was free and is active for all that hangs below it. -/
inductive Grown (s : Sources) : List String → Tree → Prop
  | bare (active : List String) (name : String) : s.Grown active (.bare name)
  | expanded {active : List String} {name file : String} {edges : List (String × Tree)} :
      s.registry.resolve? name = some file → file ∉ active →
        (∀ key child, (key, child) ∈ edges → s.Grown (file :: active) child) →
          s.Grown active ⟨name, edges⟩

theorem grown_loadBelow (active : List String) (name : String) :
    s.Grown active (s.loadBelow active (.bare name)).value.tree := by
  generalize hnode : Tree.bare name = node
  induction active, node using loadBelow.induct s generalizing name with
  | case1 active node hnone =>
    subst hnode
    rw [loadBelow_unresolved hnone]
    exact .bare active name
  | case2 active node file hfile hactive =>
    subst hnode
    rw [loadBelow_active hfile hactive]
    exact .bare active name
  | case3 active node file hfile hactive ih =>
    subst hnode
    cases htags : s.tags file with
    | error failure =>
      rw [loadBelow_broken hfile hactive htags]
      exact .bare active name
    | ok tags =>
      rcases hkeys : s.registry.references tags with ⟨keys, told⟩
      by_cases hne : keys = []
      · subst hne
        rw [loadBelow_leaf hfile hactive htags hkeys]
        exact .bare active name
      · rcases hedges : loadEdges (s.loadBelow (file :: active))
            ((Tree.bare name).addEdges (keys.map Tree.bare)).edges with ⟨⟨edges, failure⟩, below⟩
        rw [loadBelow_expanded hfile hactive htags hkeys hne hedges]
        refine .expanded hfile hactive fun key child hmem => ?_
        obtain ⟨old, hold, hchild⟩ := mem_loadEdges (by rw [hedges]; exact hmem)
        obtain rfl := (mem_edges_bare.mp hold).1
        -- A failure leaves the children behind it as they are.
        rcases hchild with rfl | rfl
        · exact .bare (file :: active) key
        · exact ih (.bare key) key rfl

/-- Below a grown node the files of a chain, its last node aside, differ from each other and were
free. -/
theorem Grown.files_of_chain {active : List String} {t : Tree} (h : s.Grown active t)
    {chain : List Tree} (hchain : (t :: chain).IsChain fun u child => child.IsChildOf u) :
    ∃ files : List String,
      (t :: chain).dropLast.map (fun u => s.registry.resolve? u.name) = files.map some ∧
        files.Nodup ∧ ∀ file ∈ files, file ∈ s.registry.free active := by
  induction h generalizing chain with
  | bare active name =>
    cases chain with
    | nil => exact ⟨[], rfl, List.nodup_nil, by simp⟩
    | cons u chain =>
      obtain ⟨key, hedge⟩ := (List.isChain_cons_cons.mp hchain).1
      cases hedge
  | @expanded active name file edges hfile hactive _ ih =>
    cases chain with
    | nil => exact ⟨[], rfl, List.nodup_nil, by simp⟩
    | cons u chain =>
      obtain ⟨⟨key, hedge⟩, hrest⟩ := List.isChain_cons_cons.mp hchain
      obtain ⟨files, hmap, hnodup, hfree⟩ := ih key u hedge hrest
      have hnew : file ∉ files := fun hmem =>
        (Registry.mem_free.mp (hfree file hmem)).2 List.mem_cons_self
      refine ⟨file :: files, ?_, List.nodup_cons.mpr ⟨hnew, hnodup⟩, ?_⟩
      · rw [List.dropLast_cons_cons, List.map_cons, hmap, List.map_cons, hfile]
      · refine List.forall_mem_cons.mpr ⟨?_, fun f hf => ?_⟩
        · exact Registry.mem_free.mpr ⟨Registry.mem_paths_of_resolve? hfile, hactive⟩
        · obtain ⟨hpath, hactive'⟩ := Registry.mem_free.mp (hfree f hf)
          exact Registry.mem_free.mpr ⟨hpath, fun h => hactive' (List.mem_cons_of_mem _ h)⟩

/-- The second component of the pair is visited from the first. -/
theorem leadsTo_pair_box :
    pair.LeadsTo ⟨[], .bare "App"⟩ ⟨["App.vue"], .bare "Box"⟩ := by
  have hfile : pair.registry.resolve? "App" = some "App.vue" := by decide
  have hkeys : (pair.registry.references ["App", "box", "x"]).value = ["App", "Box"] := by decide
  have hfresh : ∀ path, pair.registry.resolve? "Box" = some path → path ∉ ["App.vue"] := by
    intro path hpath
    have hbox : pair.registry.resolve? "Box" = some "Box.vue" := by decide
    rw [← Option.some.inj (hbox.symm.trans hpath)]
    decide
  have hmem : ("Box", Tree.bare "Box") ∈ ((Tree.bare "App").addEdges
      ((pair.registry.references ["App", "box", "x"]).value.map Tree.bare)).edges := by
    rw [hkeys]
    decide
  exact .child hfile tags_pair_app (by rw [hkeys]; simp) hmem hfresh

end Sources

/-- **Loading ends.** Whatever edges the node has, the active files of each visit are registered and
differ from each other and from the file that is expanded next. A visit asks for no other visits
than those it leads to, and these have fewer free paths, so that loading is unrolled in full after
one round more than the registry has different paths. What grows from a bare node has no chain with
more nodes than that, and the files of a chain are different, that of its last node aside. -/
theorem load_ends (s : Sources) (node : Tree) :
    (∀ v, Relation.ReflTransGen s.LeadsTo ⟨[], node⟩ v → s.Guarded v ∧
      ∀ w, s.LeadsTo v w →
        (s.registry.free w.active).card < (s.registry.free v.active).card) ∧
    (∀ f g v, (∀ w, s.LeadsTo v w → f w = g w) → s.visitOnce f v = s.visitOnce g v) ∧
    (∀ below n, s.registry.paths.toFinset.card < n →
      s.visitOnce^[n] below ⟨[], node⟩ = s.load node) ∧
    (node.edges = [] → ∀ chain : List Tree,
      ((s.load node).value.tree :: chain).IsChain (fun u child => child.IsChildOf u) →
        ((s.load node).value.tree :: chain).length ≤ s.registry.paths.toFinset.card + 1 ∧
        ∃ files : List String,
          ((s.load node).value.tree :: chain).dropLast.map
            (fun u => s.registry.resolve? u.name) = files.map some ∧ files.Nodup) := by
  refine ⟨fun v hv => ?_, fun _ _ _ => Sources.visitOnce_congr, fun below n hn => ?_, ?_⟩
  · have hguarded := Sources.guarded_of_visits hv
    exact ⟨hguarded, fun w => hguarded.card_free_lt⟩
  · refine Sources.iterate_visitOnce below (Sources.guarded_root s node) ?_
    exact Nat.lt_of_le_of_lt (Finset.card_le_card Finset.sdiff_subset) hn
  · intro hbare chain hchain
    obtain ⟨name, edges⟩ := node
    obtain rfl : edges = [] := hbare
    have hgrown : s.Grown [] (s.load ⟨name, []⟩).value.tree := Sources.grown_loadBelow [] name
    obtain ⟨files, hmap, hnodup, hfree⟩ := hgrown.files_of_chain hchain
    refine ⟨?_, files, hmap, hnodup⟩
    have hlength : chain.length = files.length := by
      simpa using congrArg List.length hmap
    have hsub : files.toFinset ⊆ s.registry.paths.toFinset := by
      intro file hfile
      rw [List.mem_toFinset] at hfile ⊢
      exact (Registry.mem_free.mp (hfree file hfile)).1
    rw [List.length_cons, hlength, ← List.toFinset_card_of_nodup hnodup]
    exact Nat.succ_le_succ (Finset.card_le_card hsub)

theorem load_ends_pair :
    Sources.pair.registry.paths.toFinset.card = 2 ∧
      Sources.pair.Guarded ⟨["App.vue"], .bare "Box"⟩ ∧
      (∀ below, Sources.pair.visitOnce^[3] below ⟨[], .bare "App"⟩ =
        Sources.pair.load (.bare "App")) ∧
      (⟨"App", [("App", .bare "App"), ("Box", .bare "Box")]⟩ :: [Tree.bare "App"]).IsChain
        (fun u child => child.IsChildOf u) ∧
      ∃ files : List String, [Sources.pair.registry.resolve? "App"] = files.map some ∧
        files.Nodup := by
  have hcard : Sources.pair.registry.paths.toFinset.card = 2 := by decide
  obtain ⟨hvisits, _, hunrolled, hchains⟩ := load_ends Sources.pair (.bare "App")
  have hchain : (⟨"App", [("App", .bare "App"), ("Box", .bare "Box")]⟩ ::
      [Tree.bare "App"]).IsChain (fun u child => child.IsChildOf u) := by
    refine List.isChain_cons_cons.mpr ⟨⟨"App", List.mem_cons_self⟩, .singleton _⟩
  have hfiles := hchains rfl [Tree.bare "App"]
  rw [Sources.load_pair_app] at hfiles
  refine ⟨hcard, (hvisits _ (.single Sources.leadsTo_pair_box)).1, fun below => ?_, hchain,
    (hfiles hchain).2⟩
  exact hunrolled below 3 (by rw [hcard]; decide)

end ComponentGraph
