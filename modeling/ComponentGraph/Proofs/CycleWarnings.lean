import ComponentGraph.Proofs.Unfolding
import Mathlib.Data.List.Chain
import Mathlib.Logic.Relation
import Mathlib.Tactic.ByContra
/-!
# Warnings about cycles

Loading warns of a cycle where it cuts a chain, at a reference back to a file that is being
expanded. The active files are a path of references, so each warning tells of a reference that
closes a cycle. If there is no warning, then no chain was cut, every reference that can be reached
was followed to its end, and the references below the file are well-founded.
-/

namespace ComponentGraph

/-- The file mentions a component that lies in the other. -/
def Sources.RefersTo (s : Sources) (file other : String) : Prop :=
  ∃ key, s.Refers file key ∧ s.registry.get? key = some other

/-- What is told where `file` refers to the active file `other`. -/
def Notice.ofCycle (file other : String) : Notice :=
  ⟨.warn, "cycle detected: " ++ file ++ " -> " ++ other⟩

/-- A warning about a cycle is told from others by its beginning. -/
def Notice.TellsCycle (n : Notice) : Prop :=
  n.level = .warn ∧ "cycle detected: ".toList <+: n.text.toList

theorem Notice.tellsCycle_ofCycle (file other : String) : (ofCycle file other).TellsCycle := by
  refine ⟨rfl, ?_⟩
  rw [ofCycle, String.append_assoc, String.append_assoc, String.toList_append]
  exact List.prefix_append _ _

theorem Notice.not_tellsCycle_debug (text : String) : ¬ TellsCycle ⟨.debug, text⟩ :=
  fun h => nomatch h.1

theorem Notice.not_tellsCycle_unresolved (tag : String) :
    ¬ TellsCycle ⟨.warn, "unresolved tag <" ++ tag ++ ">"⟩ := by
  rintro ⟨-, hprefix⟩
  rw [String.append_assoc, String.toList_append] at hprefix
  exact absurd (List.cons_prefix_cons.mp hprefix).1 (by decide)

/-! ## Where notices come from -/

theorem Registry.mem_log_references {r : Registry} {tags : List String} {n : Notice}
    (h : n ∈ (r.references tags).log) :
    ∃ tag, n = ⟨.warn, "unresolved tag <" ++ tag ++ ">"⟩ := by
  induction tags with
  | nil => cases h
  | cons tag rest ih =>
    rw [references] at h
    split at h
    · exact ih h
    · split at h
      · rw [Logged.log_bind, List.mem_append] at h
        rcases h with h | h
        · exact ⟨tag, List.mem_singleton.mp h⟩
        · exact ih h
      · rw [Logged.log_bind, Logged.log_pure, List.append_nil] at h
        exact ih h

section Edges

variable {load : Tree → Logged Loaded} {edges : List (String × Tree)} {n : Notice}

theorem log_loadEdges_cons (key : String) (child : Tree) (rest : List (String × Tree)) :
    (loadEdges load ((key, child) :: rest)).log =
      (load child).log ++
        if (load child).value.failure = none then (loadEdges load rest).log else [] := by
  rw [loadEdges, Logged.log_bind]
  cases hchild : (load child).value.failure with
  | some failure => rfl
  | none => simp

theorem exists_edge_of_mem_log (h : n ∈ (loadEdges load edges).log) :
    ∃ edge ∈ edges, n ∈ (load edge.2).log := by
  induction edges with
  | nil => cases h
  | cons edge rest ih =>
    obtain ⟨key, child⟩ := edge
    rw [log_loadEdges_cons, List.mem_append] at h
    rcases h with h | h
    · exact ⟨_, List.mem_cons_self, h⟩
    · split at h
      · obtain ⟨edge, hedge, hn⟩ := ih h
        exact ⟨edge, List.mem_cons_of_mem _ hedge, hn⟩
      · cases h

/-- If all edges are loaded, nothing that is told on the way is lost. -/
theorem mem_log_loadEdges (hok : (loadEdges load edges).value.2 = none)
    {edge : String × Tree} (hedge : edge ∈ edges) (h : n ∈ (load edge.2).log) :
    n ∈ (loadEdges load edges).log := by
  obtain ⟨hchildren, -⟩ := loadEdges_ok hok
  induction edges with
  | nil => cases hedge
  | cons first rest ih =>
    obtain ⟨key, child⟩ := first
    have hchild : (load child).value.failure = none := hchildren _ List.mem_cons_self
    rw [value_loadEdges_next hchild] at hok
    rw [log_loadEdges_cons, if_pos hchild, List.mem_append]
    rcases List.mem_cons.mp hedge with rfl | hedge
    · exact .inl h
    · exact .inr (ih hok hedge fun e he => hchildren e (List.mem_cons_of_mem _ he))

end Edges

namespace Sources

variable {s : Sources} {active : List String} {root file name : String} {n : Notice}

/-! ## Each warning tells of a cycle -/

/-- The active files, of which the latest comes first, are a path of references to the file, which
can be reached from the root. -/
structure Trail (s : Sources) (root : String) (active : List String) (file : String) : Prop where
  path : (file :: active).IsChain fun other f => s.RefersTo f other
  reached : Relation.ReflTransGen s.RefersTo root file

theorem trail_root (s : Sources) (root : String) : s.Trail root [] root :=
  ⟨.singleton _, .refl⟩

theorem Trail.cons (h : s.Trail root active file) {other : String}
    (hother : s.RefersTo file other) : s.Trail root (file :: active) other :=
  ⟨List.isChain_cons_cons.mpr ⟨hother, h.path⟩, h.reached.tail hother⟩

theorem reaches_head {f : String} (h : (f :: active).IsChain fun other f => s.RefersTo f other) :
    ∀ g ∈ f :: active, Relation.ReflTransGen s.RefersTo g f := by
  induction active generalizing f with
  | nil =>
    intro g hg
    rw [List.mem_singleton.mp hg]
  | cons f' active ih =>
    obtain ⟨hlast, hrest⟩ := List.isChain_cons_cons.mp h
    intro g hg
    rcases List.mem_cons.mp hg with rfl | hg
    · exact .refl
    · exact (ih hrest g hg).tail hlast

/-- An active file is referred to by the latest, which can be reached from it. -/
theorem Trail.closes (h : s.Trail root active file) (hactive : file ∈ active) :
    s.RefersTo (active.headD file) file ∧
      Relation.ReflTransGen s.RefersTo file (active.headD file) := by
  cases active with
  | nil => cases hactive
  | cons f active =>
    obtain ⟨hlast, hpath⟩ := List.isChain_cons_cons.mp h.path
    exact ⟨hlast, reaches_head hpath file hactive⟩

theorem closes_of_tellsCycle (hfile : s.registry.resolve? name = some file)
    (htrail : s.Trail root active file) (hn : n ∈ (s.loadBelow active (.bare name)).log)
    (hcycle : n.TellsCycle) :
    ∃ f g, n = .ofCycle f g ∧ s.RefersTo f g ∧ Relation.ReflTransGen s.RefersTo g f ∧
      Relation.ReflTransGen s.RefersTo root g := by
  generalize hnode : Tree.bare name = node at hn
  induction active, node using loadBelow.induct s generalizing file name with
  | case1 active node hnone =>
    subst hnode
    exact absurd (hnone.symm.trans hfile) (by simp)
  | case2 active node found hfound hactive =>
    subst hnode
    obtain rfl := Option.some.inj (hfound.symm.trans hfile)
    rw [loadBelow_active hfound hactive] at hn
    obtain ⟨hrefers, hback⟩ := htrail.closes hactive
    exact ⟨_, _, List.mem_singleton.mp hn, hrefers, hback, htrail.reached⟩
  | case3 active node found hfound hactive ih =>
    subst hnode
    obtain rfl := Option.some.inj (hfound.symm.trans hfile)
    cases htags : s.tags found with
    | error failure =>
      rw [loadBelow_broken hfound hactive htags, List.mem_singleton] at hn
      exact absurd (hn ▸ hcycle) (Notice.not_tellsCycle_debug _)
    | ok tags =>
      rcases hkeys : s.registry.references tags with ⟨keys, told⟩
      -- What is told of the file itself is no warning about a cycle.
      have htold : n ∉ (⟨.debug, "loading " ++ found⟩ : Notice) :: told := by
        rw [List.mem_cons, not_or]
        refine ⟨fun heq => Notice.not_tellsCycle_debug _ (heq ▸ hcycle), fun hmem => ?_⟩
        obtain ⟨tag, rfl⟩ := Registry.mem_log_references (by rw [hkeys]; exact hmem)
        exact Notice.not_tellsCycle_unresolved tag hcycle
      by_cases hne : keys = []
      · subst hne
        rw [loadBelow_leaf hfound hactive htags hkeys] at hn
        exact absurd hn htold
      · rcases hedges : loadEdges (s.loadBelow (found :: active))
          ((Tree.bare name).addEdges (keys.map Tree.bare)).edges with ⟨⟨edges, failure⟩, below⟩
        rw [loadBelow_expanded hfound hactive htags hkeys hne hedges] at hn
        have hbelow : n ∈ below := by
          rw [← List.cons_append, List.mem_append] at hn
          exact hn.resolve_left htold
        obtain ⟨⟨key, child⟩, hedge, hchild⟩ :=
          exists_edge_of_mem_log (by rw [hedges]; exact hbelow)
        obtain ⟨rfl, hkey⟩ := mem_edges_bare.mp hedge
        have hrefers : s.Refers found key := by
          rwa [refers_iff_mem_references htags, hkeys]
        obtain ⟨path, hpath⟩ := hrefers.get?
        exact ih (.bare key) (Registry.resolve?_of_get? hpath)
          (htrail.cons ⟨key, hrefers, hpath⟩) rfl hchild

/-! ## Without a warning there is no cycle -/

theorem acc_of_quiet (hfile : s.registry.resolve? name = some file)
    (hload : (s.loadBelow active (.bare name)).value.failure = none)
    (hquiet : ∀ n ∈ (s.loadBelow active (.bare name)).log, ¬ n.TellsCycle) :
    Acc (fun g f => s.RefersTo f g) file := by
  generalize hnode : Tree.bare name = node at hload hquiet
  induction active, node using loadBelow.induct s generalizing file name with
  | case1 active node hnone =>
    subst hnode
    exact absurd (hnone.symm.trans hfile) (by simp)
  | case2 active node found hfound hactive =>
    subst hnode
    rw [loadBelow_active hfound hactive] at hquiet
    exact absurd (Notice.tellsCycle_ofCycle _ _) (hquiet _ List.mem_cons_self)
  | case3 active node found hfound hactive ih =>
    subst hnode
    obtain rfl := Option.some.inj (hfound.symm.trans hfile)
    cases htags : s.tags found with
    | error failure =>
      rw [loadBelow_broken hfound hactive htags] at hload
      cases hload
    | ok tags =>
      rcases hkeys : s.registry.references tags with ⟨keys, told⟩
      refine ⟨_, fun other hbelow => ?_⟩
      obtain ⟨key, hrefers, hother⟩ := hbelow
      have hkey : key ∈ keys := by rwa [refers_iff_mem_references htags, hkeys] at hrefers
      have hne : keys ≠ [] := List.ne_nil_of_mem hkey
      rcases hedges : loadEdges (s.loadBelow (found :: active))
        ((Tree.bare name).addEdges (keys.map Tree.bare)).edges with ⟨⟨edges, failure⟩, below⟩
      rw [loadBelow_expanded hfound hactive htags hkeys hne hedges] at hload hquiet
      have hok : (loadEdges (s.loadBelow (found :: active))
          ((Tree.bare name).addEdges (keys.map Tree.bare)).edges).value.2 = none := by
        rw [hedges]
        exact hload
      have hedge : (key, Tree.bare key) ∈
          ((Tree.bare name).addEdges (keys.map Tree.bare)).edges :=
        mem_edges_bare.mpr ⟨rfl, hkey⟩
      refine ih (.bare key) (Registry.resolve?_of_get? hother) rfl ?_ fun n hn => ?_
      · exact (loadEdges_ok hok).1 _ hedge
      · have hbelow := mem_log_loadEdges hok hedge hn
        rw [hedges] at hbelow
        exact hquiet n (List.mem_cons_of_mem _ (List.mem_append_right _ hbelow))

theorem not_cycle_of_acc (h : Acc (fun g f => s.RefersTo f g) file) :
    ∀ f, Relation.ReflTransGen s.RefersTo file f → ¬ Relation.TransGen s.RefersTo f f := by
  induction h with
  | intro file _ ih =>
    intro f hreach hcycle
    rcases hreach.cases_head with rfl | ⟨g, hfirst, hrest⟩
    · obtain ⟨g, hfirst, hback⟩ := Relation.TransGen.head'_iff.mp hcycle
      exact ih g hfirst _ hback hcycle
    · exact ih g hfirst f hrest hcycle

end Sources

/-- **Loading warns exactly of cycles.** There is a warning about a cycle if and only if a cycle of
references can be reached from the file of the node, and each such warning tells of a reference
that closes one. -/
theorem load_tellsCycle_iff (s : Sources) {name file : String}
    (hfile : s.registry.resolve? name = some file)
    (hload : (s.load (.bare name)).value.failure = none) :
    ((∃ n ∈ (s.load (.bare name)).log, n.TellsCycle) ↔
      ∃ f, Relation.ReflTransGen s.RefersTo file f ∧ Relation.TransGen s.RefersTo f f) ∧
    ∀ n ∈ (s.load (.bare name)).log, n.TellsCycle →
      ∃ f g, n = .ofCycle f g ∧ s.RefersTo f g ∧ Relation.ReflTransGen s.RefersTo g f := by
  have hcloses : ∀ n ∈ (s.load (.bare name)).log, n.TellsCycle →
      ∃ f g, n = .ofCycle f g ∧ s.RefersTo f g ∧ Relation.ReflTransGen s.RefersTo g f ∧
        Relation.ReflTransGen s.RefersTo file g :=
    fun n => Sources.closes_of_tellsCycle hfile (Sources.trail_root s file)
  refine ⟨⟨?_, ?_⟩, fun n hn hcycle => ?_⟩
  · rintro ⟨n, hn, hcycle⟩
    obtain ⟨f, g, -, hrefers, hback, hreach⟩ := hcloses n hn hcycle
    exact ⟨g, hreach, .tail' hback hrefers⟩
  · rintro ⟨f, hreach, hcycle⟩
    by_contra hquiet
    refine Sources.not_cycle_of_acc (Sources.acc_of_quiet hfile hload ?_) f hreach hcycle
    exact fun n hn htells => hquiet ⟨n, hn, htells⟩
  · obtain ⟨f, g, hnotice, hrefers, hback, -⟩ := hcloses n hn hcycle
    exact ⟨f, g, hnotice, hrefers, hback⟩

theorem load_tellsCycle_iff_pair :
    Sources.pair.registry.resolve? "App" = some "App.vue" ∧
      (Sources.pair.load (.bare "App")).value.failure = none ∧
      ∃ n ∈ (Sources.pair.load (.bare "App")).log, n.TellsCycle := by
  have hfile : Sources.pair.registry.resolve? "App" = some "App.vue" := by decide
  have hload : (Sources.pair.load (.bare "App")).value.failure = none := by
    rw [Sources.load_pair_app]
  have hrefers : Sources.pair.RefersTo "App.vue" "App.vue" := by
    refine ⟨"App", ⟨_, Sources.tags_pair_app, "App", List.mem_cons_self, ?_⟩, by decide⟩
    exact ⟨by decide +kernel, "App.vue", by decide +kernel⟩
  exact ⟨hfile, hload, (load_tellsCycle_iff Sources.pair hfile hload).1.mpr
    ⟨"App.vue", .refl, .single hrefers⟩⟩

end ComponentGraph
