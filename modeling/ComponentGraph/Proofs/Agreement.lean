import ComponentGraph.Proofs.Mentions
import ComponentGraph.Proofs.Unfolding
/-!
# Registries that agree

Loading asks a registry for the node it starts with and for the tags that files mention, and for
nothing else: what is registered beside them does not matter. In markup no tag is looked for under
a key with a slash, so that paths that are registered under themselves, as views are, are of no
consequence for the components below another.
-/

namespace ComponentGraph

namespace Registry

variable {r r' : Registry}

theorem references_congr {tags : List String} (h : ∀ tag ∈ tags, r.find? tag = r'.find? tag) :
    r.references tags = r'.references tags := by
  induction tags with
  | nil => rfl
  | cons tag rest ih =>
    rw [references, references, h tag List.mem_cons_self,
      ih fun t ht => h t (List.mem_cons_of_mem tag ht)]

theorem find?_congr {tag : String} (h : ∀ key ∈ Tag.spellings tag, r.get? key = r'.get? key) :
    r.find? tag = r'.find? tag := by
  rw [find?, find?]
  generalize Tag.spellings tag = keys at h
  induction keys with
  | nil => rfl
  | cons key keys ih =>
    rw [List.findSome?_cons, List.findSome?_cons, h key List.mem_cons_self,
      ih fun k hk => h k (List.mem_cons_of_mem key hk)]

/-- Paths that are registered under themselves are found, and change nothing else. -/
theorem get?_setAll_self (r : Registry) (paths : List String) (key : String) :
    (r.setAll (paths.map fun path => (path, path))).get? key =
      if key ∈ paths then some key else r.get? key := by
  induction paths generalizing r with
  | nil => rfl
  | cons path paths ih =>
    rw [List.map_cons, setAll, List.foldl_cons, ← setAll, ih, get?_set]
    by_cases hpaths : key ∈ paths
    · rw [if_pos hpaths, if_pos (List.mem_cons_of_mem path hpaths)]
    · by_cases hpath : key = path
      · rw [if_neg hpaths, if_pos hpath, if_pos (List.mem_cons.mpr (.inl hpath)), hpath]
      · rw [if_neg hpaths, if_neg hpath, if_neg (by simp [hpath, hpaths])]

end Registry

namespace Sources

variable {s s' : Sources}

/-- Both find the same tags in each file, and the same component for each of the tags. -/
structure Agree (s s' : Sources) : Prop where
  tags : ∀ file, s.tags file = s'.tags file
  find : ∀ file tags, s.tags file = .ok tags → ∀ tag ∈ tags,
    s.registry.find? tag = s'.registry.find? tag

/-- A node without children is loaded in the same way if it has the same file. -/
theorem Agree.loadBelow (h : s.Agree s') (active : List String) {name : String}
    (hname : s.registry.resolve? name = s'.registry.resolve? name) :
    s.loadBelow active (Tree.bare name) = s'.loadBelow active (Tree.bare name) := by
  cases hfile : s.registry.resolve? name with
  | none =>
    have hfile' := hname.symm.trans hfile
    rw [loadBelow_unresolved hfile, loadBelow_unresolved hfile']
  | some file =>
    have hfile' := hname.symm.trans hfile
    by_cases hactive : file ∈ active
    · rw [loadBelow_active hfile hactive, loadBelow_active hfile' hactive]
    · cases htags : s.tags file with
      | error failure =>
        have htags' := (h.tags file).symm.trans htags
        rw [loadBelow_broken hfile hactive htags, loadBelow_broken hfile' hactive htags']
      | ok tags =>
        have htags' := (h.tags file).symm.trans htags
        have hreferences := Registry.references_congr (h.find file tags htags)
        rcases hkeys : s.registry.references tags with ⟨keys, told⟩
        have hkeys' := hreferences.symm.trans hkeys
        by_cases hne : keys = []
        · subst hne
          rw [loadBelow_leaf hfile hactive htags hkeys, loadBelow_leaf hfile' hactive htags' hkeys']
        · have hchildren : loadEdges (s.loadBelow (file :: active))
              ((Tree.bare name).addEdges (keys.map Tree.bare)).edges =
              loadEdges (s'.loadBelow (file :: active))
                ((Tree.bare name).addEdges (keys.map Tree.bare)).edges := by
            apply loadEdges_congr
            rintro ⟨key, child⟩ hedge
            obtain ⟨rfl, hkey⟩ := mem_edges_bare.mp hedge
            have hkey : key ∈ (s.registry.references tags).value := by rwa [hkeys]
            obtain ⟨tag, htag, -, path, hfind⟩ := Registry.mem_references.mp hkey
            have hfind' := (h.find file tags htags tag htag).symm.trans hfind
            apply h.loadBelow (file :: active)
            rw [Registry.resolve?_of_get? (Registry.get?_of_find? hfind),
              Registry.resolve?_of_get? (Registry.get?_of_find? hfind')]
          rcases hedges : loadEdges (s.loadBelow (file :: active))
            ((Tree.bare name).addEdges (keys.map Tree.bare)).edges with ⟨⟨edges, failure⟩, below⟩
          have hedges' := hchildren.symm.trans hedges
          rw [loadBelow_expanded hfile hactive htags hkeys hne hedges,
            loadBelow_expanded hfile' hactive htags' hkeys' hne hedges']
termination_by s.registry.inactive active
decreasing_by exact Registry.inactive_lt (Registry.mem_paths_of_resolve? hfile) hactive

/-- In markup only keys without a slash matter. -/
theorem agree_markup (p : Project) {r r' : Registry}
    (h : ∀ key : String, '/' ∉ key.toList → r.get? key = r'.get? key) :
    Agree ⟨p, r, .markup⟩ ⟨p, r', .markup⟩ := by
  refine ⟨fun _ => rfl, fun file tags htags tag htag => Registry.find?_congr fun key hkey => ?_⟩
  exact h key (Tag.slash_not_mem_spellings (slash_not_mem_of_tags htags tag htag) key hkey)

end Sources

end ComponentGraph
