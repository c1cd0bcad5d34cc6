import ComponentGraph.Proofs.Loading
/-!
# A loaded tree is an unfolding

A file refers to the components that its template mentions. Loading unfolds this relation from
the file of the node, and cuts each chain below the first file that is repeated on it: the chains
of the loaded tree are those of references whose files are all different, the last one aside.
-/

namespace ComponentGraph

/-- The template of a file mentions a component that is found under the key. -/
def Sources.Refers (s : Sources) (file key : String) : Prop :=
  ∃ tags, s.tags file = .ok tags ∧
    ∃ tag ∈ tags, Tag.isPlainMarkup tag = false ∧ ∃ path, s.registry.find? tag = some (key, path)

/-- From a file, each key is referred to by the file before it; `files` are the keys' paths. -/
inductive Sources.Follows (s : Sources) : String → List String → List String → Prop
  | nil (file : String) : s.Follows file [] []
  | cons {file key next : String} {keys files : List String} :
      s.Refers file key → s.registry.get? key = some next → s.Follows next keys files →
        s.Follows file (key :: keys) (next :: files)

/-- The node of a file below active files, as far as it has to be unfolded: an active file is not
entered again, and any other has an edge for each of its references. -/
inductive Sources.Unfolds (s : Sources) : List String → String → Tree → Prop
  | cut {active : List String} {file name : String} :
      file ∈ active → s.Unfolds active file (Tree.bare name)
  | expanded {active : List String} {file name : String} {edges : List (String × Tree)} :
      file ∉ active → Keyed.Sorted edges →
        (∀ key, key ∈ edges.map Prod.fst ↔ s.Refers file key) →
        (∀ key child, (key, child) ∈ edges → child.name = key) →
        (∀ key child path, (key, child) ∈ edges → s.registry.get? key = some path →
          s.Unfolds (file :: active) path child) →
        s.Unfolds active file ⟨name, edges⟩

namespace Sources

variable {s : Sources} {active : List String} {file : String}

theorem refers_iff_mem_references {tags : List String} (htags : s.tags file = .ok tags)
    {key : String} : s.Refers file key ↔ key ∈ (s.registry.references tags).value := by
  rw [Registry.mem_references, Refers, htags]
  constructor
  · rintro ⟨tags', heq, h⟩
    cases heq
    exact h
  · exact fun h => ⟨tags, rfl, h⟩

/-- A reference leads to a key of the registry. -/
theorem Refers.get? {key : String} (h : s.Refers file key) :
    ∃ path, s.registry.get? key = some path := by
  obtain ⟨_, _, _, _, _, path, hfind⟩ := h
  exact ⟨path, Registry.get?_of_find? hfind⟩

/-- The edges of a node that gets its first children are bare and named by their keys. -/
theorem mem_edges_bare {name key : String} {keys : List String} {child : Tree} :
    (key, child) ∈ ((Tree.bare name).addEdges (keys.map Tree.bare)).edges ↔
      child = Tree.bare key ∧ key ∈ keys := by
  have hedge : ∀ {k c}, (k, c) ∈ ((Tree.bare name).addEdges (keys.map Tree.bare)).edges →
      c = Tree.bare k ∧ k ∈ keys := by
    intro k c hmem
    rcases Tree.mem_edges_addEdges hmem with hold | ⟨hnew, hname⟩
    · cases hold
    · obtain ⟨k', hk, rfl⟩ := List.mem_map.mp hnew
      obtain rfl : k' = k := hname
      exact ⟨rfl, hk⟩
  refine ⟨hedge, ?_⟩
  rintro ⟨rfl, hkey⟩
  have hmem : key ∈ ((Tree.bare name).addEdges (keys.map Tree.bare)).edges.map Prod.fst :=
    Tree.mem_keys_addEdges.mpr (.inr ⟨.bare key, List.mem_map_of_mem hkey, rfl⟩)
  obtain ⟨⟨k, c⟩, hfound, rfl⟩ := List.mem_map.mp hmem
  rwa [(hedge hfound).1] at hfound

/-- A node is unfolded once each of its references is. -/
theorem unfolds_of_children (name : String) {keys : List String} (hactive : file ∉ active)
    (hkeys : ∀ key, s.Refers file key ↔ key ∈ keys) {load : Tree → Tree}
    (hname : ∀ child, (load child).name = child.name)
    (hload : ∀ key path, (key, Tree.bare key) ∈
        ((Tree.bare name).addEdges (keys.map Tree.bare)).edges →
      s.registry.get? key = some path → s.Unfolds (file :: active) path (load (.bare key))) :
    s.Unfolds active file ⟨name, ((Tree.bare name).addEdges (keys.map Tree.bare)).edges.map
      fun edge => (edge.1, load edge.2)⟩ := by
  have hedge : ∀ {key child}, (key, child) ∈ ((Tree.bare name).addEdges
      (keys.map Tree.bare)).edges.map (fun edge => (edge.1, load edge.2)) →
      child = load (.bare key) ∧
        (key, Tree.bare key) ∈ ((Tree.bare name).addEdges (keys.map Tree.bare)).edges := by
    intro key child hmem
    obtain ⟨⟨k, c⟩, hold, heq⟩ := List.mem_map.mp hmem
    cases heq
    obtain rfl := (mem_edges_bare.mp hold).1
    exact ⟨rfl, hold⟩
  refine .expanded hactive ?_ (fun key => ?_) ?_ ?_
  · rw [Keyed.Sorted, List.map_map]
    exact Tree.sorted_addEdges (t := .bare name) List.Pairwise.nil (keys.map Tree.bare)
  · rw [List.map_map, hkeys, List.mem_map]
    constructor
    · rintro ⟨⟨k, c⟩, hmem, rfl⟩
      exact (mem_edges_bare.mp hmem).2
    · exact fun hkey => ⟨(key, .bare key), mem_edges_bare.mpr ⟨rfl, hkey⟩, rfl⟩
  · intro key child hmem
    rw [(hedge hmem).1, hname, Tree.name_bare]
  · intro key child path hmem hpath
    rw [(hedge hmem).1]
    exact hload key path (hedge hmem).2 hpath

/-- A node without edges whose loading succeeds is unfolded. -/
theorem unfolds_of_loadBelow {name : String} (hfile : s.registry.resolve? name = some file)
    (hload : (s.loadBelow active (.bare name)).value.failure = none) :
    s.Unfolds active file (s.loadBelow active (.bare name)).value.tree := by
  generalize hnode : Tree.bare name = node at hload ⊢
  induction active, node using loadBelow.induct s generalizing file name with
  | case1 active node hnone =>
    subst hnode
    exact absurd (hnone.symm.trans hfile) (by simp)
  | case2 active node found hfound hactive =>
    subst hnode
    obtain rfl := Option.some.inj (hfound.symm.trans hfile)
    rw [loadBelow_active hfound hactive]
    exact .cut hactive
  | case3 active node found hfound hactive ih =>
    subst hnode
    obtain rfl := Option.some.inj (hfound.symm.trans hfile)
    cases htags : s.tags found with
    | error failure =>
      rw [loadBelow_broken hfound hactive htags] at hload
      cases hload
    | ok tags =>
      rcases hkeys : s.registry.references tags with ⟨keys, told⟩
      have hrefs : ∀ key, s.Refers found key ↔ key ∈ keys := fun key => by
        rw [refers_iff_mem_references htags, hkeys]
      by_cases hne : keys = []
      · subst hne
        rw [loadBelow_leaf hfound hactive htags hkeys]
        have hname : ∀ child : Tree, (id child).name = child.name := fun _ => rfl
        exact unfolds_of_children name hactive hrefs hname fun _ _ h => nomatch h
      · rcases hedges : loadEdges (s.loadBelow (found :: active))
            ((Tree.bare name).addEdges (keys.map Tree.bare)).edges with ⟨⟨edges, failure⟩, below⟩
        rw [loadBelow_expanded hfound hactive htags hkeys hne hedges] at hload ⊢
        have hok := loadEdges_ok (by rw [hedges]; exact hload)
        rw [hedges] at hok
        obtain ⟨hchildren, rfl⟩ := hok
        refine unfolds_of_children name hactive hrefs (name_loadBelow s _) ?_
        intro key path hmem hpath
        exact ih _ (Registry.resolve?_of_get? hpath) rfl (hchildren _ hmem)

/-- The chains of an unfolded node are the chains of references whose files, the last one aside,
are all different and not active. -/
theorem Unfolds.hasChain_iff {t : Tree} (h : s.Unfolds active file t) (keys : List String) :
    t.HasChain keys ↔ ∃ files, s.Follows file keys files ∧ (file :: files).dropLast.Nodup ∧
      ∀ f ∈ (file :: files).dropLast, f ∉ active := by
  induction h generalizing keys with
  | @cut active file name hactive =>
    cases keys with
    | nil => exact ⟨fun _ => ⟨[], .nil file, by simp, by simp⟩, fun _ => trivial⟩
    | cons key keys =>
      constructor
      · rintro ⟨child, hedge, _⟩
        cases hedge
      · rintro ⟨_, hfollows, _, hfresh⟩
        cases hfollows
        rw [List.dropLast_cons_cons] at hfresh
        exact absurd hactive (hfresh file List.mem_cons_self)
  | @expanded active file name edges hactive hsorted hkeys hnames hbelow ih =>
    cases keys with
    | nil => exact ⟨fun _ => ⟨[], .nil file, by simp, by simp⟩, fun _ => trivial⟩
    | cons key keys =>
      constructor
      · -- Below the node its file is active, so no file further down but the last equals it.
        rintro ⟨child, hedge, hname, hchain⟩
        have hmem := (Tree.edge?_eq_some_iff hsorted).mp hedge
        have hrefers := (hkeys key).mp (List.mem_map_of_mem hmem)
        obtain ⟨path, hpath⟩ := hrefers.get?
        obtain ⟨files, hfollows, hnodup, hfresh⟩ := (ih key child path hmem hpath keys).mp hchain
        refine ⟨path :: files, .cons hrefers hpath hfollows, ?_, ?_⟩
        · rw [List.dropLast_cons_cons, List.nodup_cons]
          exact ⟨fun hf => hfresh file hf List.mem_cons_self, hnodup⟩
        · rw [List.dropLast_cons_cons]
          intro f hf
          rcases List.mem_cons.mp hf with rfl | hf
          · exact hactive
          · exact fun h => hfresh f hf (List.mem_cons_of_mem _ h)
      · rintro ⟨_, hfollows, hnodup, hfresh⟩
        cases hfollows with
        | @cons _ _ path _ files hrefers hpath hfollows =>
          obtain ⟨⟨k, child⟩, hmem, rfl⟩ := List.mem_map.mp ((hkeys key).mpr hrefers)
          rw [List.dropLast_cons_cons] at hnodup hfresh
          obtain ⟨hfile, hnodup⟩ := List.nodup_cons.mp hnodup
          refine ⟨child, (Tree.edge?_eq_some_iff hsorted).mpr hmem, hnames k child hmem, ?_⟩
          refine (ih k child path hmem hpath keys).mpr ⟨files, hfollows, hnodup, fun f hf => ?_⟩
          rw [List.mem_cons, not_or]
          exact ⟨fun heq => hfile (heq ▸ hf), hfresh f (List.mem_cons_of_mem _ hf)⟩

/-- Two components whose files are lists of tags: the first mentions itself, the second under its
kebab case, and a tag that is no component; the second mentions only plain markup. -/
def pair : Sources where
  project :=
    { files :=
        { medium := .memory
          entries := [(.root, .directory), (⟨["App.vue"], by decide⟩, .file (.text "App box x")),
            (⟨["Box.vue"], by decide⟩, .file (.text "p br"))]
          distinct := by decide }
      base := .root }
  registry := .ofList [("App", "App.vue"), ("Box", "Box.vue")]
  reader :=
    { template? := fun source => .ok (some source)
      compile := fun template =>
        .ok ((Text.splitOn ' ' template.toList).map fun tag => ⟨String.ofList tag, [], [], []⟩) }

theorem loadBelow_pair_box {active : List String} (h : "Box.vue" ∉ active) :
    (pair.loadBelow active (.bare "Box")).value = ⟨.bare "Box", none⟩ := by
  have hfile : pair.registry.resolve? "Box" = some "Box.vue" := by decide
  have htags : pair.tags "Box.vue" = .ok ["p", "br"] := rfl
  have hvalue : (pair.registry.references ["p", "br"]).value = [] := by decide
  rcases hkeys : pair.registry.references ["p", "br"] with ⟨keys, told⟩
  rw [hkeys] at hvalue
  subst hvalue
  rw [loadBelow_leaf hfile h htags hkeys]

theorem tags_pair_app : pair.tags "App.vue" = .ok ["App", "box", "x"] := by
  have h : (pair.tags "App.vue").toOption = some ["App", "box", "x"] := by decide +kernel
  cases htags : pair.tags "App.vue" with
  | error failure =>
    rw [htags] at h
    cases h
  | ok tags =>
    rw [htags] at h
    rw [Option.some.inj h]

theorem load_pair_app :
    (pair.load (.bare "App")).value =
      ⟨⟨"App", [("App", .bare "App"), ("Box", .bare "Box")]⟩, none⟩ := by
  have hfile : pair.registry.resolve? "App" = some "App.vue" := by decide
  have hvalue : (pair.registry.references ["App", "box", "x"]).value = ["App", "Box"] := by decide
  rcases hkeys : pair.registry.references ["App", "box", "x"] with ⟨keys, told⟩
  rw [hkeys] at hvalue
  subst hvalue
  have hself : (pair.loadBelow ["App.vue"] (.bare "App")).value = ⟨.bare "App", none⟩ := by
    rw [loadBelow_active hfile List.mem_cons_self]
  have hbox : (pair.loadBelow ["App.vue"] (.bare "Box")).value = ⟨.bare "Box", none⟩ :=
    loadBelow_pair_box (by decide)
  have hedges : (loadEdges (pair.loadBelow ["App.vue"])
      ((Tree.bare "App").addEdges (["App", "Box"].map Tree.bare)).edges).value =
      ([("App", .bare "App"), ("Box", .bare "Box")], none) := by
    have hadd : ((Tree.bare "App").addEdges (["App", "Box"].map Tree.bare)).edges =
        [("App", .bare "App"), ("Box", .bare "Box")] := by decide
    rw [hadd, value_loadEdges_next (by rw [hself]), value_loadEdges_next (by rw [hbox]), hself,
      hbox]
    rfl
  rcases hloaded : loadEdges (pair.loadBelow ["App.vue"])
    ((Tree.bare "App").addEdges (["App", "Box"].map Tree.bare)).edges
    with ⟨⟨edges, failure⟩, below⟩
  rw [hloaded] at hedges
  cases hedges
  exact congrArg Logged.value
    (loadBelow_expanded hfile List.not_mem_nil tags_pair_app hkeys (by simp) hloaded)

end Sources

/-- **A loaded tree is the unfolding of the references.** From the file of the node, its chains are
the chains of references on which no file is repeated, unless at their end. -/
theorem load_hasChain_iff (s : Sources) {name file : String}
    (hfile : s.registry.resolve? name = some file)
    (hload : (s.load (.bare name)).value.failure = none) (keys : List String) :
    (s.load (.bare name)).value.tree.HasChain keys ↔
      ∃ files, s.Follows file keys files ∧ (file :: files).dropLast.Nodup := by
  rw [Sources.load, (Sources.unfolds_of_loadBelow hfile hload).hasChain_iff]
  simp

theorem load_hasChain_iff_pair :
    Sources.pair.registry.resolve? "App" = some "App.vue" ∧
      (Sources.pair.load (.bare "App")).value.failure = none ∧
      ((Sources.pair.load (.bare "App")).value.tree.HasChain ["App"] ↔
        ∃ files, Sources.pair.Follows "App.vue" ["App"] files ∧
          ("App.vue" :: files).dropLast.Nodup) := by
  have hfile : Sources.pair.registry.resolve? "App" = some "App.vue" := by decide
  have hload : (Sources.pair.load (.bare "App")).value.failure = none := by
    rw [Sources.load_pair_app]
  exact ⟨hfile, hload, load_hasChain_iff Sources.pair hfile hload ["App"]⟩

end ComponentGraph
