import ComponentGraph.Proofs.Flattening
import ComponentGraph.Proofs.Unfolding
/-!
# The graph of loaded trees

The first node of a label that flattening meets is never one that loading has cut: a node is cut
only below a node of its own file, and that one has been met already. So everything that is met
brings all its references with it, and the graph of loaded trees has a node for each label and an
edge for each pair of labels that occurs in them.
-/

namespace ComponentGraph

/-- The ids of nodes are their labels, and those of edges join the labels of their ends. -/
structure Shape.IsLabelled {ε : Type} (shape : Shape ε) : Prop where
  node : ∀ l, shape.id (shape.node l) = l
  edge : ∀ source target, shape.id (shape.edge source target) = edgeId source target

theorem GraphElement.isLabelled_shape : GraphElement.shape.IsLabelled :=
  ⟨fun _ => rfl, fun _ _ => rfl⟩

theorem PreviewElement.isLabelled_shape : PreviewElement.shape.IsLabelled :=
  ⟨fun _ => rfl, fun _ _ => rfl⟩

/-- The template of one file mentions a component in another. -/
def Sources.Links (s : Sources) (file target : String) : Prop :=
  ∃ key, s.Refers file key ∧ s.registry.get? key = some target

/-- Every label that was met is active or was left behind with all its edges and their ends. -/
def Cache.Closed (s : Sources) (labels : List String) (active : List String) (c : Cache) : Prop :=
  ∀ file target, file ∈ labels → file ∈ c.ids → file ∉ active → s.Links file target →
    edgeId file target ∈ c.ids ∧ target ∈ c.ids

variable {ε : Type} {shape : Shape ε} {s : Sources} {active labels : List String} {file : String}

/-- An edge of an unfolded node leads to a file that the node's file links to. -/
theorem exists_link_of_edge {edges : List (String × Tree)}
    (hkeys : ∀ key, key ∈ edges.map Prod.fst ↔ s.Refers file key)
    (hnames : ∀ key child, (key, child) ∈ edges → child.name = key) {key : String} {child : Tree}
    (hmem : (key, child) ∈ edges) :
    ∃ path, s.registry.get? key = some path ∧ s.registry.label child.name = path ∧
      s.Links file path := by
  have hrefers := (hkeys key).mp (List.mem_map_of_mem hmem)
  obtain ⟨path, hpath⟩ := hrefers.get?
  refine ⟨path, hpath, ?_, key, hrefers, hpath⟩
  rw [hnames key child hmem, Registry.label_of_get? hpath]

/-- An unfolded node has an edge for each file that its own links to. -/
theorem exists_edge_of_link {edges : List (String × Tree)} {target : String}
    (hkeys : ∀ key, key ∈ edges.map Prod.fst ↔ s.Refers file key)
    (hnames : ∀ key child, (key, child) ∈ edges → child.name = key) (h : s.Links file target) :
    ∃ key child, (key, child) ∈ edges ∧ s.registry.label child.name = target := by
  obtain ⟨key, hrefers, hpath⟩ := h
  obtain ⟨⟨k, child⟩, hmem, rfl⟩ := List.mem_map.mp ((hkeys key).mpr hrefers)
  refine ⟨k, child, hmem, ?_⟩
  rw [hnames k child hmem, Registry.label_of_get? hpath]

/-- An id that is no label may be met at any time. -/
theorem Cache.Closed.mark {c : Cache} (h : c.Closed s labels active) {id : String}
    (hid : id ∉ labels) : (c.mark id).2.Closed s labels active := by
  by_cases hmem : id ∈ c.ids
  · rwa [mark_of_mem hmem]
  · rw [mark_of_not_mem hmem]
    intro f target hlabel hmet hactive hlink
    rcases List.mem_cons.mp hmet with rfl | hmet
    · exact absurd hlabel hid
    · obtain ⟨hedge, htarget⟩ := h f target hlabel hmet hactive hlink
      exact ⟨List.mem_cons_of_mem _ hedge, List.mem_cons_of_mem _ htarget⟩

/-- A label that is met when it becomes active asks for nothing yet. -/
theorem Cache.Closed.enter {c : Cache} (h : c.Closed s labels active) (file : String) :
    (⟨file :: c.ids⟩ : Cache).Closed s labels (file :: active) := by
  intro f target hlabel hmet hactive hlink
  rw [List.mem_cons, not_or] at hactive
  have hold := (List.mem_cons.mp hmet).resolve_left hactive.1
  obtain ⟨hedge, htarget⟩ := h f target hlabel hold hactive.2 hlink
  exact ⟨List.mem_cons_of_mem _ hedge, List.mem_cons_of_mem _ htarget⟩

theorem flattenEdges_closed (hshape : shape.IsLabelled) {edges : List (String × Tree)}
    (hchild : ∀ key child, (key, child) ∈ edges → ∀ c : Cache, (∀ f ∈ active, f ∈ c.ids) →
      c.Closed s labels active →
        (flatten shape s.registry c child).2.Closed s labels active ∧
          s.registry.label child.name ∈ (flatten shape s.registry c child).2.ids)
    (hids : ∀ key child, (key, child) ∈ edges →
      edgeId file (s.registry.label child.name) ∉ labels)
    {c : Cache} (hmet : ∀ f ∈ active, f ∈ c.ids) (hclosed : c.Closed s labels active) :
    (flattenEdges shape s.registry file c edges).2.Closed s labels active ∧
      ∀ key child, (key, child) ∈ edges →
        edgeId file (s.registry.label child.name) ∈
            (flattenEdges shape s.registry file c edges).2.ids ∧
          s.registry.label child.name ∈ (flattenEdges shape s.registry file c edges).2.ids := by
  induction edges generalizing c with
  | nil => exact ⟨hclosed, by simp⟩
  | cons edge rest ih =>
    obtain ⟨key, child⟩ := edge
    rw [flattenEdges_cons]
    simp only [hshape.edge]
    have hmark : ∀ id ∈ c.ids, id ∈ (c.mark (edgeId file (s.registry.label child.name))).2.ids :=
      fun id h => (Cache.mem_mark_ids ..).mpr (Or.inr h)
    have hedge : edgeId file (s.registry.label child.name) ∈
        (c.mark (edgeId file (s.registry.label child.name))).2.ids :=
      (Cache.mem_mark_ids ..).mpr (Or.inl rfl)
    obtain ⟨hbelow, hlabel⟩ := hchild key child List.mem_cons_self _
      (fun f hf => hmark f (hmet f hf)) (hclosed.mark (hids key child List.mem_cons_self))
    obtain ⟨hrest, hall⟩ := ih (fun k t hmem => hchild k t (List.mem_cons_of_mem _ hmem))
      (fun k t hmem => hids k t (List.mem_cons_of_mem _ hmem))
      (fun f hf => mem_flatten_ids child (hmark f (hmet f hf))) hbelow
    refine ⟨hrest, fun k t hmem => ?_⟩
    rcases List.mem_cons.mp hmem with heq | hmem
    · cases heq
      exact ⟨mem_flattenEdges_ids rest (mem_flatten_ids child hedge),
        mem_flattenEdges_ids rest hlabel⟩
    · exact hall k t hmem

/-- Flattening an unfolded node keeps the cache closed, and meets the node. -/
theorem Sources.Unfolds.flatten_closed {t : Tree} (h : s.Unfolds active file t)
    (hshape : shape.IsLabelled) (hlabel : s.registry.label t.name = file)
    (hids : ∀ p ∈ t.pairs s.registry, edgeId p.1 p.2 ∉ labels) {c : Cache}
    (hmet : ∀ f ∈ active, f ∈ c.ids) (hclosed : c.Closed s labels active) :
    (flatten shape s.registry c t).2.Closed s labels active ∧
      file ∈ (flatten shape s.registry c t).2.ids := by
  induction h generalizing c with
  | @cut active file name hactive =>
    have hnode : shape.id (shape.node (s.registry.label (Tree.bare name).name)) ∈ c.ids := by
      rw [hshape.node, hlabel]
      exact hmet file hactive
    rw [flatten_met hnode]
    exact ⟨hclosed, hmet file hactive⟩
  | @expanded active file name edges hactive hsorted hkeys hnames hbelow ih =>
    by_cases hfile : file ∈ c.ids
    · rw [flatten_met (by rwa [hshape.node, hlabel])]
      exact ⟨hclosed, hfile⟩
    · replace hlabel : s.registry.label name = file := hlabel
      rw [flatten_new (by rwa [hshape.node, hlabel]), hshape.node, hlabel]
      have hentered : ∀ f ∈ file :: active, f ∈ (⟨file :: c.ids⟩ : Cache).ids := by
        intro f hf
        rcases List.mem_cons.mp hf with rfl | hf
        · exact List.mem_cons_self
        · exact List.mem_cons_of_mem _ (hmet f hf)
      have hchild : ∀ key child, (key, child) ∈ edges → ∀ d : Cache,
          (∀ f ∈ file :: active, f ∈ d.ids) → d.Closed s labels (file :: active) →
            (flatten shape s.registry d child).2.Closed s labels (file :: active) ∧
              s.registry.label child.name ∈ (flatten shape s.registry d child).2.ids := by
        intro key child hmem d hd hdclosed
        obtain ⟨path, hpath, hname, _⟩ := exists_link_of_edge hkeys hnames hmem
        rw [hname]
        exact ih key child path hmem hpath hname
          (fun p hp => hids p (Tree.mem_pairs.mpr (Or.inr ⟨key, child, hmem, hp⟩))) hd hdclosed
      have hedges : ∀ key child, (key, child) ∈ edges →
          edgeId file (s.registry.label child.name) ∉ labels := by
        intro key child hmem
        have hpair : (file, s.registry.label child.name) ∈ Tree.pairs s.registry ⟨name, edges⟩ :=
          Tree.mem_pairs.mpr (Or.inl ⟨key, child, hmem, by rw [hlabel]⟩)
        exact hids _ hpair
      obtain ⟨hafter, hall⟩ :=
        flattenEdges_closed hshape hchild hedges hentered (hclosed.enter file)
      refine ⟨fun f target hf hfmet hfactive hlink => ?_,
        mem_flattenEdges_ids edges List.mem_cons_self⟩
      -- The file is no longer active, but its own links have just been met.
      by_cases heq : f = file
      · subst heq
        obtain ⟨key, child, hmem, rfl⟩ := exists_edge_of_link hkeys hnames hlink
        exact hall key child hmem
      · exact hafter f target hf hfmet (by simp [heq, hfactive]) hlink

/-- What is unfolded from a label that was met has been met, once nothing is active any more. -/
theorem Sources.Unfolds.met_of_closed {t : Tree} (h : s.Unfolds active file t)
    (hlabel : s.registry.label t.name = file) {c : Cache} (hclosed : c.Closed s labels [])
    (hlabels : ∀ l ∈ t.labels s.registry, l ∈ labels) (hfile : file ∈ c.ids) :
    (∀ l ∈ t.labels s.registry, l ∈ c.ids) ∧
      ∀ p ∈ t.pairs s.registry, edgeId p.1 p.2 ∈ c.ids := by
  induction h with
  | @cut active file name hactive =>
    refine ⟨fun l hl => ?_, fun p hp => ?_⟩
    · rcases Tree.mem_labels.mp hl with rfl | ⟨_, _, hmem, _⟩
      · exact hlabel ▸ hfile
      · cases hmem
    · rcases Tree.mem_pairs.mp hp with ⟨_, _, hmem, _⟩ | ⟨_, _, hmem, _⟩
      · cases hmem
      · cases hmem
  | @expanded active file name edges hactive hsorted hkeys hnames hbelow ih =>
    replace hlabel : s.registry.label name = file := hlabel
    have hchild : ∀ key child, (key, child) ∈ edges →
        (edgeId file (s.registry.label child.name) ∈ c.ids) ∧
          (∀ l ∈ child.labels s.registry, l ∈ c.ids) ∧
            ∀ p ∈ child.pairs s.registry, edgeId p.1 p.2 ∈ c.ids := by
      intro key child hmem
      obtain ⟨path, hpath, hname, hlink⟩ := exists_link_of_edge hkeys hnames hmem
      have hroot := hlabels file (hlabel ▸ Tree.label_mem_labels s.registry ⟨name, edges⟩)
      obtain ⟨hedge, htarget⟩ := hclosed file path hroot hfile List.not_mem_nil hlink
      exact ⟨hname ▸ hedge, ih key child path hmem hpath hname
        (fun l hl => hlabels l (Tree.mem_labels.mpr (Or.inr ⟨key, child, hmem, hl⟩))) htarget⟩
    refine ⟨fun l hl => ?_, fun p hp => ?_⟩
    · rcases Tree.mem_labels.mp hl with rfl | ⟨key, child, hmem, hl⟩
      · exact hlabel ▸ hfile
      · exact (hchild key child hmem).2.1 l hl
    · rcases Tree.mem_pairs.mp hp with ⟨key, child, hmem, rfl⟩ | ⟨key, child, hmem, hp⟩
      · rw [hlabel]
        exact (hchild key child hmem).1
      · exact (hchild key child hmem).2.2 p hp

theorem flattenAll_closed (hshape : shape.IsLabelled) {trees : List Tree}
    (htrees : ∀ t ∈ trees, s.Unfolds [] (s.registry.label t.name) t)
    (hids : ∀ p ∈ trees.flatMap (Tree.pairs s.registry), edgeId p.1 p.2 ∉ labels) {c : Cache}
    (hclosed : c.Closed s labels []) :
    (flattenAll shape s.registry c trees).2.Closed s labels [] ∧
      ∀ t ∈ trees, s.registry.label t.name ∈ (flattenAll shape s.registry c trees).2.ids := by
  induction trees generalizing c with
  | nil => exact ⟨hclosed, by simp⟩
  | cons t rest ih =>
    simp only [List.flatMap_cons, List.mem_append] at hids
    obtain ⟨hafter, hmet⟩ := (htrees t List.mem_cons_self).flatten_closed hshape rfl
      (fun p hp => hids p (Or.inl hp)) (by simp) hclosed
    obtain ⟨hrest, hall⟩ := ih (fun u hu => htrees u (List.mem_cons_of_mem _ hu))
      (fun p hp => hids p (Or.inr hp)) hafter
    refine ⟨hrest, fun u hu => ?_⟩
    rcases List.mem_cons.mp hu with rfl | hu
    · exact ((flattenAll_emits rest _).ids _).mpr (Or.inl hmet)
    · exact hall u hu

/-- No edge id is a label or the id of another pair. -/
structure DistinctIds (labels : List String) (pairs : List (String × String)) : Prop where
  label : ∀ p ∈ pairs, edgeId p.1 p.2 ∉ labels
  pair : ∀ p ∈ pairs, ∀ q ∈ pairs, edgeId p.1 p.2 = edgeId q.1 q.2 → p = q

/-- The elements are the nodes of the labels and the edges of the pairs, each once. -/
structure Shape.IsGraphOf {ε : Type} (shape : Shape ε) (labels : List String)
    (pairs : List (String × String)) (elements : List ε) : Prop where
  nodup : elements.Nodup
  mem_iff : ∀ e, e ∈ elements ↔
    (∃ l ∈ labels, e = shape.node l) ∨ ∃ p ∈ pairs, e = shape.edge p.1 p.2

/-- Two lists of elements for the same labels and pairs differ in order alone. -/
theorem Shape.IsGraphOf.perm {labels' : List String} {pairs pairs' : List (String × String)}
    {es fs : List ε} (he : shape.IsGraphOf labels pairs es) (hf : shape.IsGraphOf labels' pairs' fs)
    (hl : ∀ l, l ∈ labels ↔ l ∈ labels') (hp : ∀ p, p ∈ pairs ↔ p ∈ pairs') : es.Perm fs := by
  rw [List.perm_ext_iff_of_nodup he.nodup hf.nodup]
  intro e
  rw [he.mem_iff, hf.mem_iff]
  simp only [hl, hp]

/-- The graph of unfolded trees has exactly the labels and pairs that occur in them. -/
theorem isGraphOf_of_unfolds (hshape : shape.IsLabelled) {trees : List Tree}
    (htrees : ∀ t ∈ trees, s.Unfolds [] (s.registry.label t.name) t)
    (hids : DistinctIds (trees.flatMap (Tree.labels s.registry))
      (trees.flatMap (Tree.pairs s.registry))) :
    shape.IsGraphOf (trees.flatMap (Tree.labels s.registry))
      (trees.flatMap (Tree.pairs s.registry)) (graphOf shape s.registry trees) := by
  have hemits : Cache.empty.Emits shape (graphOf shape s.registry trees)
      (flattenAll shape s.registry .empty trees).2 := flattenAll_emits trees Cache.empty
  have hempty : Cache.empty.Closed s (trees.flatMap (Tree.labels s.registry)) [] :=
    fun _ _ _ hmem => nomatch hmem
  obtain ⟨hclosed, hroots⟩ := flattenAll_closed hshape htrees hids.label hempty
  have hmet : ∀ t ∈ trees, (∀ l ∈ t.labels s.registry,
      l ∈ (flattenAll shape s.registry .empty trees).2.ids) ∧
        ∀ p ∈ t.pairs s.registry,
          edgeId p.1 p.2 ∈ (flattenAll shape s.registry .empty trees).2.ids := by
    intro t ht
    exact (htrees t ht).met_of_closed rfl hclosed
      (fun l hl => List.mem_flatMap_of_mem ht hl) (hroots t ht)
  have hemitted : ∀ id ∈ (flattenAll shape s.registry .empty trees).2.ids,
      ∃ e ∈ graphOf shape s.registry trees, shape.id e = id := by
    intro id hid
    rcases (hemits.ids id).mp hid with h | h
    · cases h
    · exact List.mem_map.mp h
  have hnodup : (graphOf shape s.registry trees).Nodup :=
    List.Pairwise.of_map shape.id (fun _ _ hne heq => hne (heq ▸ rfl)) hemits.nodup
  refine ⟨hnodup, fun e => ⟨draws_of_mem_flattenAll, ?_⟩⟩
  rintro (⟨l, hl, rfl⟩ | ⟨p, hp, rfl⟩)
  · obtain ⟨t, ht, hlt⟩ := List.mem_flatMap.mp hl
    obtain ⟨e, he, hid⟩ := hemitted l ((hmet t ht).1 l hlt)
    rcases draws_of_mem_flattenAll he with ⟨l', _, rfl⟩ | ⟨q, hq, rfl⟩
    · rw [hshape.node] at hid
      rwa [← hid]
    · rw [hshape.edge] at hid
      exact absurd (hid ▸ hl) (hids.label q hq)
  · obtain ⟨t, ht, hpt⟩ := List.mem_flatMap.mp hp
    obtain ⟨e, he, hid⟩ := hemitted _ ((hmet t ht).2 p hpt)
    rcases draws_of_mem_flattenAll he with ⟨l, hl, rfl⟩ | ⟨q, hq, rfl⟩
    · rw [hshape.node] at hid
      exact absurd (hid ▸ hl) (hids.label p hp)
    · rw [hshape.edge] at hid
      rwa [hids.pair p hp q hq hid.symm]

/-- The order of unfolded trees only changes the order of the elements. -/
theorem graphOf_perm (hshape : shape.IsLabelled) {trees others : List Tree}
    (hperm : others.Perm trees) (htrees : ∀ t ∈ trees, s.Unfolds [] (s.registry.label t.name) t)
    (hids : DistinctIds (trees.flatMap (Tree.labels s.registry))
      (trees.flatMap (Tree.pairs s.registry))) :
    (graphOf shape s.registry others).Perm (graphOf shape s.registry trees) := by
  have hlabels := hperm.flatMap_right (Tree.labels s.registry)
  have hpairs := hperm.flatMap_right (Tree.pairs s.registry)
  have hothers : ∀ t ∈ others, s.Unfolds [] (s.registry.label t.name) t :=
    fun t ht => htrees t (hperm.mem_iff.mp ht)
  have hids' : DistinctIds (others.flatMap (Tree.labels s.registry))
      (others.flatMap (Tree.pairs s.registry)) := by
    constructor
    · exact fun p hp hl => hids.label p (hpairs.mem_iff.mp hp) (hlabels.mem_iff.mp hl)
    · exact fun p hp q hq => hids.pair p (hpairs.mem_iff.mp hp) q (hpairs.mem_iff.mp hq)
  exact (isGraphOf_of_unfolds hshape hothers hids').perm (isGraphOf_of_unfolds hshape htrees hids)
    (fun _ => hlabels.mem_iff) (fun _ => hpairs.mem_iff)

namespace Sources

/-- The tree that loading makes of a bare node. -/
def loaded (s : Sources) (name : String) : Tree := (s.load (.bare name)).value.tree

/-- A registered name whose loading succeeds is unfolded from its label. -/
theorem unfolds_loaded {name : String} (hkey : (s.registry.get? name).isSome)
    (hload : (s.load (.bare name)).value.failure = none) :
    s.Unfolds [] (s.registry.label (s.loaded name).name) (s.loaded name) := by
  obtain ⟨path, hpath⟩ := Option.isSome_iff_exists.mp hkey
  have hname : (s.loaded name).name = name := name_loadBelow s [] (.bare name)
  rw [hname, Registry.label_of_get? hpath]
  exact unfolds_of_loadBelow (Registry.resolve?_of_get? hpath) hload

/-- The labels that occur in the loaded trees of some names. -/
def labelsOf (s : Sources) (names : List String) : List String :=
  (names.map s.loaded).flatMap (Tree.labels s.registry)

/-- The pairs of labels that occur in the loaded trees of some names. -/
def pairsOf (s : Sources) (names : List String) : List (String × String) :=
  (names.map s.loaded).flatMap (Tree.pairs s.registry)

end Sources

/-- **The graph of loaded trees loses nothing.** It has one node for each label and one edge for
each pair of labels that occurs in the trees, and nothing else; the order of the roots does not
matter. -/
theorem graphOf_loaded (s : Sources) (names : List String)
    (hkeys : ∀ name ∈ names, (s.registry.get? name).isSome)
    (hload : ∀ name ∈ names, (s.load (.bare name)).value.failure = none)
    (hids : DistinctIds (s.labelsOf names) (s.pairsOf names)) :
    GraphElement.shape.IsGraphOf (s.labelsOf names) (s.pairsOf names)
        (graphOf GraphElement.shape s.registry (names.map s.loaded)) ∧
      PreviewElement.shape.IsGraphOf (s.labelsOf names) (s.pairsOf names)
        (graphOf PreviewElement.shape s.registry (names.map s.loaded)) ∧
      ∀ others : List String, others.Perm names →
        (graphOf GraphElement.shape s.registry (others.map s.loaded)).Perm
            (graphOf GraphElement.shape s.registry (names.map s.loaded)) ∧
          (graphOf PreviewElement.shape s.registry (others.map s.loaded)).Perm
            (graphOf PreviewElement.shape s.registry (names.map s.loaded)) := by
  have htrees : ∀ t ∈ names.map s.loaded, s.Unfolds [] (s.registry.label t.name) t := by
    intro t ht
    obtain ⟨name, hname, rfl⟩ := List.mem_map.mp ht
    exact Sources.unfolds_loaded (hkeys name hname) (hload name hname)
  refine ⟨isGraphOf_of_unfolds GraphElement.isLabelled_shape htrees hids,
    isGraphOf_of_unfolds PreviewElement.isLabelled_shape htrees hids, fun others hperm => ?_⟩
  have hmap := hperm.map s.loaded
  exact ⟨graphOf_perm GraphElement.isLabelled_shape hmap htrees hids,
    graphOf_perm PreviewElement.isLabelled_shape hmap htrees hids⟩

theorem graphOf_loaded_pair :
    let s := Sources.pair
    (∀ name ∈ ["App", "Box"], (s.registry.get? name).isSome) ∧
      (∀ name ∈ ["App", "Box"], (s.load (.bare name)).value.failure = none) ∧
      DistinctIds (s.labelsOf ["App", "Box"]) (s.pairsOf ["App", "Box"]) ∧
      GraphElement.shape.IsGraphOf (s.labelsOf ["App", "Box"]) (s.pairsOf ["App", "Box"])
        (graphOf GraphElement.shape s.registry (["App", "Box"].map s.loaded)) := by
  intro s
  have happ := Sources.load_pair_app
  have hbox : (Sources.pair.load (.bare "Box")).value = ⟨.bare "Box", none⟩ :=
    Sources.loadBelow_pair_box List.not_mem_nil
  have hkeys : ∀ name ∈ ["App", "Box"], (s.registry.get? name).isSome := by decide
  have hload : ∀ name ∈ ["App", "Box"], (s.load (.bare name)).value.failure = none := by
    simp [s, happ, hbox]
  have hids : DistinctIds (s.labelsOf ["App", "Box"]) (s.pairsOf ["App", "Box"]) := by
    simp only [s, Sources.labelsOf, Sources.pairsOf, List.map_cons, List.map_nil,
      Sources.loaded, happ, hbox]
    exact ⟨by decide +kernel, by decide +kernel⟩
  exact ⟨hkeys, hload, hids, (graphOf_loaded s ["App", "Box"] hkeys hload hids).1⟩

end ComponentGraph
