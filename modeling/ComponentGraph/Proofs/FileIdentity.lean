import ComponentGraph.Proofs.AnalysedTrees
import ComponentGraph.Proofs.EdgeEnds
import ComponentGraph.Proofs.Termination
import ComponentGraph.Proofs.WalkedFiles
/-!
# One path for each file

Loading and drawing compare paths as text. That is as good as comparing files if each path has only
names between its slashes. A component has such a path unless it begins with `./` or `../`, which
takes a component that lies beside the base. A page has the path that it was given, and that may
lead through `.`, `..` or an empty piece to a file which is also a component under another path.
-/

namespace ComponentGraph

theorem Tree.mem_nodes_of_chain {t : Tree} {chain : List Tree}
    (h : (t :: chain).IsChain fun u child => child.IsChildOf u) :
    ∀ u ∈ t :: chain, u ∈ t.nodes := by
  induction chain generalizing t with
  | nil =>
    intro u hu
    rw [List.mem_singleton.mp hu]
    exact mem_nodes_self t
  | cons child chain ih =>
    obtain ⟨⟨key, hedge⟩, hrest⟩ := List.isChain_cons_cons.mp h
    intro u hu
    rcases List.mem_cons.mp hu with rfl | hmem
    · exact mem_nodes_self u
    · obtain ⟨name, edges⟩ := t
      exact mem_nodes.mpr (.inr ⟨key, child, hedge, ih hrest u hmem⟩)

/-- The place to which the registered path of a node leads. -/
def Analysis.place? (p : Project) (a : Analysis) (u : Tree) : Option Path :=
  (a.registry.get? u.name).bind p.base.join?

/-- Nodes of one file have one path. So no file is expanded below itself, which are all nodes of a
chain but the last, and no two elements of a graph are nodes of one file. -/
structure Analysis.TellsFilesApart (p : Project) (a : Analysis) : Prop where
  paths : ∀ t ∈ a.trees, ∀ u ∈ t.nodes, ∀ v ∈ t.nodes, ∀ f g,
    a.registry.get? u.name = some f → a.registry.get? v.name = some g →
      p.base.join? f = p.base.join? g → f = g
  expanded : ∀ t ∈ a.trees, ∀ chain : List Tree,
    (t :: chain).IsChain (fun u child => child.IsChildOf u) →
      ∃ places : List Path,
        (t :: chain).dropLast.map (a.place? p) = places.map some ∧ places.Nodup
  drawn : ∀ (ε : Type) (shape : Shape ε) (ends? : ε → Option (String × String)),
    shape.IsLabelled → shape.TellsEnds ends? →
      (graphOf shape a.registry a.trees).Pairwise fun e e' =>
        ∀ f g, e = shape.node f → e' = shape.node g → p.base.join? f ≠ p.base.join? g

/-- Every registered path is a path as it is written. -/
def Registry.IsWritten (r : Registry) : Prop :=
  ∀ key path, r.get? key = some path → ∃ q : Path, path = q.written

/-- Registered paths that lead to one place are equal. -/
theorem Registry.IsWritten.eq_of_join?_eq {r : Registry} (h : r.IsWritten) {base : Path}
    {key key' f g : String} (hf : r.get? key = some f) (hg : r.get? key' = some g)
    (hjoin : base.join? f = base.join? g) : f = g := by
  obtain ⟨q, rfl⟩ := h key f hf
  obtain ⟨q', rfl⟩ := h key' g hg
  rw [Path.join?_written, Path.join?_written, Option.some.injEq] at hjoin
  rw [Path.append_injective hjoin]

namespace Analysis.IsGrown

variable {p : Project} {a : Analysis} {u : Tree} {file : String}

theorem get?_of_takes (h : a.IsGrown p) (htakes : a.Takes u file) :
    a.registry.get? u.name = some file := by
  obtain ⟨⟨t, ht, hu⟩, hfile⟩ := htakes
  obtain ⟨found, hfound, -, -⟩ := h.registered ht hu
  rw [hfound, ← hfile, Registry.resolve?_of_get? hfound]

/-- The expanded nodes of a chain lead to different places, as their paths are different. -/
theorem places_of_chain (h : a.IsGrown p) (hwritten : a.registry.IsWritten) {t : Tree}
    (ht : t ∈ a.trees) {chain : List Tree}
    (hchain : (t :: chain).IsChain fun u child => child.IsChildOf u) :
    ∃ places : List Path,
      (t :: chain).dropLast.map (a.place? p) = places.map some ∧ places.Nodup := by
  obtain ⟨_, -, hgrow, -⟩ := h.exists_root ht
  have hgrown : Sources.Grown ⟨p, a.registry, .markup⟩ [] t :=
    (Sources.load_of_grow hgrow).2 ▸ Sources.grown_loadBelow [] t.name
  obtain ⟨files, hmap, hnodup, -⟩ := hgrown.files_of_chain hchain
  have hget : (t :: chain).dropLast.map (fun u => a.registry.get? u.name) = files.map some := by
    rw [← hmap]
    refine List.map_congr_left fun u hu => ?_
    have hnode := Tree.mem_nodes_of_chain hchain u (List.dropLast_subset _ hu)
    obtain ⟨file, hfile, ⟨-, hresolve⟩, -⟩ := h.registered ht hnode
    rw [hfile, hresolve]
  have hmem : ∀ f ∈ files, f ∈ Set.range Path.written := by
    intro f hf
    obtain ⟨u, -, hu⟩ := List.mem_map.mp (hget ▸ List.mem_map_of_mem hf)
    obtain ⟨q, rfl⟩ := hwritten u.name f hu
    exact ⟨q, rfl⟩
  obtain ⟨paths, rfl⟩ : files ∈ Set.range (List.map Path.written) := by
    rwa [Set.range_list_map]
  refine ⟨paths.map p.base.append, ?_, (hnodup.of_map _).map fun _ _ => Path.append_injective⟩
  calc (t :: chain).dropLast.map (a.place? p)
      = ((t :: chain).dropLast.map fun u => a.registry.get? u.name).map
          (Option.bind · p.base.join?) := by
        rw [List.map_map]
        rfl
    _ = ((paths.map Path.written).map some).map (Option.bind · p.base.join?) := by rw [hget]
    _ = (paths.map p.base.append).map some := by
      simp [Function.comp_def, Path.join?_written]

theorem tellsFilesApart (h : a.IsGrown p) (hwritten : a.registry.IsWritten) :
    a.TellsFilesApart p := by
  constructor
  · intro t _ u _ v _ f g hf hg
    exact hwritten.eq_of_join?_eq hf hg
  · intro t ht chain hchain
    exact h.places_of_chain hwritten ht hchain
  · intro ε shape ends? hlabelled hends
    have hemits : Cache.empty.Emits shape (graphOf shape a.registry a.trees)
        (flattenAll shape a.registry .empty a.trees).2 := flattenAll_emits a.trees Cache.empty
    have hfile : ∀ f, shape.node f ∈ graphOf shape a.registry a.trees →
        ∃ key, a.registry.get? key = some f := by
      intro f hf
      rcases h.isGrounded.drawn ε shape _ hf with ⟨u, file, htakes, heq⟩ |
        ⟨_, _, _, source, target, _, _, _, heq⟩
      · have hid := congrArg shape.id heq
        rw [hlabelled.node, hlabelled.node] at hid
        exact ⟨u.name, hid ▸ h.get?_of_takes htakes⟩
      · have hnone := hends.edge source target
        rw [← heq, hends.node] at hnone
        cases hnone
    refine (List.pairwise_map.mp hemits.nodup).imp_of_mem fun he he' hne f g hf hg hjoin => ?_
    subst hf hg
    obtain ⟨key, hkey⟩ := hfile f he
    obtain ⟨key', hkey'⟩ := hfile g he'
    exact hne (congrArg (shape.id ∘ shape.node) (hwritten.eq_of_join?_eq hkey hkey' hjoin))

end Analysis.IsGrown

/-- **One file, one path.** The analysis of a page tells files apart if there are only names between
the slashes of the page's path and no component is shown as a path that begins with `./` or `../`:
then no file is expanded below itself or drawn twice. -/
theorem tellsFilesApart_of_analyzePage {p : Project} {page componentsDir : String}
    {ignore : List String} {a : Analysis}
    (h : (analyzePage p page componentsDir ignore).result = .ok a)
    (hpage : ∀ piece ∈ Text.splitOn '/' (normalize page).toList,
      IsPlainName (String.ofList piece))
    (hcomponents : ∀ path ∈ a.registry.paths,
      ¬ ['.', '/'] <+: path.toList ∧ ¬ ['.', '.', '/'] <+: path.toList) :
    a.TellsFilesApart p := by
  refine (isGrown_of_analyzePage h).tellsFilesApart fun key path hpath => ?_
  have hshown := hcomponents path (Registry.mem_paths_of_get? hpath)
  obtain ⟨components, t, hsetup, rfl, -⟩ := exists_of_analyzePage h
  rw [Registry.get?_set] at hpath
  split at hpath
  · obtain rfl := Option.some.inj hpath
    exact Path.exists_written hpage
  · obtain ⟨hcomponent, q, rfl⟩ := exists_relativeTo_of_setupRegistry hsetup hpath
    exact Path.exists_written_relativeTo hcomponent hshown.1 hshown.2

/-- The only component mentions itself. -/
def cards : Project where
  base := Path.root
  files :=
    { medium := .memory
      entries :=
        [(Path.root, .directory),
          (Path.root.child "components" (by decide), .directory),
          ((Path.root.child "components" (by decide)).child "Card.vue" (by decide),
            .file (.text "<template><Card/></template>"))]
      distinct := by decide }

def cardsAnalysis : Analysis where
  registry := .ofList [("Card", "components/Card.vue"),
    ("components/Card.vue", "components/Card.vue")]
  trees := [.withEdges "components/Card.vue" [.bare "Card"]]

theorem analyzePage_cards :
    (analyzePage cards "./components/Card.vue" "components" []).result = .ok cardsAnalysis := by
  decide +kernel

theorem tellsFilesApart_of_analyzePage_cards :
    (analyzePage cards "./components/Card.vue" "components" []).result = .ok cardsAnalysis ∧
      cardsAnalysis.TellsFilesApart cards :=
  ⟨analyzePage_cards, tellsFilesApart_of_analyzePage analyzePage_cards (by decide +kernel)
    (by decide +kernel)⟩

/-- An empty piece hides that the path of the page is that of the component: the component is
expanded below the page, and the graph has two nodes for their file. -/
theorem analyzePage_cards_twice :
    ∃ a, (analyzePage cards "components//Card.vue" "components" []).result = .ok a ∧
      a.trees = [.withEdges "components//Card.vue" [.withEdges "Card" [.bare "Card"]]] ∧
      cards.base.join? "components//Card.vue" = cards.base.join? "components/Card.vue" ∧
      GraphElement.shape.node "components//Card.vue" ∈
        graphOf GraphElement.shape a.registry a.trees ∧
      GraphElement.shape.node "components/Card.vue" ∈
        graphOf GraphElement.shape a.registry a.trees ∧
      ¬ a.TellsFilesApart cards := by
  refine ⟨⟨.ofList [("Card", "components/Card.vue"),
    ("components//Card.vue", "components//Card.vue")],
    [.withEdges "components//Card.vue" [.withEdges "Card" [.bare "Card"]]]⟩, by decide +kernel, rfl,
    by decide +kernel, by decide +kernel, by decide +kernel, fun happart => ?_⟩
  have hcard : Tree.withEdges "Card" [.bare "Card"] ∈
      (Tree.withEdges "components//Card.vue" [.withEdges "Card" [.bare "Card"]]).nodes :=
    Tree.mem_nodes.mpr (.inr ⟨"Card", _, List.mem_cons_self, Tree.mem_nodes_self _⟩)
  have heq := happart.paths _ List.mem_cons_self _ (Tree.mem_nodes_self _) _ hcard
    "components//Card.vue" "components/Card.vue" (by decide +kernel) (by decide +kernel)
    (by decide +kernel)
  exact absurd heq (by decide)

end ComponentGraph
