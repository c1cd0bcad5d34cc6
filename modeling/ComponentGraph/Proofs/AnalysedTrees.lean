import ComponentGraph.Graph.Outline
import ComponentGraph.Proofs.Flattening
import ComponentGraph.Proofs.RegisteredFiles
/-!
# The nodes of an analysis

Each node of an analysis, those where a chain was cut included, is named by a key of the registry,
and the path of the key is that of a file which was read. Loading looks for a node by its key and
then as for a tag, outlines and graphs by its key alone; they agree because the key is always there.
-/

namespace ComponentGraph

theorem Tree.child_mem_nodes {t u child : Tree} {key : String} (hu : u ∈ t.nodes)
    (hedge : (key, child) ∈ u.edges) : child ∈ t.nodes := by
  induction t using Tree.induction with
  | node name edges ih =>
    rcases mem_nodes.mp hu with rfl | ⟨k, c, hmem, hu⟩
    · exact mem_nodes.mpr (.inr ⟨key, child, hedge, mem_nodes_self child⟩)
    · exact mem_nodes.mpr (.inr ⟨k, c, hmem, ih k c hmem hu⟩)

/-! ## Outlines, line by line -/

namespace Outline

variable {r : Registry}

theorem forall₂_linesBelow {edges : List (String × Tree)}
    (h : ∀ key child, (key, child) ∈ edges → ∀ depth,
      List.Forall₂ (fun u shown => ∃ d, shown = line d (r.label u.name))
        child.nodes (linesAt r depth child)) (depth : Nat) :
    List.Forall₂ (fun u shown => ∃ d, shown = line d (r.label u.name))
      (Tree.nodesBelow edges) (linesBelow r depth edges) := by
  induction edges with
  | nil => exact .nil
  | cons edge rest ih =>
    obtain ⟨key, child⟩ := edge
    rw [linesBelow, Tree.nodesBelow]
    exact List.rel_append (h key child List.mem_cons_self depth)
      (ih fun k c hmem => h k c (List.mem_cons_of_mem _ hmem))

/-- There is one line for each node, and it shows the label of the node. -/
theorem forall₂_linesAt (t : Tree) (depth : Nat) :
    List.Forall₂ (fun u shown => ∃ d, shown = line d (r.label u.name))
      t.nodes (linesAt r depth t) := by
  induction t using Tree.induction generalizing depth with
  | node name edges ih =>
    rw [linesAt, Tree.nodes]
    exact .cons ⟨depth, rfl⟩ (forall₂_linesBelow ih (depth + 1))

end Outline

/-! ## Unfolded nodes -/

namespace Sources

variable {s : Sources} {active : List String} {file : String} {t u : Tree}

/-- Each node below is named by a key, whose file is reached from that of the root. -/
theorem Unfolds.get?_of_mem_nodes (h : s.Unfolds active file t)
    (hname : s.registry.get? t.name = some file) (hu : u ∈ t.nodes) :
    ∃ f, s.registry.get? u.name = some f ∧ Relation.ReflTransGen s.RefersTo file f := by
  induction h with
  | @cut active file name hactive =>
    rcases Tree.mem_nodes.mp hu with rfl | ⟨_, _, hmem, _⟩
    · exact ⟨file, hname, .refl⟩
    · cases hmem
  | @expanded active file name edges hactive hsorted hkeys hnames hbelow ih =>
    rcases Tree.mem_nodes.mp hu with rfl | ⟨key, child, hmem, hu⟩
    · exact ⟨file, hname, .refl⟩
    · have hrefers := (hkeys key).mp (List.mem_map_of_mem hmem)
      obtain ⟨path, hpath⟩ := hrefers.get?
      have hchild : s.registry.get? child.name = some path := by rwa [hnames key child hmem]
      obtain ⟨f, hf, hreach⟩ := ih key child path hmem hpath hchild hu
      exact ⟨f, hf, .head ⟨key, hrefers, hpath⟩ hreach⟩

theorem Unfolds.name_of_mem_edges (h : s.Unfolds active file t) (hu : u ∈ t.nodes) {key : String}
    {child : Tree} (hedge : (key, child) ∈ u.edges) : child.name = key := by
  induction h with
  | cut _ =>
    rcases Tree.mem_nodes.mp hu with rfl | ⟨_, _, hmem, _⟩
    · cases hedge
    · cases hmem
  | @expanded active file name edges hactive hsorted hkeys hnames hbelow ih =>
    rcases Tree.mem_nodes.mp hu with rfl | ⟨k, c, hmem, hu⟩
    · exact hnames key child hedge
    · obtain ⟨path, hpath⟩ := ((hkeys k).mp (List.mem_map_of_mem hmem)).get?
      exact ih k c path hmem hpath hu

/-- A tree that grew from a registered name is unfolded from its file. -/
theorem unfolds_of_grow {name : String} (hfile : s.registry.get? name = some file)
    (h : (s.grow name).result = .ok t) : s.Unfolds [] file t ∧ t.name = name := by
  obtain ⟨hload, rfl⟩ := load_of_grow h
  exact ⟨unfolds_of_loadBelow (Registry.resolve?_of_get? hfile) hload, name_loadBelow s [] _⟩

end Sources

/-! ## Nodes of an analysis -/

/-- Followed from the base, the path leads to the file that loading takes it for: a text, and a
template in it, if there is one, can be compiled. -/
def Project.HoldsComponent (p : Project) (file : String) : Prop :=
  ∃ path source template?, p.base.join? file = some path ∧ p.locate file = .ok path ∧
    p.files.isFile path = true ∧ p.files.readText path = .ok source ∧
    Markup.template? source = .ok template? ∧
    ∀ template, template? = some template → ∃ roots, Markup.compile template = .ok roots

/-- The file that the registry has for a node of the analysis. -/
def Analysis.Takes (a : Analysis) (u : Tree) (file : String) : Prop :=
  (∃ t ∈ a.trees, u ∈ t.nodes) ∧ a.registry.resolve? u.name = some file

/-- No node is without a file, none is stored under another name than its own, and what outlines and
graphs show of a node is the path of its file. -/
structure Analysis.IsGrounded (p : Project) (a : Analysis) : Prop where
  registered : ∀ t ∈ a.trees, ∀ u ∈ t.nodes, ∃ file, a.registry.get? u.name = some file ∧
    a.Takes u file ∧ p.HoldsComponent file
  named : ∀ t ∈ a.trees, ∀ u ∈ t.nodes, ∀ key child, (key, child) ∈ u.edges → child.name = key
  outlined : ∀ t ∈ a.trees, List.Forall₂
    (fun u shown => ∃ depth file, a.Takes u file ∧ shown = Outline.line depth file)
    t.nodes (Outline.lines a.registry t)
  drawn : ∀ (ε : Type) (shape : Shape ε), ∀ e ∈ graphOf shape a.registry a.trees,
    (∃ u file, a.Takes u file ∧ e = shape.node file) ∨
      ∃ u key child file target, (key, child) ∈ u.edges ∧ a.Takes u file ∧
        a.Takes child target ∧ e = shape.edge file target

theorem Project.join?_of_locate {p : Project} {written : String} {path : Path}
    (h : p.locate written = .ok path) : p.base.join? (normalize written) = some path := by
  rw [locate, FileSystem.locate] at h
  split at h
  · rename_i hjoin
    rw [hjoin, Except.ok.inj h]
  · cases h

/-- A file is read where its path leads, if the path leads there as it is. -/
theorem holdsComponent_of_tags {p : Project} {r : Registry} {file : String} {found : List String}
    (hfollowed : p.base.join? (normalize file) = p.base.join? file)
    (htags : (⟨p, r, .markup⟩ : Sources).tags file = .ok found) : p.HoldsComponent file := by
  obtain ⟨source, template?, ⟨path, hlocate, hread⟩, htemplate, hcompile⟩ :=
    Sources.sound_of_tags htags
  have hjoin : p.base.join? file = some path := by
    rw [← hfollowed]
    exact Project.join?_of_locate hlocate
  exact ⟨path, source, template?, hjoin, hlocate, FileSystem.isFile_of_readText hread, hread,
    htemplate, hcompile⟩

namespace Analysis.IsGrown

variable {p : Project} {a : Analysis} {t u : Tree}

/-- Each tree is named by the key it grew from, and is unfolded from the file of the key. -/
theorem exists_root (h : a.IsGrown p) (ht : t ∈ a.trees) :
    ∃ file, a.registry.get? t.name = some file ∧
      (Sources.grow ⟨p, a.registry, .markup⟩ t.name).result = .ok t ∧
      (⟨p, a.registry, .markup⟩ : Sources).Unfolds [] file t := by
  obtain ⟨name, hkey, hgrow⟩ := h.grown t ht
  obtain ⟨file, hfile⟩ := Option.isSome_iff_exists.mp hkey
  obtain ⟨hunfolds, rfl⟩ := Sources.unfolds_of_grow hfile hgrow
  exact ⟨file, hfile, hgrow, hunfolds⟩

theorem registered (h : a.IsGrown p) (ht : t ∈ a.trees) (hu : u ∈ t.nodes) :
    ∃ file, a.registry.get? u.name = some file ∧ a.Takes u file ∧ p.HoldsComponent file := by
  obtain ⟨root, hroot, hgrow, hunfolds⟩ := h.exists_root ht
  obtain ⟨file, hfile, hreach⟩ := hunfolds.get?_of_mem_nodes hroot hu
  obtain ⟨tags, htags⟩ := Sources.exists_tags_of_load (Registry.resolve?_of_get? hroot)
    (Sources.load_of_grow hgrow).1 hreach
  exact ⟨file, hfile, ⟨⟨t, ht, hu⟩, Registry.resolve?_of_get? hfile⟩,
    holdsComponent_of_tags (h.followed u.name file hfile) htags⟩

/-- The label of a node is the file that loading takes. -/
theorem takes_label (h : a.IsGrown p) (ht : t ∈ a.trees) (hu : u ∈ t.nodes) :
    a.Takes u (a.registry.label u.name) := by
  obtain ⟨file, hfile, htakes, -⟩ := h.registered ht hu
  rwa [Registry.label_of_get? hfile]

theorem isGrounded (h : a.IsGrown p) : a.IsGrounded p := by
  constructor
  · exact fun t ht u hu => h.registered ht hu
  · intro t ht u hu key child hedge
    obtain ⟨root, -, -, hunfolds⟩ := h.exists_root ht
    exact hunfolds.name_of_mem_edges hu hedge
  · intro t ht
    have hlines := (List.forall₂_and_left _ _).mpr
      ⟨fun u (hu : u ∈ t.nodes) => hu, Outline.forall₂_linesAt (r := a.registry) t 0⟩
    refine hlines.imp fun u shown ⟨hu, depth, hshown⟩ => ?_
    exact ⟨depth, _, h.takes_label ht hu, hshown⟩
  · intro ε shape e he
    rcases draws_of_mem_flattenAll he with ⟨label, hlabel, rfl⟩ | ⟨pair, hpair, rfl⟩
    · obtain ⟨t, ht, hlabel⟩ := List.mem_flatMap.mp hlabel
      obtain ⟨u, hu, rfl⟩ := List.mem_map.mp hlabel
      exact .inl ⟨u, _, h.takes_label ht hu, rfl⟩
    · obtain ⟨t, ht, hpair⟩ := List.mem_flatMap.mp hpair
      obtain ⟨u, hu, hpair⟩ := List.mem_flatMap.mp hpair
      obtain ⟨⟨key, child⟩, hedge, rfl⟩ := List.mem_map.mp hpair
      exact .inr ⟨u, key, child, _, _, hedge, h.takes_label ht hu,
        h.takes_label ht (Tree.child_mem_nodes hu hedge), rfl⟩

end Analysis.IsGrown

/-- **Every node of an analysis is grounded.** In what the analysis of a page or of views returns,
each node at any depth is named by a key, is stored under its name, and has the path of a component
that was read; and this path is what an outline or a graph shows of the node. -/
theorem isGrounded_of_analysis {p : Project} {input componentsDir : String} {ignore : List String}
    {a : Analysis} (h : (analyzePage p input componentsDir ignore).result = .ok a ∨
      (analyzeViews p input componentsDir ignore).result = .ok a) :
    a.IsGrounded p := by
  rcases h with hpage | hviews
  · exact (isGrown_of_analyzePage hpage).isGrounded
  · exact (isGrown_of_analyzeViews hviews).isGrounded

theorem isGrounded_of_analysis_shop :
    (analyzeViews shop "views" "components" []).result = .ok shopAnalysis ∧
      shopAnalysis.IsGrounded shop :=
  ⟨analyzeViews_shop, isGrounded_of_analysis (.inr analyzeViews_shop)⟩

end ComponentGraph
