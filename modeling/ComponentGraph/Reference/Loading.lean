import ComponentGraph.Notice
import ComponentGraph.Project
import ComponentGraph.Reference.Tree
import ComponentGraph.Registry
/-!
# Loading a reference tree

A node is expanded by the components that its file's template mentions, and then each of its
children is. The files that are being expanded further up are *active*; a node whose file is
active is left as it is. Since every expansion makes one more path of the registry active,
loading ends. A failure ends it too, and the tree shows how far it came.
-/

namespace ComponentGraph

/-- Where loading finds things: files, components, and the meaning of a source. -/
structure Sources where
  project : Project
  registry : Registry
  reader : TemplateReader

namespace Sources

/-- The tags that the template of a file mentions. A file without a template mentions none. -/
def tags (s : Sources) (file : String) : Except Failure (List String) :=
  match s.project.locate file with
  | .error e => .error (.ofStorage e)
  | .ok path =>
    match s.project.files.readText path with
    | .error e => .error ⟨.storage e, some (.reading file)⟩
    | .ok source =>
      match s.reader.template? source with
      | .error e => .error ⟨.malformed e, some (.parsing file)⟩
      | .ok none => .ok []
      | .ok (some template) =>
        match s.reader.compile template with
        | .error e => .error ⟨.malformed e, some (.parsing file)⟩
        | .ok roots => .ok (Element.mentioned roots)

end Sources

/-- The keys of the components among the tags, in order. Plain markup is passed over; any other
tag without a component is told of. -/
def Registry.references (r : Registry) : List String → Logged (List String)
  | [] => pure []
  | tag :: rest =>
    if Tag.isPlainMarkup tag then r.references rest
    else
      match r.find? tag with
      | none => do
        Logged.say .warn ("unresolved tag <" ++ tag ++ ">")
        r.references rest
      | some (key, _) => do
        let keys ← r.references rest
        pure (key :: keys)

/-- The number of registered paths that are not active. -/
def Registry.inactive (r : Registry) (active : List String) : Nat :=
  (r.paths.filter fun path => path ∉ active).length

/-- Activating one more registered path leaves fewer inactive. -/
theorem Registry.inactive_lt {r : Registry} {active : List String} {path : String}
    (hpath : path ∈ r.paths) (hactive : path ∉ active) :
    r.inactive (path :: active) < r.inactive active := by
  have hfilter : r.paths.filter (fun p => p ∉ path :: active) =
      (r.paths.filter fun p => p ∉ active).filter fun p => p ≠ path := by
    rw [List.filter_filter]
    apply List.filter_congr
    intro p _
    simp [not_or]
  unfold Registry.inactive
  rw [hfilter, List.length_filter_lt_length_iff_exists]
  exact ⟨path, by simp [hpath, hactive], by simp⟩

/-- A tree as far as it was loaded, and why loading ended early. -/
structure Loaded where
  tree : Tree
  failure : Option Failure

/-- Load children one after the other, up to the first failure. -/
def loadEdges (load : Tree → Logged Loaded) :
    List (String × Tree) → Logged (List (String × Tree) × Option Failure)
  | [] => pure ([], none)
  | (key, child) :: rest => do
    let loaded ← load child
    match loaded.failure with
    | some failure => pure ((key, loaded.tree) :: rest, some failure)
    | none => do
      let (edges, failure) ← loadEdges load rest
      pure ((key, loaded.tree) :: edges, failure)

/-- Load a node below the given active files, of which the latest comes first. -/
def Sources.loadBelow (s : Sources) (active : List String) (node : Tree) : Logged Loaded :=
  match _hfile : s.registry.resolve? node.name with
  | none => do
    Logged.say .warn (node.name ++ " does not found in directory")
    pure ⟨node, none⟩
  | some file =>
    if _hactive : file ∈ active then do
      Logged.say .warn ("cycle detected: " ++ active.headD file ++ " -> " ++ file)
      pure ⟨node, none⟩
    else do
      Logged.say .debug ("loading " ++ file)
      match s.tags file with
      | .error failure => pure ⟨node, some failure⟩
      | .ok tags => do
        let keys ← s.registry.references tags
        if keys.isEmpty then pure ⟨node, none⟩
        else do
          let expanded := node.addEdges (keys.map Tree.bare)
          let (edges, failure) ←
            loadEdges (fun child => s.loadBelow (file :: active) child) expanded.edges
          pure ⟨⟨node.name, edges⟩, failure⟩
termination_by s.registry.inactive active
decreasing_by exact Registry.inactive_lt (Registry.mem_paths_of_resolve? _hfile) _hactive

def Sources.load (s : Sources) (node : Tree) : Logged Loaded := s.loadBelow [] node

end ComponentGraph
