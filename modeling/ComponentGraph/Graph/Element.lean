import ComponentGraph.Json
/-!
# Graph elements

A graph is a list of nodes and edges, each with an id. The id of a node is its label; the id of
an edge joins the labels of its ends with a hyphen. A shape says what the elements of a list
look like: plain elements for the printed formats, preview elements for the browser.
-/

namespace ComponentGraph

/-- The id of an edge. -/
def edgeId (source target : String) : String := source ++ "-" ++ target

/-- How nodes and edges are made and told apart. -/
structure Shape (ε : Type) where
  node : String → ε
  edge : String → String → ε
  id : ε → String

inductive GraphElement where
  | node (id name : String)
  | edge (id source target : String)
deriving DecidableEq, Repr

namespace GraphElement

def id : GraphElement → String
  | node id _ => id
  | edge id _ _ => id

/-- The ends of an edge. -/
def ends? : GraphElement → Option (String × String)
  | node _ _ => none
  | edge _ source target => some (source, target)

def isEdge (e : GraphElement) : Bool := e.ends?.isSome

def shape : Shape GraphElement where
  node label := node label label
  edge source target := edge (edgeId source target) source target
  id := id

def toJson : GraphElement → Json.Value
  | node id name => .object [("id", .text id), ("name", .text name)]
  | edge id source target =>
    .object [("id", .text id), ("source", .text source), ("target", .text target)]

/-- The elements on many lines. -/
def listing (elements : List GraphElement) : String :=
  Json.pretty (.list (elements.map toJson))

end GraphElement

/-- An element as the preview wants it: nodes and edges differ in that edges have ends. -/
structure PreviewElement where
  id : String
  ends? : Option (String × String)
deriving DecidableEq, Repr

namespace PreviewElement

def shape : Shape PreviewElement where
  node label := ⟨label, none⟩
  edge source target := ⟨edgeId source target, some (source, target)⟩
  id := PreviewElement.id

def toJson (e : PreviewElement) : Json.Value :=
  let ends : List (String × Json.Value) :=
    match e.ends? with
    | none => []
    | some (source, target) => [("source", .text source), ("target", .text target)]
  .object [("data", .object (("id", .text e.id) :: ends))]

/-- The elements on one line. -/
def data (elements : List PreviewElement) : String :=
  Json.compact (.list (elements.map toJson))

end PreviewElement

end ComponentGraph
