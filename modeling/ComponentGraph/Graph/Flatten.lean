import ComponentGraph.Graph.Element
import ComponentGraph.Reference.Tree
import ComponentGraph.Registry
/-!
# Flattening trees

Trees become a list of elements in which no id occurs twice. An edge comes before what hangs
below it, and a node after its edges. A node whose label has been met is not entered again.
-/

namespace ComponentGraph

/-- The ids met so far. -/
structure Cache where
  ids : List String
deriving DecidableEq, Repr

namespace Cache

def empty : Cache := ⟨[]⟩

def contains (c : Cache) (id : String) : Bool := id ∈ c.ids

/-- Meet an id. The answer is whether it is new. -/
def mark (c : Cache) (id : String) : Bool × Cache :=
  if c.contains id then (false, c) else (true, ⟨id :: c.ids⟩)

def size (c : Cache) : Nat := c.ids.length

end Cache

variable {ε : Type}

mutual

/-- The new elements of a tree, and the ids met after it. -/
def flatten (shape : Shape ε) (r : Registry) (c : Cache) : Tree → List ε × Cache
  | ⟨name, edges⟩ =>
    let node := shape.node (r.label name)
    match c.mark (shape.id node) with
    | (false, c) => ([], c)
    | (true, c) =>
      let (elements, c) := flattenEdges shape r (r.label name) c edges
      (elements ++ [node], c)

/-- The new elements of the edges that leave the node of the given label. -/
def flattenEdges (shape : Shape ε) (r : Registry) (source : String) (c : Cache) :
    List (String × Tree) → List ε × Cache
  | [] => ([], c)
  | (_, ⟨name, edges⟩) :: rest =>
    let edge := shape.edge source (r.label name)
    let (isNew, c) := c.mark (shape.id edge)
    let (below, c) := flatten shape r c ⟨name, edges⟩
    let (others, c) := flattenEdges shape r source c rest
    ((if isNew then [edge] else []) ++ below ++ others, c)

end

/-- The elements of several trees, with one cache for all. -/
def flattenAll (shape : Shape ε) (r : Registry) (c : Cache) : List Tree → List ε × Cache
  | [] => ([], c)
  | t :: rest =>
    let (elements, c) := flatten shape r c t
    let (others, c) := flattenAll shape r c rest
    (elements ++ others, c)

/-- The graph of several trees. -/
def graphOf (shape : Shape ε) (r : Registry) (trees : List Tree) : List ε :=
  (flattenAll shape r Cache.empty trees).1

end ComponentGraph
