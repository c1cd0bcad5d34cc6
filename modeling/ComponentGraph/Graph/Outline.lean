import ComponentGraph.Reference.Tree
import ComponentGraph.Registry
import ComponentGraph.Text.Padding
/-!
# Outlines

One line for each node of a tree: a node above its children, and each level two places
deeper behind a branch mark.
-/

namespace ComponentGraph.Outline

def branchMark : String := "└── "

/-- The line of a node at a depth. -/
def line (depth : Nat) (label : String) : String :=
  if depth = 0 then label else Text.repeated ' ' (2 * depth) ++ branchMark ++ label

mutual

def linesAt (r : Registry) (depth : Nat) : Tree → List String
  | ⟨name, edges⟩ => line depth (r.label name) :: linesBelow r (depth + 1) edges

def linesBelow (r : Registry) (depth : Nat) : List (String × Tree) → List String
  | [] => []
  | (_, child) :: rest => linesAt r depth child ++ linesBelow r depth rest

end

def lines (r : Registry) (t : Tree) : List String := linesAt r 0 t

/-- The outlines of several trees, one below the other. -/
def text (r : Registry) (trees : List Tree) : String :=
  String.join ((trees.flatMap (lines r)).map (· ++ "\n"))

end ComponentGraph.Outline
