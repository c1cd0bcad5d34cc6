import ComponentGraph.Keyed
/-!
# Reference trees

A node names a component and holds, under the name of each, the components it refers to,
sorted by name. A component that is mentioned in two places is two nodes.
-/

namespace ComponentGraph

structure Tree where
  name : String
  edges : List (String × Tree)

namespace Tree

mutual

def decideEq : (s t : Tree) → Decidable (s = t)
  | ⟨name, edges⟩, ⟨name', edges'⟩ =>
    match String.decEq name name', decideEqEdges edges edges' with
    | isTrue h₁, isTrue h₂ => isTrue (by rw [h₁, h₂])
    | isFalse h, _ => isFalse fun heq => h (by injection heq)
    | _, isFalse h => isFalse fun heq => h (by injection heq)

def decideEqEdges : (es fs : List (String × Tree)) → Decidable (es = fs)
  | [], [] => isTrue rfl
  | [], _ :: _ => isFalse (by simp)
  | _ :: _, [] => isFalse (by simp)
  | (key, s) :: es, (key', t) :: fs =>
    match String.decEq key key', decideEq s t, decideEqEdges es fs with
    | isTrue h₁, isTrue h₂, isTrue h₃ => isTrue (by rw [h₁, h₂, h₃])
    | isFalse h, _, _ => isFalse fun heq => h (by injection heq with heq; injection heq)
    | _, isFalse h, _ => isFalse fun heq => h (by injection heq with heq; injection heq)
    | _, _, isFalse h => isFalse fun heq => h (by injection heq)

end

instance : DecidableEq Tree := decideEq

/-- A node that refers to nothing. -/
def bare (name : String) : Tree := ⟨name, []⟩

instance : Inhabited Tree := ⟨bare ""⟩

def edge? (t : Tree) (name : String) : Option Tree := Keyed.get? name t.edges

/-- Each new child is put under its name, unless there is a child of that name. -/
def addEdges (t : Tree) (children : List Tree) : Tree :=
  { t with
    edges := children.foldl (fun edges child => Keyed.insertNew child.name child edges) t.edges }

def withEdges (name : String) (children : List Tree) : Tree := (bare name).addEdges children

/-- Add edges to the node that a chain of names leads to, if it leads to one. -/
def addEdgesAt? (t : Tree) (chain : List String) (children : List Tree) : Option Tree :=
  match chain with
  | [] => some (t.addEdges children)
  | name :: chain =>
    (t.edge? name).bind fun child =>
      (child.addEdgesAt? chain children).map fun child =>
        { t with edges := Keyed.insert name child t.edges }

end Tree

end ComponentGraph
