/-!
# Elements

What is left of a template when text, comments and interpolations are dropped. The
alternatives of a conditional chain are held by the element that heads the chain.
-/

namespace ComponentGraph

structure Attribute where
  name : String
  value : Option String
deriving DecidableEq, Repr

structure Element where
  tag : String
  attributes : List Attribute
  children : List Element
  /-- The `v-else-if` and `v-else` siblings of a `v-if` element. -/
  branches : List Element

namespace Element

mutual

def decideEq : (e f : Element) → Decidable (e = f)
  | ⟨tag, attributes, children, branches⟩, ⟨tag', attributes', children', branches'⟩ =>
    match String.decEq tag tag', instDecidableEqList attributes attributes',
        decideEqList children children', decideEqList branches branches' with
    | isTrue h₁, isTrue h₂, isTrue h₃, isTrue h₄ => isTrue (by rw [h₁, h₂, h₃, h₄])
    | isFalse h, _, _, _ => isFalse fun heq => h (by injection heq)
    | _, isFalse h, _, _ => isFalse fun heq => h (by injection heq)
    | _, _, isFalse h, _ => isFalse fun heq => h (by injection heq)
    | _, _, _, isFalse h => isFalse fun heq => h (by injection heq)

def decideEqList : (es fs : List Element) → Decidable (es = fs)
  | [], [] => isTrue rfl
  | [], _ :: _ => isFalse (by simp)
  | _ :: _, [] => isFalse (by simp)
  | e :: es, f :: fs =>
    match decideEq e f, decideEqList es fs with
    | isTrue h₁, isTrue h₂ => isTrue (by rw [h₁, h₂])
    | isFalse h, _ => isFalse fun heq => h (by injection heq)
    | _, isFalse h => isFalse fun heq => h (by injection heq)

end

instance : DecidableEq Element := decideEq

instance : Inhabited Element := ⟨⟨"", [], [], []⟩⟩

def hasAttribute (e : Element) (name : String) : Bool := e.attributes.any (·.name = name)

/-- The element continues a conditional chain. -/
def isAlternative (e : Element) : Bool := e.hasAttribute "v-else-if" || e.hasAttribute "v-else"

/-- The element heads a conditional chain that is still open: its last alternative, if there is
one, is conditional too. -/
def isOpenChain (e : Element) : Bool :=
  e.hasAttribute "v-if" && !(e.branches.getLast?.any (·.hasAttribute "v-else"))

/-- Add an element to its elder siblings, of which the latest comes first: an alternative after an
open chain joins the chain, and any other element is a sibling of its own. -/
def attach (e : Element) : List Element → List Element
  | [] => [e]
  | latest :: elder =>
    if e.isAlternative && latest.isOpenChain then
      { latest with branches := latest.branches ++ [e] } :: elder
    else e :: latest :: elder

mutual

/-- The tags of an element and of all below it, in front of those seen already: the latest comes
first. The tag of an alternative is added only if it has not been seen. -/
def gather (seen : List String) : Element → List String
  | ⟨tag, _, children, branches⟩ =>
    gatherAll (gatherBranches (tag :: seen) branches) children

def gatherAll (seen : List String) : List Element → List String
  | [] => seen
  | e :: es => gatherAll (gather seen e) es

def gatherBranches (seen : List String) : List Element → List String
  | [] => seen
  | ⟨tag, _, children, _⟩ :: es =>
    gatherBranches (gatherAll (if tag ∈ seen then seen else tag :: seen) children) es

end

/-- The tags that a forest mentions, in order. -/
def mentioned (forest : List Element) : List String := (gatherAll [] forest).reverse

end Element

end ComponentGraph
