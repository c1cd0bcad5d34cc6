import ComponentGraph.Graph.Drawing
import ComponentGraph.Preview.Pages
/-!
# The site of the preview

Three resources are served: the page, under two paths, its script, and the graph data, which are
read anew for each request. A path is compared as it was sent. Only `GET` and `HEAD` are
answered, and an answer to `HEAD` has no body.
-/

namespace ComponentGraph.Preview

structure Request where
  method : String
  /-- The path, which a query or a fragment may follow. -/
  target : String
deriving DecidableEq, Repr

structure Response where
  status : Nat
  contentType? : Option String
  body : String
deriving DecidableEq, Repr

inductive Resource where
  | page
  | script
  | data
deriving DecidableEq, Repr

/-- The path of a target, without query and fragment, and without scheme and host if it
begins with them. A scheme may be empty. -/
def pathOf (target : String) : String :=
  let cs := target.toList.takeWhile fun c => c ≠ '?' && c ≠ '#'
  match cs.span fun c => c ≠ ':' && c ≠ '/' with
  | (_, ':' :: '/' :: '/' :: rest) =>
    match rest.dropWhile (· ≠ '/') with
    | [] => "/"
    | path => String.ofList path
  | _ => String.ofList cs

/-- What is served under a path. -/
def Resource.ofPath? (path : String) : Option Resource :=
  if path = "/" ∨ path = "/index.html" then some .page
  else if path = "/cy.client.js" then some .script
  else if path = "/" ++ dataFile then some .data
  else none

namespace Response

def notFound : Response := ⟨404, none, ""⟩

def methodNotAllowed : Response := ⟨405, none, ""⟩

def ok (contentType body : String) : Response := ⟨200, some contentType, body⟩

def withoutBody (r : Response) : Response := { r with body := "" }

end Response

/-- The answer to a request for a resource. Data that cannot be read are not found. -/
def Resource.response (files : FileSystem) (outDir : Path) : Resource → Response
  | .page => .ok "text/html; charset=utf-8" indexPage
  | .script => .ok "application/javascript" clientScript
  | .data =>
    match files.readText (outDir.child dataFile isPlainName_dataFile) with
    | .ok text => .ok "application/json" text
    | .error _ => .notFound

def respond (files : FileSystem) (outDir : Path) (r : Request) : Response :=
  match Resource.ofPath? (pathOf r.target) with
  | none => .notFound
  | some resource =>
    if r.method = "GET" then resource.response files outDir
    else if r.method = "HEAD" then (resource.response files outDir).withoutBody
    else .methodNotAllowed

end ComponentGraph.Preview
