import ComponentGraph.Attempt
import ComponentGraph.Discovery.Components
import ComponentGraph.Path.FileName
import ComponentGraph.Reference.Loading
/-!
# Analysing a project

An analysis is a registry of components and the reference trees of one page or of all
views below a directory. Pages and views are registered under their own paths, which keeps
those of one name apart.
-/

namespace ComponentGraph

structure Analysis where
  registry : Registry
  trees : List Tree

/-- The loaded tree of a name, unless loading fails. -/
def Sources.grow (s : Sources) (name : String) : Attempt Tree :=
  ExceptT.mk do
    let loaded ← s.load (Tree.bare name)
    pure (match loaded.failure with
      | none => .ok loaded.tree
      | some failure => .error failure)

/-- The path of a page, which has to be a component file that is there. -/
def Project.page (p : Project) (written : String) : Except Failure Path :=
  if FileName.isComponent written then
    match p.locate written with
    | .error e => .error (.ofStorage e)
    | .ok path => if p.files.isFile path then .ok path else .error ⟨.noPage written, none⟩
  else .error ⟨.notComponent written, none⟩

/-- The tree of one page. -/
def analyzePage (p : Project) (page componentsDir : String) (ignore : List String) :
    Attempt Analysis := do
  let _ ← Attempt.ofResult (p.page page)
  let components ← Attempt.ofStorage (setupRegistry p componentsDir ignore)
  let name := normalize page
  let registry := components.set name name
  let tree ← Sources.grow ⟨p, registry, .markup⟩ name
  pure ⟨registry, [tree]⟩

/-- The trees of all views below a directory. -/
def analyzeViews (p : Project) (viewsDir componentsDir : String) (ignore : List String) :
    Attempt Analysis := do
  let components ← Attempt.ofStorage (setupRegistry p componentsDir ignore)
  let views ← Attempt.ofStorage (Walk.through p viewsDir ignore).files
  Attempt.say .debug ("found " ++ Nat.repr views.length ++ " views in " ++ viewsDir)
  let registry := components.setAll (views.map fun view => (view, view))
  let trees ← views.mapM (Sources.grow ⟨p, registry, .markup⟩)
  pure ⟨registry, trees⟩

end ComponentGraph
