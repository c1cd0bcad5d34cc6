import ComponentGraph.Failure
import ComponentGraph.Markup.Block
import ComponentGraph.Markup.Forest
/-!
# Projects

A project is a directory of a file system; every path that a user writes is followed from
there. A template reader is what turns the source of a component into elements.
-/

namespace ComponentGraph

structure Project where
  files : FileSystem
  base : Path

/-- Follow a path that a user wrote. -/
def Project.locate (p : Project) (written : String) : Except FileSystem.Error Path :=
  FileSystem.locate p.base (normalize written)

structure TemplateReader where
  template? : String → Except Markup.ParseError (Option String)
  compile : String → Except Markup.ParseError (List Element)

def TemplateReader.markup : TemplateReader := ⟨Markup.template?, Markup.compile⟩

end ComponentGraph
