import ComponentGraph.FileSystem
import ComponentGraph.Format
import ComponentGraph.Graph.Degrees
import ComponentGraph.Graph.Dot
import ComponentGraph.Graph.Flatten
import ComponentGraph.Graph.Outline
/-!
# Drawing trees

Each format but the preview is a text. The preview is a file of data, and the text
only says that it was written.
-/

namespace ComponentGraph

/-- The file of the preview's data. -/
def dataFile : String := "data.json"

theorem isPlainName_dataFile : IsPlainName dataFile := by decide

/-- Write the elements of a preview into a directory, which is created if it is missing. -/
def writePreview (files : FileSystem) (outDir : Path) (elements : List PreviewElement) :
    Except FileSystem.Error (FileSystem × Path) := do
  let files ← files.createDirectories outDir
  let path := outDir.child dataFile isPlainName_dataFile
  let files ← files.writeFile path (.text (PreviewElement.data elements))
  pure (files, path)

/-- Draw trees in a format: the files afterwards, and the text. -/
def draw (format : Format) (outDir : Path) (r : Registry) (files : FileSystem)
    (trees : List Tree) : Except FileSystem.Error (FileSystem × String) :=
  let elements := graphOf GraphElement.shape r trees
  match format with
  | .graph => do
    let elements := graphOf PreviewElement.shape r trees
    let (files, path) ← writePreview files outDir elements
    pure (files, "Wrote " ++ Nat.repr elements.length ++ " graph elements to " ++ path.text ++ "\n")
  | .stdout => .ok (files, Outline.text r trees)
  | .report => .ok (files, report elements)
  | .json => .ok (files, GraphElement.listing elements ++ "\n")
  | .dot => .ok (files, (DotGraph.ofElements elements).text)

end ComponentGraph
