import ComponentGraph.Analysis
import ComponentGraph.Graph.Drawing
import ComponentGraph.Settings.Resolution
import ComponentGraph.Work
/-!
# Emitting an analysis

The trees are drawn in the format of the settings. A drawing goes to the output file if there is
one, and to the terminal otherwise. The output file is created before the trees are drawn, and the
directory of a preview before its data are written.
-/

namespace ComponentGraph

/-- The directory of the preview's data. -/
def Project.outDir (p : Project) (s : Settings) : Except Failure Path :=
  (p.locate s.outDir).mapError Failure.ofStorage

/-- A file that a user named cannot be created. -/
def Failure.ofCreating (written : String) (error : FileSystem.Error) : Failure :=
  ⟨.storage error, some (.creating written)⟩

/-- Write the elements of a preview into a directory, which is created if it is missing. -/
def Work.preview (outDir : Path) (elements : List PreviewElement) : Work Path := do
  createDirectories outDir
  let path := outDir.child dataFile isPlainName_dataFile
  create path Failure.ofStorage
  fill path (PreviewElement.data elements)
  pure path

/-- Draw the trees of an analysis. Of all formats only the preview has a file of its own. -/
def Analysis.print (a : Analysis) (format : Format) (outDir : Path) : Work String :=
  match format with
  | .graph => do
    let elements := graphOf PreviewElement.shape a.registry a.trees
    let path ← Work.preview outDir elements
    pure ("Wrote " ++ Nat.repr elements.length ++ " graph elements to " ++ path.text ++ "\n")
  | _ => Work.step fun files =>
    (draw format outDir a.registry files a.trees).mapError Failure.ofStorage

/-- Draw an analysis on the terminal. -/
def Analysis.display (a : Analysis) (format : Format) (outDir : Path) : Work Unit := do
  let drawing ← a.print format outDir
  Work.display drawing

/-- Draw an analysis into a file that a user named. -/
def Analysis.save (p : Project) (a : Analysis) (format : Format) (outDir : Path)
    (output : String) : Work Unit := do
  let path ← Work.ofResult ((p.locate output).mapError Failure.ofStorage)
  Work.create path (Failure.ofCreating output)
  let drawing ← a.print format outDir
  Work.fill path drawing
  Work.say .info ("Saving " ++ format.name ++ " file " ++ output)

/-- All steps of emitting an analysis of a project. -/
def emitting (p : Project) (a : Analysis) (s : Settings) : Work Unit := do
  let outDir ← Work.ofResult (p.outDir s)
  match s.output? with
  | none => a.display s.format outDir
  | some output => a.save p s.format outDir output

/-- Emit an analysis of a project. -/
def emit (p : Project) (a : Analysis) (s : Settings) : Attempt Emission :=
  (emitting p a s).attempt ⟨p.files, ""⟩

end ComponentGraph
