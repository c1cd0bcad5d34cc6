import ComponentGraph.Failure
import ComponentGraph.Settings.Config
/-!
# Settings of a run

What the command line gives goes before what the project keeps, and that before the
defaults. Ignore patterns are added up.
-/

namespace ComponentGraph

/-- What the command line gives. -/
structure Overrides where
  componentsDir? : Option String := none
  format? : Option Format := none
  output? : Option String := none
  outDir? : Option String := none
  port? : Option UInt16 := none
  ignore : List String := []
deriving DecidableEq

structure Settings where
  componentsDir : String
  format : Format
  /-- The file that is written instead of the terminal. -/
  output? : Option String
  /-- The directory of the preview's data. -/
  outDir : String
  port : UInt16
  ignore : List String
deriving DecidableEq

namespace Settings

def defaultFormat : Format := .graph

def defaultOutDir : String := ".vurif"

def defaultPort : UInt16 := 38081

/-- The file to write. The preview has its place in the directory of its data. -/
def outputOf? (format : Format) (given? : Option String) : Option String :=
  match format with
  | .graph => none
  | _ => given? <|> format.defaultOutput?

def resolve (o : Overrides) (c : Config) : Except Failure Settings :=
  match o.componentsDir? <|> c.componentsDir? with
  | none => .error ⟨.noComponentsDir, none⟩
  | some componentsDir =>
    let format := (o.format? <|> c.format?).getD defaultFormat
    .ok {
      componentsDir
      format
      output? := outputOf? format o.output?
      outDir := (o.outDir? <|> c.outDir?).getD defaultOutDir
      port := (o.port? <|> c.port?).getD defaultPort
      ignore := c.ignore ++ o.ignore }

end Settings

end ComponentGraph
