import ComponentGraph.FileSystem
import ComponentGraph.Markup.Fault
/-!
# Failures

Why a run ends early. A failure has one cause, and may say what was being done with which
file when it arose.
-/

namespace ComponentGraph

inductive Cause where
  /-- The page is no component file by its extension. -/
  | notComponent (path : String)
  /-- The page is not there. -/
  | noPage (path : String)
  | malformed (error : Markup.ParseError)
  | noComponentsDir
  | storage (error : FileSystem.Error)
deriving DecidableEq

def Cause.message : Cause → String
  | .notComponent path => path ++ " should be a vue file."
  | .noPage path => path ++ " does not exist."
  | .malformed error => error.message
  | .noComponentsDir =>
    "components directory is not given " ++
      "(pass it as an argument or set `components_dir` in vurif.toml)"
  | .storage error => error.message

/-- What was being done with a file. -/
inductive Doing where
  | reading (path : String)
  | parsing (path : String)
  | creating (path : String)
deriving DecidableEq

def Doing.message : Doing → String
  | .reading path => "failed to read " ++ path
  | .parsing path => "failed to parse " ++ path
  | .creating path => "failed to create " ++ path

structure Failure where
  cause : Cause
  doing : Option Doing := none
deriving DecidableEq

namespace Failure

/-- The messages, outermost first. -/
def chain (f : Failure) : List String := (f.doing.map Doing.message).toList ++ [f.cause.message]

def message (f : Failure) : String := ": ".intercalate f.chain

/-- A fault of the storage without more to say. -/
def ofStorage (error : FileSystem.Error) : Failure := ⟨.storage error, none⟩

end Failure

end ComponentGraph
