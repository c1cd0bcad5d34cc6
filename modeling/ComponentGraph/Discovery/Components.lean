import ComponentGraph.Discovery.Walk
import ComponentGraph.Registry
/-!
# Registering components

Every file of a walk is registered under the stem of its name. Of two files with one stem the
later takes the place of the earlier, and is told of.
-/

namespace ComponentGraph

/-- Register files one after the other. -/
def registerFiles (r : Registry) : List String → Logged Registry
  | [] => pure r
  | file :: rest =>
    match FileName.stem? file with
    | none => registerFiles r rest
    | some key =>
      match r.get? key with
      | none => registerFiles (r.set key file) rest
      | some previous => do
        Logged.say .debug
          ("duplicate component key " ++ key ++ ": " ++ file ++ " replaces " ++ previous)
        registerFiles (r.set key file) rest

/-- The components that a walk finds. -/
def discoverComponents (w : Walk) : Logged (Except FileSystem.Error Registry) := do
  match ← w.files with
  | .error e => pure (.error e)
  | .ok files => do
    let r ← registerFiles Registry.empty files
    pure (.ok r)

/-- The components below the directory that a user wrote. -/
def setupRegistry (project : Project) (componentsDir : String) (patterns : List String) :
    Logged (Except FileSystem.Error Registry) := do
  match ← discoverComponents (Walk.through project componentsDir patterns) with
  | .error e => pure (.error e)
  | .ok r => do
    Logged.say .debug
      ("registered " ++ Nat.repr r.size ++ " components from " ++ componentsDir)
    pure (.ok r)

end ComponentGraph
