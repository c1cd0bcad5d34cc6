import ComponentGraph.Glob
import ComponentGraph.Ignore.Rules
import ComponentGraph.Notice
import ComponentGraph.Path.FileName
import ComponentGraph.Project
/-!
# Walking a directory

The component files below a directory of a project, without those that patterns or ignore
files leave out. On the way down each directory adds its own ignore file; of the ignore
files above an entry, the deepest that says anything of it decides.
-/

namespace ComponentGraph

structure Walk where
  project : Project
  /-- The directory, normalized; empty for the base of the project. -/
  dir : String
  patterns : List String

/-- The rules of the ignore file of a directory, which is named relative to the base. -/
structure IgnoreFile where
  dir : String
  rules : List Ignore.Rule

namespace IgnoreFile

/-- The path of an entry from the directory on, if it is below it. -/
def below? (f : IgnoreFile) (path : String) : Option String :=
  if f.dir = "" then some path
  else
    let start := f.dir.toList ++ ['/']
    if start.isPrefixOf path.toList then some (String.ofList (path.toList.drop start.length))
    else none

def verdict (f : IgnoreFile) (path : String) (isDirectory : Bool) : Option Ignore.Verdict :=
  (f.below? path).bind fun path => Ignore.verdict f.rules path isDirectory

/-- The first of the ignore files that says anything of an entry leaves it out. -/
def leaveOut (files : List IgnoreFile) (path : String) (isDirectory : Bool) : Bool :=
  files.findSome? (·.verdict path isDirectory) = some .leftOut

end IgnoreFile

/-- Directories that are never entered. -/
def skippedDirectories : List String := ["node_modules", ".git"]

def ignoreFileName : String := ".gitignore"

theorem isPlainName_ignoreFileName : IsPlainName ignoreFileName := by decide

namespace Walk

/-- A walk through the directory that a user wrote. -/
def through (project : Project) (written : String) (patterns : List String) : Walk :=
  ⟨project, normalize written, patterns⟩

/-- The path of an entry as it is matched and shown. -/
def relative (w : Walk) (p : Path) : String := w.project.base.relativeTo p

/-- The patterns that can be read; the others are told of. -/
def globs : List String → Logged (List Glob)
  | [] => pure []
  | pattern :: rest =>
    match Glob.parse pattern with
    | .ok g => do
      let others ← globs rest
      pure (g :: others)
    | .error e => do
      Logged.say .error ("invalid ignore pattern " ++ pattern ++ ": " ++ e.message)
      globs rest

/-- The ignore files in force in a directory, when `above` are in force above it. A file that
cannot be used counts as absent. -/
def enter (w : Walk) (above : List IgnoreFile) (dir : Path) : Logged (List IgnoreFile) :=
  let p := dir.child ignoreFileName isPlainName_ignoreFileName
  if w.project.files.exists? p then
    match w.project.files.readText p with
    | .ok source =>
      match Ignore.rules source with
      | .ok rules => pure (⟨w.relative dir, rules⟩ :: above)
      | .error e => do
        Logged.say .error ("failed to parse " ++ p.text ++ ": " ++ e.message)
        pure above
    | .error e => do
      Logged.say .error ("failed to read .gitignore: " ++ e.message)
      pure above
  else pure above

/-- Enter directories one after the other. -/
def enterAll (w : Walk) (above : List IgnoreFile) : List Path → Logged (List IgnoreFile)
  | [] => pure above
  | dir :: rest => do
    let ignores ← w.enter above dir
    w.enterAll ignores rest

/-- The directories from the base to above the one that is walked. -/
def above (w : Walk) : List Path :=
  let pieces := (Text.splitOn '/' w.dir.toList).filter (· ≠ [])
  if pieces.isEmpty then []
  else
    (List.range pieces.length).map fun n => (pieces.take n).foldl Path.step w.project.base

/-- An entry is not looked at. -/
def skips (w : Walk) (globs : List Glob) (ignores : List IgnoreFile) (p : Path) : Bool :=
  let isDirectory := w.project.files.isDirectory p
  (isDirectory && p.names.getLast?.any (skippedDirectories.contains ·)) ||
    globs.any (·.isMatch (w.relative p)) ||
    IgnoreFile.leaveOut ignores (w.relative p) isDirectory

/-- The entries of a directory in the order of their paths. -/
def entries (w : Walk) (dir : Path) : List Path :=
  (w.project.files.children dir).mergeSort fun p q => p.text ≤ q.text

/-- Visit entries one after the other and join what is found. -/
def collect {α β : Type} (visit : α → Logged (List β)) : List α → Logged (List β)
  | [] => pure []
  | a :: rest => do
    let found ← visit a
    let others ← collect visit rest
    pure (found ++ others)

/-- The component files below a directory. -/
def visit (w : Walk) (globs : List Glob) (above : List IgnoreFile) (dir : Path) :
    Logged (List String) := do
  let ignores ← w.enter above dir
  collect (fun (entry : { p // p ∈ w.entries dir }) =>
      if w.skips globs ignores entry.1 then pure []
      else if w.project.files.isDirectory entry.1 then w.visit globs ignores entry.1
      else if FileName.isComponent (w.relative entry.1) then pure [w.relative entry.1]
      else pure [])
    (w.entries dir).attach
termination_by w.project.files.height - dir.depth
decreasing_by
  have hmem := entry.2
  simp only [entries, List.mem_mergeSort] at hmem
  have hdepth := FileSystem.depth_of_mem_children hmem
  omega

/-- The component files that a walk finds, sorted. A file instead of a directory is the only
one, if it is a component. -/
def files (w : Walk) : Logged (Except FileSystem.Error (List String)) :=
  match FileSystem.locate w.project.base w.dir with
  | .error e => pure (.error e)
  | .ok start =>
    match w.project.files.entry? start with
    | none => do
      Logged.say .error ("failed to walk " ++ w.dir ++ ": no such directory")
      pure (.ok [])
    | some (.file _) =>
      let path := w.relative start
      pure (.ok (if FileName.isComponent path then [path] else []))
    | some .directory => do
      let globs ← globs w.patterns
      let ignores ← w.enterAll [] w.above
      let found ← w.visit globs ignores start
      Logged.say .debug
        ("found " ++ Nat.repr found.length ++ " ." ++ FileName.componentExtension ++ " files in " ++
          (if w.dir = "" then "." else w.dir))
      pure (.ok (found.mergeSort fun s t => s ≤ t))

end Walk

end ComponentGraph
