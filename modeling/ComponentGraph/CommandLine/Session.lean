import ComponentGraph.CommandLine.Request
import ComponentGraph.CommandLine.Terminal
import ComponentGraph.Emission
import ComponentGraph.FileSystem.Root
/-!
# Running a command line

A session reads the settings of the project, analyses what was asked for and emits it. What it
says on the way goes to the terminal in order. A failure is told of at the end, with its cause
below it, and then no file was changed.
-/

namespace ComponentGraph.CommandLine

/-- The variables of the environment that have a say in colour. -/
structure Environment where
  ci? : Option String
  forceColor? : Option String
deriving DecidableEq, Repr

/-- What a session leaves behind. -/
structure Outcome where
  exitCode : UInt32
  written : Written
  changes : List (Path × Content)

/-- Colour is the default where no `CI` is set, and escape sequences have to be forced. -/
def Invocation.terminal (i : Invocation) (e : Environment) : Terminal where
  coloured := i.color?.getD (e.ci?.getD "" = "")
  escapes := e.forceColor?.any (· ≠ "0")
  verbose := i.verbose

/-- What is said before an analysis. -/
def Invocation.announcement (i : Invocation) (t : Terminal) (s : Settings) : String :=
  let path := t.highlight i.path
  let dir := t.highlight s.componentsDir
  match i.target with
  | .page => "Exploring \"" ++ path ++ "\" dependencies from \"" ++ dir ++ "\""
  | .views => "Traversing \"" ++ path ++ "\" associated with \"" ++ dir ++ "\""

def Invocation.analyze (i : Invocation) (p : Project) (s : Settings) : Attempt Analysis :=
  match i.target with
  | .page => analyzePage p i.path s.componentsDir s.ignore
  | .views => analyzeViews p i.path s.componentsDir s.ignore

/-- All that may fail. -/
def Invocation.attempt (i : Invocation) (t : Terminal) (p : Project) : Attempt Emission := do
  let config ← ExceptT.lift (Config.load p)
  let settings ← Attempt.ofResult (Settings.resolve i.overrides config)
  Attempt.say .info (i.announcement t settings)
  let analysis ← i.analyze p settings
  emit p analysis settings

/-- The lines of a text, each behind four spaces. -/
def indented (text : String) : String :=
  "\n".intercalate ((Text.splitOn '\n' text.toList).map fun line => "    " ++ String.ofList line)

/-- What is said of a failure in the end. -/
def failureReport (f : Failure) : String :=
  match f.doing with
  | none => "Error: " ++ f.cause.message ++ "\n"
  | some doing =>
    "Error: " ++ doing.message ++ "\n\nCaused by:\n" ++ indented f.cause.message ++ "\n"

/-- Run an analysis on the files of a project. -/
def Invocation.run (i : Invocation) (e : Environment) (files : FileSystem) : Outcome :=
  let t := i.terminal e
  let attempt := i.attempt t ⟨files, Path.root⟩
  let said := t.writeLog attempt.log
  match attempt.result with
  | .error failure => ⟨1, said ++ { err := failureReport failure }, []⟩
  | .ok emission =>
    let succeeded : Notice := ⟨.success, "Analysis succeeded for: " ++ i.path⟩
    ⟨0, said ++ { out := emission.shown } ++ t.writeNotice succeeded,
      files.changes emission.files⟩

/-- The program's name and version. -/
def versionLine : String := "vurif 0.1.0"

def usage : String :=
  "Usage: vurif [OPTIONS] <COMMAND>\n\n" ++
  "Commands:\n" ++
  "  load <PAGE> [COMPONENTS]       the dependency graph of a page\n" ++
  "  load-all <VIEWS> [COMPONENTS]  the dependency graphs of all pages below a directory\n\n" ++
  "Options:\n" ++
  "      --root <DIR>        base of the project\n" ++
  "      --verbose           show debug notices\n" ++
  "      --color[=<BOOL>]    coloured output; off by default if CI is set\n" ++
  "  -f, --format <FORMAT>   graph, stdout, report, json or dot\n" ++
  "      --output <FILE>     file for the formats json and dot\n" ++
  "      --out-dir <DIR>     directory for the data of the graph\n" ++
  "      --port <PORT>       port of the graph's server\n" ++
  "      --ignore <PATTERN>  files and directories to leave out\n" ++
  "  -h, --help              show this text\n" ++
  "  -V, --version           show the version\n"

/-- The outcome of a request, when the outcome of an analysis is known. -/
def outcomeOf (analysis : Invocation → Outcome) : Except UsageError Request → Outcome
  | .error error => ⟨2, { err := "error: " ++ error.message ++ "\n\n" ++ usage }, []⟩
  | .ok .help => ⟨0, { out := usage }, []⟩
  | .ok .version => ⟨0, { out := versionLine ++ "\n" }, []⟩
  | .ok (.analysis i) => analysis i

/-- The root of a project on the disk. -/
def Invocation.disk (i : Invocation) (barred? : Option Refusal) : Medium :=
  .disk ⟨Disk.leadOf i.root, barred?⟩

/-- Run a command line in a directory, of which `files` is all there is. What happens above it is
not seen. -/
def runIn (e : Environment) (files : FileSystem) (arguments : List String) : Outcome :=
  outcomeOf (fun i =>
    match files.follow i.root with
    | .error why => i.run e (FileSystem.absent (i.disk (some why)))
    | .ok .above => { i.run e (FileSystem.empty (i.disk none)) with changes := [] }
    | .ok (.inside base) =>
      let outcome := i.run e (files.below (i.disk none) base)
      { outcome with changes := outcome.changes.map fun (p, content) => (base.append p, content) })
    (Request.ofArguments arguments)

end ComponentGraph.CommandLine
