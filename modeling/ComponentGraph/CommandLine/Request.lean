import ComponentGraph.CommandLine.Arguments
/-!
# What a command line asks for

A command names the page or the directory of views, and then perhaps the directory of the
components. Options may stand between the words of a command. What may be said in front of the
command and behind it holds as it is said behind it.
-/

namespace ComponentGraph.CommandLine

/-- What is analysed. -/
inductive Target where
  | page
  | views
deriving DecidableEq, Repr

/-- The target of a command. -/
def Target.ofCommand? : String → Option Target
  | "load" => some .page
  | "load-all" => some .views
  | _ => none

/-- An analysis that is asked for. -/
structure Invocation where
  target : Target
  path : String
  /-- The base of the project. -/
  root : String
  verbose : Bool
  color? : Option Bool
  overrides : Overrides
deriving DecidableEq

inductive Request where
  | help
  | version
  | analysis (i : Invocation)
deriving DecidableEq

/-- The base of a project when no other is given. -/
def defaultRoot : String := "."

/-- The invocation of a command with its words. -/
def invocation (target : Target) (front behind : Given) (words : List String) :
    Except UsageError Request :=
  let made (path : String) (componentsDir? : Option String) : Request := .analysis {
    target
    path
    root := (behind.root? <|> front.root?).getD defaultRoot
    verbose := front.verbose || behind.verbose
    color? := behind.color? <|> front.color?
    overrides := { behind.overrides with componentsDir? } }
  match words with
  | [] => .error .missingPath
  | [path] => .ok (made path none)
  | [path, componentsDir] => .ok (made path (some componentsDir))
  | _ :: _ :: extra :: _ => .error (.unexpected extra)

/-- Read the arguments behind a command. -/
def readBehind (target : Target) (front g : Given) (words : List String) :
    List String → Except UsageError Request
  | [] => invocation target front g words
  | argument :: rest =>
    match Argument.ofString argument with
    | .mark => invocation target front g (words ++ rest)
    | .word s =>
      if words.length = 2 then .error (.unexpected s)
      else readBehind target front g (words ++ [s]) rest
    | _ =>
      match readOption .behind g argument rest.head? with
      | .error e => .error e
      | .ok .help => .ok .help
      | .ok .version => .ok .version
      | .ok (.go g false) => readBehind target front g words rest
      | .ok (.go g true) =>
        match rest with
        | [] => invocation target front g words
        | _ :: rest => readBehind target front g words rest

/-- Help on the whole program, on a command, or on help. -/
def readHelp : List String → Except UsageError Request
  | [] => .ok .help
  | [topic] =>
    if topic = "help" ∨ (Target.ofCommand? topic).isSome then .ok .help
    else .error (.unexpected topic)
  | _ :: extra :: _ => .error (.unexpected extra)

/-- Read the arguments in front of the command, the command, and those behind it. -/
def readFront (g : Given) : List String → Except UsageError Request
  | [] => .error .missingCommand
  | argument :: rest =>
    match Argument.ofString argument with
    | .mark => .error .missingCommand
    | .word s =>
      if s = "help" then readHelp rest
      else
        match Target.ofCommand? s with
        | none => .error (.unexpected s)
        | some target => readBehind target g {} [] rest
    | _ =>
      match readOption .front g argument rest.head? with
      | .error e => .error e
      | .ok .help => .ok .help
      | .ok .version => .ok .version
      | .ok (.go g false) => readFront g rest
      | .ok (.go g true) =>
        match rest with
        | [] => .error .missingCommand
        | _ :: rest => readFront g rest

/-- What the arguments ask for. -/
def Request.ofArguments (arguments : List String) : Except UsageError Request :=
  readFront {} arguments

end ComponentGraph.CommandLine
