import ComponentGraph.Ignore.Fault
import ComponentGraph.Text.Blank
import ComponentGraph.Text.Split
/-!
# Rules of an ignore file

Each line of an ignore file is a rule: it leaves out what it matches, or takes it in again.
The last rule that matches decides. A path that no rule matches shares the verdict on the
directories above it. A malformed line is passed over, but a pattern that is nested too deeply
costs the file all its rules.
-/

namespace ComponentGraph.Ignore

structure Rule where
  /-- The rule takes in again what an earlier one left out. -/
  reincludes : Bool
  onlyDirectories : Bool
  pattern : List Token

/-- White space at the end of a line counts only behind a backslash. -/
def trimLine (line : List Char) : List Char :=
  if [' ', '\\'].isPrefixOf line.reverse then line else Text.dropEndWhile Text.isWhiteSpace line

/-- A slash at the end restricts a rule to directories; it is taken off, with a backslash
before it. -/
def takeEndSlash (pattern : List Char) : Bool × List Char :=
  if pattern.getLast? = some '/' then
    let pattern := pattern.dropLast
    (true, if pattern.getLast? = some '\\' then pattern.dropLast else pattern)
  else (false, pattern)

/-- Let a pattern without a slash match at any depth, unless it is anchored or begins with two
stars. -/
def atAnyDepth (anchored : Bool) (pattern : List Char) : List Char :=
  if anchored || pattern.contains '/' || pattern = ['*', '*'] then pattern
  else ['*', '*', '/'] ++ pattern

/-- A pattern that ends with two stars below a directory matches only what is below it. -/
def onlyBelow (pattern : List Char) : List Char :=
  if ['*', '*', '/'].isPrefixOf pattern.reverse then pattern ++ ['/', '*'] else pattern

/-- What a line says before its pattern: whether it takes in again, whether it is anchored. -/
def takeMarks (line : List Char) : Bool × Bool × List Char :=
  match line with
  | '\\' :: '!' :: _ | '\\' :: '#' :: _ => (false, false, line.drop 1)
  | '!' :: '/' :: rest => (true, true, rest)
  | '!' :: rest => (true, false, rest)
  | '/' :: rest => (false, true, rest)
  | _ => (false, false, line)

/-- The rule of a line. Comments, empty lines and malformed patterns are none. -/
def Rule.ofLine? (line : List Char) : Option Rule :=
  let trimmed := trimLine line
  if line.head? = some '#' || trimmed.isEmpty then none
  else
    let (reincludes, anchored, marked) := takeMarks trimmed
    let (onlyDirectories, pattern) := takeEndSlash marked
    (pattern? (onlyBelow (atAnyDepth anchored pattern))).map fun pattern =>
      ⟨reincludes, onlyDirectories, pattern⟩

/-- The rules of an ignore file. -/
def rules (source : String) : Except Fault (List Rule) :=
  let rules := (Text.lines source.toList).filterMap Rule.ofLine?
  match fault? (rules.map (·.pattern)) with
  | some e => .error e
  | none => .ok rules

def Rule.isMatch (r : Rule) (path : String) (isDirectory : Bool) : Bool :=
  (isDirectory || !r.onlyDirectories) && accepts r.pattern path

inductive Verdict where
  | leftOut
  | takenIn
deriving DecidableEq, Repr

/-- What the last matching rule says of a path. -/
def verdictOn (rules : List Rule) (path : String) (isDirectory : Bool) : Option Verdict :=
  (rules.reverse.find? (·.isMatch path isDirectory)).map fun r =>
    if r.reincludes then .takenIn else .leftOut

/-- The directories above a written path, nearest first, down to the empty path. -/
def directoriesAbove (path : String) : List String :=
  let pieces := Text.splitOn '/' path.toList
  (List.range pieces.length).reverse.map fun n =>
    String.ofList (['/'].intercalate (pieces.take n))

/-- What rules say of a path, or else of the nearest directory above it of which they say
anything. -/
def verdict (rules : List Rule) (path : String) (isDirectory : Bool) : Option Verdict :=
  (verdictOn rules path isDirectory).or
    ((directoriesAbove path).findSome? (verdictOn rules · true))

end ComponentGraph.Ignore
