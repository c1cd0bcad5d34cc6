import ComponentGraph.Ignore.Expression
/-!
# Patterns that cannot be used

Where it is possible, a pattern is matched by comparing text, or by the name of a file alone. Any
other is turned into an expression for whole paths: by itself if it demands a file extension, else
together with all others of its file. A single expression that is nested too deeply makes the
whole file unusable.
-/

namespace ComponentGraph.Ignore

/-- How a pattern is matched. -/
inductive Means where
  | text
  /-- By the last component of a path. -/
  | name
  /-- By an expression of its own, on files with the extension that the pattern demands. -/
  | ownExpression
  /-- By an expression that is made together with those of other patterns. -/
  | sharedExpression
deriving DecidableEq, Repr

/-- The token stands for a character that satisfies the condition. -/
def Token.isChar (condition : Char → Bool) : Token → Bool
  | .char c => condition c
  | _ => false

/-- The tokens are characters only. -/
def isLiteral (ts : List Token) : Bool := ts.all (Token.isChar fun _ => true)

/-- Comparing text is enough: the whole path, its end or its beginning. -/
def comparesText (pattern : List Token) : Bool :=
  match pattern with
  | [] => false
  | .leading :: rest => !rest.isEmpty && isLiteral rest
  | _ =>
    match pattern.getLast? with
    | some .trailing => isLiteral pattern.dropLast
    | _ => isLiteral pattern

/-- The token plainly stays within a component. Alternatives and negated classes are not looked
into. -/
def Token.staysInName : Token → Bool
  | .char c => c ≠ '/'
  | .any | .star => true
  | .among negated ranges => !negated && !ranges.any fun (low, high) => low ≤ '/' && '/' ≤ high
  | _ => false

/-- A pattern that leaves the directories open and says something of the name alone. -/
def looksAtName : List Token → Bool
  | .leading :: name => !name.isEmpty && name.all Token.staysInName
  | _ => false

/-- A pattern demands an extension: it ends with a dot and characters within a component. -/
def demandsExtension (pattern : List Token) : Bool :=
  let behindName :=
    pattern.reverse.dropWhile (Token.isChar fun c => c ≠ '.' && c ≠ '/')
  behindName.head?.any (Token.isChar (· = '.'))

def meansOf (pattern : List Token) : Means :=
  if comparesText pattern then .text
  else if looksAtName pattern then .name
  else if demandsExtension pattern then .ownExpression
  else .sharedExpression

/-- A pattern whose expression is refused. -/
inductive Fault where
  | ofOwn (expression : String)
  /-- The number among the patterns whose expressions are made together, from zero. -/
  | ofShared (number : Nat)
deriving DecidableEq, Repr

def Fault.message : Fault → String
  | .ofOwn expression => "error parsing glob '" ++ expression ++ "': error parsing pattern 0"
  | .ofShared number => "error parsing pattern " ++ Nat.repr number

/-- The fault of the patterns of a file, if they have one. The expressions that stand by themselves
are made first. -/
def fault? (patterns : List (List Token)) : Option Fault :=
  match (patterns.filter (meansOf · = .ownExpression)).find? isTooDeep with
  | some pattern => some (.ofOwn (expression pattern))
  | none =>
    ((patterns.filter (meansOf · = .sharedExpression)).findIdx? isTooDeep).map .ofShared

end ComponentGraph.Ignore
