import ComponentGraph.Text.Places
/-!
# Wildcards of ignore files

The pattern language of ignore files. Here `*` and `?` stay within a path component, `**` is
special as a whole component only, and braces hold alternatives. A pattern is read into
tokens, and they match the bytes of a path, so that `?` and a class stand for one byte.
-/

namespace ComponentGraph.Ignore

inductive Token where
  | char (c : Char)
  | any
  | star
  /-- `**` in front: nothing, or directories. -/
  | leading
  /-- `**` at the end: anything below. -/
  | trailing
  /-- `**` in between: a slash, or directories between slashes. -/
  | between
  | among (negated : Bool) (ranges : List (Char × Char))
  | alternatives (branches : List (List Token))

/-- An open brace: the tokens before it and the alternatives that are finished. Tokens that
are still being read stand in reverse. -/
structure Group where
  outer : List Token
  finished : List (List Token)

/-- What reading a class leads to. -/
inductive ClassResult where
  | closed (negated : Bool) (ranges : List (Char × Char)) (rest : List Char)
  | unclosed
  /-- A range whose end comes before its beginning. -/
  | reversed

/-- Let the last range end with the character. -/
def extendRange (c : Char) : List (Char × Char) → Option (List (Char × Char))
  | [] => none
  | (low, _) :: rest => if c < low then none else some ((low, c) :: rest)

/-- The ranges of a class. `inRange` says that a hyphen has just been read; a closing bracket
or a hyphen in front stands for itself. -/
def readRanges (negated isFirst inRange : Bool) (ranges : List (Char × Char)) :
    List Char → ClassResult
  | [] => .unclosed
  | c :: rest =>
    if c = ']' && !isFirst then
      .closed negated (if inRange then ('-', '-') :: ranges else ranges) rest
    else if c = '-' && !isFirst && !inRange then readRanges negated false true ranges rest
    else if inRange then
      match extendRange c ranges with
      | none => .reversed
      | some ranges => readRanges negated false false ranges rest
    else readRanges negated false false ((c, c) :: ranges) rest

/-- A class behind its bracket. -/
def readClass : List Char → ClassResult
  | '!' :: rest => readRanges true true false [] rest
  | '^' :: rest => readRanges true true false [] rest
  | cs => readRanges false true false [] cs

theorem length_readRanges {negated isFirst inRange negated' : Bool}
    {ranges ranges' : List (Char × Char)} {cs rest : List Char}
    (h : readRanges negated isFirst inRange ranges cs = .closed negated' ranges' rest) :
    rest.length < cs.length := by
  induction cs generalizing isFirst inRange ranges with
  | nil => cases h
  | cons c cs ih =>
    simp only [readRanges] at h
    split at h
    · simp only [ClassResult.closed.injEq] at h
      rw [← h.2.2]
      exact Nat.lt_succ_self _
    · split at h
      · exact Nat.lt_succ_of_lt (ih h)
      · split at h
        · split at h
          · cases h
          · exact Nat.lt_succ_of_lt (ih h)
        · exact Nat.lt_succ_of_lt (ih h)

theorem length_readClass {negated : Bool} {ranges : List (Char × Char)} {cs rest : List Char}
    (h : readClass cs = .closed negated ranges rest) : rest.length < cs.length := by
  unfold readClass at h
  split at h
  · exact Nat.lt_succ_of_lt (length_readRanges h)
  · exact Nat.lt_succ_of_lt (length_readRanges h)
  · exact length_readRanges h

/-- The last token gives way to a `**`, unless it is one that already says as much. -/
def absorb (doubled : Token) : List Token → List Token
  | [] => [doubled]
  | .leading :: current => .leading :: current
  | .trailing :: current => .trailing :: current
  | _ :: current => doubled :: current

/-- Two stars stand at a border: behind a slash, or first in an alternative. -/
def atBorder (before : Option Char) (groups : List Group) : Bool :=
  before = some '/' || (!groups.isEmpty && (before = some ',' || before = some '{'))

/-- Read the rest of a pattern. `current` are the tokens of the innermost alternative, `before`
the character in front, and `classes` says whether an opening bracket may begin a class: once
one is not closed, all brackets stand for themselves. There is no result if a brace is left
open or closed too often, a range is reversed, or a backslash escapes nothing. -/
def tokens? (current : List Token) (groups : List Group) (before : Option Char) (classes : Bool) :
    List Char → Option (List Token)
  | [] => if groups.isEmpty then some current.reverse else none
  | '?' :: rest => tokens? (.any :: current) groups (some '?') classes rest
  | '*' :: '*' :: rest =>
    let plain := .star :: .star :: current
    if current.isEmpty then
      match rest with
      | [] => tokens? (.leading :: current) groups (some '*') classes []
      | '/' :: rest => tokens? (.leading :: current) groups (some '/') classes rest
      | c :: rest => tokens? plain groups (some '*') classes (c :: rest)
    else if atBorder before groups then
      match rest with
      | [] => tokens? (absorb .trailing current) groups (some '*') classes []
      | '/' :: rest => tokens? (absorb .between current) groups (some '/') classes rest
      | c :: rest =>
        if !groups.isEmpty && (c = ',' || c = '}') then
          tokens? (absorb .trailing current) groups (some '*') classes (c :: rest)
        else tokens? plain groups (some '*') classes (c :: rest)
    else tokens? plain groups (some '*') classes rest
  | '*' :: rest => tokens? (.star :: current) groups (some '*') classes rest
  | '[' :: rest =>
    if classes then
      match _h : readClass rest with
      | .closed negated ranges rest =>
        tokens? (.among negated ranges :: current) groups (some ']') classes rest
      | .unclosed => tokens? (.char '[' :: current) groups (some '[') false rest
      | .reversed => none
    else tokens? (.char '[' :: current) groups (some '[') classes rest
  | '{' :: rest => tokens? [] (⟨current, []⟩ :: groups) (some '{') classes rest
  | '}' :: rest =>
    match groups with
    | [] => none
    | g :: groups =>
      tokens? (.alternatives (g.finished ++ [current.reverse]) :: g.outer) groups (some '}')
        classes rest
  | ',' :: rest =>
    match groups with
    | [] => tokens? (.char ',' :: current) [] (some ',') classes rest
    | g :: groups =>
      tokens? [] ({ g with finished := g.finished ++ [current.reverse] } :: groups) (some ',')
        classes rest
  | '\\' :: rest =>
    match rest with
    | [] => none
    | c :: rest => tokens? (.char c :: current) groups (some c) classes rest
  | c :: rest => tokens? (.char c :: current) groups (some c) classes rest
termination_by cs => cs.length
decreasing_by
  all_goals simp only [List.length_cons]
  all_goals first | omega | exact Nat.lt_succ_of_lt (length_readClass _h)

def slash : UInt8 := 47

def bytes (c : Char) : List UInt8 := String.utf8EncodeChar c

/-- The bytes of a range of characters. Of a character of several bytes, each byte counts by
itself; the range lies between the neighbouring ends. -/
def byteRanges (low high : Char) : List (UInt8 × UInt8) :=
  let single (b : UInt8) := (b, b)
  if low = high then (bytes low).map single
  else
    (bytes low).dropLast.map single ++
      [((bytes low).getLastD 0, (bytes high).headD 0)] ++ (bytes high).tail.map single

mutual

/-- A token stands for nothing at all if it has alternatives and each of them does. -/
def Token.isVoid : Token → Bool
  | .alternatives branches => allVoid branches
  | _ => false

def areVoid : List Token → Bool
  | [] => true
  | t :: rest => t.isVoid && areVoid rest

def allVoid : List (List Token) → Bool
  | [] => true
  | branch :: rest => areVoid branch && allVoid rest

end

mutual

/-- The places in a path behind a token that begins at one of the given places. -/
def Token.pass (path : List UInt8) (m : Text.Places) : Token → Text.Places
  | .char c => (bytes c).foldl (fun m b => m.step (· = b) path) m
  | .any => m.step (· ≠ slash) path
  | .star => m.run (· ≠ slash) false path
  | .leading => m.union ((m.run (fun _ => true) false path).step (· = slash) path)
  | .trailing => (m.step (· = slash) path).run (fun _ => true) false path
  | .between =>
    let behind := m.step (· = slash) path
    behind.union ((behind.run (fun _ => true) false path).step (· = slash) path)
  | .among negated ranges =>
    let ranges := ranges.flatMap fun (low, high) => byteRanges low high
    m.step (fun b => (ranges.any fun (low, high) => low ≤ b && b ≤ high) != negated) path
  | .alternatives branches => if allVoid branches then m else passEither path m branches

def passAll (path : List UInt8) (m : Text.Places) : List Token → Text.Places
  | [] => m
  | t :: rest => passAll path (t.pass path m) rest

/-- The alternatives together. One that stands for nothing at all does not count. -/
def passEither (path : List UInt8) (m : Text.Places) : List (List Token) → Text.Places
  | [] => m.none
  | branch :: rest =>
    if areVoid branch then passEither path m rest
    else (passAll path m branch).union (passEither path m rest)

end

/-- The tokens match the whole path. Two stars alone stand for anything. -/
def accepts (ts : List Token) (path : String) : Bool :=
  match ts with
  | [.leading] => true
  | _ =>
    let path := path.toList.flatMap bytes
    (passAll path (Text.Places.front path) ts).atEnd

/-- The tokens of a pattern. -/
def pattern? (pattern : List Char) : Option (List Token) := tokens? [] [] none true pattern

end ComponentGraph.Ignore
