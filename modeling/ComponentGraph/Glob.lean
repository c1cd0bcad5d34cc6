import ComponentGraph.Text.Places
/-!
# Glob patterns

The patterns that a user gives to leave files out. A pattern matches a whole path: `?` stands
for one character, `*` for any run, `[...]` for one of a class, and `**` as a whole component for
any number of directories, or for anything at the end. All of them match slashes too.
-/

namespace ComponentGraph

namespace Glob

inductive Token where
  | char (c : Char)
  | any
  /-- One character in (or, negated, outside) closed ranges. -/
  | among (negated : Bool) (ranges : List (Char × Char))
  | run
  | directories
deriving DecidableEq, Repr

inductive Fault where
  /-- Three stars or more. -/
  | stars
  /-- Two stars beside other text. -/
  | partOfComponent
  /-- A class that is not closed. -/
  | openClass
deriving DecidableEq, Repr

structure Error where
  /-- Characters before the place of the fault. -/
  position : Nat
  fault : Fault
deriving DecidableEq, Repr

def Fault.message : Fault → String
  | .stars => "wildcards are either regular `*` or recursive `**`"
  | .partOfComponent => "recursive wildcards must form a single path component"
  | .openClass => "invalid range pattern"

def Error.message (e : Error) : String :=
  "Pattern syntax error near position " ++ Nat.repr e.position ++ ": " ++ e.fault.message

/-- The ranges of a class. A hyphen between two characters makes a range of them. -/
def ranges : List Char → List (Char × Char)
  | low :: '-' :: high :: rest => (low, high) :: ranges rest
  | c :: rest => (c, c) :: ranges rest
  | [] => []

/-- The inside of a class, which has at least one character, and what follows it. -/
def closeClass? : List Char → Option (List Char × List Char)
  | [] => none
  | c :: cs =>
    match cs.dropWhile (· ≠ ']') with
    | [] => none
    | _ :: rest => some (c :: cs.takeWhile (· ≠ ']'), rest)

/-- A class behind its bracket, the number of its characters, and what follows it. -/
def readClass? : List Char → Option (Token × Nat × List Char)
  | '!' :: cs => (closeClass? cs).map fun (inside, rest) =>
    (.among true (ranges inside), inside.length + 3, rest)
  | cs => (closeClass? cs).map fun (inside, rest) =>
    (.among false (ranges inside), inside.length + 2, rest)

theorem length_closeClass? {cs inside rest : List Char}
    (h : closeClass? cs = some (inside, rest)) : rest.length < cs.length := by
  cases cs with
  | nil => cases h
  | cons c cs =>
    simp only [closeClass?] at h
    split at h
    · cases h
    · rename_i first others hdrop
      have hle := (List.dropWhile_suffix (l := cs) (· ≠ ']')).length_le
      simp only [Option.some.injEq, Prod.mk.injEq] at h
      rw [hdrop] at hle
      rw [← h.2]
      simp only [List.length_cons] at hle ⊢
      omega

theorem length_readClass? {cs rest : List Char} {t : Token} {width : Nat}
    (h : readClass? cs = some (t, width, rest)) : rest.length < cs.length := by
  unfold readClass? at h
  split at h
  · rw [Option.map_eq_some_iff] at h
    obtain ⟨⟨inside, rest'⟩, hclose, heq⟩ := h
    simp only [Prod.mk.injEq] at heq
    rw [← heq.2.2]
    exact Nat.lt_succ_of_lt (length_closeClass? hclose)
  · rw [Option.map_eq_some_iff] at h
    obtain ⟨⟨inside, rest'⟩, hclose, heq⟩ := h
    simp only [Prod.mk.injEq] at heq
    rw [← heq.2.2]
    exact length_closeClass? hclose

/-- The tokens of the rest of a pattern, given the character before it and its position. -/
def readTokens (before : Option Char) (position : Nat) : List Char → Except Error (List Token)
  | [] => .ok []
  | '?' :: rest => do
    let others ← readTokens (some '?') (position + 1) rest
    pure (.any :: others)
  | '*' :: '*' :: '*' :: _ => .error ⟨position + 2, .stars⟩
  | '*' :: '*' :: rest =>
    if before.all (· = '/') then
      match rest with
      | [] => .ok [.directories]
      | '/' :: rest => do
        let others ← readTokens (some '/') (position + 3) rest
        pure (.directories :: others)
      | _ => .error ⟨position + 2, .partOfComponent⟩
    else .error ⟨position - 1, .partOfComponent⟩
  | '*' :: rest => do
    let others ← readTokens (some '*') (position + 1) rest
    pure (.run :: others)
  | '[' :: rest =>
    match _h : readClass? rest with
    | none => .error ⟨position, .openClass⟩
    | some (t, width, after) => do
      let others ← readTokens (some ']') (position + width) after
      pure (t :: others)
  | c :: rest => do
    let others ← readTokens (some c) (position + 1) rest
    pure (.char c :: others)
termination_by cs => cs.length
decreasing_by
  all_goals simp only [List.length_cons]
  all_goals first | omega | exact Nat.lt_succ_of_lt (length_readClass? _h)

/-- The character is in one of the ranges. -/
def inRanges (ranges : List (Char × Char)) (c : Char) : Bool :=
  ranges.any fun (low, high) => low ≤ c && c ≤ high

/-- The places behind a token that begins at one of the given places. -/
def Token.pass (text : List Char) (m : Text.Places) : Token → Text.Places
  | .char c => m.step (· = c) text
  | .any => m.step (fun _ => true) text
  | .among negated ranges => m.step (fun c => inRanges ranges c != negated) text
  | .run => m.run (fun _ => true) false text
  | .directories => m.skip (· = '/') false false text

/-- The tokens match the whole text. -/
def accepts (ts : List Token) (text : List Char) : Bool :=
  (ts.foldl (Token.pass text) (Text.Places.front text)).atEnd

end Glob

/-- A pattern that was read. -/
structure Glob where
  tokens : List Glob.Token
deriving DecidableEq, Repr

namespace Glob

def parse (pattern : String) : Except Error Glob := (readTokens none 0 pattern.toList).map Glob.mk

def isMatch (g : Glob) (path : String) : Bool := accepts g.tokens path.toList

end Glob

end ComponentGraph
