import ComponentGraph.Ignore.Wildcard
/-!
# The expression of a pattern

A pattern of an ignore file stands for a regular expression over bytes. Expressions that are
nested too deeply are refused, so this module holds, beside the text of an expression, how
deeply it is nested: a literal byte is not nested at all, and each sequence, choice, repetition,
group and class of bytes around something adds a level.
-/

namespace ComponentGraph.Ignore

/-- How many items stand side by side, and the levels within the deepest of them. -/
structure Extent where
  items : Nat
  depth : Nat
deriving DecidableEq, Repr

namespace Extent

def empty : Extent := ⟨0, 0⟩

/-- Items and further items. -/
def append (x y : Extent) : Extent := ⟨x.items + y.items, max x.depth y.depth⟩

/-- The levels of all items together: several of them form a level of their own. -/
def levels (x : Extent) : Nat := if 1 < x.items then x.depth + 1 else x.depth

@[simp] theorem append_empty (x : Extent) : x.append empty = x := by simp [append, empty]

theorem depth_le_levels (x : Extent) : x.depth ≤ x.levels := by
  unfold levels
  split
  · exact Nat.le_succ x.depth
  · exact Nat.le_refl x.depth

end Extent

mutual

/-- The extent of a token. A group whose alternatives all stand for nothing is left away. -/
def Token.extent : Token → Extent
  | .char c => ⟨(bytes c).length, 0⟩
  | .any => ⟨1, 1⟩
  | .star => ⟨1, 2⟩
  | .leading | .between => ⟨1, 4⟩
  | .trailing => ⟨2, 1⟩
  | .among _ ranges =>
    let members : Extent := ⟨(ranges.flatMap fun (low, high) => byteRanges low high).length, 0⟩
    ⟨1, members.levels + 1⟩
  | .alternatives branches =>
    let choice := extentOfChoice branches
    if choice.items = 0 then .empty else ⟨1, choice.levels + 1⟩

/-- Tokens one after the other. -/
def extentOfAll : List Token → Extent
  | [] => .empty
  | t :: rest => t.extent.append (extentOfAll rest)

/-- Alternatives, of which those that stand for nothing do not count. -/
def extentOfChoice : List (List Token) → Extent
  | [] => .empty
  | branch :: rest =>
    let whole := extentOfAll branch
    if whole.items = 0 then extentOfChoice rest
    else (Extent.mk 1 whole.levels).append (extentOfChoice rest)

end

/-- The most levels that an expression may have. -/
def mostLevels : Nat := 250

/-- A pattern is nested too deeply. Its tokens stand between the marks of the beginning and the
end, so that there are always several items. -/
def isTooDeep (pattern : List Token) : Bool :=
  decide (mostLevels < (Extent.append ⟨2, 0⟩ (extentOfAll pattern)).levels)

/-- Characters that mean something in an expression. -/
def specialCharacters : List Char := "\\.+*?()|[]\x7b\x7d^$#&-~".toList

/-- A byte that stands for itself. -/
def writeByte (b : UInt8) : List Char :=
  if b < 128 then
    let c := Char.ofNat b.toNat
    if specialCharacters.contains c then ['\\', c] else [c]
  else '\\' :: 'x' :: Nat.toDigits 16 b.toNat

/-- A character that stands for itself. -/
def writeChar (c : Char) : List Char := (bytes c).flatMap writeByte

/-- A range of characters in a class. -/
def writeRange (range : Char × Char) : List Char :=
  if range.1 = range.2 then writeChar range.1
  else writeChar range.1 ++ '-' :: writeChar range.2

mutual

/-- The expression of a token, and what follows it. -/
def Token.write : Token → List Char → List Char
  | .char c, rest => writeChar c ++ rest
  | .any, rest => "[^/]".toList ++ rest
  | .star, rest => "[^/]*".toList ++ rest
  | .leading, rest => "(?:/?|.*/)".toList ++ rest
  | .trailing, rest => "/.*".toList ++ rest
  | .between, rest => "(?:/|/.*/)".toList ++ rest
  | .among negated ranges, rest =>
    (if negated then ['[', '^'] else ['[']) ++ ranges.reverse.flatMap writeRange ++ ']' :: rest
  | .alternatives branches, rest =>
    if allVoid branches then rest
    else "(?:".toList ++ writeChoice false branches (')' :: rest)

/-- The expressions of tokens one after the other, and what follows them. -/
def writeAll : List Token → List Char → List Char
  | [], rest => rest
  | t :: ts, rest => t.write (writeAll ts rest)

/-- The expressions of alternatives, and what follows them. A bar stands in front of each that
is not the first. -/
def writeChoice (afterAnother : Bool) : List (List Token) → List Char → List Char
  | [], rest => rest
  | branch :: branches, rest =>
    if areVoid branch then writeChoice afterAnother branches rest
    else
      (if afterAnother then ['|'] else []) ++ writeAll branch (writeChoice true branches rest)

end

/-- The expression of a pattern. It matches bytes, from the beginning to the end. -/
def expression (pattern : List Token) : String :=
  let body :=
    match pattern with
    | [.leading] => ".*$".toList
    | _ => writeAll pattern ['$']
  String.ofList ("(?-u)^".toList ++ body)

end ComponentGraph.Ignore
