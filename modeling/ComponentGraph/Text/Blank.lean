/-!
# Blank characters

Two classes are in use: the five blanks of markup, and the white space of Unicode,
which ends the lines of an ignore file.
-/

namespace ComponentGraph.Text

/-- Space, tab, line feed, carriage return and form feed separate the parts of a tag. -/
def isMarkupBlank (c : Char) : Bool :=
  c = ' ' || c = '\t' || c = '\n' || c = '\r' || c = '\x0c'

/-- The code points with the property White_Space, as closed ranges. -/
def whiteSpaceRanges : List (Nat × Nat) :=
  [(0x09, 0x0D), (0x20, 0x20), (0x85, 0x85), (0xA0, 0xA0), (0x1680, 0x1680), (0x2000, 0x200A),
   (0x2028, 0x2029), (0x202F, 0x202F), (0x205F, 0x205F), (0x3000, 0x3000)]

/-- The character has the property White_Space. -/
def isWhiteSpace (c : Char) : Bool :=
  whiteSpaceRanges.any fun (low, high) => low ≤ c.toNat && c.toNat ≤ high

/-- Every blank of markup is white space. -/
theorem isWhiteSpace_of_isMarkupBlank {c : Char} (h : isMarkupBlank c = true) :
    isWhiteSpace c = true := by
  simp only [isMarkupBlank, Bool.or_eq_true, decide_eq_true_eq] at h
  rcases h with (((rfl | rfl) | rfl) | rfl) | rfl <;> decide

end ComponentGraph.Text
