/-!
# Padding

A cell is filled with spaces to a width counted in characters. A text that is wider than
its cell is kept whole.
-/

namespace ComponentGraph.Text

/-- The side on which the text of a cell stands. -/
inductive Align where
  | left
  | right
deriving DecidableEq, Repr

/-- The same character, `n` times. -/
def repeated (c : Char) (n : Nat) : String := String.ofList (List.replicate n c)

def pad (align : Align) (width : Nat) (text : String) : String :=
  let fill := repeated ' ' (width - text.length)
  match align with
  | .left => text ++ fill
  | .right => fill ++ text

/-- A padded text is as wide as its cell, or as wide as it was. -/
theorem length_pad (align : Align) (width : Nat) (text : String) :
    (pad align width text).length = max width text.length := by
  cases align <;> simp [pad, repeated, String.length_append] <;> omega

end ComponentGraph.Text
