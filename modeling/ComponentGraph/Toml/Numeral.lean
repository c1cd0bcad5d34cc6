import ComponentGraph.Text.Split
import ComponentGraph.Toml.Quoted
/-!
# Whole numbers in TOML

A whole number is decimal with an optional sign, or without a sign in base 16, 8 or 2. An
underscore may stand between two digits. A decimal number begins with `0` only if it is that
digit alone.
-/

namespace ComponentGraph.Toml

/-- The value of digits and underscores, in which each underscore is between two digits. -/
def grouped? (base : Nat) (cs : List Char) : Option Nat :=
  let groups := Text.splitOn '_' cs
  if groups.any List.isEmpty then none else valueInBase? base groups.flatten

/-- The value of decimal digits. -/
def decimal? (cs : List Char) : Option Nat :=
  if cs.head? = some '0' ∧ cs ≠ ['0'] then none else grouped? 10 cs

def integer? : List Char → Option Int
  | '0' :: 'x' :: digits => (grouped? 16 digits).map Int.ofNat
  | '0' :: 'o' :: digits => (grouped? 8 digits).map Int.ofNat
  | '0' :: 'b' :: digits => (grouped? 2 digits).map Int.ofNat
  | '+' :: digits => (decimal? digits).map Int.ofNat
  | '-' :: digits => (decimal? digits).map fun n => -(n : Int)
  | digits => (decimal? digits).map Int.ofNat

end ComponentGraph.Toml
