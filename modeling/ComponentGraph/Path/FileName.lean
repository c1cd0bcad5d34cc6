import ComponentGraph.Text.Split
/-!
# File names

The last name of a written path, cut at its last dot into stem and extension. A name whose
only dot stands in front has no extension.
-/

namespace ComponentGraph.FileName

/-- The last piece of a written path that names something; none if that is `..`. -/
def ofWritten? (written : String) : Option (List Char) :=
  let pieces := (Text.splitOn '/' written.toList).filter fun piece =>
    piece ≠ [] && piece ≠ ['.']
  match pieces.getLast? with
  | none => none
  | some name => if name = ['.', '.'] then none else some name

/-- What stands before and after the last dot of a name. A dot in front does not count. -/
def cutAtDot (name : List Char) : List Char × Option (List Char) :=
  let after := (name.reverse.takeWhile (· ≠ '.')).reverse
  let before := (name.reverse.dropWhile (· ≠ '.')).reverse.dropLast
  if before = [] then (name, none) else (before, some after)

def stem? (written : String) : Option String :=
  (ofWritten? written).map fun name => String.ofList (cutAtDot name).1

def extension? (written : String) : Option String :=
  (ofWritten? written).bind fun name => (cutAtDot name).2.map String.ofList

/-- The extension of component files. -/
def componentExtension : String := "vue"

def isComponent (written : String) : Bool := extension? written = some componentExtension

end ComponentGraph.FileName
