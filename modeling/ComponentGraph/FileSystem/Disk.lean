import ComponentGraph.Path
/-!
# Disks

What a disk refuses to look up or to create. A name is limited to 255 bytes and a written path to
4095, and a name holds no zero character. Each path below a root is written behind the root and a
slash, so nothing is there below a root that cannot be reached as a directory.
-/

namespace ComponentGraph

/-- Why a disk refuses a path. -/
inductive Refusal where
  /-- Nothing is there that could hold the entry. -/
  | missing
  /-- A file is taken for a directory. -/
  | notDirectory
  /-- A directory is taken for a file. -/
  | isDirectory
  | tooLong
  | zeroCharacter
deriving DecidableEq, Repr

def Refusal.message : Refusal → String
  | .missing => "The file or directory could not be found"
  | .notDirectory => "IO error: Not a directory (os error 20)"
  | .isDirectory => "IO error: Is a directory (os error 21)"
  | .tooLong => "IO error: File name too long (os error 36)"
  | .zeroCharacter => "IO error: file name contained an unexpected NUL byte"

/-- A root on a disk. -/
structure Disk where
  /-- The bytes in front of a path below the root, before its first slash. -/
  lead : Nat
  /-- Why the root cannot be reached as a directory, if it cannot. -/
  barred? : Option Refusal
deriving DecidableEq, Repr

namespace Disk

def longestName : Nat := 255

def longestPath : Nat := 4095

/-- The bytes that a written root puts before the slash of a path. -/
def leadOf (root : String) : Nat :=
  if root.toList.getLast? = some '/' then root.utf8ByteSize - 1 else root.utf8ByteSize

/-- The bytes of a path as it is written behind the root. The root itself is written with a
slash. -/
def writtenSize (d : Disk) (p : Path) : Nat := d.lead + max 1 p.text.utf8ByteSize

/-- Why a path is refused, if it is. A zero character is found before the disk is asked, the
length of the whole path before its way is followed. -/
def refusal? (d : Disk) (p : Path) : Option Refusal :=
  if p.names.any fun name => name.toList.contains '\x00' then some .zeroCharacter
  else if longestPath < d.writtenSize p then some .tooLong
  else
    d.barred? <|>
      if p.names.any fun name => longestName < name.utf8ByteSize then some .tooLong else none

end Disk

end ComponentGraph
