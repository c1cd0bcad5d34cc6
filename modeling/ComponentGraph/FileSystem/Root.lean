import ComponentGraph.FileSystem
/-!
# Taking a directory as the root

A program is started in a directory and told a root by a written path. The path is followed from
one directory to the next. Of the directories above the first nothing is known but that
they are there.
-/

namespace ComponentGraph

/-- Where a written path leads. -/
inductive Whereabouts where
  | inside (p : Path)
  /-- Above the directory in which the program was started. -/
  | above
deriving DecidableEq

namespace FileSystem

/-- Why a name leads nowhere. -/
def refusalOfUnknown (name : List Char) : Refusal :=
  if Disk.longestName < (String.ofList name).utf8ByteSize then .tooLong else .missing

/-- One step along a path. -/
def followStep (fs : FileSystem) (place : Whereabouts) (piece : List Char) :
    Except Refusal Whereabouts :=
  match place with
  | .above =>
    if IsPlainName (String.ofList piece) then .error (refusalOfUnknown piece) else .ok .above
  | .inside p =>
    if fs.isDirectory p = false then .error .notDirectory
    else if p = Path.root ∧ piece = ['.', '.'] then .ok .above
    else if fs.exists? (p.step piece) then .ok (.inside (p.step piece))
    else .error (refusalOfUnknown piece)

/-- Follow a written path to a directory. -/
def follow (fs : FileSystem) (written : String) : Except Refusal Whereabouts := do
  let start := if written.toList.head? = some '/' then .above else .inside Path.root
  let place ← (Text.splitOn '/' written.toList).foldlM fs.followStep start
  match place with
  | .above => pure .above
  | .inside p => if fs.isDirectory p then pure (.inside p) else throw .notDirectory

/-- The part of a file system below a directory, which becomes the root. -/
def below (fs : FileSystem) (medium : Medium) (base : Path) : FileSystem :=
  let inside := fs.entries.filterMap fun (p, e) =>
    if base.names.isPrefixOf p.names then
      some ((⟨p.names.drop base.depth,
        fun name h => p.plain name (List.mem_of_mem_drop h)⟩ : Path), e)
    else none
  inside.foldl (fun part (p, e) => part.put p e) (absent medium)

end FileSystem

end ComponentGraph
