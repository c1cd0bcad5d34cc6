import ComponentGraph.CommandLine.Session
/-!
# The program

Reads the directory of a project into memory, runs the command line on it, and writes back the
files that changed. Nothing is decided here.
-/

namespace ComponentGraph.Program

open CommandLine

/-- The content of a file. -/
def readContent (path : String) : IO Content := do
  let bytes ← IO.FS.readBinFile path
  match String.fromUTF8? bytes with
  | some text => pure (.text text)
  | none => pure (.binary bytes.toList)

/-- Add everything below a directory of the disk, which has a path in memory. -/
partial def readDirectory (onDisk : String) (inMemory : Path) (files : FileSystem) :
    IO FileSystem := do
  let mut files := files.put inMemory .directory
  for entry in ← (← IO.FS.realPath onDisk).readDir do
    if h : IsPlainName entry.fileName then
      let path := inMemory.child entry.fileName h
      if ← entry.path.isDir then
        files ← readDirectory entry.path.toString path files
      else if ← entry.path.pathExists then
        files := files.put path (.file (← readContent entry.path.toString))
  pure files

/-- All that is there below the root that was asked for. -/
def readProject (i : Invocation) : IO FileSystem := do
  try
    let base ← IO.FS.realPath i.root
    if ← base.isDir then
      readDirectory i.root Path.root (FileSystem.absent (i.disk none))
    else pure (FileSystem.absent (i.disk (some .notDirectory)))
  catch _ => pure (FileSystem.absent (i.disk (some .missing)))

/-- Write the changed files of a project. -/
def writeChanges (root : String) (changes : List (Path × Content)) : IO Unit := do
  for (path, content) in changes do
    IO.FS.createDirAll (root ++ path.parent.text)
    match content with
    | .text text => IO.FS.writeFile (root ++ path.text) text
    | .binary bytes => IO.FS.writeBinFile (root ++ path.text) ⟨bytes.toArray⟩

def run (arguments : List String) : IO UInt32 := do
  let environment : Environment := ⟨← IO.getEnv "CI", ← IO.getEnv "CLICOLOR_FORCE"⟩
  let outcome ←
    match Request.ofArguments arguments with
    | .ok (.analysis i) => do
      let outcome := i.run environment (← readProject i)
      writeChanges i.root outcome.changes
      pure outcome
    | request => pure (outcomeOf (fun i => i.run environment (FileSystem.empty .memory)) request)
  (← IO.getStdout).putStr outcome.written.out
  (← IO.getStderr).putStr outcome.written.err
  pure outcome.exitCode

end ComponentGraph.Program

def main (arguments : List String) : IO UInt32 := ComponentGraph.Program.run arguments
