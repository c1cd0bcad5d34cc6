import ComponentGraph.FileSystem.Disk
/-!
# File systems

A file system is a finite map from paths to entries. Listing a directory gives the entries whose
parent it is, in no particular order. Two media differ in what they do when a file is to be
created: memory replaces a directory that has the path already, and what was in it can no longer be
reached; a disk keeps the directory and fails. A disk also refuses some paths: what lies there
is listed by its directory, but it is not found under its path.
-/

namespace ComponentGraph

/-- What a file holds: text, or bytes that are no UTF-8 text. -/
inductive Content where
  | text (s : String)
  | binary (bytes : List UInt8)
deriving DecidableEq

inductive Entry where
  | file (content : Content)
  | directory
deriving DecidableEq

inductive Medium where
  | memory
  | disk (d : Disk)
deriving DecidableEq, Repr

/-- Why a path is refused, if it is. Memory refuses none. -/
def Medium.refusal? : Medium → Path → Option Refusal
  | .memory, _ => none
  | .disk d, p => d.refusal? p

structure FileSystem where
  medium : Medium
  entries : List (Path × Entry)
  distinct : (entries.map Prod.fst).Nodup

namespace FileSystem

inductive Error where
  /-- A written path that ends with a slash. -/
  | invalidPath (written : String)
  | notFound (path : Path)
  | lookupRefused (path : Path) (why : Refusal)
  /-- A directory is read as a file. -/
  | isDirectory (path : Path)
  | notText (path : Path)
  | noParent (path : Path)
  | parentIsFile (path : Path)
  /-- The root is no place for a file in memory. -/
  | createRoot
  | fileRefused (path : Path) (why : Refusal)
  /-- On the way to `path`, `step` is a file. -/
  | fileOnTheWay (path step : Path)
  /-- On the way to `path`, `step` cannot be created. -/
  | directoryRefused (path step : Path) (why : Refusal)
deriving DecidableEq

/-- What was tried, on which path, and why it failed. -/
def Error.describe (tried written reason : String) : String :=
  tried ++ " for '" ++ written ++ "': " ++ reason

def Error.message : Error → String
  | .invalidPath written => describe "An error occured" written "The path is invalid"
  | .notFound p =>
    describe "Could not get metadata" p.text "The file or directory could not be found"
  | .lookupRefused p why => describe "Could not get metadata" p.text why.message
  | .isDirectory p =>
    describe "Could not read path" p.text "FileSystem error: Path is a directory"
  | .notText p =>
    describe "Could not read path" p.text "IO error: stream did not contain valid UTF-8"
  | .noParent p =>
    describe "An error occured" p.text
      "FileSystem error: Could not create file, parent directory does not exist"
  | .parentIsFile p =>
    describe "An error occured" p.text
      "FileSystem error: Could not create file, parent path is not a directory"
  | .createRoot =>
    describe "Could not create file" "" "FileSystem error: Parent path does not exist"
  | .fileRefused p why => describe "Could not create file" p.text why.message
  | .fileOnTheWay p step =>
    describe ("Could not create directories at '" ++ p.text ++ "'") step.text
      "File already exists"
  | .directoryRefused p step why =>
    describe ("Could not create directories at '" ++ p.text ++ "'") step.text why.message

/-- Only the root, a directory. -/
def empty (medium : Medium) : FileSystem := ⟨medium, [(Path.root, .directory)], by simp⟩

/-- Not even a root, as where the root cannot be reached. -/
def absent (medium : Medium) : FileSystem := ⟨medium, [], by simp⟩

/-- What lies at a path, whether or not it can be found there. -/
def held? (fs : FileSystem) (p : Path) : Option Entry :=
  (fs.entries.find? (·.1 = p)).map Prod.snd

/-- What is found at a path: nothing if the medium refuses it. -/
def entry? (fs : FileSystem) (p : Path) : Option Entry :=
  match fs.medium.refusal? p with
  | some _ => none
  | none => fs.held? p

theorem entry?_eq_held? {fs : FileSystem} {p : Path} (h : fs.medium.refusal? p = none) :
    fs.entry? p = fs.held? p := by
  unfold entry?
  rw [h]

def exists? (fs : FileSystem) (p : Path) : Bool := (fs.entry? p).isSome

def isFile (fs : FileSystem) (p : Path) : Bool :=
  match fs.entry? p with
  | some (.file _) => true
  | _ => false

def isDirectory (fs : FileSystem) (p : Path) : Bool := fs.entry? p = some .directory

/-- The entries of a directory. -/
def children (fs : FileSystem) (dir : Path) : List Path :=
  let depth := dir.depth + 1
  (fs.entries.map Prod.fst).filter fun p => p.depth = depth && p.parent = dir

/-- The greatest depth of an entry. -/
def height (fs : FileSystem) : Nat := (fs.entries.map (·.1.depth)).foldr max 0

theorem depth_le_height {fs : FileSystem} {p : Path} (h : p ∈ fs.entries.map Prod.fst) :
    p.depth ≤ fs.height := by
  unfold height
  generalize fs.entries = entries at h
  induction entries with
  | nil => simp at h
  | cons entry rest ih =>
    simp only [List.map_cons, List.mem_cons, List.foldr_cons] at h ⊢
    rcases h with rfl | h
    · exact Nat.le_max_left _ _
    · exact Nat.le_trans (ih h) (Nat.le_max_right _ _)

/-- A child is one step deeper than its directory and no deeper than the file system. -/
theorem depth_of_mem_children {fs : FileSystem} {dir p : Path} (h : p ∈ fs.children dir) :
    p.depth = dir.depth + 1 ∧ p.depth ≤ fs.height := by
  simp only [children, List.mem_filter, Bool.and_eq_true, decide_eq_true_eq] at h
  exact ⟨h.2.1, depth_le_height h.1⟩

def readText (fs : FileSystem) (p : Path) : Except Error String :=
  match fs.entry? p with
  | none => .error ((fs.medium.refusal? p).elim (.notFound p) (.lookupRefused p))
  | some .directory => .error (.isDirectory p)
  | some (.file (.binary _)) => .error (.notText p)
  | some (.file (.text s)) => .ok s

/-- Put an entry at a path of an association list, in the place of the present one. -/
def assign (p : Path) (e : Entry) : List (Path × Entry) → List (Path × Entry)
  | [] => [(p, e)]
  | (q, d) :: rest => if q = p then (p, e) :: rest else (q, d) :: assign p e rest

theorem mem_assign {p q : Path} {e : Entry} {entries : List (Path × Entry)} :
    q ∈ (assign p e entries).map Prod.fst ↔ q = p ∨ q ∈ entries.map Prod.fst := by
  induction entries with
  | nil => simp [assign]
  | cons entry rest ih =>
    unfold assign
    split
    · rename_i h
      simp [h]
    · simp only [List.map_cons, List.mem_cons, ih]
      constructor <;> rintro (h | h | h) <;> simp [h]

theorem nodup_assign {p : Path} {e : Entry} {entries : List (Path × Entry)}
    (h : (entries.map Prod.fst).Nodup) : ((assign p e entries).map Prod.fst).Nodup := by
  induction entries with
  | nil => simp [assign]
  | cons entry rest ih =>
    simp only [List.map_cons, List.nodup_cons] at h
    unfold assign
    split
    · rename_i hq
      subst hq
      simpa using h
    · rename_i hne
      simp only [List.map_cons, List.nodup_cons]
      refine ⟨fun hmem => ?_, ih h.2⟩
      rcases mem_assign.mp hmem with heq | hmem
      · exact hne heq
      · exact h.1 hmem

def put (fs : FileSystem) (p : Path) (e : Entry) : FileSystem :=
  ⟨fs.medium, assign p e fs.entries, nodup_assign fs.distinct⟩

/-- Create a file, or empty the present one, and fill it. -/
def writeFile (fs : FileSystem) (p : Path) (content : Content) : Except Error FileSystem :=
  match fs.entry? p.parent with
  | none => .error (.noParent p)
  | some (.file _) => .error (.parentIsFile p)
  | some .directory =>
    match fs.medium with
    | .memory => if p = Path.root then .error .createRoot else .ok (fs.put p (.file content))
    | .disk d =>
      match d.refusal? p with
      | some why => .error (.fileRefused p why)
      | none =>
        if fs.isDirectory p then .error (.fileRefused p .isDirectory)
        else .ok (fs.put p (.file content))

/-- Create the directory `step`, on the way to `p`, if it is not there yet. -/
def createStep (p : Path) (fs : FileSystem) (step : Path) : Except Error FileSystem :=
  match fs.entry? step with
  | some .directory => .ok fs
  | some (.file _) => .error (.fileOnTheWay p step)
  | none =>
    match fs.medium.refusal? step with
    | some why => .error (.directoryRefused p step why)
    | none => .ok (fs.put step .directory)

/-- Create a directory and all that are missing on the way to it. -/
def createDirectories (fs : FileSystem) (p : Path) : Except Error FileSystem :=
  p.way.foldlM (createStep p) fs

/-- Follow a written path from a base. -/
def locate (base : Path) (written : String) : Except Error Path :=
  match base.join? written with
  | some p => .ok p
  | none => .error (.invalidPath written)

/-- There are only directories on the way to a path. -/
def reaches (fs : FileSystem) (p : Path) : Bool := p.way.dropLast.all fs.isDirectory

/-- The files that were created since, or hold something else, and can be reached. -/
def changes (before after : FileSystem) : List (Path × Content) :=
  after.entries.filterMap fun (p, e) =>
    match e with
    | .directory => none
    | .file content =>
      if before.held? p = some e then none
      else if after.reaches p then some (p, content)
      else none

end FileSystem

end ComponentGraph
