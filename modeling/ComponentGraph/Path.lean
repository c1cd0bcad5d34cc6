import ComponentGraph.Text.Split
/-!
# Paths

A path leads from the root of a file system through named entries. `Path.join` follows a
written path from a base: empty and `.` pieces are skipped, `..` goes back one step and stays
at the root, and a leading slash starts again from the root. `normalize` is what a path given by
a user goes through before it is joined.
-/

namespace ComponentGraph

/-- The name of an entry: not empty, neither `.` nor `..`, without a slash. -/
def IsPlainName (name : String) : Prop :=
  name ≠ "" ∧ name ≠ "." ∧ name ≠ ".." ∧ '/' ∉ name.toList

instance (name : String) : Decidable (IsPlainName name) :=
  inferInstanceAs (Decidable (_ ∧ _))

structure Path where
  names : List String
  plain : ∀ name ∈ names, IsPlainName name

namespace Path

@[ext] theorem ext {p q : Path} (h : p.names = q.names) : p = q := by
  cases p
  cases q
  simp_all

/-- Most unequal paths differ in length, which is compared first. -/
instance : DecidableEq Path := fun p q =>
  if h : p.names.length = q.names.length then
    decidable_of_iff (p.names = q.names) ⟨Path.ext, fun h => h ▸ rfl⟩
  else isFalse fun heq => h (heq ▸ rfl)

def root : Path := ⟨[], by simp⟩

instance : Inhabited Path := ⟨root⟩

/-- The path as it is written: nothing for the root, and otherwise a slash before each name. -/
def text (p : Path) : String := String.join (p.names.map ("/" ++ ·))

def depth (p : Path) : Nat := p.names.length

/-- The directory that holds the entry. The root holds itself. -/
def parent (p : Path) : Path :=
  ⟨p.names.dropLast, fun name h => p.plain name (List.dropLast_subset _ h)⟩

/-- The entry of that name in the directory. -/
def child (p : Path) (name : String) (h : IsPlainName name) : Path :=
  ⟨p.names ++ [name], by
    intro n hn
    rcases List.mem_append.mp hn with hn | hn
    · exact p.plain n hn
    · simp_all⟩

@[simp] theorem depth_child (p : Path) (name : String) (h : IsPlainName name) :
    (p.child name h).depth = p.depth + 1 := by
  simp [depth, child]

/-- The path that leads on below another. -/
def append (p q : Path) : Path :=
  ⟨p.names ++ q.names, fun name h => (List.mem_append.mp h).elim (p.plain name) (q.plain name)⟩

/-- The directories on the way to the entry and the entry itself, without the root. -/
def way (p : Path) : List Path :=
  (List.range p.names.length).map fun i =>
    ⟨p.names.take (i + 1), fun name h => p.plain name (List.mem_of_mem_take h)⟩

/-- One step along a written path. -/
def step (p : Path) (piece : List Char) : Path :=
  let name := String.ofList piece
  if h : IsPlainName name then p.child name h
  else if name = ".." then p.parent
  else p

/-- Follow a written path. A written path that is longer than one character and ends with a
slash is refused. -/
def join? (base : Path) (written : String) : Option Path :=
  match written.toList with
  | [] => some base
  | cs =>
    if 1 < cs.length ∧ cs.getLast? = some '/' then none
    else
      let start := if cs.head? = some '/' then root else base
      some ((Text.splitOn '/' cs).foldl step start)

/-- The rest of the path below the root, without a leading slash. The root is taken off as
text, so that an entry beside the root whose name only begins like it is shortened too. -/
def relativeTo (base p : Path) : String :=
  let below :=
    if base.text.toList.isPrefixOf p.text.toList then p.text.toList.drop base.text.length
    else p.text.toList
  String.ofList (below.dropWhile (· = '/'))

end Path

/-- Leading `./` taken off, any number of times. -/
def dropHere : List Char → List Char
  | '.' :: '/' :: rest => dropHere rest
  | cs => cs

/-- A written path without trailing slashes and leading `./`; the path `.` becomes empty. -/
def normalize (written : String) : String :=
  let cs := dropHere (Text.dropEndWhile (· = '/') written.toList)
  if cs = ['.'] then "" else String.ofList cs

end ComponentGraph
