import ComponentGraph.Keyed
import ComponentGraph.Tag.Kind
/-!
# The registry of components

Where each component is: keys and the paths of their files, sorted by key. A tag refers to
the first of its spellings that is a key.
-/

namespace ComponentGraph

structure Registry where
  entries : List (String × String)
  sorted : Keyed.Sorted entries

namespace Registry

@[ext] theorem ext {r s : Registry} (h : r.entries = s.entries) : r = s := by
  cases r
  cases s
  simp_all

instance : DecidableEq Registry := fun r s =>
  decidable_of_iff (r.entries = s.entries) ⟨Registry.ext, fun h => h ▸ rfl⟩

def empty : Registry := ⟨[], by simp [Keyed.Sorted]⟩

def get? (r : Registry) (key : String) : Option String := Keyed.get? key r.entries

/-- The path takes the place of an earlier one of the key. -/
def set (r : Registry) (key path : String) : Registry :=
  ⟨Keyed.insert key path r.entries, r.sorted.alter⟩

def setAll (r : Registry) (entries : List (String × String)) : Registry :=
  entries.foldl (fun r (key, path) => r.set key path) r

def ofList (entries : List (String × String)) : Registry := empty.setAll entries

def size (r : Registry) : Nat := r.entries.length

def paths (r : Registry) : List String := r.entries.map Prod.snd

theorem get?_set (r : Registry) (key path k : String) :
    (r.set key path).get? k = if k = key then some path else r.get? k :=
  Keyed.get?_alter r.sorted k

theorem mem_paths_of_get? {r : Registry} {key path : String} (h : r.get? key = some path) :
    path ∈ r.paths :=
  List.mem_map.mpr ⟨(key, path), Keyed.mem_of_get? h, rfl⟩

/-- The key that a tag refers to, and its path. -/
def find? (r : Registry) (tag : String) : Option (String × String) :=
  (Tag.spellings tag).findSome? fun key => (r.get? key).map (key, ·)

/-- The file of a node: of its name as it is if that is a key, and else as of a tag. -/
def resolve? (r : Registry) (name : String) : Option String :=
  (r.get? name).or ((r.find? name).map Prod.snd)

/-- What a node is shown as: its path, or its name if it has none. -/
def label (r : Registry) (name : String) : String := (r.get? name).getD name

theorem get?_of_find? {r : Registry} {tag key path : String}
    (h : r.find? tag = some (key, path)) : r.get? key = some path := by
  obtain ⟨k, _, hk⟩ := List.exists_of_findSome?_eq_some h
  rw [Option.map_eq_some_iff] at hk
  obtain ⟨p, hp, heq⟩ := hk
  simp only [Prod.mk.injEq] at heq
  rw [← heq.1, ← heq.2, hp]

theorem mem_paths_of_resolve? {r : Registry} {name path : String}
    (h : r.resolve? name = some path) : path ∈ r.paths := by
  unfold resolve? at h
  cases hget : r.get? name with
  | some p =>
    rw [hget, Option.some_or] at h
    exact mem_paths_of_get? (hget.trans h)
  | none =>
    rw [hget, Option.none_or, Option.map_eq_some_iff] at h
    obtain ⟨⟨key, p⟩, hfind, rfl⟩ := h
    exact mem_paths_of_get? (get?_of_find? hfind)

end Registry

end ComponentGraph
