/-!
# Sorted association lists

Pairs of a text key and a value in increasing order of the keys, which is the order of
their characters and equally that of their UTF-8 bytes. `alter` is the one way to change
such a list; it keeps the order, and `get?_alter` says what it does.
-/

namespace ComponentGraph.Keyed

variable {β : Type}

/-- The keys increase strictly. -/
def Sorted (entries : List (String × β)) : Prop :=
  (entries.map Prod.fst).Pairwise (· < ·)

def get? (key : String) : List (String × β) → Option β
  | [] => none
  | (k, v) :: rest => if key = k then some v else get? key rest

/-- Put `f` of the present value, if there is one, under the key. -/
def alter (key : String) (f : Option β → β) : List (String × β) → List (String × β)
  | [] => [(key, f none)]
  | (k, v) :: rest =>
    if key < k then (key, f none) :: (k, v) :: rest
    else if key = k then (k, f (some v)) :: rest
    else (k, v) :: alter key f rest

/-- The new value takes the place of the present one. -/
def insert (key : String) (value : β) : List (String × β) → List (String × β) :=
  alter key fun _ => value

/-- The present value stays. -/
def insertNew (key : String) (value : β) : List (String × β) → List (String × β) :=
  alter key fun present => present.getD value

theorem mem_keys_alter {key k : String} {f : Option β → β} {entries : List (String × β)} :
    k ∈ (alter key f entries).map Prod.fst ↔ k = key ∨ k ∈ entries.map Prod.fst := by
  induction entries with
  | nil => simp [alter]
  | cons entry rest ih =>
    obtain ⟨j, v⟩ := entry
    unfold alter
    split
    · simp
    · split
      · rename_i h
        subst h
        simp
      · simp only [List.map_cons, List.mem_cons, ih]
        constructor <;> rintro (h | h | h) <;> simp [h]

theorem lt_of_not_lt_of_ne {s t : String} (h : ¬ s < t) (hne : s ≠ t) : t < s := by
  rcases Decidable.em (t < s) with h' | h'
  · exact h'
  · exact absurd (String.le_antisymm (String.not_lt.mp h') (String.not_lt.mp h)) hne

theorem Sorted.alter {key : String} {f : Option β → β} {entries : List (String × β)}
    (h : Sorted entries) : Sorted (alter key f entries) := by
  induction entries with
  | nil => simp [Keyed.alter, Sorted]
  | cons entry rest ih =>
    obtain ⟨k, v⟩ := entry
    simp only [Sorted, List.map_cons, List.pairwise_cons] at h
    unfold Keyed.alter
    split
    · rename_i hlt
      simp only [Sorted, List.map_cons, List.pairwise_cons, List.mem_cons]
      refine ⟨?_, h⟩
      rintro j (rfl | hj)
      · exact hlt
      · exact String.lt_trans hlt (h.1 j hj)
    · rename_i hlt
      split
      · simpa [Sorted] using h
      · rename_i hne
        simp only [Sorted, List.map_cons, List.pairwise_cons]
        refine ⟨?_, ih h.2⟩
        intro j hj
        rcases mem_keys_alter.mp hj with rfl | hj
        · exact lt_of_not_lt_of_ne hlt hne
        · exact h.1 j hj

theorem get?_eq_none_iff {key : String} {entries : List (String × β)} :
    get? key entries = none ↔ key ∉ entries.map Prod.fst := by
  induction entries with
  | nil => simp [get?]
  | cons entry rest ih =>
    by_cases hk : key = entry.1 <;> simp_all [get?]

theorem mem_of_get? {key : String} {value : β} {entries : List (String × β)}
    (h : get? key entries = some value) : (key, value) ∈ entries := by
  induction entries with
  | nil => simp [get?] at h
  | cons entry rest ih =>
    by_cases hk : key = entry.1
    · obtain ⟨k, v⟩ := entry
      simp_all [get?]
    · simp only [get?, hk, if_false] at h
      exact List.mem_cons_of_mem _ (ih h)

/-- In a sorted list the entries are what is found. -/
theorem get?_eq_some_iff {key : String} {value : β} {entries : List (String × β)}
    (h : Sorted entries) : get? key entries = some value ↔ (key, value) ∈ entries := by
  refine ⟨mem_of_get?, fun hmem => ?_⟩
  induction entries with
  | nil => cases hmem
  | cons entry rest ih =>
    obtain ⟨k, v⟩ := entry
    simp only [Sorted, List.map_cons, List.pairwise_cons] at h
    rcases List.mem_cons.mp hmem with heq | hrest
    · cases heq
      simp [get?]
    · have hlt : k < key := h.1 key (List.mem_map.mpr ⟨_, hrest, rfl⟩)
      have hne : key ≠ k := fun heq => String.lt_irrefl _ (heq ▸ hlt)
      rw [get?, if_neg hne]
      exact ih h.2 hrest

/-- Putting in a new value adds at most its own entry. -/
theorem mem_of_mem_insertNew {key k : String} {value v : β} {entries : List (String × β)}
    (h : (k, v) ∈ insertNew key value entries) : (k, v) ∈ entries ∨ (k, v) = (key, value) := by
  unfold insertNew at h
  induction entries with
  | nil => simpa [alter] using h
  | cons entry rest ih =>
    obtain ⟨j, w⟩ := entry
    unfold alter at h
    split at h
    · rcases List.mem_cons.mp h with h | h
      · exact Or.inr h
      · exact Or.inl h
    · split at h
      · exact Or.inl h
      · rcases List.mem_cons.mp h with h | h
        · exact Or.inl (h ▸ List.mem_cons_self)
        · exact (ih h).imp_left (List.mem_cons_of_mem _)

/-- Altering changes the value of its key and of no other. -/
theorem get?_alter {key : String} {f : Option β → β} {entries : List (String × β)}
    (h : Sorted entries) (k : String) :
    get? k (alter key f entries) =
      if k = key then some (f (get? key entries)) else get? k entries := by
  induction entries with
  | nil => by_cases hk : k = key <;> simp [alter, get?, hk]
  | cons entry rest ih =>
    obtain ⟨j, v⟩ := entry
    simp only [Sorted, List.map_cons, List.pairwise_cons] at h
    unfold alter
    split
    · rename_i hlt
      have hnone : get? key ((j, v) :: rest) = none := by
        rw [get?_eq_none_iff]
        simp only [List.map_cons, List.mem_cons, not_or]
        refine ⟨fun h => ?_, fun hmem => ?_⟩
        · subst h; exact String.lt_irrefl _ hlt
        · exact String.lt_irrefl _ (String.lt_trans hlt (h.1 _ hmem))
      rw [hnone, get?]
    · split
      · rename_i hkey
        subst hkey
        by_cases hk : k = key <;> simp [get?, hk]
      · rename_i hne
        by_cases hk : k = key
        · subst hk
          simp [get?, hne, ih h.2]
        · simp [get?, hk, ih h.2]

end ComponentGraph.Keyed
