/-!
# Places in a text

Which places of a text are reached: one mark for the place in front of each item, and one for the
end. A pattern is matched by moving all reached places on together, so that a text is gone
through once for each part of the pattern, however many ways there are to match it.
-/

namespace ComponentGraph.Text

variable {α : Type}

/-- A mark for each place of a text. -/
abbrev Places := List Bool

namespace Places

/-- Only the place in front of the text. -/
def front (text : List α) : Places := true :: text.map fun _ => false

/-- The places that are reached in one of two ways. -/
def union (m n : Places) : Places := List.zipWith (· || ·) m n

/-- No place. -/
def none (m : Places) : Places := m.map fun _ => false

/-- The places behind one accepted item. -/
def step (p : α → Bool) (text : List α) (m : Places) : Places :=
  false :: List.zipWith (fun a reached => reached && p a) text m

/-- The places behind any number of accepted items, when `carried` says whether the first place
is reached from before. -/
def run (p : α → Bool) (carried : Bool) : List α → Places → Places
  | a :: text, reached :: m =>
    (carried || reached) :: run p ((carried || reached) && p a) text m
  | [], reached :: _ => [carried || reached]
  | _, [] => []

/-- The reached places, the places further on that are behind an accepted item, and the end.
`passed` says whether a place was reached before, and `border` whether the item in front is
accepted. -/
def skip (p : α → Bool) (passed border : Bool) : List α → Places → Places
  | a :: text, reached :: m =>
    (reached || (passed && border)) :: skip p (passed || reached) (p a) text m
  | [], reached :: _ => [reached || passed]
  | _, [] => []

/-- The end of the text is reached. -/
def atEnd (m : Places) : Bool := m.getLast?.getD false

@[simp] theorem length_front (text : List α) : (front text).length = text.length + 1 := by
  simp [front]

@[simp] theorem length_union {m n : Places} (h : m.length = n.length) :
    (union m n).length = m.length := by
  simp [union, h]

@[simp] theorem length_step (p : α → Bool) {text : List α} {m : Places}
    (h : m.length = text.length + 1) : (step p text m).length = text.length + 1 := by
  simp [step, h]

@[simp] theorem length_run (p : α → Bool) (carried : Bool) {text : List α} {m : Places}
    (h : m.length = text.length + 1) : (run p carried text m).length = text.length + 1 := by
  induction text generalizing carried m with
  | nil => cases m <;> simp_all [run]
  | cons a text ih =>
    cases m with
    | nil => simp at h
    | cons reached m => simpa [run] using ih _ (by simpa using h)

@[simp] theorem length_skip (p : α → Bool) (passed border : Bool) {text : List α} {m : Places}
    (h : m.length = text.length + 1) :
    (skip p passed border text m).length = text.length + 1 := by
  induction text generalizing passed border m with
  | nil => cases m <;> simp_all [skip]
  | cons a text ih =>
    cases m with
    | nil => simp at h
    | cons reached m => simpa [skip] using ih _ _ (by simpa using h)

end Places

end ComponentGraph.Text
