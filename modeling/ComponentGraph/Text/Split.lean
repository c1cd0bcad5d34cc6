/-!
# Cutting text

Pieces between separators, lines, and ends taken off. All functions work on the
characters of a text; nothing here knows what the pieces mean.
-/

namespace ComponentGraph.Text

/-- The pieces between the separators. There is one more piece than separators. -/
def splitOn (sep : Char) : List Char → List (List Char)
  | [] => [[]]
  | c :: cs =>
    if c = sep then [] :: splitOn sep cs
    else
      match splitOn sep cs with
      | [] => [[c]]
      | piece :: pieces => (c :: piece) :: pieces

theorem splitOn_ne_nil (sep : Char) (cs : List Char) : splitOn sep cs ≠ [] := by
  cases cs with
  | nil => simp [splitOn]
  | cons c cs =>
    unfold splitOn
    split
    · simp
    · split <;> simp

/-- No piece holds the separator. -/
theorem not_mem_of_mem_splitOn {sep : Char} {cs piece : List Char}
    (h : piece ∈ splitOn sep cs) : sep ∉ piece := by
  induction cs generalizing piece with
  | nil => simp_all [splitOn]
  | cons c cs ih =>
    unfold splitOn at h
    by_cases hc : c = sep
    · rw [if_pos hc] at h
      rcases List.mem_cons.mp h with rfl | h
      · simp
      · exact ih h
    · rw [if_neg hc] at h
      split at h
      · simp_all
        exact fun h => hc h.symm
      · rename_i first others hs
        rcases List.mem_cons.mp h with rfl | h
        · have hfirst : sep ∉ first := ih (by rw [hs]; simp)
          simp only [List.mem_cons, not_or]
          exact ⟨fun h => hc h.symm, hfirst⟩
        · exact ih (by rw [hs]; simp [h])

/-- What is left when the characters of the class are taken off the end. -/
def dropEndWhile (p : Char → Bool) (cs : List Char) : List Char :=
  (cs.reverse.dropWhile p).reverse

/-- The lines of a text. A line ends with a line feed, before which one carriage return
is dropped; a text that ends with a line feed has no further line. -/
def lines (cs : List Char) : List (List Char) :=
  let pieces := splitOn '\n' cs
  let ended := pieces.dropLast.map fun line =>
    if line.getLast? = some '\r' then line.dropLast else line
  match pieces.getLast? with
  | none | some [] => ended
  | some last => ended ++ [last]

/-- Lower case for the letters `A` to `Z`, all else unchanged. -/
def foldCase (s : String) : String := String.ofList (s.toList.map Char.toLower)

/-- Equal up to the case of the letters `A` to `Z`. -/
def SameLetters (s t : String) : Prop := foldCase s = foldCase t

instance (s t : String) : Decidable (SameLetters s t) :=
  inferInstanceAs (Decidable (foldCase s = foldCase t))

end ComponentGraph.Text
