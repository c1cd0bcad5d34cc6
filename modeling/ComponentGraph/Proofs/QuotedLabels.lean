import ComponentGraph.Graph.Dot
import Mathlib.Algebra.Group.Nat.Even
/-!
# Labels in quotes

The end of a quoted label can be found, whatever stands in it: the quote that closes it is the
first with an even number of backslashes before it. No quote inside the label is one, since the
backslashes before it are those of the label, which come in pairs, and one more.
-/

namespace ComponentGraph.DotGraph

/-- A backslash before a backslash and before a quote. -/
def escapeChar (c : Char) : List Char := if c = '\\' ∨ c = '"' then ['\\', c] else [c]

/-- The replacements one after the other escape each character once. -/
theorem toList_escape (label : String) :
    (escape label).toList = label.toList.flatMap escapeChar := by
  rw [escape, String.toList_ofList, replace, replace, List.flatMap_assoc]
  congr
  funext c
  by_cases hb : c = '\\'
  · simp [escapeChar, hb]
  · by_cases hq : c = '"' <;> simp [escapeChar, hb, hq]

/-- A text without its escapes. -/
def unescape : List Char → List Char
  | [] => []
  | c :: cs =>
    if c = '\\' then
      match cs with
      | [] => [c]
      | d :: cs => d :: unescape cs
    else c :: unescape cs

theorem unescape_cons {c : Char} (h : c ≠ '\\') (cs : List Char) :
    unescape (c :: cs) = c :: unescape cs := by
  cases cs <;> simp [unescape, h]

theorem unescape_escape (label : String) : unescape (escape label).toList = label.toList := by
  rw [toList_escape]
  induction label.toList with
  | nil => rfl
  | cons c cs ih =>
    rw [List.flatMap_cons, escapeChar]
    split
    · simp [unescape, ih]
    · rename_i hc
      rw [not_or] at hc
      rw [List.singleton_append, unescape_cons hc.1, ih]

/-- How many backslashes a text ends with. -/
def backslashes (cs : List Char) : Nat := (cs.reverse.takeWhile (· = '\\')).length

theorem backslashes_append (p cs : List Char) :
    backslashes (p ++ cs) =
      backslashes cs + if backslashes cs = cs.length then backslashes p else 0 := by
  rw [backslashes, List.reverse_append, List.takeWhile_append, List.length_reverse]
  unfold backslashes
  split
  · rename_i hall
    rw [List.length_append, List.length_reverse, hall]
  · rfl

/-- There is an even number of backslashes at the end of the text, and an odd one before each quote
in it. So a quote behind the text closes, and none in it does. -/
structure StaysOpen (piece : List Char) : Prop where
  even : Even (backslashes piece)
  odd : ∀ before after, piece = before ++ '"' :: after → ¬ Even (backslashes before)

/-- The quote between the two parts of a text is the first that has an even number of backslashes
before it. -/
structure Closes (text body rest : List Char) : Prop where
  text_eq : text = body ++ '"' :: rest
  body_open : StaysOpen body

/-- What stands before a quote further on is even or odd without the piece as it is with it. -/
theorem StaysOpen.even_iff {piece : List Char} (h : StaysOpen piece) (cs : List Char) :
    Even (backslashes (piece ++ cs)) ↔ Even (backslashes cs) := by
  rw [backslashes_append]
  split
  · rw [Nat.even_add, iff_true_right h.even]
  · rfl

/-- A quote that closes comes behind the piece. -/
theorem StaysOpen.split {piece cs before after : List Char} (h : StaysOpen piece)
    (heq : piece ++ cs = before ++ '"' :: after) (heven : Even (backslashes before)) :
    ∃ inner, before = piece ++ inner ∧ cs = inner ++ '"' :: after := by
  rcases List.append_eq_append_iff.mp heq with hbehind | ⟨inner, hpiece, hinner⟩
  · exact hbehind
  · cases inner with
    | nil => exact ⟨[], by simpa using hpiece.symm, hinner.symm⟩
    | cons c inner =>
      obtain ⟨rfl, _⟩ := List.cons.inj hinner
      exact absurd heven (h.odd before inner hpiece)

theorem Closes.unique {text body body' rest rest' : List Char} (h : Closes text body rest)
    (h' : Closes text body' rest') : body = body' ∧ rest = rest' := by
  obtain ⟨inner, rfl, hinner⟩ :=
    h.body_open.split (h.text_eq.symm.trans h'.text_eq) h'.body_open.even
  cases inner with
  | nil => exact ⟨(List.append_nil body).symm, (List.cons.inj hinner).2⟩
  | cons c inner =>
    obtain ⟨rfl, _⟩ := List.cons.inj hinner
    exact absurd h.body_open.even (h'.body_open.odd body inner rfl)

theorem staysOpen_nil : StaysOpen [] := ⟨by decide, fun before after h => by simp at h⟩

theorem staysOpen_char {c : Char} (hb : c ≠ '\\') (hq : c ≠ '"') : StaysOpen [c] where
  even := by simp [backslashes, hb]
  odd before after heq := by
    cases before with
    | nil => exact absurd (List.cons.inj heq).1 hq
    | cons d before => simp at heq

theorem staysOpen_escaped (c : Char) : StaysOpen ['\\', c] where
  even := by
    by_cases hc : c = '\\'
    · subst hc
      decide
    · simp [backslashes, hc]
  odd before after heq := by
    match before with
    | [] => exact absurd (List.cons.inj heq).1 (by decide)
    | [d] =>
      obtain ⟨rfl, _⟩ := List.cons.inj heq
      decide
    | d :: e :: before => simp at heq

theorem StaysOpen.append {p q : List Char} (hp : StaysOpen p) (hq : StaysOpen q) :
    StaysOpen (p ++ q) where
  even := (hp.even_iff q).mpr hq.even
  odd before after heq heven := by
    obtain ⟨inner, rfl, hinner⟩ := hp.split heq heven
    exact hq.odd inner after hinner ((hp.even_iff inner).mp heven)

theorem staysOpen_escape (label : String) : StaysOpen (escape label).toList := by
  rw [toList_escape]
  induction label.toList with
  | nil => exact staysOpen_nil
  | cons c cs ih =>
    rw [List.flatMap_cons, escapeChar]
    split
    · exact (staysOpen_escaped c).append ih
    · rename_i hc
      rw [not_or] at hc
      exact (staysOpen_char hc.1 hc.2).append ih

theorem closes_escape (label : String) (rest : List Char) :
    Closes ((escape label).toList ++ '"' :: rest) (escape label).toList rest :=
  ⟨rfl, staysOpen_escape label⟩

/-- The text before the quote that closes, and the rest behind it. -/
def untilQuote? : List Char → Option (List Char × List Char)
  | [] => none
  | c :: cs =>
    if c = '"' then some ([], cs)
    else if c = '\\' then
      match cs with
      | [] => none
      | d :: cs => (untilQuote? cs).map fun (body, rest) => (c :: d :: body, rest)
    else (untilQuote? cs).map fun (body, rest) => (c :: body, rest)

theorem untilQuote?_escape (label : String) (rest : List Char) :
    untilQuote? ((escape label).toList ++ '"' :: rest) = some ((escape label).toList, rest) := by
  rw [toList_escape]
  induction label.toList with
  | nil =>
    rw [List.flatMap_nil, List.nil_append, untilQuote?.eq_def]
    rfl
  | cons c cs ih =>
    rw [List.flatMap_cons, List.append_assoc, escapeChar]
    split
    · simp [untilQuote?, ih]
    · rename_i hc
      rw [not_or] at hc
      rw [List.singleton_append, List.singleton_append, untilQuote?.eq_def]
      simp [hc.1, hc.2, ih]

theorem length_untilQuote? {text body rest : List Char}
    (h : untilQuote? text = some (body, rest)) : rest.length ≤ text.length := by
  fun_induction untilQuote? text generalizing body with
  | case1 => cases h
  | case2 cs =>
    cases h
    simp
  | case3 => cases h
  | case4 d cs _ ih =>
    obtain ⟨⟨inner, rest'⟩, hcs, heq⟩ := Option.map_eq_some_iff.mp h
    cases heq
    exact Nat.le_succ_of_le (Nat.le_succ_of_le (ih hcs))
  | case5 c cs _ _ ih =>
    obtain ⟨⟨inner, rest'⟩, hcs, heq⟩ := Option.map_eq_some_iff.mp h
    cases heq
    exact Nat.le_succ_of_le (ih hcs)

end ComponentGraph.DotGraph
