import ComponentGraph.Proofs.QuotedLabels
/-!
# Reading dot text

Dot text tells its graph. A reader takes statement after statement from it, and since it finds the
end of every label it gets back what was written.
-/

namespace ComponentGraph.DotGraph

/-! ## Statements -/

/-- What follows a mark that the text begins with. -/
def after? (mark : String) (text : List Char) : Option (List Char) :=
  if mark.toList.isPrefixOf text then some (text.drop mark.toList.length) else none

theorem after?_append (mark : String) (rest : List Char) :
    after? mark (mark.toList ++ rest) = some rest := by
  simp [after?]

theorem eq_append_of_after? {mark : String} {text rest : List Char}
    (h : after? mark text = some rest) : text = mark.toList ++ rest := by
  unfold after? at h
  split at h
  · rename_i hprefix
    obtain ⟨rest', rfl⟩ := List.isPrefixOf_iff_prefix.mp hprefix
    simpa using h
  · cases h

theorem length_after? {mark : String} {text rest : List Char} (h : after? mark text = some rest) :
    mark.length + rest.length = text.length := by
  rw [eq_append_of_after? h, List.length_append, String.length_toList]

/-- The number that a text begins with, and what follows its digits. -/
def leadingNumber (text : List Char) : Nat × List Char :=
  (Nat.ofDigitChars 10 (text.takeWhile Char.isDigit) 0, text.dropWhile Char.isDigit)

theorem leadingNumber_repr (n : Nat) {rest : List Char} (h : ∀ c ∈ rest.head?, c.isDigit = false) :
    leadingNumber ((Nat.repr n).toList ++ rest) = (n, rest) := by
  have hdigits : ∀ d ∈ Nat.toDigits 10 n, d.isDigit = true := fun d hd =>
    Nat.isDigit_of_mem_toDigits (by decide) (by decide) hd
  rw [leadingNumber, Nat.toList_repr, List.takeWhile_append_of_pos hdigits,
    List.dropWhile_append_of_pos hdigits]
  cases rest with
  | nil => simp
  | cons c rest =>
    have hc : c.isDigit = false := h c rfl
    simp [hc]

theorem length_leadingNumber (text : List Char) :
    (leadingNumber text).2.length ≤ text.length :=
  (List.dropWhile_suffix _).length_le

/-- A line between the braces. -/
inductive Statement where
  | node (number : Nat) (label : String)
  | edge (source target : Nat)
deriving DecidableEq, Repr

namespace Statement

def text : Statement → String
  | node number label => nodeLine number label
  | edge source target => edgeLine (source, target)

/-- Read the label of a node, behind its number. -/
def node? (number : Nat) (text : List Char) : Option (Statement × List Char) := do
  let text ← after? " [label=\"" text
  let (body, text) ← untilQuote? text
  let text ← after? ", shape=box]\n" text
  some (node number (String.ofList (unescape body)), text)

/-- Read the target of an edge, behind the number of its source. -/
def edge? (source : Nat) (text : List Char) : Option (Statement × List Char) := do
  let text ← after? " -> " text
  let (target, text) := leadingNumber text
  let text ← after? "\n" text
  some (edge source target, text)

/-- Read one statement. -/
def read? (text : List Char) : Option (Statement × List Char) := do
  let text ← after? "    " text
  let (n, text) := leadingNumber text
  (node? n text).or (edge? n text)

theorem read?_node (n : Nat) (label : String) (rest : List Char) :
    read? ((node n label).text.toList ++ rest) = some (node n label, rest) := by
  have htext : (node n label).text.toList ++ rest =
      "    ".toList ++ ((Nat.repr n).toList ++ (" [label=\"".toList ++
        ((escape label).toList ++ '"' :: (", shape=box]\n".toList ++ rest)))) := by
    simp [text, nodeLine]
  rw [htext, read?, after?_append, Option.bind_eq_bind, Option.bind_some,
    leadingNumber_repr n (by simp)]
  simp only [node?, after?_append, untilQuote?_escape, Option.bind_eq_bind, Option.bind_some,
    unescape_escape, String.ofList_toList, Option.some_or]

theorem read?_edge (source target : Nat) (rest : List Char) :
    read? ((edge source target).text.toList ++ rest) = some (edge source target, rest) := by
  have htext : (edge source target).text.toList ++ rest =
      "    ".toList ++ ((Nat.repr source).toList ++ (" -> ".toList ++
        ((Nat.repr target).toList ++ ("\n".toList ++ rest)))) := by
    simp [text, edgeLine]
  have hnode : after? " [label=\"" (" -> ".toList ++
      ((Nat.repr target).toList ++ ("\n".toList ++ rest))) = none := by
    simp [after?]
  have htarget : leadingNumber ((Nat.repr target).toList ++ ("\n".toList ++ rest)) =
      (target, "\n".toList ++ rest) := leadingNumber_repr target (by simp)
  rw [htext, read?, after?_append, Option.bind_eq_bind, Option.bind_some,
    leadingNumber_repr source (by simp)]
  simp only [node?, edge?, hnode, after?_append, htarget, Option.bind_eq_bind, Option.bind_some,
    Option.bind_none, Option.none_or]

/-- A statement is read back, whatever follows it. -/
theorem read?_text (s : Statement) (rest : List Char) :
    read? (s.text.toList ++ rest) = some (s, rest) := by
  cases s with
  | node n label => exact read?_node n label rest
  | edge source target => exact read?_edge source target rest

theorem length_read? {text rest : List Char} {s : Statement} (h : read? text = some (s, rest)) :
    rest.length < text.length := by
  simp only [read?, Option.bind_eq_bind, Option.bind_eq_some_iff] at h
  obtain ⟨text₁, h₁, h⟩ := h
  have hindent : "    ".length = 4 := by decide
  have hlt := length_after? h₁
  have hle := length_leadingNumber text₁
  rw [Option.or_eq_some_iff] at h
  rcases h with h | ⟨_, h⟩
  · simp only [node?, Option.bind_eq_bind, Option.bind_eq_some_iff] at h
    obtain ⟨text₂, h₂, ⟨body, text₃⟩, h₃, text₄, h₄, h⟩ := h
    cases h
    have hlabel := length_after? h₂
    have hquote : text₃.length ≤ text₂.length := length_untilQuote? h₃
    have hend : ", shape=box]\n".length + rest.length = text₃.length := length_after? h₄
    omega
  · simp only [edge?, Option.bind_eq_bind, Option.bind_eq_some_iff] at h
    obtain ⟨text₂, h₂, text₃, h₃, h⟩ := h
    cases h
    have harrow := length_after? h₂
    have htarget := length_leadingNumber text₂
    have hend := length_after? h₃
    omega

end Statement

/-- Read statements up to the closing brace, which ends the text. -/
def statements? (text : List Char) : Option (List Statement) :=
  if text = "\x7d\n".toList then some []
  else
    match _h : Statement.read? text with
    | none => none
    | some (s, rest) => (statements? rest).map (s :: ·)
termination_by text.length
decreasing_by exact Statement.length_read? _h

theorem statements?_flatMap (statements : List Statement) :
    statements? (statements.flatMap (·.text.toList) ++ "\x7d\n".toList) = some statements := by
  induction statements with
  | nil => simp [statements?]
  | cons s statements ih =>
    rw [List.flatMap_cons, List.append_assoc, statements?, if_neg]
    · split
      · rename_i hread
        rw [Statement.read?_text] at hread
        cases hread
      · rename_i hread
        rw [Statement.read?_text] at hread
        cases hread
        rw [ih]
        rfl
    · cases s <;> simp [Statement.text, nodeLine, edgeLine]

def Statement.label? : Statement → Option String
  | node _ label => some label
  | edge .. => none

def Statement.ends? : Statement → Option (Nat × Nat)
  | node .. => none
  | edge source target => some (source, target)

/-- Read a graph. -/
def ofText? (text : String) : Option DotGraph := do
  let text ← after? "digraph \x7b\n" text.toList
  let statements ← statements? text
  some ⟨statements.filterMap Statement.label?, statements.filterMap Statement.ends?⟩

/-- The lines of a graph. -/
def statements (g : DotGraph) : List Statement :=
  g.labels.zipIdx.map (fun (label, number) => .node number label) ++
    g.edges.map fun (source, target) => .edge source target

theorem toList_text (g : DotGraph) :
    g.text.toList =
      "digraph \x7b\n".toList ++ (g.statements.flatMap (·.text.toList) ++ "\x7d\n".toList) := by
  simp [text, statements, String.toList_join, List.flatMap_map, Statement.text, List.flatMap_append]

theorem filterMap_label?_statements (g : DotGraph) :
    g.statements.filterMap Statement.label? = g.labels := by
  have hnodes : (Statement.label? ∘ fun x : String × Nat => Statement.node x.2 x.1) =
      some ∘ Prod.fst := rfl
  have hedges : (Statement.label? ∘ fun x : Nat × Nat => Statement.edge x.1 x.2) =
      fun _ => none := rfl
  rw [statements, List.filterMap_append, List.filterMap_map, List.filterMap_map, hnodes, hedges,
    List.filterMap_eq_map, List.zipIdx_map_fst]
  simp

theorem filterMap_ends?_statements (g : DotGraph) :
    g.statements.filterMap Statement.ends? = g.edges := by
  have hnodes : (Statement.ends? ∘ fun x : String × Nat => Statement.node x.2 x.1) =
      fun _ => none := rfl
  have hedges : (Statement.ends? ∘ fun x : Nat × Nat => Statement.edge x.1 x.2) = some := rfl
  rw [statements, List.filterMap_append, List.filterMap_map, List.filterMap_map, hnodes, hedges,
    List.filterMap_some]
  simp

theorem ofText?_text (g : DotGraph) : ofText? g.text = some g := by
  rw [ofText?, toList_text, after?_append, Option.bind_eq_bind, Option.bind_some,
    statements?_flatMap, Option.bind_eq_bind, Option.bind_some, filterMap_label?_statements,
    filterMap_ends?_statements]

/-- **Dot text can be read back.** A graph is read from its text, so that graphs of equal texts are
equal, with whatever labels. In the line of a node, behind the quote that opens the label, there is
a first quote with an even number of backslashes before it; it is the one that closes the
label, and what stands before it is the label once its escapes are undone. -/
theorem text_reads_back (g : DotGraph) :
    ofText? g.text = some g ∧ (∀ h : DotGraph, h.text = g.text → h = g) ∧
      ∀ (number : Nat) (label : String), ∃ inside : List Char,
        (nodeLine number label).toList =
          ("    " ++ Nat.repr number ++ " [label=\"").toList ++ inside ∧
        (∃ body rest, Closes inside body rest) ∧
        ∀ body rest, Closes inside body rest →
          unescape body = label.toList ∧ rest = ", shape=box]\n".toList := by
  refine ⟨ofText?_text g, fun h htext => ?_, fun number label => ?_⟩
  · have hread := ofText?_text h
    rw [htext, ofText?_text] at hread
    exact (Option.some.inj hread).symm
  · refine ⟨(escape label).toList ++ '"' :: ", shape=box]\n".toList, by simp [nodeLine],
      ⟨_, _, closes_escape label _⟩, fun body rest hcloses => ?_⟩
    obtain ⟨rfl, rfl⟩ := hcloses.unique (closes_escape label _)
    exact ⟨unescape_escape label, rfl⟩

/-- The backslash and the quote of a label are both escaped, and the quote that follows
closes it. -/
example : nodeLine 0 "a\\\"]" = "    0 [label=\"a\\\\\\\"]\", shape=box]\n" := by
  decide

end ComponentGraph.DotGraph
