import ComponentGraph.Graph.Degrees
import ComponentGraph.Text.Bytes
import Mathlib.Algebra.GroupWithZero.Nat
import Mathlib.Data.List.Nodup
/-!
# Degrees as counts

The degrees of a label are the numbers of edges that end and that begin at it. Counting goes edge by
edge: what has been counted is at every step the degrees of the labels of the edges so far, sorted
by label. The table puts the labels with the most incoming edges first and keeps the others in their
order, so that labels with as many stay sorted.
-/

namespace ComponentGraph

/-! ## Sorting keeps the order of equals -/

/-- What is sorted comes out in the order of the sort, and what the sort does not tell apart in the
order that it had. -/
theorem pairwise_mergeSort_of_pairwise {α : Type} {le : α → α → Bool} {r : α → α → Prop}
    (htrans : ∀ a b c, le a b = true → le b c = true → le a c = true)
    (htotal : ∀ a b, (le a b || le b a) = true) {l : List α} (h : l.Pairwise r) :
    (l.mergeSort le).Pairwise fun a b => le a b = true ∧ (le b a = true → r a b) := by
  -- Sorting the elements with their places sorts them by their places where it sees no difference.
  have hperm := List.mergeSort_perm l.zipIdx (List.zipIdxLE le)
  have hplaces : ((l.zipIdx.mergeSort (List.zipIdxLE le)).map Prod.snd).Nodup := by
    rw [(hperm.map Prod.snd).nodup_iff, List.zipIdx_map_snd]
    exact List.nodup_range'
  have hsorted := List.pairwise_mergeSort (List.zipIdxLE_trans htrans)
    (List.zipIdxLE_total htotal) l.zipIdx
  rw [← List.mergeSort_zipIdx, List.pairwise_map]
  refine (hsorted.and (List.pairwise_map.mp hplaces)).imp_of_mem ?_
  rintro ⟨a, i⟩ ⟨b, j⟩ ha hb ⟨hle, hne⟩
  rw [hperm.mem_iff, List.mem_zipIdx_iff_getElem?] at ha hb
  simp only [List.zipIdxLE] at hle
  split at hle
  · rename_i hab
    refine ⟨hab, fun hba => ?_⟩
    rw [if_pos hba, decide_eq_true_eq] at hle
    obtain ⟨hi, hai⟩ := List.getElem?_eq_some_iff.mp ha
    obtain ⟨hj, hbj⟩ := List.getElem?_eq_some_iff.mp hb
    have hr := List.pairwise_iff_getElem.mp h i j hi hj (Nat.lt_of_le_of_ne hle hne)
    rwa [hai, hbj] at hr
  · cases hle

/-! ## Counting edge by edge -/

namespace Keyed

variable {β : Type} {key : String} {f : Option β → β}

/-- What altering adds to the weight of one value it adds to the weight of all. -/
theorem sum_alter (weight : β → Nat) {n : Nat} (hnone : weight (f none) = n)
    (hsome : ∀ v, weight (f (some v)) = weight v + n) (entries : List (String × β)) :
    ((alter key f entries).map (weight ·.2)).sum = (entries.map (weight ·.2)).sum + n := by
  induction entries with
  | nil => simp [alter, hnone]
  | cons entry rest ih =>
    obtain ⟨k, v⟩ := entry
    rw [alter]
    split
    · simp only [List.map_cons, List.sum_cons, hnone]
      omega
    · split
      · simp only [List.map_cons, List.sum_cons, hsome]
        omega
      · simp only [List.map_cons, List.sum_cons, ih]
        omega

end Keyed

namespace GraphElement

/-- An edge that ends at the label. -/
def endsAt (label : String) (e : GraphElement) : Bool := e.ends?.any (·.2 = label)

/-- An edge that begins at the label. -/
def beginsAt (label : String) (e : GraphElement) : Bool := e.ends?.any (·.1 = label)

end GraphElement

namespace Degrees

/-- How many of the edges end and how many begin at a label. -/
def degreesAt (edges : List (String × String)) (label : String) : Nat × Nat :=
  (edges.countP (·.2 = label), edges.countP (·.1 = label))

/-- What has been counted of some edges: the degrees of all labels that they have, and of no other,
so that each edge counts once among the ends and once among the beginnings. -/
structure Counts (edges : List (String × String)) (counts : List (String × Nat × Nat)) : Prop where
  sorted : Keyed.Sorted counts
  get? : ∀ label, Keyed.get? label counts =
    if degreesAt edges label = (0, 0) then none else some (degreesAt edges label)
  ending : (counts.map (·.2.1)).sum = edges.length
  beginning : (counts.map (·.2.2)).sum = edges.length

theorem counts_nil : Counts [] [] where
  sorted := List.Pairwise.nil
  get? _ := rfl
  ending := rfl
  beginning := rfl

theorem degreesAt_concat (edges : List (String × String)) (ends : String × String)
    (label : String) :
    degreesAt (edges ++ [ends]) label =
      ((degreesAt edges label).1 + if ends.2 = label then 1 else 0,
        (degreesAt edges label).2 + if ends.1 = label then 1 else 0) := by
  simp [degreesAt, List.countP_append, List.countP_singleton]

theorem Counts.getD {edges : List (String × String)} {counts : List (String × Nat × Nat)}
    (h : Counts edges counts) (label : String) :
    (Keyed.get? label counts).getD (0, 0) = degreesAt edges label := by
  rw [h.get?]
  split
  · rename_i hnone
    rw [hnone]
    rfl
  · rfl

/-- One more edge is counted at both its ends, also if they are the same label. -/
theorem Counts.countEdge {edges : List (String × String)} {counts : List (String × Nat × Nat)}
    (h : Counts edges counts) (ends : String × String) :
    Counts (edges ++ [ends]) (countEdge counts ends) where
  sorted := h.sorted.alter.alter
  get? label := by
    have hsource := h.getD ends.1
    have htarget := h.getD ends.2
    have hlabel := h.get? label
    rw [Degrees.countEdge, Keyed.get?_alter h.sorted.alter, Keyed.get?_alter h.sorted,
      Keyed.get?_alter h.sorted, degreesAt_concat]
    by_cases hs : label = ends.1
    · subst hs
      by_cases ht : ends.1 = ends.2
      · simp [← ht, hsource]
      · simp [Ne.symm ht, ht, hsource]
    · by_cases ht : label = ends.2
      · subst ht
        simp [hs, htarget, Ne.symm hs]
      · rw [if_neg hs, if_neg ht, hlabel, if_neg (Ne.symm ht), if_neg (Ne.symm hs)]
        rfl
  ending := by
    rw [Degrees.countEdge, Keyed.sum_alter Prod.fst rfl fun _ => rfl,
      Keyed.sum_alter Prod.fst rfl fun _ => rfl, h.ending]
    simp
  beginning := by
    rw [Degrees.countEdge, Keyed.sum_alter Prod.snd rfl fun _ => rfl,
      Keyed.sum_alter Prod.snd rfl fun _ => rfl, h.beginning]
    simp

theorem Counts.countEdges {seen : List (String × String)} {counts : List (String × Nat × Nat)}
    (h : Counts seen counts) (edges : List (String × String)) :
    Counts (seen ++ edges) (edges.foldl Degrees.countEdge counts) := by
  induction edges generalizing seen counts with
  | nil => rwa [List.append_nil]
  | cons ends edges ih =>
    rw [List.foldl_cons, List.append_cons]
    exact ih (h.countEdge ends)

theorem counts_foldl (edges : List (String × String)) :
    Counts edges (edges.foldl countEdge []) :=
  counts_nil.countEdges edges

/-! ## The records -/

theorem countP_ends (p : String × String → Bool) (elements : List GraphElement) :
    (elements.filterMap GraphElement.ends?).countP p = elements.countP (·.ends?.any p) := by
  rw [List.countP_filterMap]
  congr
  funext e
  cases e.ends? with
  | none => rfl
  | some ends => rfl

theorem degreesAt_ends (elements : List GraphElement) (label : String) :
    degreesAt (elements.filterMap GraphElement.ends?) label =
      (elements.countP (·.endsAt label), elements.countP (·.beginsAt label)) := by
  rw [degreesAt, countP_ends, countP_ends]
  rfl

theorem degreesAt_ends_eq_zero_iff {elements : List GraphElement} {label : String} :
    degreesAt (elements.filterMap GraphElement.ends?) label = (0, 0) ↔
      ¬ ∃ e ∈ elements, e.endsAt label = true ∨ e.beginsAt label = true := by
  rw [degreesAt_ends, Prod.mk.injEq, List.countP_eq_zero, List.countP_eq_zero, ← forall₂_and]
  simp only [not_exists, not_and, not_or]

/-- The records are those of the labels that an edge has, with their degrees. -/
theorem mem_ofElements {elements : List GraphElement} {d : Degrees} :
    d ∈ ofElements elements ↔
      (∃ e ∈ elements, e.endsAt d.name = true ∨ e.beginsAt d.name = true) ∧
        d.indegree = elements.countP (·.endsAt d.name) ∧
          d.outdegree = elements.countP (·.beginsAt d.name) := by
  obtain ⟨name, indegree, outdegree⟩ := d
  have hcounts := counts_foldl (elements.filterMap GraphElement.ends?)
  have hmem : ⟨name, indegree, outdegree⟩ ∈ ofElements elements ↔
      (name, indegree, outdegree) ∈
        (elements.filterMap GraphElement.ends?).foldl countEdge [] := by
    simp [ofElements]
  rw [hmem, ← Keyed.get?_eq_some_iff hcounts.sorted, hcounts.get?]
  split
  · rename_i hnone
    have hlabel := degreesAt_ends_eq_zero_iff.mp hnone
    simp [hlabel]
  · rename_i hsome
    have hlabel := not_not.mp (mt degreesAt_ends_eq_zero_iff.mpr hsome)
    rw [degreesAt_ends, Option.some_inj, Prod.mk.injEq, and_iff_right hlabel]
    exact and_congr eq_comm eq_comm

theorem pairwise_name_ofElements (elements : List GraphElement) :
    (ofElements elements).Pairwise fun a b => a.name < b.name := by
  have hcounts := counts_foldl (elements.filterMap GraphElement.ends?)
  rw [ofElements, List.pairwise_map]
  exact List.pairwise_map.mp hcounts.sorted

theorem nodup_name_ofElements (elements : List GraphElement) :
    ((ofElements elements).map name).Nodup := by
  rw [List.nodup_iff_pairwise_ne, List.pairwise_map]
  refine (pairwise_name_ofElements elements).imp fun {a b} hlt heq => ?_
  exact String.lt_irrefl b.name (heq ▸ hlt)

theorem mem_name_ofElements {elements : List GraphElement} {label : String} :
    label ∈ (ofElements elements).map name ↔
      ∃ e ∈ elements, e.endsAt label = true ∨ e.beginsAt label = true := by
  rw [List.mem_map]
  constructor
  · rintro ⟨d, hd, rfl⟩
    exact (mem_ofElements.mp hd).1
  · intro hlabel
    let d : Degrees :=
      ⟨label, elements.countP (·.endsAt label), elements.countP (·.beginsAt label)⟩
    exact ⟨d, mem_ofElements.mpr ⟨hlabel, rfl, rfl⟩, rfl⟩

theorem length_ends (elements : List GraphElement) :
    (elements.filterMap GraphElement.ends?).length = elements.countP GraphElement.isEdge :=
  List.length_filterMap_eq_countP

theorem sum_indegree_ofElements (elements : List GraphElement) :
    ((ofElements elements).map indegree).sum = elements.countP GraphElement.isEdge := by
  rw [ofElements, List.map_map, ← length_ends, ← (counts_foldl _).ending]
  rfl

theorem sum_outdegree_ofElements (elements : List GraphElement) :
    ((ofElements elements).map outdegree).sum = elements.countP GraphElement.isEdge := by
  rw [ofElements, List.map_map, ← length_ends, ← (counts_foldl _).beginning]
  rfl

end Degrees

/-! ## The table -/

namespace DegreeTable

/-- The labels with the most incoming edges come first, those with as many in the order of their
bytes. -/
def ComesBefore (a b : Degrees) : Prop :=
  b.indegree < a.indegree ∨
    a.indegree = b.indegree ∧ Text.bytes a.name.toList < Text.bytes b.name.toList

theorem pairwise_rows (elements : List GraphElement) :
    (ofDegrees (Degrees.ofElements elements)).rows.Pairwise ComesBefore := by
  have hstable := @pairwise_mergeSort_of_pairwise Degrees
    (fun a b => decide (b.indegree ≤ a.indegree)) _ (by simp only [decide_eq_true_eq]; omega)
    (by simp only [Bool.or_eq_true, decide_eq_true_eq]; omega) _
    (Degrees.pairwise_name_ofElements elements)
  refine hstable.imp fun {a b} ⟨hle, hties⟩ => ?_
  rw [decide_eq_true_eq] at hle hties
  rcases Nat.lt_or_eq_of_le hle with hlt | heq
  · exact .inl hlt
  · exact .inr ⟨heq.symm, Text.bytes_lt_bytes (hties (Nat.le_of_eq heq.symm))⟩

/-- **The degrees are counts.** There is one record for each label at which an edge ends or begins,
and none for another; its degrees are the numbers of these edges, so that either of them adds up to
the number of edges. What is printed are these records, numbered from one, those with the most
incoming edges first and among equals by name. -/
theorem shows_degrees (elements : List GraphElement) :
    let records := Degrees.ofElements elements
    let table := ofDegrees records
    (records.map Degrees.name).Nodup ∧
    (∀ label, label ∈ records.map Degrees.name ↔
      ∃ e ∈ elements, e.endsAt label = true ∨ e.beginsAt label = true) ∧
    (∀ d ∈ records, d.indegree = elements.countP (·.endsAt d.name) ∧
      d.outdegree = elements.countP (·.beginsAt d.name)) ∧
    (records.map Degrees.indegree).sum = elements.countP GraphElement.isEdge ∧
    (records.map Degrees.outdegree).sum = elements.countP GraphElement.isEdge ∧
    ∃ rows : List Degrees, rows.Perm records ∧ rows.Pairwise ComesBefore ∧
      table.text = "\n".intercalate
        ((["", table.border, table.header, table.border] ++
          rows.mapIdx (fun i d => table.row (Nat.repr (i + 1)) d.name (Nat.repr d.indegree)
            (Nat.repr d.outdegree)) ++ [table.border, ""]).map (margin ++ ·)) := by
  intro records table
  refine ⟨Degrees.nodup_name_ofElements elements, fun label => Degrees.mem_name_ofElements,
    fun d hd => (Degrees.mem_ofElements.mp hd).2, Degrees.sum_indegree_ofElements elements,
    Degrees.sum_outdegree_ofElements elements, table.rows, List.mergeSort_perm _ _,
    pairwise_rows elements, ?_⟩
  rw [text, body, List.mapIdx_eq_zipIdx_map]

/-- An edge from a label to itself counts at both ends, and equals are sorted by name. -/
example :
    (ofDegrees (Degrees.ofElements
      [.edge "C-B" "C" "B", .edge "B-B" "B" "B", .edge "A-D" "A" "D"])).rows =
      [⟨"B", 2, 1⟩, ⟨"D", 1, 0⟩, ⟨"A", 0, 1⟩, ⟨"C", 0, 1⟩] := by
  cbv

end DegreeTable

end ComponentGraph
