import ComponentGraph.Graph.Outline
import ComponentGraph.Proofs.Chains
import Mathlib.Data.List.Forall2
/-!
# What an outline tells

An outline tells the shape of its tree and the labels of all nodes, and nothing else. The spaces
before the branch mark give the depth of a line, whatever the label begins with; the lines of a
tree end at the first line that is no deeper than its root, and so the tree can be cut off from
what follows it.
-/

namespace ComponentGraph

namespace Tree

/-- The node that a way down from the root leads to. The way says at every node which of the
children is next, in the order of their keys. -/
def nodeAt? : Tree → List Nat → Option Tree
  | t, [] => some t
  | t, i :: way => t.edges[i]?.bind fun edge => edge.2.nodeAt? way

/-- The same ways lead to nodes in both trees, and to nodes of the same label. -/
def LooksLike (r s : Registry) (t u : Tree) : Prop :=
  ∀ way, (t.nodeAt? way).map (fun v => r.label v.name) =
    (u.nodeAt? way).map fun v => s.label v.name

variable {r s : Registry}

/-- Trees look alike if their roots have the same label and their children look alike one by one. -/
theorem looksLike_iff {name name' : String} {es fs : List (String × Tree)} :
    LooksLike r s ⟨name, es⟩ ⟨name', fs⟩ ↔
      r.label name = s.label name' ∧
        List.Forall₂ (fun e f => LooksLike r s e.2 f.2) es fs := by
  constructor
  · intro h
    refine ⟨Option.some.inj (h []), List.forall₂_iff_get.mpr ⟨?_, fun i hi hi' way => ?_⟩⟩
    · rcases Nat.lt_trichotomy es.length fs.length with hlt | heq | hgt
      · have hway := h [es.length]
        simp [nodeAt?, List.getElem?_eq_getElem hlt] at hway
      · exact heq
      · have hway := h [fs.length]
        simp [nodeAt?, List.getElem?_eq_getElem hgt] at hway
    · have hway := h (i :: way)
      simpa [nodeAt?, hi, hi'] using hway
  · rintro ⟨hlabel, hchildren⟩ way
    obtain ⟨hlength, hchildren⟩ := List.forall₂_iff_get.mp hchildren
    cases way with
    | nil => exact congrArg some hlabel
    | cons i way =>
      by_cases hi : i < es.length
      · have hi' : i < fs.length := hlength ▸ hi
        simpa [nodeAt?, hi, hi'] using hchildren i hi hi' way
      · have hi' : ¬ i < fs.length := hlength ▸ hi
        simp [nodeAt?, hi, hi']

end Tree

namespace Outline

variable {r s : Registry}

/-! ## Lines -/

theorem toList_line {depth : Nat} (h : 0 < depth) (label : String) :
    (line depth label).toList =
      List.replicate (2 * depth) ' ' ++ (branchMark.toList ++ label.toList) := by
  simp [line, Nat.ne_of_gt h, Text.repeated]

/-- The depth of a line is half the number of the spaces that it begins with. -/
theorem takeWhile_line {depth : Nat} (h : 0 < depth) (label : String) :
    (line depth label).toList.takeWhile (· = ' ') = List.replicate (2 * depth) ' ' := by
  rw [toList_line h, List.takeWhile_append_of_pos fun c hc => by simp [List.eq_of_mem_replicate hc]]
  simp [branchMark]

theorem depth_eq_of_line_eq {d e : Nat} {l m : String} (hd : 0 < d) (he : 0 < e)
    (h : line d l = line e m) : d = e := by
  have hspaces : List.replicate (2 * d) ' ' = List.replicate (2 * e) ' ' := by
    rw [← takeWhile_line hd l, h, takeWhile_line he]
  have hlength := congrArg List.length hspaces
  simp only [List.length_replicate] at hlength
  omega

theorem label_eq_of_line_eq {d : Nat} {l m : String} (h : line d l = line d m) : l = m := by
  rcases Nat.eq_zero_or_pos d with rfl | hd
  · exact h
  · have hlist := congrArg String.toList h
    rw [toList_line hd, toList_line hd] at hlist
    exact String.toList_inj.mp (List.append_cancel_left (List.append_cancel_left hlist))

/-- Nothing is left, or first the line of a node that stands above the depth. -/
def EndsAbove (depth : Nat) (rest : List String) : Prop :=
  ∀ first ∈ rest.head?, ∃ d label, 0 < d ∧ d < depth ∧ first = line d label

theorem endsAbove_nil (depth : Nat) : EndsAbove depth [] := fun _ h => nomatch h

theorem linesAt_eq (r : Registry) (depth : Nat) (t : Tree) :
    linesAt r depth t = line depth (r.label t.name) :: linesBelow r (depth + 1) t.edges := by
  cases t
  rw [linesAt]

/-- What follows a child is a sibling of it, or what follows its parent. -/
theorem EndsAbove.linesBelow {depth : Nat} {rest : List String} (hdepth : 0 < depth)
    (h : EndsAbove depth rest) (es : List (String × Tree)) :
    EndsAbove (depth + 1) (linesBelow r depth es ++ rest) := by
  intro first hfirst
  cases es with
  | nil =>
    obtain ⟨d, label, hd, hlt, heq⟩ := h first hfirst
    exact ⟨d, label, hd, Nat.lt_succ_of_lt hlt, heq⟩
  | cons e es =>
    rw [Outline.linesBelow, linesAt_eq] at hfirst
    exact ⟨depth, r.label e.2.name, hdepth, Nat.lt_succ_self depth, (Option.some.inj hfirst).symm⟩

theorem not_endsAbove_linesBelow {depth : Nat} (hdepth : 0 < depth) (e : String × Tree)
    (es : List (String × Tree)) (rest : List String) :
    ¬ EndsAbove depth (linesBelow r depth (e :: es) ++ rest) := by
  intro h
  rw [linesBelow, linesAt_eq] at h
  obtain ⟨d, label, hd, hlt, heq⟩ := h _ rfl
  exact Nat.ne_of_lt hlt (depth_eq_of_line_eq hdepth hd heq).symm

/-! ## Trees -/

/-- Lines that begin with those of the tree tell the tree and what follows it, if that begins no
deeper than the tree. -/
def Tells (r s : Registry) (depth : Nat) (t : Tree) : Prop :=
  ∀ (u : Tree) (a b : List String), EndsAbove (depth + 1) a → EndsAbove (depth + 1) b →
    linesAt r depth t ++ a = linesAt s depth u ++ b → t.LooksLike r s u ∧ a = b

theorem forall₂_of_linesBelow_append {es fs : List (String × Tree)} {depth : Nat}
    (hdepth : 0 < depth) (hchild : ∀ key child, (key, child) ∈ es → Tells r s depth child)
    {a b : List String} (ha : EndsAbove depth a) (hb : EndsAbove depth b)
    (h : linesBelow r depth es ++ a = linesBelow s depth fs ++ b) :
    List.Forall₂ (fun e f => e.2.LooksLike r s f.2) es fs ∧ a = b := by
  induction es generalizing fs with
  | nil =>
    cases fs with
    | nil => exact ⟨.nil, h⟩
    | cons f fs =>
      rw [linesBelow, List.nil_append] at h
      exact absurd (h ▸ ha) (not_endsAbove_linesBelow hdepth f fs b)
  | cons e es ih =>
    cases fs with
    | nil =>
      rw [linesBelow.eq_1 s, List.nil_append] at h
      exact absurd (h ▸ hb) (not_endsAbove_linesBelow hdepth e es a)
    | cons f fs =>
      -- Behind the lines of a child comes its sibling or `a`, and neither is deeper than the child.
      rw [linesBelow, linesBelow, List.append_assoc, List.append_assoc] at h
      obtain ⟨hlike, hrest⟩ := hchild e.1 e.2 List.mem_cons_self f.2 _ _
        (ha.linesBelow hdepth es) (hb.linesBelow hdepth fs) h
      obtain ⟨hall, hab⟩ :=
        ih (fun key child hmem => hchild key child (List.mem_cons_of_mem _ hmem)) hrest
      exact ⟨.cons hlike hall, hab⟩

theorem tells (r s : Registry) (depth : Nat) (t : Tree) : Tells r s depth t := by
  induction t using Tree.induction generalizing depth with
  | node name es ih =>
    rintro ⟨name', fs⟩ a b ha hb h
    rw [linesAt, linesAt, List.cons_append, List.cons_append] at h
    obtain ⟨hline, hrest⟩ := List.cons.inj h
    obtain ⟨hchildren, hab⟩ := forall₂_of_linesBelow_append (Nat.succ_pos depth)
      (fun key child hmem => ih key child hmem (depth + 1)) ha hb hrest
    exact ⟨Tree.looksLike_iff.mpr ⟨label_eq_of_line_eq hline, hchildren⟩, hab⟩

theorem linesBelow_congr {es fs : List (String × Tree)}
    (h : List.Forall₂ (fun e f => e.2.LooksLike r s f.2) es fs) {depth : Nat}
    (hchild : ∀ key child, (key, child) ∈ es → ∀ u, child.LooksLike r s u →
      linesAt r depth child = linesAt s depth u) :
    linesBelow r depth es = linesBelow s depth fs := by
  induction h with
  | nil => rfl
  | @cons e f es fs hlike _ ih =>
    rw [linesBelow, linesBelow, hchild e.1 e.2 List.mem_cons_self f.2 hlike,
      ih fun key child hmem => hchild key child (List.mem_cons_of_mem _ hmem)]

theorem linesAt_congr {t u : Tree} (h : t.LooksLike r s u) (depth : Nat) :
    linesAt r depth t = linesAt s depth u := by
  induction t using Tree.induction generalizing u depth with
  | node name es ih =>
    obtain ⟨name', fs⟩ := u
    obtain ⟨hlabel, hchildren⟩ := Tree.looksLike_iff.mp h
    rw [linesAt, linesAt, hlabel,
      linesBelow_congr hchildren fun key child hmem u hlike => ih key child hmem hlike _]

/-- **An outline tells its tree.** Two trees have the same outline if, and only if, they have the
same shape and the same label in each place, whatever the labels are and the registries they come
from. -/
theorem lines_eq_iff (r s : Registry) (t u : Tree) :
    lines r t = lines s u ↔ t.LooksLike r s u := by
  constructor
  · intro h
    have hlines : linesAt r 0 t ++ [] = linesAt s 0 u ++ [] := by
      rw [List.append_nil, List.append_nil]
      exact h
    exact (tells r s 0 t u [] [] (endsAbove_nil _) (endsAbove_nil _) hlines).1
  · exact fun h => linesAt_congr h 0

end Outline

end ComponentGraph
