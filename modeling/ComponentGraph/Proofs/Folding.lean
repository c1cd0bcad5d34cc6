import ComponentGraph.Proofs.Elements
import Mathlib.Data.List.Chain
/-!
# Folded forests

In a folded forest the alternatives of each conditional chain are held by the element that heads
the chain, and no sibling is left that would have joined a chain. Such a forest is what attaching
its elements one by one makes of it again: the element of each chain first, then its alternatives.
-/

namespace ComponentGraph.Element

/-- Attached behind `latest`, the element becomes an alternative of its chain. -/
def Joins (e latest : Element) : Prop := e.isAlternative = true ∧ latest.isOpenChain = true

instance (e latest : Element) : Decidable (e.Joins latest) :=
  inferInstanceAs (Decidable (_ ∧ _))

/-- No sibling would join the chain of the one before it. -/
def KeptApart (siblings : List Element) : Prop :=
  siblings.IsChain fun latest e => ¬ e.Joins latest

structure IsFolded (e : Element) : Prop where
  headed : e.branches ≠ [] → e.hasAttribute "v-if" = true
  alternative : ∀ b ∈ e.branches, b.isAlternative = true
  single : ∀ b ∈ e.branches, b.branches = []
  conditional : ∀ b ∈ e.branches.dropLast, b.hasAttribute "v-else" = false
  apart : KeptApart e.children

instance (siblings : List Element) : Decidable (KeptApart siblings) :=
  inferInstanceAs (Decidable (siblings.IsChain fun latest e => ¬ e.Joins latest))

instance (e : Element) : Decidable e.IsFolded :=
  decidable_of_iff
    ((e.branches ≠ [] → e.hasAttribute "v-if" = true) ∧
      (∀ b ∈ e.branches, b.isAlternative = true) ∧ (∀ b ∈ e.branches, b.branches = []) ∧
      (∀ b ∈ e.branches.dropLast, b.hasAttribute "v-else" = false) ∧ KeptApart e.children)
    ⟨fun ⟨hheaded, halternative, hsingle, hconditional, happart⟩ =>
        ⟨hheaded, halternative, hsingle, hconditional, happart⟩,
      fun h => ⟨h.headed, h.alternative, h.single, h.conditional, h.apart⟩⟩

structure IsFoldedForest (roots : List Element) : Prop where
  apart : KeptApart roots
  folded : ∀ e ∈ nodesOfAll roots, e.IsFolded

instance (roots : List Element) : Decidable (IsFoldedForest roots) :=
  decidable_of_iff (KeptApart roots ∧ ∀ e ∈ nodesOfAll roots, e.IsFolded)
    ⟨fun ⟨happart, hfolded⟩ => ⟨happart, hfolded⟩, fun h => ⟨h.apart, h.folded⟩⟩

def attachAll (es elder : List Element) : List Element :=
  es.foldl (fun elder e => e.attach elder) elder

theorem attachAll_cons (e : Element) (es elder : List Element) :
    attachAll (e :: es) elder = attachAll es (e.attach elder) := rfl

theorem attachAll_append (es fs elder : List Element) :
    attachAll (es ++ fs) elder = attachAll fs (attachAll es elder) :=
  List.foldl_append

/-- The element before it had any alternatives. -/
def alone (e : Element) : Element := { e with branches := [] }

/-- An element and its alternatives, as siblings. -/
def chain (e : Element) : List Element := e.alone :: e.branches

theorem flatMap_chain_of_single {es : List Element} (h : ∀ e ∈ es, e.branches = []) :
    es.flatMap chain = es := by
  induction es with
  | nil => rfl
  | cons e es ih =>
    obtain ⟨tag, attributes, children, branches⟩ := e
    have hbranches : branches = [] := h _ List.mem_cons_self
    subst hbranches
    rw [List.flatMap_cons, ih fun f hf => h f (List.mem_cons_of_mem _ hf)]
    rfl

theorem attach_of_joins {e latest : Element} (h : e.Joins latest) (elder : List Element) :
    e.attach (latest :: elder) = { latest with branches := latest.branches ++ [e] } :: elder := by
  rw [attach, h.1, h.2]
  rfl

theorem attach_of_not_joins {e : Element} {elder : List Element}
    (h : ∀ latest ∈ elder.head?, ¬ e.Joins latest) : e.attach elder = e :: elder := by
  cases elder with
  | nil => rfl
  | cons latest elder =>
    have hlatest := h latest rfl
    rw [Joins, ← Bool.and_eq_true] at hlatest
    rw [attach, if_neg hlatest]

/-- A chain whose alternatives are all conditional, the last excepted, takes them in one by one. -/
theorem attachAll_branches {e : Element} (hif : e.hasAttribute "v-if" = true) (elder : List Element)
    {later : List Element} (halternative : ∀ b ∈ later, b.isAlternative = true) :
    ∀ {sooner : List Element},
      (∀ b ∈ (sooner ++ later).dropLast, b.hasAttribute "v-else" = false) →
        attachAll later ({ e with branches := sooner } :: elder) =
          { e with branches := sooner ++ later } :: elder := by
  induction later with
  | nil =>
    intro sooner _
    rw [List.append_nil]
    rfl
  | cons b later ih =>
    intro sooner hconditional
    -- `b` is still to come, so the last of the alternatives so far is not the last of all.
    have hopen : isOpenChain { e with branches := sooner } = true := by
      have hlast : sooner.getLast?.any (·.hasAttribute "v-else") = false := by
        rw [Option.any_eq_false]
        intro last hmem
        have hsooner : last ∈ sooner := List.mem_of_getLast? hmem
        have hdrop : last ∈ (sooner ++ b :: later).dropLast := by
          rw [List.dropLast_append_cons]
          exact List.mem_append_left _ hsooner
        exact hconditional last hdrop
      simp only [isOpenChain, hlast]
      simpa [hasAttribute] using hif
    have hjoins : b.Joins { e with branches := sooner } :=
      ⟨halternative b List.mem_cons_self, hopen⟩
    rw [attachAll_cons, attach_of_joins hjoins]
    have hmore : ∀ c ∈ ((sooner ++ [b]) ++ later).dropLast, c.hasAttribute "v-else" = false := by
      rwa [← List.append_cons]
    rw [ih (fun c hc => halternative c (List.mem_cons_of_mem _ hc)) hmore, ← List.append_cons]

theorem attachAll_chain {e : Element} (hfolded : e.IsFolded) {elder : List Element}
    (happart : ∀ latest ∈ elder.head?, ¬ e.Joins latest) :
    attachAll e.chain elder = e :: elder := by
  have halone : e.alone.attach elder = e.alone :: elder := attach_of_not_joins happart
  rw [chain, attachAll_cons, halone]
  obtain ⟨tag, attributes, children, branches⟩ := e
  by_cases hbranches : branches = []
  · subst hbranches
    rfl
  · exact attachAll_branches (hfolded.headed hbranches) elder hfolded.alternative
      (hfolded.conditional : ∀ b ∈ ([] ++ branches).dropLast, _)

theorem attachAll_chains {siblings : List Element} (hfolded : ∀ e ∈ siblings, e.IsFolded)
    (happart : KeptApart siblings) :
    ∀ {elder : List Element},
      (∀ latest ∈ elder.head?, ∀ e ∈ siblings.head?, ¬ e.Joins latest) →
        attachAll (siblings.flatMap chain) elder = siblings.reverse ++ elder := by
  induction siblings with
  | nil => exact fun _ => rfl
  | cons e siblings ih =>
    intro elder hjoin
    obtain ⟨hnext, hrest⟩ := List.isChain_cons.mp happart
    have hhead : attachAll e.chain elder = e :: elder :=
      attachAll_chain (hfolded e List.mem_cons_self) fun latest hlatest =>
        hjoin latest hlatest e rfl
    have hnext' : ∀ latest ∈ (e :: elder).head?, ∀ f ∈ siblings.head?, ¬ f.Joins latest := by
      intro latest hlatest f hf
      rw [List.head?_cons, Option.mem_some_iff] at hlatest
      exact hlatest ▸ hnext f hf
    have htail := ih (fun f hf => hfolded f (List.mem_cons_of_mem _ hf)) hrest hnext'
    rw [List.flatMap_cons, attachAll_append, hhead, htail, List.reverse_cons, List.append_assoc]
    rfl

end ComponentGraph.Element
