import ComponentGraph.Proofs.Flattening
/-!
# The account of a cache

A cache that is handed from one tree to the next keeps a full account: after every run it holds what
it held before and, besides, the id of each element that came out. A node is marked before what is
below it and comes out after, so at the marks inside a node the account is open. It is closed again
where the node ends.
-/

namespace ComponentGraph

variable {ε : Type}

namespace Cache

/-- Between two states of a cache it took in the ids of some elements and nothing else. -/
def TakesIn (shape : Shape ε) (c : Cache) (elements : List ε) (d : Cache) : Prop :=
  d.ids.Perm (elements.map shape.id ++ c.ids)

theorem takesIn_mark (shape : Shape ε) (c : Cache) (e : ε) :
    c.TakesIn shape (if (c.mark (shape.id e)).1 then [e] else []) (c.mark (shape.id e)).2 := by
  by_cases h : shape.id e ∈ c.ids
  · rw [mark_of_mem h]
    exact .refl c.ids
  · rw [mark_of_not_mem h]
    exact .refl (shape.id e :: c.ids)

theorem TakesIn.append {shape : Shape ε} {b c d : Cache} {es fs : List ε}
    (he : b.TakesIn shape es c) (hf : c.TakesIn shape fs d) : b.TakesIn shape (es ++ fs) d := by
  have hids : d.ids.Perm (fs.map shape.id ++ (es.map shape.id ++ b.ids)) :=
    List.Perm.trans hf (he.append_left _)
  rw [← List.append_assoc] at hids
  rw [TakesIn, List.map_append]
  exact hids.trans (List.perm_append_comm.append_right _)

theorem holdsOfSteps_takesIn (shape : Shape ε) : HoldsOfSteps shape (TakesIn shape) where
  nil c := .refl c.ids
  mark := takesIn_mark shape
  append := .append
  perm he h := List.Perm.trans he ((h.map shape.id).append_right _)

end Cache

/-- **The account of a cache.** Whatever the trees, the registry and the cache they are flattened
with, one after the other: the ids of the elements that come out differ from each other and from all
that the cache held, and in the end it holds these ids and what it held, nothing twice that
was not there twice. -/
theorem flattenAll_accounts (shape : Shape ε) (r : Registry) (trees : List Tree) (c : Cache) :
    let run := flattenAll shape r c trees
    (run.1.map shape.id).Nodup ∧ (∀ e ∈ run.1, c.contains (shape.id e) = false) ∧
      run.2.ids.Perm (run.1.map shape.id ++ c.ids) := by
  have hemits : c.Emits shape (flattenAll shape r c trees).1 (flattenAll shape r c trees).2 :=
    flattenAll_emits trees c
  refine ⟨hemits.nodup, fun e he => ?_, flattenAll_steps (Cache.holdsOfSteps_takesIn shape) trees c⟩
  exact decide_eq_false (hemits.fresh e he)

end ComponentGraph
