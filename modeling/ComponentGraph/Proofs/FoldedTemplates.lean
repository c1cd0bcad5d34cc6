import ComponentGraph.Proofs.Folding
import ComponentGraph.Proofs.Grammar
/-!
# What is compiled is folded

An element is attached when it is closed, and at that moment it has no alternatives. So an
alternative that joins a chain heads none, and while elements are still open, each list of siblings
on the stack is a folded forest already. At the end only the roots are left.
-/

namespace ComponentGraph

namespace Element

theorem mem_nodes_iff {e f : Element} :
    f ∈ e.nodes ↔ f = e ∨ f ∈ nodesOfAll e.children ∨ f ∈ nodesOfAll e.branches := by
  rw [nodes_eq, List.mem_cons, List.mem_append]

theorem mem_nodesOfAll_reverse {es : List Element} {e : Element} :
    e ∈ nodesOfAll es.reverse ↔ e ∈ nodesOfAll es := by
  simp [mem_nodesOfAll]

/-- The lists of siblings of a forest, which are its roots and the children of each element. -/
def siblingLists (roots : List Element) : List (List Element) :=
  roots :: (nodesOfAll roots).map children

/-- The normal form of a forest, told by the directives of its elements. -/
structure IsNormal (roots : List Element) : Prop where
  headed : ∀ e ∈ nodesOfAll roots, e.branches ≠ [] → e.hasAttribute "v-if" = true
  alternative : ∀ e ∈ nodesOfAll roots, ∀ b ∈ e.branches,
    b.hasAttribute "v-else-if" = true ∨ b.hasAttribute "v-else" = true
  single : ∀ e ∈ nodesOfAll roots, ∀ b ∈ e.branches, b.branches = []
  conditional : ∀ e ∈ nodesOfAll roots, ∀ b ∈ e.branches.dropLast, b.hasAttribute "v-else" = false
  apart : ∀ siblings ∈ siblingLists roots, siblings.IsChain fun latest e =>
    e.hasAttribute "v-else-if" = true ∨ e.hasAttribute "v-else" = true →
      latest.hasAttribute "v-if" = true →
        ∃ last ∈ latest.branches.getLast?, last.hasAttribute "v-else" = true

theorem isAlternative_iff {e : Element} :
    e.isAlternative = true ↔
      e.hasAttribute "v-else-if" = true ∨ e.hasAttribute "v-else" = true :=
  Bool.or_eq_true_iff

theorem KeptApart.isChain {siblings : List Element} (h : KeptApart siblings) :
    siblings.IsChain fun latest e =>
      e.hasAttribute "v-else-if" = true ∨ e.hasAttribute "v-else" = true →
        latest.hasAttribute "v-if" = true →
          ∃ last ∈ latest.branches.getLast?, last.hasAttribute "v-else" = true := by
  refine h.imp fun latest e hnot halternative hif => ?_
  have hclosed : ¬ latest.isOpenChain = true := fun hopen =>
    hnot ⟨isAlternative_iff.mpr halternative, hopen⟩
  rw [isOpenChain, hif, Bool.true_and, Bool.not_eq_true', Bool.not_eq_false,
    Option.any_eq_true] at hclosed
  exact hclosed

theorem IsFoldedForest.isNormal {roots : List Element} (h : IsFoldedForest roots) :
    IsNormal roots where
  headed e he := (h.folded e he).headed
  alternative e he b hb := isAlternative_iff.mp ((h.folded e he).alternative b hb)
  single e he := (h.folded e he).single
  conditional e he := (h.folded e he).conditional
  apart siblings hsiblings := by
    rcases List.mem_cons.mp hsiblings with rfl | hsiblings
    · exact h.apart.isChain
    · obtain ⟨e, he, rfl⟩ := List.mem_map.mp hsiblings
      exact (h.folded e he).apart.isChain

theorem isFoldedForest_nil : IsFoldedForest [] := ⟨.nil, by simp⟩

/-- An element without alternatives is folded once its children are. -/
theorem IsFolded.of_children {e : Element} (hsingle : e.branches = [])
    (happart : KeptApart e.children) : e.IsFolded := by
  refine ⟨fun hne => absurd hsingle hne, ?_, ?_, ?_, happart⟩
  · simp [hsingle]
  · simp [hsingle]
  · simp [hsingle]

/-- An open chain takes in an alternative that heads no chain of its own. -/
theorem IsFolded.join {e latest : Element} (h : latest.IsFolded) (hjoins : e.Joins latest)
    (hsingle : e.branches = []) : IsFolded { latest with branches := latest.branches ++ [e] } := by
  obtain ⟨halternative, hopen⟩ := hjoins
  rw [isOpenChain, Bool.and_eq_true, Bool.not_eq_true', Option.any_eq_false] at hopen
  refine ⟨fun _ => hopen.1, ?_, ?_, ?_, h.apart⟩
  · exact List.forall_mem_append.mpr ⟨h.alternative, by simp [halternative]⟩
  · exact List.forall_mem_append.mpr ⟨h.single, by simp [hsingle]⟩
  · -- The last alternative so far left the chain open, so it is conditional like those before it.
    intro b hb
    rw [List.dropLast_concat] at hb
    rcases List.eq_nil_or_concat latest.branches with hnil | ⟨sooner, last, hlast⟩
    · rw [hnil] at hb
      cases hb
    · have hconditional := h.conditional
      rw [hlast, List.concat_eq_append, List.dropLast_concat] at hconditional
      rw [hlast, List.concat_eq_append] at hb hopen
      rcases List.mem_append.mp hb with hb | hb
      · exact hconditional b hb
      · rw [List.mem_singleton.mp hb]
        exact hopen.2 last (by simp)

theorem keptApart_attach {elder : List Element} (h : KeptApart elder.reverse) (e : Element) :
    KeptApart (e.attach elder).reverse := by
  cases elder with
  | nil => exact .singleton e
  | cons latest elder =>
    have hsplit : KeptApart (elder.reverse ++ [latest]) := by rwa [← List.reverse_cons]
    obtain ⟨hfront, -, hlast⟩ := List.isChain_append.mp hsplit
    by_cases hjoins : e.Joins latest
    · rw [attach_of_joins hjoins, List.reverse_cons]
      refine List.isChain_append.mpr ⟨hfront, .singleton _, fun before hbefore f hf => ?_⟩
      rw [List.head?_cons, Option.mem_some_iff] at hf
      exact hf ▸ hlast before hbefore latest rfl
    · have hattach : e.attach (latest :: elder) = e :: latest :: elder :=
        attach_of_not_joins (by simpa using hjoins)
      rw [hattach, List.reverse_cons, List.reverse_cons]
      refine List.isChain_append.mpr ⟨hsplit, .singleton e, fun before hbefore f hf => ?_⟩
      rw [List.getLast?_concat, Option.mem_some_iff] at hbefore
      rw [List.head?_cons, Option.mem_some_iff] at hf
      exact hbefore ▸ hf ▸ hjoins

/-- Attaching an element of folded children to folded siblings keeps them folded. -/
theorem isFoldedForest_attach {e : Element} {elder : List Element}
    (helder : IsFoldedForest elder.reverse) (he : IsFoldedForest e.children)
    (hsingle : e.branches = []) : IsFoldedForest (e.attach elder).reverse := by
  refine ⟨keptApart_attach helder.apart e, fun f hf => ?_⟩
  have hnodes : ∀ f ∈ e.nodes, f.IsFolded := by
    intro f hf
    rcases mem_nodes_iff.mp hf with rfl | hf | hf
    · exact .of_children hsingle he.apart
    · exact he.folded f hf
    · rw [hsingle] at hf
      cases hf
  have hold : ∀ f ∈ nodesOfAll elder, f.IsFolded := fun f hf =>
    helder.folded f (mem_nodesOfAll_reverse.mpr hf)
  rw [mem_nodesOfAll_reverse] at hf
  cases elder with
  | nil => exact hnodes f (by simpa [attach] using hf)
  | cons latest elder =>
    rw [nodesOfAll_cons, List.forall_mem_append] at hold
    obtain ⟨hlatest, helder⟩ := hold
    by_cases hjoins : e.Joins latest
    · rw [attach_of_joins hjoins, nodesOfAll_cons, List.mem_append, mem_nodes_iff,
        nodesOfAll_append, List.mem_append, nodesOfAll_cons, nodesOfAll_nil, List.append_nil] at hf
      rcases hf with (rfl | hf | hf | hf) | hf
      · exact (hlatest latest (mem_nodes_self latest)).join hjoins hsingle
      · exact hlatest f (mem_nodes_iff.mpr (.inr (.inl hf)))
      · exact hlatest f (mem_nodes_iff.mpr (.inr (.inr hf)))
      · exact hnodes f hf
      · exact helder f hf
    · rw [attach_of_not_joins (by simpa using hjoins), nodesOfAll_cons, List.mem_append,
        nodesOfAll_cons, List.mem_append] at hf
      rcases hf with hf | hf | hf
      · exact hnodes f hf
      · exact hlatest f hf
      · exact helder f hf

end Element

namespace Markup

open Element (IsFoldedForest isFoldedForest_attach isFoldedForest_nil)

/-- The siblings at every level of the stack are folded. -/
def IsFoldedStack (frames : List Frame) (siblings : List Element) : Prop :=
  (∀ f ∈ frames, IsFoldedForest f.elder.reverse) ∧ IsFoldedForest siblings.reverse

theorem IsFoldedStack.attach {frames : List Frame} {siblings children : List Element}
    (h : IsFoldedStack frames siblings) (tag : OpenTag) (hchildren : IsFoldedForest children) :
    IsFoldedStack frames ((tag.element children).attach siblings) :=
  ⟨h.1, isFoldedForest_attach h.2 hchildren rfl⟩

theorem isFoldedStack_of_grow {tokens : List Token} {frames frames' : List Frame}
    {siblings siblings' : List Element} (h : IsFoldedStack frames siblings)
    (hgrow : grow tokens frames siblings = .ok (frames', siblings')) :
    IsFoldedStack frames' siblings' := by
  fun_induction grow tokens frames siblings with
  | case1 frames siblings =>
    cases hgrow
    exact h
  | case2 tag place rest frames siblings _ ih => exact ih (h.attach tag isFoldedForest_nil) hgrow
  | case3 tag place rest frames siblings _ ih =>
    exact ih ⟨List.forall_mem_cons.mpr ⟨h.2, h.1⟩, isFoldedForest_nil⟩ hgrow
  | case4 name place rest siblings _ ih => exact ih h hgrow
  | case5 => cases hgrow
  | case6 name place rest top frames siblings _ ih =>
    obtain ⟨htop, hframes⟩ := List.forall_mem_cons.mp h.1
    have hunder : IsFoldedStack frames top.elder := ⟨hframes, htop⟩
    exact ih (hunder.attach top.tag h.2) hgrow
  | case7 name place rest top frames siblings _ _ ih => exact ih h hgrow
  | case8 => cases hgrow
  | case9 => cases hgrow

theorem isFoldedForest_of_forest {text : List Char} {roots : List Element}
    (h : forest text = .ok roots) : IsFoldedForest roots := by
  have hempty : IsFoldedStack [] [] := ⟨List.forall_mem_nil _, isFoldedForest_nil⟩
  have hroots := (isFoldedStack_of_grow hempty ((forest_ok_iff text roots).mp h).2).2
  rwa [List.reverse_reverse] at hroots

/-- **What is compiled is in normal form.** In what a template is compiled to, alternatives are held
by an element with `v-if`, hold none themselves, and are conditional but for the last; and no
alternative follows a sibling whose chain is open. -/
theorem isNormal_of_compile {template : String} {roots : List Element}
    (h : compile template = .ok roots) : Element.IsNormal roots :=
  (isFoldedForest_of_forest ((compile_ok_iff_forest template roots).mp h)).isNormal

/-- The first alternative would head a chain of its own, and the last comes when the chain is
closed. -/
theorem isNormal_of_compile_cards :
    let roots : List Element :=
      [⟨"A", [⟨"v-if", none⟩], [],
          [⟨"B", [⟨"v-else-if", none⟩, ⟨"v-if", none⟩], [⟨"br", [⟨"v-else", none⟩], [], []⟩], []⟩,
            ⟨"C", [⟨"v-else", none⟩], [], []⟩]⟩,
        ⟨"D", [⟨"v-else", none⟩], [], []⟩]
    compile "<A v-if/><B v-else-if v-if><br v-else></b><C v-else/><D v-else/>" = .ok roots ∧
      Element.IsNormal roots := by
  intro roots
  have hcompile : compile "<A v-if/><B v-else-if v-if><br v-else></b><C v-else/><D v-else/>" =
      .ok roots := by
    decide +kernel
  exact ⟨hcompile, isNormal_of_compile hcompile⟩

end Markup

end ComponentGraph
