import ComponentGraph.Proofs.FoldedTemplates
import ComponentGraph.Proofs.Layout
import ComponentGraph.Proofs.Spellings
import ComponentGraph.Reference.Loading
/-!
# What a template mentions

Of an alternative the tag and the children are gathered, but no alternatives of its own. In what is
compiled it has none, so that the tags that a template mentions are the names of all its opening
tags. A name ends before a slash, and no spelling of a tag brings a slash in, so that a tag is never
looked for under a key that holds one.
-/

namespace ComponentGraph

namespace Element

/-- Gathering leaves the tag among those seen if it was there, or if it is a tag of the elements. -/
def Gathers (t : String) (gathered : List String → List String) (es : List Element) : Prop :=
  ∀ seen, t ∈ gathered seen ↔ t ∈ seen ∨ t ∈ (nodesOfAll es).map tag

section Gathering

variable {t : String}

theorem gathers_all {es : List Element} (h : ∀ e ∈ es, Gathers t (gather · e) [e]) :
    Gathers t (gatherAll · es) es := by
  induction es with
  | nil => simp [Gathers, gatherAll]
  | cons e es ih =>
    intro seen
    show t ∈ gatherAll seen (e :: es) ↔ _
    rw [gatherAll, ih (fun f hf => h f (List.mem_cons_of_mem e hf)), h e List.mem_cons_self]
    simp [or_assoc]

/-- Of an alternative only the tag and the children are gathered. -/
theorem gathers_branches {es : List Element} (hsingle : ∀ b ∈ es, b.branches = [])
    (h : ∀ b ∈ es, Gathers t (gatherAll · b.children) b.children) :
    Gathers t (gatherBranches · es) es := by
  induction es with
  | nil => simp [Gathers, gatherBranches]
  | cons b es ih =>
    intro seen
    have hchildren := h b List.mem_cons_self
    have hrest := ih (fun c hc => hsingle c (List.mem_cons_of_mem b hc))
      fun c hc => h c (List.mem_cons_of_mem b hc)
    obtain ⟨tag, attributes, children, branches⟩ := b
    obtain rfl : branches = [] := hsingle _ List.mem_cons_self
    have hseen : t ∈ (if tag ∈ seen then seen else tag :: seen) ↔ t = tag ∨ t ∈ seen := by
      split
      · rename_i hmem
        exact ⟨.inr, fun ht => ht.elim (fun heq => heq ▸ hmem) id⟩
      · exact List.mem_cons
    show t ∈ gatherBranches seen (⟨tag, attributes, children, []⟩ :: es) ↔ _
    rw [gatherBranches, hrest, hchildren, hseen]
    simp only [nodesOfAll_cons, nodes_eq, nodesOfAll_nil, List.append_nil, List.map_append,
      List.map_cons, List.mem_append, List.mem_cons]
    tauto

theorem gathers_of_folded (e : Element) : (∀ f ∈ e.nodes, f.IsFolded) →
    Gathers t (gather · e) [e] ∧ Gathers t (gatherAll · e.children) e.children := by
  induction e using Element.induction with
  | element tag attributes children branches ihChildren ihBranches =>
    intro hfolded
    have hchildren : Gathers t (gatherAll · children) children := gathers_all fun c hc =>
      (ihChildren c hc fun f hf => hfolded f (mem_nodes_of_children hc hf)).1
    have hsingle := (hfolded _ (mem_nodes_self _)).single
    have hbranches : Gathers t (gatherBranches · branches) branches :=
      gathers_branches hsingle fun b hb =>
        (ihBranches b hb fun f hf => hfolded f (mem_nodes_of_branches hb hf)).2
    refine ⟨fun seen => ?_, hchildren⟩
    show t ∈ gather seen ⟨tag, attributes, children, branches⟩ ↔ _
    rw [gather, hchildren, hbranches]
    simp only [nodesOfAll_cons, nodes_eq, nodesOfAll_nil, List.append_nil, List.map_append,
      List.map_cons, List.mem_append, List.mem_cons]
    tauto

end Gathering

/-- The tags that a folded forest mentions are those of all its elements. -/
theorem mem_mentioned {forest : List Element} (h : ∀ e ∈ nodesOfAll forest, e.IsFolded)
    {t : String} : t ∈ mentioned forest ↔ t ∈ (heads forest).map Prod.fst := by
  have hgathers : Gathers t (gatherAll · forest) forest := gathers_all fun e he =>
    (gathers_of_folded e fun f hf => h f (mem_nodesOfAll.mpr ⟨e, he, hf⟩)).1
  have htags : (heads forest).map Prod.fst = (nodesOfAll forest).map tag := by
    rw [heads, List.map_map]
    rfl
  rw [mentioned, List.mem_reverse, htags, hgathers []]
  simp

end Element

namespace Markup

theorem heads_of_forest {text : List Char} {roots : List Element} (h : forest text = .ok roots) :
    Element.heads roots = (openTags (scan .template text).tokens).map OpenTag.head := by
  have hopened := opened_grow ((forest_ok_iff text roots).mp h).2
  simpa only [opened, List.reverse_reverse, List.reverse_nil, Element.heads, Element.nodesOfAll_nil,
    List.map_nil, List.nil_append] using hopened

theorem mem_mentioned_of_forest {text : List Char} {roots : List Element}
    (h : forest text = .ok roots) {t : String} :
    t ∈ Element.mentioned roots ↔ t ∈ (scan .template text).names := by
  rw [Element.mem_mentioned (isFoldedForest_of_forest h).folded, heads_of_forest h, List.map_map]
  rfl

/-- **No tag escapes.** A template that compiles is laid out by the rules, and what it mentions once
it is compiled are the names of its opening tags: also of those in the alternatives of a chain and
in all that is nested in them. -/
theorem mem_mentioned_of_compile {template : String} {roots : List Element}
    (h : compile template = .ok roots) :
    (∃ names, Layout template.toList names) ∧
      ∀ names, Layout template.toList names → ∀ t, t ∈ Element.mentioned roots ↔ t ∈ names := by
  have hforest := (compile_ok_iff_forest template roots).mp h
  refine ⟨⟨_, layout_scan ((forest_ok_iff _ _).mp hforest).1⟩, fun names hlayout t => ?_⟩
  rw [mem_mentioned_of_forest hforest, (scan_of_layout hlayout).2]

/-- One alternative would head a chain of its own, and another repeats a tag and has children. What
looks like a tag in a value, a comment, an interpolation and raw text is none. -/
def chainedCards : String :=
  "<A v-if/><B v-else-if v-if title='<Q>'><C/></B><!--<X/>-->" ++
    "<A v-else>\x7b\x7b '<Y>' \x7d\x7d<D v-else/></A><style><Z/></styles></STYLE >"

theorem mem_mentioned_of_compile_cards :
    ∃ roots, compile chainedCards = .ok roots ∧
      Layout chainedCards.toList ["A", "B", "C", "A", "D", "style"] ∧
        ∀ t, t ∈ Element.mentioned roots ↔ t ∈ ["A", "B", "C", "A", "D", "style"] := by
  have hcompile : (compile chainedCards).isOk = true := by decide +kernel
  have hlayout : Layout chainedCards.toList ["A", "B", "C", "A", "D", "style"] :=
    layout_iff.mpr ⟨by decide +kernel, by decide +kernel⟩
  cases hroots : compile chainedCards with
  | error e =>
    rw [hroots] at hcompile
    cases hcompile
  | ok roots => exact ⟨roots, rfl, hlayout, (mem_mentioned_of_compile hroots).2 _ hlayout⟩

/-- No tag that a template mentions holds a slash. -/
theorem slash_not_mem_of_mentioned {template tag : String} {roots : List Element}
    (hcompile : compile template = .ok roots) (h : tag ∈ Element.mentioned roots) :
    '/' ∉ tag.toList := by
  have hforest := (compile_ok_iff_forest template roots).mp hcompile
  have hlayout := layout_scan ((forest_ok_iff _ _).mp hforest).1
  intro hslash
  have hname := hlayout.isNameChar tag ((mem_mentioned_of_forest hforest).mp h) '/' hslash
  exact absurd hname (by decide)

end Markup

theorem Sources.slash_not_mem_of_tags {p : Project} {r : Registry} {file : String}
    {tags : List String} (h : (⟨p, r, .markup⟩ : Sources).tags file = .ok tags) :
    ∀ tag ∈ tags, '/' ∉ tag.toList := by
  rw [Sources.tags] at h
  split at h
  · cases h
  · split at h
    · cases h
    · split at h
      · cases h
      · cases h
        simp
      · split at h
        · cases h
        · rename_i hcompile
          cases h
          exact fun tag htag => Markup.slash_not_mem_of_mentioned hcompile htag

/-! ## Spellings -/

theorem Text.mem_of_mem_splitOn {sep c : Char} {cs piece : List Char} (h : piece ∈ splitOn sep cs)
    (hc : c ∈ piece) : c ∈ cs := by
  induction cs generalizing piece with
  | nil =>
    cases List.mem_singleton.mp h
    cases hc
  | cons d cs ih =>
    unfold splitOn at h
    split at h
    · rcases List.mem_cons.mp h with rfl | h
      · cases hc
      · exact List.mem_cons_of_mem d (ih h hc)
    · split at h
      · cases List.mem_singleton.mp h
        exact List.mem_cons.mpr (.inl (List.mem_singleton.mp hc))
      · rename_i first others hsplit
        rw [hsplit] at ih
        rcases List.mem_cons.mp h with rfl | h
        · rcases List.mem_cons.mp hc with rfl | hc
          · exact List.mem_cons_self
          · exact List.mem_cons_of_mem d (ih List.mem_cons_self hc)
        · exact List.mem_cons_of_mem d (ih (List.mem_cons_of_mem first h) hc)

namespace Tag

theorem slash_not_mem_upperCamel {tag : String} (h : '/' ∉ tag.toList) :
    '/' ∉ (upperCamel tag).toList := by
  rw [upperCamel, String.toList_ofList, List.mem_flatMap]
  rintro ⟨piece, hpiece, hmem⟩
  cases piece with
  | nil => cases hmem
  | cons c cs =>
    rcases List.mem_cons.mp hmem with heq | hmem
    · rw [(toUpper_eq_iff (by decide)).mp heq.symm] at hpiece
      exact h (Text.mem_of_mem_splitOn hpiece List.mem_cons_self)
    · exact h (Text.mem_of_mem_splitOn hpiece (List.mem_cons_of_mem c hmem))

theorem slash_not_mem_kebabAfter {before : Option Char} {cs : List Char} (h : '/' ∉ cs) :
    '/' ∉ kebabAfter before cs := by
  induction cs generalizing before with
  | nil => exact h
  | cons c cs ih =>
    have hc : '/' ≠ c := fun heq => h (List.mem_cons.mpr (.inl heq))
    have hlower : '/' ≠ c.toLower := fun heq =>
      hc ((toLower_eq_iff (by decide)).mp heq.symm).symm
    have hcs : '/' ∉ kebabAfter (some c) cs := ih fun hmem => h (List.mem_cons_of_mem c hmem)
    rw [kebabAfter]
    split
    · split
      · simp [hlower, hcs]
      · simp [hlower, hcs]
    · simp [hc, hcs]

theorem slash_not_mem_spellings {tag : String} (h : '/' ∉ tag.toList) :
    ∀ key ∈ spellings tag, '/' ∉ key.toList := by
  have hkebab : '/' ∉ (kebab tag).toList := by
    rw [kebab, String.toList_ofList]
    exact slash_not_mem_kebabAfter h
  simp [spellings, slash_not_mem_upperCamel h, hkebab, h]

end Tag

end ComponentGraph
