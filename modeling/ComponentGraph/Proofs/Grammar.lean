import ComponentGraph.Markup.Forest
import ComponentGraph.Proofs.Elements
import ComponentGraph.Proofs.Scanning
/-!
# The grammar of a template

A forest of tags is empty, or begins with a tag that stands for a whole element, with a closing
tag of a void element, or with an element whose tags name it in the same letters. The stack of
`grow` takes in exactly these sequences, and no tag that it takes in is lost: what is opened so
far, from the outermost frame inwards, is at each step the list of the opening tags read.
-/

namespace ComponentGraph.Markup

open Element (heads heads_attach nodes_eq)

inductive IsForest : List Token → Prop
  | empty : IsForest []
  | leaf {tag : OpenTag} {place : List Char} {rest : List Token} :
      tag.isLeaf = true → IsForest rest → IsForest (.opening tag place :: rest)
  | strayVoid {name : String} {place : List Char} {rest : List Token} :
      Tag.isVoid name = true → IsForest rest → IsForest (.closing name place :: rest)
  | element {tag : OpenTag} {name : String} {place close : List Char} {inner rest : List Token} :
      tag.isLeaf = false → IsForest inner → Text.SameLetters tag.name name → IsForest rest →
        IsForest (.opening tag place :: (inner ++ .closing name close :: rest))

/-! ## What the stack takes in is a forest -/

/-- The tokens close every frame, the innermost first, and go on as a forest. -/
def Closes : List Frame → List Token → Prop
  | [], tokens => IsForest tokens
  | f :: frames, tokens => ∃ inner name place rest,
      tokens = inner ++ .closing name place :: rest ∧ IsForest inner ∧ f.isNamed name = true ∧
        Closes frames rest

/-- What may stand in front of a forest may stand in front of the tokens that close frames. -/
theorem Closes.prepend (front : List Token) {frames : List Frame} {tokens : List Token}
    (hfront : ∀ rest, IsForest rest → IsForest (front ++ rest)) (h : Closes frames tokens) :
    Closes frames (front ++ tokens) := by
  cases frames with
  | nil => exact hfront tokens h
  | cons f frames =>
    obtain ⟨inner, name, place, rest, rfl, hinner, hnamed, hrest⟩ := h
    refine ⟨front ++ inner, name, place, rest, ?_, hfront inner hinner, hnamed, hrest⟩
    rw [List.append_assoc]

theorem closes_of_grow {tokens : List Token} {frames : List Frame} {siblings roots : List Element}
    (h : grow tokens frames siblings = .ok ([], roots)) : Closes frames tokens := by
  fun_induction grow tokens frames siblings with
  | case1 frames siblings =>
    simp only [Except.ok.injEq, Prod.mk.injEq] at h
    rw [h.1]
    exact .empty
  | case2 tag place rest frames siblings hleaf ih =>
    exact Closes.prepend [_] (fun _ => .leaf hleaf) (ih h)
  | case3 tag place rest frames siblings hleaf ih =>
    -- The frame opened here is the first to be closed: with its tags it stands before the rest.
    obtain ⟨inner, name, close, rest', rfl, hinner, hnamed, hrest⟩ := ih h
    have hsame : Text.SameLetters tag.name name := of_decide_eq_true hnamed
    rw [← List.cons_append, List.append_cons]
    refine Closes.prepend _ (fun after hafter => ?_) hrest
    rw [← List.append_cons, List.cons_append]
    exact .element (eq_false_of_ne_true hleaf) hinner hsame hafter
  | case4 name place rest siblings hvoid ih =>
    exact Closes.prepend [_] (fun _ => .strayVoid hvoid) (ih h)
  | case5 => cases h
  | case6 name place rest siblings top frames hnamed ih =>
    exact ⟨[], name, place, rest, rfl, .empty, hnamed, ih h⟩
  | case7 name place rest siblings top frames _ hvoid ih =>
    exact Closes.prepend [_] (fun _ => .strayVoid hvoid) (ih h)
  | case8 => cases h
  | case9 => cases h

/-! ## A forest is taken in -/

theorem isVoid_eq_of_sameLetters {s t : String} (h : Text.SameLetters s t) :
    Tag.isVoid s = Tag.isVoid t := by
  have hfold : Text.foldCase s = Text.foldCase t := h
  rw [Tag.isVoid, Tag.isVoid, hfold]

theorem isVoid_eq_false_of_isLeaf {tag : OpenTag} (h : tag.isLeaf = false) :
    tag.isVoid = false := by
  simp only [OpenTag.isLeaf, Bool.or_eq_false_iff] at h
  exact h.1.2

theorem isRawText_eq_false_of_isVoid {tag : OpenTag} (h : tag.isVoid = true) :
    tag.isRawText = false := by
  have hne : ∀ name : String, Tag.isVoid name = false → tag.name ≠ name := by
    rintro name hname rfl
    exact absurd (h.symm.trans hname) (by decide)
  rw [OpenTag.isRawText, decide_eq_false (hne "script" (by decide +kernel)),
    decide_eq_false (hne "style" (by decide +kernel))]
  rfl

/-- The closing tag of a void element is passed over when no void element is open. -/
theorem grow_strayVoid {name : String} (hvoid : Tag.isVoid name = true) (place : List Char)
    (rest : List Token) {frames : List Frame} (hframes : ∀ f ∈ frames, f.tag.isVoid = false)
    (siblings : List Element) :
    grow (.closing name place :: rest) frames siblings = grow rest frames siblings := by
  cases frames with
  | nil => simp only [grow, hvoid, if_true]
  | cons top frames =>
    have hnamed : top.isNamed name = false := by
      apply decide_eq_false
      intro hsame
      have htop : Tag.isVoid top.tag.name = false := hframes top List.mem_cons_self
      rw [isVoid_eq_of_sameLetters hsame, hvoid] at htop
      cases htop
    simp only [grow, hnamed, hvoid, Bool.false_eq_true, if_false, if_true]

/-- A forest leaves the open elements as they are, whatever follows it. -/
theorem grow_forest {tokens : List Token} (h : IsForest tokens) :
    ∀ (frames : List Frame) (siblings : List Element), (∀ f ∈ frames, f.tag.isVoid = false) →
      ∃ siblings', ∀ rest, grow (tokens ++ rest) frames siblings = grow rest frames siblings' := by
  -- For every stack at once: the inner forest is taken in above one more frame.
  induction h with
  | empty => exact fun _ siblings _ => ⟨siblings, fun _ => rfl⟩
  | @leaf tag place tokens hleaf _ ih =>
    intro frames siblings hframes
    obtain ⟨siblings', hgrow⟩ := ih frames ((tag.element []).attach siblings) hframes
    refine ⟨siblings', fun rest => ?_⟩
    rw [List.cons_append, grow, if_pos hleaf, hgrow]
  | @strayVoid name place tokens hvoid _ ih =>
    intro frames siblings hframes
    obtain ⟨siblings', hgrow⟩ := ih frames siblings hframes
    refine ⟨siblings', fun rest => ?_⟩
    rw [List.cons_append, grow_strayVoid hvoid place _ hframes, hgrow]
  | @element tag name place close inner tokens hleaf _ hsame _ ihInner ihRest =>
    intro frames siblings hframes
    have hinside : ∀ f ∈ (⟨tag, place, siblings⟩ : Frame) :: frames, f.tag.isVoid = false := by
      intro f hf
      rcases List.mem_cons.mp hf with rfl | hf
      · exact isVoid_eq_false_of_isLeaf hleaf
      · exact hframes f hf
    obtain ⟨children, hinner⟩ := ihInner (⟨tag, place, siblings⟩ :: frames) [] hinside
    obtain ⟨siblings', hrest⟩ :=
      ihRest frames ((tag.element children.reverse).attach siblings) hframes
    refine ⟨siblings', fun rest => ?_⟩
    have hnamed : (⟨tag, place, siblings⟩ : Frame).isNamed name = true := decide_eq_true hsame
    rw [List.cons_append, List.append_assoc, grow, hleaf, if_neg Bool.false_ne_true, hinner,
      List.cons_append, grow, if_pos hnamed, hrest]

theorem grow_ok_iff (tokens : List Token) :
    (∃ roots, grow tokens [] [] = .ok ([], roots)) ↔ IsForest tokens := by
  constructor
  · rintro ⟨roots, h⟩
    exact closes_of_grow h
  · intro h
    obtain ⟨roots, hgrow⟩ := grow_forest h [] [] (by simp)
    have hend := hgrow []
    rw [List.append_nil] at hend
    exact ⟨roots, hend⟩

/-! ## No tag is lost -/

def OpenTag.head (tag : OpenTag) : String × List Attribute := (tag.name, tag.attributes)

/-- The opening tags among the tokens. -/
def openTags (tokens : List Token) : List OpenTag :=
  tokens.filterMap fun
    | .opening tag _ => some tag
    | .closing .. => none

/-- The opening tags that a state of the stack has taken in. -/
def opened : List Frame → List Element → List (String × List Attribute)
  | [], siblings => heads siblings.reverse
  | f :: frames, siblings => opened frames f.elder ++ f.tag.head :: heads siblings.reverse

theorem opened_attach (frames : List Frame) (e : Element) (siblings : List Element) :
    opened frames (e.attach siblings) = opened frames siblings ++ heads [e] := by
  cases frames with
  | nil => exact heads_attach e siblings
  | cons f frames => simp only [opened, heads_attach, List.append_assoc, List.cons_append]

theorem heads_element (tag : OpenTag) (children : List Element) :
    heads [tag.element children] = tag.head :: heads children := by
  simp [heads, nodes_eq, OpenTag.element, OpenTag.head, Element.head]

theorem opened_grow {tokens : List Token} {frames frames' : List Frame}
    {siblings siblings' : List Element}
    (h : grow tokens frames siblings = .ok (frames', siblings')) :
    opened frames' siblings' = opened frames siblings ++ (openTags tokens).map OpenTag.head := by
  fun_induction grow tokens frames siblings with
  | case1 frames siblings =>
    simp only [Except.ok.injEq, Prod.mk.injEq] at h
    rw [← h.1, ← h.2]
    exact (List.append_nil _).symm
  | case2 tag place rest frames siblings _ ih =>
    rw [ih h, opened_attach, heads_element, List.append_assoc]
    rfl
  | case3 tag place rest frames siblings _ ih =>
    rw [ih h, opened, List.append_assoc]
    rfl
  | case4 name place rest siblings _ ih => exact ih h
  | case5 => cases h
  | case6 name place rest siblings top frames _ ih =>
    rw [ih h, opened_attach, heads_element]
    rfl
  | case7 name place rest siblings top frames _ _ ih => exact ih h
  | case8 => cases h
  | case9 => cases h

/-! ## The template -/

theorem forest_ok_iff (text : List Char) (roots : List Element) :
    forest text = .ok roots ↔
      (scan .template text).problem = none ∧
        grow (scan .template text).tokens [] [] = .ok ([], roots.reverse) := by
  simp only [forest]
  cases hgrow : grow (scan .template text).tokens [] [] with
  | error problem => simp
  | ok state =>
    obtain ⟨frames, siblings⟩ := state
    cases hproblem : (scan .template text).problem with
    | some problem => simp
    | none =>
      cases frames with
      | cons top frames => simp
      | nil => simp [List.reverse_eq_iff]

theorem compile_ok_iff_forest (template : String) (roots : List Element) :
    compile template = .ok roots ↔ forest template.toList = .ok roots := by
  rw [compile]
  cases forest template.toList <;> simp

/-- A template is compiled exactly if every tag in it can be read and its tags are a forest, and
what comes out has, in order, the names and attributes of its opening tags. -/
theorem compile_ok_iff (template : String) :
    ((∃ roots, compile template = .ok roots) ↔
      (scan .template template.toList).problem = none ∧
        IsForest (scan .template template.toList).tokens) ∧
    ∀ roots, compile template = .ok roots →
      heads roots = (openTags (scan .template template.toList).tokens).map OpenTag.head := by
  simp only [compile_ok_iff_forest, forest_ok_iff]
  refine ⟨⟨?_, ?_⟩, ?_⟩
  · rintro ⟨roots, hproblem, hgrow⟩
    exact ⟨hproblem, closes_of_grow hgrow⟩
  · rintro ⟨hproblem, hforest⟩
    obtain ⟨roots, hgrow⟩ := (grow_ok_iff _).mpr hforest
    refine ⟨roots.reverse, hproblem, ?_⟩
    rw [List.reverse_reverse, hgrow]
  · rintro roots ⟨_, hgrow⟩
    have hopened := opened_grow hgrow
    simpa only [opened, List.reverse_reverse, List.reverse_nil, heads, Element.nodesOfAll_nil,
      List.map_nil, List.nil_append] using hopened

theorem scan_break :
    scan .template "<br></BR>".toList =
      ⟨[.opening ⟨"br", [], false⟩ "<br></BR>".toList, .closing "BR" "</BR>".toList], none⟩ := by
  have hopen : readOpenTag "<br></BR>".toList = .ok (⟨"br", [], false⟩, "</BR>".toList) := by
    have hattributes : readAttributes "br" "></BR>".toList = .ok ([], false, "</BR>".toList) := by
      rw [readAttributes]
      rfl
    have hname : String.ofList (("<br></BR>".toList.drop 1).takeWhile isNameChar) = "br" := by
      decide +kernel
    have hrest : ("<br></BR>".toList.drop 1).dropWhile isNameChar = "></BR>".toList := by
      decide +kernel
    rw [readOpenTag, hname, hrest, hattributes]
  have hafter : afterOpening .template ⟨"br", [], false⟩ "<br></BR>".toList "</BR>".toList =
      .ok "</BR>".toList := by rfl
  have hclose : readCloseTag "</BR>".toList = .ok ("BR", []) := by rfl
  rw [scan_opening rfl hopen hafter, scan_closing rfl hclose, scan]
  rfl

theorem compile_ok_iff_break :
    ∃ roots, compile "<br></BR>" = .ok roots ∧ heads roots = [("br", [])] := by
  obtain ⟨haccepts, hheads⟩ := compile_ok_iff "<br></BR>"
  rw [scan_break] at haccepts hheads
  have hleaf : OpenTag.isLeaf ⟨"br", [], false⟩ = true := by decide +kernel
  have hvoid : Tag.isVoid "BR" = true := by decide +kernel
  obtain ⟨roots, hroots⟩ := haccepts.mpr ⟨rfl, .leaf hleaf (.strayVoid hvoid .empty)⟩
  exact ⟨roots, hroots, hheads roots hroots⟩

end ComponentGraph.Markup
