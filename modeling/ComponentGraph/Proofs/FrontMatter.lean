import ComponentGraph.Proofs.BlockBytes
import ComponentGraph.Proofs.Layout
/-!
# In front of the template

Blocks of other names, comments and text may stand in front of a component's template. The template
is found as if they were not there, whatever is written in the blocks, and a fault behind them is
told with a line that is later by as many lines as they end.
-/

namespace ComponentGraph.Markup

/-! ## The end of a block -/

theorem findClosing?_content {name : String} {body : List Char}
    (h : IsFirst (ClosesHere name) body (closingChars name)) (rest : List Char) :
    findClosing? name (body ++ (closingChars name ++ rest)) = some (closingChars name ++ rest) := by
  have hlong := (closesHere_iff.mp h.holds).1
  obtain ⟨front, -, hstarts⟩ := findClosing?_eq_some_iff.mp (findClosing?_closingChars name rest)
  refine findClosing?_eq_some_iff.mpr ⟨body, rfl, hstarts.holds, fun back hback hne hagain => ?_⟩
  rw [← List.append_assoc] at hagain
  refine h.first back hback hne (closesHere_of_startsClosing ?_ hagain)
  rw [List.length_append]
  omega

/-! ## What is passed over -/

/-- Text, comments, and blocks that are no template. A block ends with the first closing tag of its
name. -/
inductive IsFront : List Char → Prop
  | empty : IsFront []
  | text {cs more : List Char} : '<' ∉ cs → IsFront more → IsFront (cs ++ more)
  | comment {cs more : List Char} : ¬ ['-', '-', '>'] <:+: cs → IsFront more →
      IsFront (['<', '!', '-', '-'] ++ cs ++ ['-', '-', '>'] ++ more)
  | block {name : String} {body more : List Char} : IsWritableTag name [] →
      isTemplateName name = false → IsFirst (ClosesHere name) body (closingChars name) →
        IsFront more → IsFront (openingChars name [] ++ body ++ closingChars name ++ more)

theorem findTemplate_text {cs : List Char} (h : '<' ∉ cs) (rest : List Char) :
    findTemplate (cs ++ rest) = findTemplate rest := by
  have hcs : ∀ c ∈ cs, decide (c ≠ '<') = true := fun c hc =>
    decide_eq_true fun heq => h (heq ▸ hc)
  rw [← findTemplate_dropWhile, List.dropWhile_append_of_pos hcs, findTemplate_dropWhile]

theorem findTemplate_block {name : String} {body : List Char} (htag : IsWritableTag name [])
    (hname : isTemplateName name = false)
    (hbody : IsFirst (ClosesHere name) body (closingChars name)) (rest : List Char) :
    findTemplate (openingChars name [] ++ (body ++ (closingChars name ++ rest))) =
      findTemplate rest := by
  have hread := readOpenTag_openingChars htag (body ++ (closingChars name ++ rest))
  have hafter (place : List Char) :
      afterBlock (plainTag name []) place (body ++ (closingChars name ++ rest)) = .ok rest := by
    have hfind : findClosing? (plainTag name []).name (body ++ (closingChars name ++ rest)) =
        some (closingChars name ++ rest) := findClosing?_content hbody rest
    rw [afterBlock, hfind]
    simp only [readCloseTag_closingChars htag.name rest]
  have hnot : ¬ isTemplateName (plainTag name []).name = true := ne_true_of_eq_false hname
  rw [findTemplate_opening (beginning_openingChars htag _), hread]
  simp only [if_neg hnot, hafter]
  rfl

theorem findTemplate_front {front : List Char} (h : IsFront front) (rest : List Char) :
    findTemplate (front ++ rest) = findTemplate rest := by
  induction h with
  | empty => rfl
  | text hcs _ ih => rw [List.append_assoc, findTemplate_text hcs, ih]
  | @comment cs more hcs _ ih =>
    have hafter : afterComment? ('<' :: '!' :: '-' :: '-' ::
        (cs ++ '-' :: '-' :: '>' :: (more ++ rest))) = some (more ++ rest) :=
      behind?_comment hcs (more ++ rest)
    have hchars : ['<', '!', '-', '-'] ++ cs ++ ['-', '-', '>'] ++ more ++ rest =
        '<' :: '!' :: '-' :: '-' :: (cs ++ '-' :: '-' :: '>' :: (more ++ rest)) := by
      simp
    rw [hchars, findTemplate_comment rfl, hafter, Option.elim_some, ih]
  | block htag hname hbody _ ih =>
    rw [List.append_assoc, List.append_assoc, List.append_assoc,
      findTemplate_block htag hname hbody, ih]

/-! ## Where a fault is -/

section Places

variable {text rest place : List Char} {problem : Problem}

theorem place_of_afterContent {name : String} {fault : Fault} (hrest : rest <:+ place)
    (h : afterContent name fault place rest = .error problem) : problem.place <:+ place := by
  rw [afterContent] at h
  split at h
  · cases h
    exact List.suffix_rfl
  · rename_i hclose
    split at h
    · cases h
      exact (findClosing?_suffix hclose).trans hrest
    · cases h

theorem place_of_afterOpening {scope : Scope} {tag : OpenTag} (hrest : rest <:+ place)
    (h : afterOpening scope tag place rest = .error problem) : problem.place <:+ place := by
  rw [afterOpening] at h
  split at h
  · exact place_of_afterContent hrest h
  · cases h

theorem afterOpening_suffix {scope : Scope} {tag : OpenTag} {after : List Char}
    (h : afterOpening scope tag place rest = .ok after) : after <:+ rest := by
  rw [afterOpening] at h
  split at h
  · exact afterContent_suffix h
  · cases h
    exact List.suffix_rfl

/-- What cannot be scanned is a part of the text. -/
theorem place_of_scan {scope : Scope} (h : (scan scope text).problem = some problem) :
    problem.place <:+ text := by
  fun_induction scan scope text with
  | case1 => cases h
  | case2 =>
    cases h
    exact List.suffix_rfl
  | case3 scope c cs hbegin rest hrest ih => exact (ih h).trans (afterComment?_reads hbegin hrest).1
  | case4 c cs hbegin ih => exact (ih h).trans (afterInterpolation_reads hbegin).1
  | case5 c cs _ ih => exact (ih h).trans (List.suffix_cons c cs)
  | case6 =>
    cases h
    exact List.suffix_rfl
  | case7 scope c cs _ name rest hread ih => exact (ih h).trans (readCloseTag_suffix hread)
  | case8 =>
    cases h
    exact List.suffix_rfl
  | case9 scope c cs _ tag rest hread problem' hafter =>
    cases h
    exact place_of_afterOpening (readOpenTag_suffix hread) hafter
  | case10 scope c cs _ tag rest hread after hafter ih =>
    exact ((ih h).trans (afterOpening_suffix hafter)).trans (readOpenTag_suffix hread)
  | case11 scope c cs _ ih => exact (ih h).trans (List.suffix_cons c cs)

theorem place_of_templateContent (hrest : rest <:+ place)
    (h : templateContent place rest = .error problem) : problem.place <:+ place := by
  rw [templateContent] at h
  split at h
  · cases h
  · rename_i hproblem
    cases h
    exact (place_of_scan hproblem).trans hrest
  · cases h
    exact List.suffix_rfl

/-- What keeps the template from being found is a part of the text. -/
theorem place_of_findTemplate (h : findTemplate text = .error problem) :
    problem.place <:+ text := by
  fun_induction findTemplate text with
  | case1 => cases h
  | case2 | case4 | case6 =>
    cases h
    exact List.suffix_rfl
  | case3 c cs hbegin rest hrest ih => exact (ih h).trans (afterComment?_reads hbegin hrest).1
  | case5 c cs _ name rest hread ih => exact (ih h).trans (readCloseTag_suffix hread)
  | case7 => cases h
  | case8 c cs _ tag rest hread =>
    cases hcontent : templateContent (c :: cs) rest with
    | error problem' =>
      rw [hcontent] at h
      cases h
      exact place_of_templateContent (readOpenTag_suffix hread) hcontent
    | ok content =>
      rw [hcontent] at h
      cases h
  | case9 c cs _ tag rest hread _ _ ih => exact (ih h).trans (readOpenTag_suffix hread)
  | case10 c cs _ tag rest hread _ _ problem' hafter =>
    cases h
    exact place_of_afterContent (readOpenTag_suffix hread) hafter
  | case11 c cs _ tag rest hread _ _ after hafter ih =>
    exact ((ih h).trans (afterContent_suffix hafter)).trans (readOpenTag_suffix hread)
  | case12 c cs _ ih | case13 c cs _ ih => exact (ih h).trans (List.suffix_cons c cs)

end Places

/-- The error of a place that stands lower in a text by some lines. -/
def ParseError.below (e : ParseError) (lines : Nat) : ParseError :=
  { e with line := e.line + lines }

theorem Problem.toError_append {p : Problem} {rest : List Char} (h : p.place <:+ rest)
    (front : List Char) :
    p.toError (front ++ rest) = (p.toError rest).below (front.count '\n') := by
  have hle : p.place.count '\n' ≤ rest.count '\n' := h.sublist.count_le '\n'
  simp only [Problem.toError, Problem.line, ParseError.below, List.count_append,
    ParseError.mk.injEq, and_true]
  omega

/-- Whatever stands in front of the template, the template is the same, and so is an error but for
the lines that end in front of it. -/
theorem template?_front {front : String} (h : IsFront front.toList) (rest : String) :
    template? (front ++ rest) =
      (template? rest).mapError fun e => e.below (front.toList.count '\n') := by
  rw [template?, template?, String.toList_append, findTemplate_front h]
  cases hfind : findTemplate rest.toList with
  | error problem =>
    simp only [Except.mapError, Problem.toError_append (place_of_findTemplate hfind)]
  | ok content => rfl

/-- A script in which a template opens, and a block of a longer name closes. -/
def scriptBody : List Char := "\nlet page = '<template>'\nlet end = '</scripts>'\n".toList

/-- A script, a comment and text. -/
def scriptFront : String :=
  "<script>\nlet page = '<template>'\nlet end = '</scripts>'\n</script>\n<!--</template>-->\n"

theorem template?_front_script :
    IsFront scriptFront.toList ∧
      template? "<template>\n<Card title=" = .error ⟨2, .unterminatedTag "Card"⟩ ∧
        template? (scriptFront ++ "<template>\n<Card title=") =
          .error ⟨7, .unterminatedTag "Card"⟩ := by
  have hchars : scriptFront.toList =
      openingChars "script" [] ++ scriptBody ++ closingChars "script" ++ (['\n'] ++
        (['<', '!', '-', '-'] ++ "</template>".toList ++ ['-', '-', '>'] ++ (['\n'] ++ []))) := by
    decide +kernel
  have hfront : IsFront scriptFront.toList := by
    rw [hchars]
    refine .block (by decide +kernel) (by decide +kernel) (by decide +kernel) ?_
    refine .text (by decide) (.comment (by decide +kernel) ?_)
    exact .text (by decide) .empty
  have hrest : template? "<template>\n<Card title=" = .error ⟨2, .unterminatedTag "Card"⟩ := by
    decide +kernel
  refine ⟨hfront, hrest, ?_⟩
  have hlines : scriptFront.toList.count '\n' = 5 := by decide +kernel
  rw [template?_front hfront, hrest, hlines]
  rfl

end ComponentGraph.Markup
