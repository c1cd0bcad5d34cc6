import ComponentGraph.Markup.Block
import ComponentGraph.Proofs.Grammar
import ComponentGraph.Proofs.Reading
/-!
# Template tags

Of the tags in a template block only those named `template` count for where it ends. Tags that
close every template tag that they open, and no other, make no difference to that, and the tags of
a balanced forest are such tags.
-/

namespace ComponentGraph.Markup

/-! ## Counting -/

/-- The number of template tags that are open behind the tags, if `depth` are open in front of
them. There is none if more are closed than are open. -/
def templateDepth? (depth : Nat) : List Mark → Option Nat
  | [] => some depth
  | .opening tag :: rest => templateDepth? (if tag.opensTemplate then depth + 1 else depth) rest
  | .closing name :: rest =>
    if isTemplateName name then
      match depth with
      | 0 => none
      | depth + 1 => templateDepth? depth rest
    else templateDepth? depth rest

theorem templateDepth?_append (depth : Nat) (marks others : List Mark) :
    templateDepth? depth (marks ++ others) =
      (templateDepth? depth marks).bind (templateDepth? · others) := by
  fun_induction templateDepth? depth marks with
  | case1 => rfl
  | case2 depth tag marks ih => rw [List.cons_append, templateDepth?, ih]
  | case3 name marks hname =>
    rw [List.cons_append, templateDepth?, if_pos hname]
    rfl
  | case4 name marks hname depth ih =>
    rw [List.cons_append, templateDepth?, if_pos hname]
    exact ih
  | case5 depth name marks hname ih =>
    rw [List.cons_append, templateDepth?.eq_def]
    simp only [if_neg hname]
    exact ih

/-- Template tags that are open already do not change what is counted. -/
theorem templateDepth?_add {depth depth' : Nat} {marks : List Mark}
    (h : templateDepth? depth marks = some depth') (more : Nat) :
    templateDepth? (depth + more) marks = some (depth' + more) := by
  fun_induction templateDepth? depth marks with
  | case1 =>
    cases h
    rfl
  | case2 depth tag marks ih =>
    rw [templateDepth?, ← ih h]
    congr 1
    split
    · exact Nat.add_right_comm depth more 1
    · rfl
  | case3 => cases h
  | case4 name marks hname depth ih =>
    have hdepth : depth + 1 + more = depth + more + 1 := Nat.add_right_comm depth 1 more
    rw [Nat.succ_eq_add_one, hdepth, templateDepth?, if_pos hname]
    exact ih h
  | case5 depth name marks hname ih =>
    rw [templateDepth?.eq_def]
    simp only [if_neg hname]
    exact ih h

/-- Tags in front do not matter to a difference that the count does not see. -/
theorem templateDepth?_append_congr (front : List Mark) {marks others : List Mark}
    (h : ∀ depth, templateDepth? depth marks = templateDepth? depth others) (depth : Nat) :
    templateDepth? depth (front ++ marks) = templateDepth? depth (front ++ others) := by
  rw [templateDepth?_append, templateDepth?_append]
  simp only [h]

/-- Tokens do not close the block while their template tags are balanced. -/
theorem matchingClose?_append {depth depth' : Nat} {tokens : List Token}
    (h : templateDepth? depth (tokens.map Token.mark) = some depth') (rest : List Token) :
    matchingClose? depth (tokens ++ rest) = matchingClose? depth' rest := by
  fun_induction matchingClose? depth tokens with
  | case1 depth =>
    cases h
    rfl
  | case2 depth tag place tokens htag ih =>
    rw [List.map_cons, Token.mark, templateDepth?, if_pos htag] at h
    rw [List.cons_append, matchingClose?, if_pos htag, ih h]
  | case3 depth tag place tokens htag ih =>
    rw [List.map_cons, Token.mark, templateDepth?, if_neg htag] at h
    rw [List.cons_append, matchingClose?, if_neg htag, ih h]
  | case4 name place tokens hname =>
    rw [List.map_cons, Token.mark, templateDepth?, if_pos hname] at h
    cases h
  | case5 name place tokens hname depth ih =>
    rw [List.map_cons, Token.mark, templateDepth?, if_pos hname] at h
    rw [List.cons_append, matchingClose?, if_pos hname]
    exact ih h
  | case6 depth name place tokens hname ih =>
    rw [List.map_cons, Token.mark, templateDepth?.eq_def] at h
    simp only [if_neg hname] at h
    rw [List.cons_append, matchingClose?.eq_def]
    simp only [if_neg hname]
    exact ih h

/-! ## Level marks -/

/-- The marks leave as many template tags open as there were. -/
def IsLevel (marks : List Mark) : Prop := ∀ depth, templateDepth? depth marks = some depth

theorem IsLevel.nil : IsLevel [] := fun _ => rfl

theorem IsLevel.append {marks others : List Mark} (h : IsLevel marks) (hothers : IsLevel others) :
    IsLevel (marks ++ others) := by
  intro depth
  rw [templateDepth?_append, h, Option.bind_some, hothers]

theorem isLevel_opening {tag : OpenTag} (h : tag.opensTemplate = false) :
    IsLevel [.opening tag] := by
  intro depth
  rw [templateDepth?, h]
  rfl

theorem isLevel_closing {name : String} (h : isTemplateName name = false) :
    IsLevel [.closing name] := by
  intro depth
  rw [templateDepth?.eq_def]
  simp only [h]
  rfl

/-- A template tag opens a level for what is in it and closes it again; another tag does neither. -/
theorem isLevel_enclosed {tag : OpenTag} {name : String} {inner : List Mark}
    (hname : tag.opensTemplate = isTemplateName name) (h : IsLevel inner) :
    IsLevel (.opening tag :: (inner ++ [.closing name])) := by
  by_cases htemplate : isTemplateName name = true
  · intro depth
    rw [templateDepth?, hname, if_pos htemplate, templateDepth?_append, h, Option.bind_some,
      templateDepth?, if_pos htemplate]
    rfl
  · have hclosing := isLevel_closing (eq_false_of_ne_true htemplate)
    rw [eq_false_of_ne_true htemplate] at hname
    exact (isLevel_opening hname).append (h.append hclosing)

/-! ## Balanced forests -/

theorem isTemplateName_eq_false_of_isVoid {name : String} (h : Tag.isVoid name = true) :
    isTemplateName name = false := by
  apply decide_eq_false
  intro hsame
  rw [isVoid_eq_of_sameLetters hsame] at h
  exact absurd h (by decide +kernel)

theorem head_rawText {tag : OpenTag} (h : tag.isRawText = true) :
    (tag.name.toList.map Char.toLower).head? = some 's' := by
  rw [OpenTag.isRawText, Bool.or_eq_true, decide_eq_true_eq, decide_eq_true_eq] at h
  rcases h with hname | hname
  · rw [hname]
    decide +kernel
  · rw [hname]
    decide +kernel

theorem head_template {name : String} (h : isTemplateName name = true) :
    (name.toList.map Char.toLower).head? = some 't' := by
  have hfold : Text.foldCase name = Text.foldCase "template" := of_decide_eq_true h
  rw [Text.foldCase, Text.foldCase, String.ofList_inj] at hfold
  rw [hfold]
  decide +kernel

theorem isTemplateName_eq_false_of_isRawText {tag : OpenTag} (h : tag.isRawText = true) :
    isTemplateName tag.name = false := by
  apply eq_false_of_ne_true
  intro htemplate
  have hinitial := head_rawText h
  rw [head_template htemplate] at hinitial
  cases hinitial

theorem opensTemplate_eq_false_of_isLeaf {tag : OpenTag} (h : tag.isLeaf = true) :
    tag.opensTemplate = false := by
  rw [OpenTag.isLeaf, Bool.or_eq_true, Bool.or_eq_true] at h
  rcases h with (hself | hvoid) | hraw
  · rw [OpenTag.opensTemplate, hself, Bool.not_true, Bool.and_false]
  · rw [OpenTag.opensTemplate, isTemplateName_eq_false_of_isVoid hvoid, Bool.false_and]
  · rw [OpenTag.opensTemplate, isTemplateName_eq_false_of_isRawText hraw, Bool.false_and]

theorem isTemplateName_eq_of_sameLetters {s t : String} (h : Text.SameLetters s t) :
    isTemplateName s = isTemplateName t := by
  have hfold : Text.foldCase s = Text.foldCase t := h
  rw [isTemplateName, isTemplateName, decide_eq_decide, Text.SameLetters, Text.SameLetters, hfold]

theorem IsForest.isLevel {tokens : List Token} (h : IsForest tokens) :
    IsLevel (tokens.map Token.mark) := by
  induction h with
  | empty => exact IsLevel.nil
  | leaf hleaf _ ih => exact (isLevel_opening (opensTemplate_eq_false_of_isLeaf hleaf)).append ih
  | strayVoid hvoid _ ih =>
    exact (isLevel_closing (isTemplateName_eq_false_of_isVoid hvoid)).append ih
  | @element tag name place close inner rest hleaf _ hsame _ ihInner ihRest =>
    have hname : tag.opensTemplate = isTemplateName name := by
      simp only [OpenTag.isLeaf, Bool.or_eq_false_iff] at hleaf
      rw [OpenTag.opensTemplate, hleaf.1.1, isTemplateName_eq_of_sameLetters hsame, Bool.not_false,
        Bool.and_true]
    have hlevel := (isLevel_enclosed hname ihInner).append ihRest
    simpa [Token.mark] using hlevel

end ComponentGraph.Markup
