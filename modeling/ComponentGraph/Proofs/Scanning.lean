import ComponentGraph.Markup.Token
/-!
# Steps of the scanner

What begins at a place decides how scanning goes on there: one equation for each kind of beginning,
as long as what begins there also ends.
-/

namespace ComponentGraph.Markup

/-! ## What begins at a place -/

theorem beginning_opening {c : Char} (h : c.isAlpha = true) (cs : List Char) :
    beginning ('<' :: c :: cs) = .opening := by
  unfold beginning
  split
  · rename_i heq
    cases heq
    cases h
  · rename_i heq
    cases heq
    cases h
  · rename_i heq
    cases heq
    exact if_pos h
  · rename_i heq
    cases heq
  · rename_i hne _
    exact absurd rfl (hne c cs)

theorem beginning_closing {c : Char} (h : c.isAlpha = true) (cs : List Char) :
    beginning ('<' :: '/' :: c :: cs) = .closing := by
  rw [beginning, if_pos h]

theorem beginning_of_ne {c : Char} (h : c ≠ '<') (cs : List Char) :
    beginning (c :: cs) = .other ∨ c = '{' ∧ beginning (c :: cs) = .interpolation := by
  unfold beginning
  split <;> simp_all

theorem beginning_eq (rest : List Char) :
    beginning rest =
      if ['<', '!', '-', '-'].isPrefixOf rest then .comment
      else if ['{', '{'].isPrefixOf rest then .interpolation
      else if ['<', '/'].isPrefixOf rest && (rest.drop 2).head?.any Char.isAlpha then .closing
      else if decide (rest.head? = some '<') && (rest.drop 1).head?.any Char.isAlpha then .opening
      else .other := by
  unfold beginning
  split
  · rfl
  · simp [List.isPrefixOf]
  · rename_i c cs hcomment hclosing
    have hnocomment : ¬ ('!' = c ∧ ['-', '-'] <+: cs) := by
      rintro ⟨rfl, tail, rfl⟩
      exact hcomment tail rfl rfl
    have hnoclosing : ¬ ('/' = c ∧ cs.head?.any Char.isAlpha = true) := by
      rintro ⟨rfl, halpha⟩
      obtain ⟨d, hd, -⟩ := (Option.any_eq_true _ _).mp halpha
      obtain ⟨tail, rfl⟩ := List.head?_eq_some_iff.mp hd
      exact hclosing d tail rfl rfl
    simp [List.isPrefixOf, hnocomment, hnoclosing]
  · simp [List.isPrefixOf]
  · rename_i hcomment hclosing hangle hbrace
    rcases rest with _ | ⟨c, _ | ⟨d, tail⟩⟩
    · rfl
    · simp [List.isPrefixOf]
    · have hc : c ≠ '<' := by
        rintro rfl
        exact hangle d tail rfl
      have hnobrace : ¬ ('{' = c ∧ '{' = d) := by
        rintro ⟨rfl, rfl⟩
        exact hbrace tail rfl
      simp [List.isPrefixOf, hc, hc.symm, hnobrace]

theorem eq_of_beginning_comment {text : List Char} (h : beginning text = .comment) :
    ∃ cs, text = '<' :: '!' :: '-' :: '-' :: cs := by
  unfold beginning at h
  split at h
  · rename_i cs
    exact ⟨cs, rfl⟩
  · split at h <;> cases h
  · split at h <;> cases h
  · cases h
  · cases h

theorem eq_of_beginning_interpolation {text : List Char} (h : beginning text = .interpolation) :
    ∃ cs, text = '{' :: '{' :: cs := by
  unfold beginning at h
  split at h
  · cases h
  · split at h <;> cases h
  · split at h <;> cases h
  · rename_i cs
    exact ⟨cs, rfl⟩
  · cases h

theorem eq_of_beginning_closing {text : List Char} (h : beginning text = .closing) :
    ∃ cs, text = '<' :: '/' :: cs := by
  unfold beginning at h
  split at h
  · cases h
  · exact ⟨_, rfl⟩
  · split at h <;> cases h
  · cases h
  · cases h

theorem eq_of_beginning_opening {text : List Char} (h : beginning text = .opening) :
    ∃ cs, text = '<' :: cs := by
  unfold beginning at h
  split at h
  · cases h
  · split at h <;> cases h
  · exact ⟨_, rfl⟩
  · cases h
  · cases h

/-! ## How scanning goes on -/

def Scan.prepend (tokens : List Token) (s : Scan) : Scan := ⟨tokens ++ s.tokens, s.problem⟩

theorem Scan.prepend_prepend (tokens more : List Token) (s : Scan) :
    (s.prepend more).prepend tokens = s.prepend (tokens ++ more) := by
  simp [prepend]

theorem scan_nil (scope : Scope) : scan scope [] = ⟨[], none⟩ := by
  rw [scan]

theorem scan_other {scope : Scope} {c : Char} {cs : List Char}
    (h : beginning (c :: cs) = .other) : scan scope (c :: cs) = scan scope cs := by
  rw [scan.eq_def]
  simp only [h]

theorem scan_block_interpolation {c : Char} {cs : List Char}
    (h : beginning (c :: cs) = .interpolation) : scan .block (c :: cs) = scan .block cs := by
  rw [scan.eq_def]
  simp only [h]

theorem scan_template_interpolation {text : List Char} (h : beginning text = .interpolation) :
    scan .template text = scan .template (afterInterpolation text) := by
  cases text with
  | nil => cases h
  | cons c cs =>
    rw [scan.eq_def]
    simp only [h]

theorem scan_comment {scope : Scope} {text rest : List Char} (h : beginning text = .comment)
    (hrest : afterComment? text = some rest) : scan scope text = scan scope rest := by
  cases text with
  | nil => cases h
  | cons c cs =>
    rw [scan.eq_def]
    simp only [h]
    split <;> simp_all

theorem scan_closing {scope : Scope} {text rest : List Char} {name : String}
    (h : beginning text = .closing) (hread : readCloseTag text = .ok (name, rest)) :
    scan scope text = (scan scope rest).prepend [.closing name text] := by
  cases text with
  | nil => cases h
  | cons c cs =>
    rw [scan.eq_def]
    simp only [h]
    split <;> simp_all [Scan.cons, Scan.prepend]

theorem scan_opening {scope : Scope} {text rest after : List Char} {tag : OpenTag}
    (h : beginning text = .opening) (hread : readOpenTag text = .ok (tag, rest))
    (hafter : afterOpening scope tag text rest = .ok after) :
    scan scope text = (scan scope after).prepend [.opening tag text] := by
  cases text with
  | nil => cases h
  | cons c cs =>
    rw [scan.eq_def]
    simp only [h]
    split
    · simp_all
    · rename_i heq
      rw [hread] at heq
      cases heq
      split <;> simp_all [Scan.cons, Scan.prepend]

theorem scan_comment_stop {scope : Scope} {text : List Char} (h : beginning text = .comment)
    (hrest : afterComment? text = none) :
    scan scope text = .stop .unterminatedComment text := by
  cases text with
  | nil => cases h
  | cons c cs =>
    rw [scan.eq_def]
    simp only [h]
    split <;> simp_all

theorem scan_closing_stop {scope : Scope} {text : List Char} {fault : Fault}
    (h : beginning text = .closing) (hread : readCloseTag text = .error fault) :
    scan scope text = .stop fault text := by
  cases text with
  | nil => cases h
  | cons c cs =>
    rw [scan.eq_def]
    simp only [h]
    split <;> simp_all

theorem scan_opening_stop {scope : Scope} {text : List Char} {fault : Fault}
    (h : beginning text = .opening) (hread : readOpenTag text = .error fault) :
    scan scope text = .stop fault text := by
  cases text with
  | nil => cases h
  | cons c cs =>
    rw [scan.eq_def]
    simp only [h]
    split <;> simp_all

/-- The tag of a raw text element that is not closed is a token, too. -/
theorem scan_opening_problem {scope : Scope} {text rest : List Char} {tag : OpenTag}
    {problem : Problem} (h : beginning text = .opening) (hread : readOpenTag text = .ok (tag, rest))
    (hafter : afterOpening scope tag text rest = .error problem) :
    scan scope text = ⟨[.opening tag text], some problem⟩ := by
  cases text with
  | nil => cases h
  | cons c cs =>
    rw [scan.eq_def]
    simp only [h]
    split
    · simp_all
    · rename_i heq
      rw [hread] at heq
      cases heq
      split <;> simp_all

/-- Text without tags is passed over, and in a block its interpolations as well. -/
theorem scan_text {scope : Scope} {cs : List Char} (htag : ∀ c ∈ cs, c ≠ '<')
    (hbrace : scope = .template → ∀ c ∈ cs, c ≠ '{') (rest : List Char) :
    scan scope (cs ++ rest) = scan scope rest := by
  induction cs with
  | nil => rfl
  | cons c cs ih =>
    have hcs := ih (fun d hd => htag d (List.mem_cons_of_mem _ hd))
      fun hscope d hd => hbrace hscope d (List.mem_cons_of_mem _ hd)
    rw [List.cons_append]
    rcases beginning_of_ne (htag c List.mem_cons_self) (cs ++ rest) with hother | ⟨hc, hinter⟩
    · rw [scan_other hother, hcs]
    · cases scope with
      | template => exact absurd hc (hbrace rfl c List.mem_cons_self)
      | block => rw [scan_block_interpolation hinter, hcs]

end ComponentGraph.Markup
