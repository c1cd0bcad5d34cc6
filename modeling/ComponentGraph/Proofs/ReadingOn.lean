import ComponentGraph.Proofs.Reading
/-!
# Reading with more behind

What is read as a tag or a comment ends where it ends, whatever follows it. So a text whose tags
and comments all end in it is scanned as before when more text follows, unless its last characters
and the first of the other text begin something together; text that begins with `<` or `}` does
not go on with anything.
-/

namespace ComponentGraph.Markup

open Text (isMarkupBlank)

section Runs

variable {p : Char → Bool} {cs rest : List Char}

theorem dropWhile_append_of_eq (h : cs.dropWhile p = rest) (hne : rest ≠ []) (more : List Char) :
    (cs ++ more).dropWhile p = rest ++ more := by
  rw [List.dropWhile_append, h, if_neg (by simpa using hne)]

/-- A run that ends in a text is not made longer by what follows the text. -/
theorem takeWhile_append_of_dropWhile (h : cs.dropWhile p ≠ []) (more : List Char) :
    (cs ++ more).takeWhile p = cs.takeWhile p := by
  induction cs with
  | nil => exact absurd rfl h
  | cons c cs ih =>
    by_cases hc : p c = true
    · rw [List.dropWhile_cons_of_pos hc] at h
      rw [List.cons_append, List.takeWhile_cons_of_pos hc, List.takeWhile_cons_of_pos hc, ih h]
    · rw [List.cons_append, List.takeWhile_cons_of_neg hc, List.takeWhile_cons_of_neg hc]

end Runs

/-- What does not hold the first character of the text that follows does not reach into it. -/
theorem isPrefixOf_append {mark more : List Char} (cs : List Char)
    (hmore : ∀ d ∈ more.head?, d ∉ mark) :
    mark.isPrefixOf (cs ++ more) = mark.isPrefixOf cs := by
  induction mark generalizing cs with
  | nil => simp
  | cons m mark ih =>
    cases cs with
    | nil =>
      cases more with
      | nil => rfl
      | cons d more =>
        have hd : m ≠ d := fun heq => hmore d rfl (heq ▸ List.mem_cons_self)
        rw [List.nil_append, List.isPrefixOf_cons_cons, beq_false_of_ne hd]
        rfl
    | cons c cs =>
      rw [List.cons_append, List.isPrefixOf_cons_cons, List.isPrefixOf_cons_cons, ih]
      exact fun d hd hmem => hmore d hd (List.mem_cons_of_mem m hmem)

/-! ## Tags and comments -/

theorem readAttributeName_append_right {cs name rest : List Char}
    (h : readAttributeName cs = (name, rest)) (hne : rest ≠ []) (more : List Char) :
    readAttributeName (cs ++ more) = (name, rest ++ more) := by
  cases cs with
  | nil =>
    cases h
    exact absurd rfl hne
  | cons c cs =>
    rw [readAttributeName] at h
    rw [List.cons_append, readAttributeName]
    split at h
    · rename_i hc
      cases h
      rw [if_pos hc, dropWhile_append_of_eq rfl hne, takeWhile_append_of_dropWhile hne]
    · rename_i hc
      cases h
      rw [if_neg hc]

theorem readValue?_append_right {cs rest : List Char} {value : String}
    (h : readValue? cs = some (value, rest)) (hne : rest ≠ []) (more : List Char) :
    readValue? (cs ++ more) = some (value, rest ++ more) := by
  cases cs with
  | nil =>
    cases h
    exact absurd rfl hne
  | cons c cs =>
    rw [readValue?] at h
    rw [List.cons_append, readValue?]
    split at h
    · rename_i hquote
      rw [if_pos hquote]
      split at h
      · cases h
      · rename_i quote after hdrop
        cases h
        have hends : cs.dropWhile (· ≠ c) ≠ [] := by
          rw [hdrop]
          exact List.cons_ne_nil quote rest
        rw [dropWhile_append_of_eq hdrop (by simp), takeWhile_append_of_dropWhile hends]
        rfl
    · rename_i hquote
      cases h
      rw [if_neg hquote, ← List.cons_append, dropWhile_append_of_eq rfl hne,
        takeWhile_append_of_dropWhile hne]

theorem readAttribute?_append_right {cs rest : List Char} {a : Attribute}
    (h : readAttribute? cs = some (a, rest)) (hne : rest ≠ []) (more : List Char) :
    readAttribute? (cs ++ more) = some (a, rest ++ more) := by
  rcases hname : readAttributeName cs with ⟨name, afterName⟩
  rw [readAttribute?, hname] at h
  simp only at h
  split at h
  · rename_i after hdrop
    have hafter : afterName ≠ [] := by
      rintro rfl
      cases hdrop
    obtain ⟨⟨value, rest'⟩, hvalue, heq⟩ := Option.map_eq_some_iff.mp h
    cases heq
    have hblank : after.dropWhile isMarkupBlank ≠ [] := by
      intro hnil
      rw [hnil] at hvalue
      cases hvalue
      exact hne rfl
    rw [readAttribute?, readAttributeName_append_right hname hafter]
    simp only
    rw [dropWhile_append_of_eq hdrop (by simp), List.cons_append]
    simp only
    rw [dropWhile_append_of_eq rfl hblank, readValue?_append_right hvalue hne]
    rfl
  · rename_i hequals
    cases h
    have hafter : afterName ≠ [] := by
      rintro rfl
      exact hne rfl
    rw [readAttribute?, readAttributeName_append_right hname hafter]
    simp only
    rw [dropWhile_append_of_eq rfl hne]
    split
    · rename_i after heq
      obtain ⟨c, cs', hcons⟩ := List.exists_cons_of_ne_nil hne
      rw [hcons, List.cons_append] at heq
      obtain ⟨rfl, -⟩ := List.cons.inj heq
      exact absurd hcons (hequals cs')
    · rfl

theorem readAttributes_nil (tag : String) :
    readAttributes tag [] = .error (.unterminatedTag tag) := by
  rw [readAttributes]
  rfl

theorem readAttributes_selfClosing {tag : String} {cs rest : List Char}
    (h : cs.dropWhile isMarkupBlank = '/' :: '>' :: rest) :
    readAttributes tag cs = .ok ([], true, rest) := by
  rw [readAttributes]
  split <;> simp_all

theorem readAttributes_slash {tag : String} {cs rest : List Char}
    (h : cs.dropWhile isMarkupBlank = '/' :: rest) (hne : ∀ after, rest ≠ '>' :: after) :
    readAttributes tag cs = readAttributes tag rest := by
  rw [readAttributes]
  split
  · rename_i heq
    rw [h] at heq
    cases heq
  · rename_i heq
    rw [h] at heq
    cases heq
  · rename_i after heq
    rw [h] at heq
    exact absurd (List.cons.inj heq).2 (hne after)
  · rename_i heq
    rw [h] at heq
    rw [(List.cons.inj heq).2]
  · rename_i hslash heq
    rw [h] at heq
    exact absurd (List.cons.inj heq).1.symm hslash

/-- The attributes of a tag end with the tag, so that nothing that follows belongs to them. -/
theorem readAttributes_append_right {tag : String} {cs rest : List Char}
    {attributes : List Attribute} {selfClosing : Bool}
    (h : readAttributes tag cs = .ok (attributes, selfClosing, rest)) (more : List Char) :
    readAttributes tag (cs ++ more) = .ok (attributes, selfClosing, rest ++ more) := by
  fun_induction readAttributes tag cs generalizing attributes selfClosing rest with
  | case1 => cases h
  | case2 cs after hdrop =>
    cases h
    exact readAttributes_end (dropWhile_append_of_eq hdrop (by simp) more)
  | case3 cs after hdrop =>
    cases h
    exact readAttributes_selfClosing (dropWhile_append_of_eq hdrop (by simp) more)
  | case4 cs after hne hdrop ih =>
    have hafter : after ≠ [] := by
      rintro rfl
      rw [readAttributes_nil] at h
      cases h
    have hdrop' : (cs ++ more).dropWhile isMarkupBlank = '/' :: (after ++ more) :=
      dropWhile_append_of_eq hdrop (by simp) more
    rw [readAttributes_slash hdrop', ih h]
    intro rest' heq
    obtain ⟨c, cs', rfl⟩ := List.exists_cons_of_ne_nil hafter
    exact hne cs' (by rw [(List.cons.inj heq).1])
  | case5 => cases h
  | case6 => cases h
  | case7 cs c after hclose hself hslash hdrop a next hread attributes' selfClosing' rest' heq ih =>
    cases h
    have hnext : next ≠ [] := by
      rintro rfl
      rw [readAttributes_nil] at heq
      cases heq
    refine readAttributes_attribute (dropWhile_append_of_eq hdrop (by simp) more) ?_ ?_
      (readAttribute?_append_right hread hnext more) (ih heq)
    · exact hslash
    · exact hclose

theorem readOpenTag_append_right {cs rest : List Char} {tag : OpenTag}
    (h : readOpenTag cs = .ok (tag, rest)) (more : List Char) :
    readOpenTag (cs ++ more) = .ok (tag, rest ++ more) := by
  cases cs with
  | nil =>
    rw [readOpenTag, List.drop_nil, List.dropWhile_nil, readAttributes_nil] at h
    cases h
  | cons c cs =>
    rw [readOpenTag, List.drop_one, List.tail_cons] at h
    rw [List.cons_append, readOpenTag, List.drop_one, List.tail_cons]
    split at h
    · cases h
    · rename_i attributes selfClosing after hread
      cases h
      have hname : cs.dropWhile isNameChar ≠ [] := by
        intro hnil
        rw [hnil, readAttributes_nil] at hread
        cases hread
      rw [takeWhile_append_of_dropWhile hname, dropWhile_append_of_eq rfl hname,
        readAttributes_append_right hread]

theorem readCloseTag_append_right {cs rest : List Char} {name : String}
    (h : readCloseTag cs = .ok (name, rest)) (more : List Char) :
    readCloseTag (cs ++ more) = .ok (name, rest ++ more) := by
  rw [readCloseTag] at h
  split at h
  · cases h
  · rename_i bracket after hdrop
    cases h
    have hname : (cs.drop 2).dropWhile isNameChar ≠ [] := by
      intro hnil
      rw [hnil] at hdrop
      cases hdrop
    have hlong : 2 ≤ cs.length := by
      by_contra hshort
      rw [List.drop_eq_nil_of_le (by omega)] at hname
      exact hname rfl
    rw [readCloseTag, List.drop_append_of_le_length hlong, takeWhile_append_of_dropWhile hname,
      dropWhile_append_of_eq rfl hname, dropWhile_append_of_eq hdrop (by simp)]
    rfl

theorem length_mark_of_behind? {mark cs rest : List Char} (h : behind? mark cs = some rest) :
    mark.length ≤ cs.length := by
  induction cs with
  | nil => cases h
  | cons c cs ih =>
    rw [behind?] at h
    split at h
    · rename_i hmark
      exact (List.isPrefixOf_iff_prefix.mp hmark).length_le
    · exact Nat.le_succ_of_le (ih h)

/-- The first occurrence of a mark stays the first. -/
theorem behind?_append_right {mark cs rest : List Char} (h : behind? mark cs = some rest)
    (more : List Char) : behind? mark (cs ++ more) = some (rest ++ more) := by
  have hlength := length_mark_of_behind? h
  induction cs with
  | nil => cases h
  | cons c cs ih =>
    have hprefix : mark.isPrefixOf (c :: (cs ++ more)) = mark.isPrefixOf (c :: cs) := by
      rw [Bool.eq_iff_iff, List.isPrefixOf_iff_prefix, List.isPrefixOf_iff_prefix,
        ← List.cons_append, List.prefix_iff_eq_take, List.prefix_iff_eq_take,
        List.take_append_of_le_length hlength]
    rw [behind?] at h
    rw [List.cons_append, behind?, hprefix]
    split at h
    · rename_i hmark
      cases h
      rw [if_pos hmark, ← List.cons_append, List.drop_append_of_le_length hlength]
    · rename_i hmark
      rw [if_neg hmark]
      exact ih h (length_mark_of_behind? h)

theorem afterComment?_append_right {cs rest : List Char} (h : afterComment? cs = some rest)
    (more : List Char) : afterComment? (cs ++ more) = some (rest ++ more) := by
  have hlong : 4 ≤ cs.length := by
    by_contra hshort
    rw [afterComment?, List.drop_eq_nil_of_le (by omega)] at h
    cases h
  rw [afterComment?, List.drop_append_of_le_length hlong]
  exact behind?_append_right h more

/-- Scanned as a block, the text has tags with these marks and then goes on as the rest. -/
def ReadsTo (text : List Char) (marks : List Mark) (rest : List Char) : Prop :=
  ∃ tokens, tokens.map Token.mark = marks ∧ scan .block text = (scan .block rest).prepend tokens

theorem ReadsTo.refl (text : List Char) : ReadsTo text [] text := ⟨[], rfl, rfl⟩

theorem ReadsTo.trans {text middle rest : List Char} {marks others : List Mark}
    (h : ReadsTo text marks middle) (hmiddle : ReadsTo middle others rest) :
    ReadsTo text (marks ++ others) rest := by
  obtain ⟨tokens, rfl, hscan⟩ := h
  obtain ⟨tokens', rfl, hscan'⟩ := hmiddle
  exact ⟨tokens ++ tokens', List.map_append, by rw [hscan, hscan', Scan.prepend_prepend]⟩

/-- Only how the texts are scanned matters. -/
theorem ReadsTo.congr {text text' rest rest' : List Char} {marks : List Mark}
    (htext : scan .block text = scan .block text') (hrest : scan .block rest' = scan .block rest)
    (h : ReadsTo text' marks rest') : ReadsTo text marks rest := by
  rwa [ReadsTo, htext, ← hrest]

theorem readsTo_closing {text rest : List Char} {name : String} (hbegin : beginning text = .closing)
    (hread : readCloseTag text = .ok (name, rest)) : ReadsTo text [.closing name] rest :=
  ⟨_, rfl, scan_closing hbegin hread⟩

theorem readsTo_opening {text rest : List Char} {tag : OpenTag} (hbegin : beginning text = .opening)
    (hread : readOpenTag text = .ok (tag, rest)) : ReadsTo text [.opening tag] rest :=
  ⟨_, rfl, scan_opening hbegin hread rfl⟩

/-! ## Where texts meet -/

theorem beginning_text {c : Char} (hangle : c ≠ '<') (hbrace : c ≠ '{') (cs : List Char) :
    beginning (c :: cs) = .other := by
  rcases beginning_of_ne hangle cs with hother | ⟨heq, -⟩
  · exact hother
  · exact absurd heq hbrace

theorem beginning_bang (cs : List Char) :
    beginning ('<' :: '!' :: cs) = if ['-', '-'].isPrefixOf cs then .comment else .other := by
  unfold beginning
  split
  · rename_i heq
    cases heq
    rfl
  · rename_i heq
    cases heq
  · rename_i hcomment _ heq
    cases heq
    have hdash : ¬ ['-', '-'].isPrefixOf cs = true := by
      rw [List.isPrefixOf_iff_prefix]
      rintro ⟨tail, rfl⟩
      exact hcomment tail rfl rfl
    rw [if_neg hdash]
    rfl
  · rename_i heq
    cases heq
  · rename_i hne _
    exact absurd rfl (hne '!' cs)

theorem beginning_slash (cs : List Char) :
    beginning ('<' :: '/' :: cs) = if cs.head?.any Char.isAlpha then .closing else .other := by
  rcases cs with _ | ⟨c, cs⟩
  · rfl
  · rw [beginning]
    rfl

theorem beginning_angle {c : Char} (hbang : c ≠ '!') (hslash : c ≠ '/') (cs : List Char) :
    beginning ('<' :: c :: cs) = if c.isAlpha then .opening else .other := by
  rw [beginning.eq_def]
  split <;> simp_all

theorem beginning_brace (cs : List Char) :
    beginning ('{' :: cs) = if ['{'].isPrefixOf cs then .interpolation else .other := by
  unfold beginning
  split
  · rename_i heq
    cases heq
  · rename_i heq
    cases heq
  · rename_i heq
    cases heq
  · rename_i heq
    cases heq
    rfl
  · rename_i hbrace
    have hne : ¬ ['{'].isPrefixOf cs = true := by
      rw [List.isPrefixOf_iff_prefix]
      rintro ⟨tail, rfl⟩
      exact hbrace tail rfl
    rw [if_neg hne]

section Meeting

variable {more : List Char} (hmore : ∀ c ∈ more.head?, c = '<' ∨ c = '}')

include hmore

/-- Text that begins with `<` or `}` does not go on with what stands before it. -/
theorem beginning_append (c : Char) (cs : List Char) :
    beginning (c :: cs ++ more) = beginning (c :: cs) := by
  have hfirst : ∀ d ∈ more.head?, d ∉ ['-', '-'] ∧ d ∉ ['{'] ∧ d.isAlpha = false := by
    intro d hd
    rcases hmore d hd with rfl | rfl <;> decide
  rw [List.cons_append]
  by_cases hangle : c = '<'
  · rw [hangle]
    rcases cs with _ | ⟨c, cs⟩
    · cases more with
      | nil => rfl
      | cons d more => rcases hmore d rfl with rfl | rfl <;> rfl
    · rw [List.cons_append]
      by_cases hbang : c = '!'
      · rw [hbang, beginning_bang, beginning_bang, isPrefixOf_append cs fun d hd => (hfirst d hd).1]
      · by_cases hslash : c = '/'
        · have hhead : (cs ++ more).head?.any Char.isAlpha = cs.head?.any Char.isAlpha := by
            cases cs with
            | cons => rfl
            | nil =>
              cases more with
              | nil => rfl
              | cons d more => exact (hfirst d rfl).2.2
          rw [hslash, beginning_slash, beginning_slash, hhead]
        · rw [beginning_angle hbang hslash, beginning_angle hbang hslash]
  · by_cases hbrace : c = '{'
    · rw [hbrace, beginning_brace, beginning_brace,
        isPrefixOf_append cs fun d hd => (hfirst d hd).2.1]
    · rw [beginning_text hangle hbrace, beginning_text hangle hbrace]

/-- A text whose tags and comments all end in it is scanned as before. -/
theorem readsTo_append {text : List Char} (hproblem : (scan .block text).problem = none) :
    ReadsTo (text ++ more) ((scan .block text).tokens.map Token.mark) more := by
  generalize hscope : Scope.block = scope at hproblem
  fun_induction scan scope text with
  | case1 => exact ReadsTo.refl more
  | case2 => cases hproblem
  | case3 scope c cs hbegin rest hrest ih =>
    have hbegin' := (beginning_append hmore c cs).trans hbegin
    have hrest' := afterComment?_append_right hrest more
    exact .congr (scan_comment hbegin' hrest') rfl (ih hscope hproblem)
  | case4 => cases hscope
  | case5 c cs hbegin ih =>
    have hbegin' := (beginning_append hmore c cs).trans hbegin
    exact .congr (scan_block_interpolation hbegin') rfl (ih hscope hproblem)
  | case6 => cases hproblem
  | case7 scope c cs hbegin name rest hread ih =>
    have hbegin' := (beginning_append hmore c cs).trans hbegin
    have hread' := readCloseTag_append_right hread more
    exact (readsTo_closing hbegin' hread').trans (ih hscope hproblem)
  | case8 => cases hproblem
  | case9 => cases hproblem
  | case10 scope c cs hbegin tag rest hread after hafter ih =>
    have hbegin' := (beginning_append hmore c cs).trans hbegin
    have hread' := readOpenTag_append_right hread more
    subst hscope
    cases hafter
    exact (readsTo_opening hbegin' hread').trans (ih rfl hproblem)
  | case11 scope c cs hbegin ih =>
    have hbegin' := (beginning_append hmore c cs).trans hbegin
    exact .congr (scan_other hbegin') rfl (ih hscope hproblem)

end Meeting

end ComponentGraph.Markup
