import ComponentGraph.Proofs.ReadingOn
/-!
# The layout of tags

What a tag is made of, and where it ends: a name, attributes with their values, blanks and slashes.
Each rule relates a text to what is left of it, and what is left is what the reader of tags leaves.
-/

namespace ComponentGraph.Markup

open Text (isMarkupBlank)

/-! ## Runs of characters -/

/-- The characters of the run have the property, and the one behind it has not. -/
structure IsRun (p : Char → Bool) (run rest : List Char) : Prop where
  holds : ∀ c ∈ run, p c = true
  ends : ∀ c ∈ rest.head?, p c = false

section Runs

variable {p : Char → Bool} {run rest : List Char}

theorem IsRun.dropWhile_eq (h : IsRun p run rest) : (run ++ rest).dropWhile p = rest := by
  rw [List.dropWhile_append_of_pos h.holds]
  cases rest with
  | nil => rfl
  | cons c rest => exact List.dropWhile_cons_of_neg (ne_true_of_eq_false (h.ends c rfl))

theorem IsRun.takeWhile_eq (h : IsRun p run rest) : (run ++ rest).takeWhile p = run := by
  rw [List.takeWhile_append_of_pos h.holds]
  cases rest with
  | nil => exact List.append_nil run
  | cons c rest =>
    rw [List.takeWhile_cons_of_neg (ne_true_of_eq_false (h.ends c rfl)), List.append_nil]

theorem isRun_takeWhile (p : Char → Bool) (cs : List Char) :
    IsRun p (cs.takeWhile p) (cs.dropWhile p) := by
  refine ⟨fun c hc => List.all_eq_true.mp List.all_takeWhile c hc, fun c hc => ?_⟩
  have hhead := List.head?_dropWhile_not p cs
  rw [Option.mem_def.mp hc] at hhead
  simpa using hhead

theorem exists_isRun (p : Char → Bool) (cs : List Char) :
    ∃ run, cs = run ++ cs.dropWhile p ∧ IsRun p run (cs.dropWhile p) :=
  ⟨cs.takeWhile p, List.takeWhile_append_dropWhile.symm, isRun_takeWhile p cs⟩

/-- The characters in front of the first one of a kind. -/
theorem isRun_ne_iff {c : Char} : IsRun (· ≠ c) run (c :: rest) ↔ c ∉ run := by
  constructor
  · intro h hmem
    simpa using h.holds c hmem
  · exact fun h => ⟨fun d hd => decide_eq_true fun heq => h (heq ▸ hd), by simp⟩

theorem exists_of_dropWhile_ne {c d : Char} {cs : List Char}
    (h : cs.dropWhile (· ≠ c) = d :: rest) : ∃ run, cs = run ++ c :: rest ∧ c ∉ run := by
  obtain ⟨run, hchars, hrun⟩ := exists_isRun (· ≠ c) cs
  rw [h] at hchars hrun
  obtain rfl : d = c := by simpa using hrun.ends d rfl
  exact ⟨run, hchars, isRun_ne_iff.mp hrun⟩

end Runs

/-! ## Attributes -/

/-- The value of an attribute: in quotes of either kind, or without quotes. -/
inductive IsValue : List Char → List Char → Prop
  | quoted {q : Char} {v rest : List Char} : q = '"' ∨ q = '\'' → q ∉ v →
      IsValue (q :: (v ++ q :: rest)) rest
  | plain {v rest : List Char} : (∀ c ∈ (v ++ rest).head?, c ≠ '"' ∧ c ≠ '\'') →
      IsRun isUnquotedChar v rest → IsValue (v ++ rest) rest

theorem isValue_iff {cs rest : List Char} :
    IsValue cs rest ↔ ∃ value, readValue? cs = some (value, rest) := by
  constructor
  · rintro (⟨hq, hv⟩ | ⟨hhead, hrun⟩)
    · rename_i q v
      have hrun : IsRun (· ≠ q) v (q :: rest) := isRun_ne_iff.mpr hv
      refine ⟨String.ofList v, ?_⟩
      rw [readValue?, if_pos (by simpa using hq), hrun.dropWhile_eq, hrun.takeWhile_eq]
    · rename_i v
      cases hcs : v ++ rest with
      | nil =>
        obtain ⟨rfl, rfl⟩ := List.append_eq_nil_iff.mp hcs
        exact ⟨"", rfl⟩
      | cons c cs =>
        have hc := hhead c (by rw [hcs]; rfl)
        refine ⟨String.ofList v, ?_⟩
        rw [readValue?, if_neg (by simp [hc]), ← hcs, hrun.dropWhile_eq, hrun.takeWhile_eq]
  · rintro ⟨value, h⟩
    cases cs with
    | nil =>
      cases h
      exact .plain (v := []) (by simp) ⟨by simp, by simp⟩
    | cons c cs =>
      rw [readValue?] at h
      split at h
      · rename_i hquote
        split at h
        · cases h
        · rename_i hdrop
          cases h
          obtain ⟨v, rfl, hv⟩ := exists_of_dropWhile_ne hdrop
          exact .quoted (by simpa using hquote) hv
      · rename_i hquote
        cases h
        obtain ⟨v, hchars, hrun⟩ := exists_isRun isUnquotedChar (c :: cs)
        have hhead : ∀ d ∈ (c :: cs).head?, d ≠ '"' ∧ d ≠ '\'' := by
          simpa [not_or] using hquote
        rw [hchars] at hhead
        have hvalue := IsValue.plain hhead hrun
        rwa [← hchars] at hvalue

/-- The name of an attribute is as long as it can be; an equals sign in its place is a name, too. -/
def IsAttributeName (name rest : List Char) : Prop :=
  name = ['='] ∨ name ≠ [] ∧ IsRun isAttributeNameChar name rest

theorem isAttributeName_iff {c : Char} (hc : isNameChar c = true) {cs name rest : List Char} :
    c :: cs = name ++ rest ∧ IsAttributeName name rest ↔
      readAttributeName (c :: cs) = (name, rest) := by
  constructor
  · rintro ⟨hchars, rfl | ⟨hne, hrun⟩⟩
    · obtain ⟨rfl, rfl⟩ := List.cons.inj hchars
      rfl
    · rw [hchars]
      exact readAttributeName_append hne hrun.holds hrun.ends
  · intro h
    rw [readAttributeName] at h
    split at h
    · rename_i hname
      cases h
      refine ⟨by rw [List.cons_append, List.takeWhile_append_dropWhile], .inr ⟨by simp, ?_, ?_⟩⟩
      · exact List.forall_mem_cons.mpr ⟨hname, (isRun_takeWhile _ cs).holds⟩
      · exact (isRun_takeWhile _ cs).ends
    · rename_i hname
      cases h
      have heq : c = '=' := by
        rw [isAttributeNameChar, hc, Bool.true_and, decide_eq_true_eq] at hname
        exact not_not.mp hname
      exact ⟨rfl, .inl (by rw [heq])⟩

/-- Behind the name of an attribute there may be an equals sign and a value. -/
inductive AfterName : List Char → List Char → Prop
  | flag {blanks rest : List Char} : IsRun isMarkupBlank blanks rest → rest.head? ≠ some '=' →
      AfterName (blanks ++ rest) rest
  | value {blanks more cs rest : List Char} : (∀ c ∈ blanks, isMarkupBlank c = true) →
      IsRun isMarkupBlank more cs → IsValue cs rest → AfterName (blanks ++ '=' :: (more ++ cs)) rest

/-- An attribute and what is left behind it. -/
def IsAttribute (cs rest : List Char) : Prop :=
  ∃ name more, (cs = name ++ more ∧ IsAttributeName name more) ∧ AfterName more rest

theorem isAttribute_iff {c : Char} (hc : isNameChar c = true) {cs rest : List Char} :
    IsAttribute (c :: cs) rest ↔ ∃ a, readAttribute? (c :: cs) = some (a, rest) := by
  constructor
  · rintro ⟨name, more, hname, hafter⟩
    rw [readAttribute?, (isAttributeName_iff hc).mp hname]
    cases hafter with
    | flag hblanks hequals =>
      simp only [hblanks.dropWhile_eq]
      split
      · exact absurd rfl hequals
      · exact ⟨_, rfl⟩
    | @value blanks more cs rest hblanks hmore hvalue =>
      have hrun : IsRun isMarkupBlank blanks ('=' :: (more ++ cs)) :=
        ⟨hblanks, by simp [isMarkupBlank]⟩
      obtain ⟨v, hv⟩ := isValue_iff.mp hvalue
      simp only [hrun.dropWhile_eq, hmore.dropWhile_eq, hv]
      exact ⟨_, rfl⟩
  · rintro ⟨a, h⟩
    rcases hname : readAttributeName (c :: cs) with ⟨name, more⟩
    refine ⟨name, more, (isAttributeName_iff hc).mpr hname, ?_⟩
    obtain ⟨blanks, hmore, hblanks⟩ := exists_isRun isMarkupBlank more
    rw [readAttribute?, hname] at h
    simp only at h
    generalize more.dropWhile isMarkupBlank = after at h hmore hblanks
    subst hmore
    split at h
    · rename_i behind
      obtain ⟨⟨v, rest'⟩, hv, heq⟩ := Option.map_eq_some_iff.mp h
      cases heq
      obtain ⟨blanks', hbehind, hblanks'⟩ := exists_isRun isMarkupBlank behind
      rw [hbehind]
      exact .value hblanks.holds hblanks' (isValue_iff.mpr ⟨v, hv⟩)
    · rename_i hequals
      cases h
      refine .flag hblanks fun hhead => ?_
      obtain ⟨behind, hbehind⟩ := List.head?_eq_some_iff.mp hhead
      exact hequals behind hbehind

/-! ## Opening tags -/

/-- What is left of a tag behind its name or an attribute, and whether it closes itself. A slash
that does not close it means nothing. -/
inductive TagRest : Bool → List Char → List Char → Prop
  | close {rest : List Char} : TagRest false ('>' :: rest) rest
  | selfClose {rest : List Char} : TagRest true ('/' :: '>' :: rest) rest
  | blank {selfClosing : Bool} {c : Char} {cs rest : List Char} : isMarkupBlank c = true →
      TagRest selfClosing cs rest → TagRest selfClosing (c :: cs) rest
  | slash {selfClosing : Bool} {cs rest : List Char} : cs.head? ≠ some '>' →
      TagRest selfClosing cs rest → TagRest selfClosing ('/' :: cs) rest
  | attr {selfClosing : Bool} {c : Char} {cs more rest : List Char} : isNameChar c = true →
      IsAttribute (c :: cs) more → TagRest selfClosing more rest →
        TagRest selfClosing (c :: cs) rest

theorem TagRest.of_blanks {selfClosing : Bool} {cs rest : List Char}
    (h : TagRest selfClosing (cs.dropWhile isMarkupBlank) rest) : TagRest selfClosing cs rest := by
  induction cs with
  | nil => exact h
  | cons c cs ih =>
    by_cases hc : isMarkupBlank c = true
    · rw [List.dropWhile_cons_of_pos hc] at h
      exact .blank hc (ih h)
    · rwa [List.dropWhile_cons_of_neg hc] at h

theorem tagRest_iff (tag : String) {selfClosing : Bool} {cs rest : List Char} :
    TagRest selfClosing cs rest ↔
      ∃ attributes, readAttributes tag cs = .ok (attributes, selfClosing, rest) := by
  constructor
  · intro h
    induction h with
    | close => exact ⟨[], readAttributes_end rfl⟩
    | selfClose => exact ⟨[], readAttributes_selfClosing rfl⟩
    | blank hc _ ih =>
      rwa [readAttributes_congr (List.dropWhile_cons_of_pos hc)]
    | slash hne _ ih =>
      rw [readAttributes_slash rfl]
      · exact ih
      · rintro after rfl
        exact hne rfl
    | attr hc hattribute _ ih =>
      obtain ⟨a, ha⟩ := (isAttribute_iff hc).mp hattribute
      obtain ⟨attributes, hattributes⟩ := ih
      obtain ⟨hblank, hslash, hclose⟩ := not_blank_of_isNameChar hc
      exact ⟨a :: attributes, readAttributes_attribute
        (List.dropWhile_cons_of_neg (ne_true_of_eq_false hblank)) hslash hclose ha hattributes⟩
  · rintro ⟨attributes, h⟩
    apply TagRest.of_blanks
    fun_induction readAttributes tag cs generalizing attributes selfClosing rest with
    | case1 => cases h
    | case2 cs after hdrop =>
      cases h
      rw [hdrop]
      exact .close
    | case3 cs after hdrop =>
      cases h
      rw [hdrop]
      exact .selfClose
    | case4 cs after hne hdrop ih =>
      rw [hdrop]
      refine .slash (fun hhead => ?_) (.of_blanks (ih _ h))
      obtain ⟨more, rfl⟩ := List.head?_eq_some_iff.mp hhead
      exact hne more rfl
    | case5 => cases h
    | case6 => cases h
    | case7 cs c after hclose _ hslash hdrop a next hread attributes' selfClosing' rest' heq ih =>
      cases h
      rw [hdrop]
      have hc : isNameChar c = true := by
        have hblank := (isRun_takeWhile isMarkupBlank cs).ends c (by rw [hdrop]; rfl)
        rw [isNameChar, hblank, decide_eq_false hslash, decide_eq_false hclose]
        rfl
      exact .attr hc ((isAttribute_iff hc).mpr ⟨a, hread⟩) (.of_blanks (ih _ heq))

theorem isNameChar_of_isAlpha {c : Char} (h : c.isAlpha = true) : isNameChar c = true := by
  by_contra hname
  simp only [isNameChar, isMarkupBlank, Bool.not_eq_true', Bool.not_eq_false, Bool.or_eq_true,
    decide_eq_true_eq] at hname
  rcases hname with ((((((rfl | rfl) | rfl) | rfl) | rfl) | rfl) | rfl)
  all_goals exact absurd h (by decide)

theorem beginning_eq_opening_iff {text : List Char} :
    beginning text = .opening ↔ ∃ c cs, text = '<' :: c :: cs ∧ c.isAlpha = true := by
  constructor
  · intro h
    unfold beginning at h
    split at h
    · cases h
    · split at h <;> cases h
    · split at h
      · exact ⟨_, _, rfl, ‹_›⟩
      · cases h
    · cases h
    · cases h
  · rintro ⟨c, cs, rfl, hc⟩
    exact beginning_opening hc cs

theorem beginning_eq_closing_iff {text : List Char} :
    beginning text = .closing ↔ ∃ c cs, text = '<' :: '/' :: c :: cs ∧ c.isAlpha = true := by
  constructor
  · intro h
    unfold beginning at h
    split at h
    · cases h
    · split at h
      · exact ⟨_, _, rfl, ‹_›⟩
      · cases h
    · split at h <;> cases h
    · cases h
    · cases h
  · rintro ⟨c, cs, rfl, hc⟩
    exact beginning_closing hc cs

/-- An opening tag of the name, and what is left behind it. -/
def Opens (name : String) (selfClosing : Bool) (text rest : List Char) : Prop :=
  ∃ c letters cs, text = '<' :: c :: (letters ++ cs) ∧ c.isAlpha = true ∧
    name = String.ofList (c :: letters) ∧ IsRun isNameChar letters cs ∧ TagRest selfClosing cs rest

theorem opens_iff {name : String} {selfClosing : Bool} {text rest : List Char} :
    Opens name selfClosing text rest ↔
      beginning text = .opening ∧
        ∃ attributes, readOpenTag text = .ok (⟨name, attributes, selfClosing⟩, rest) := by
  constructor
  · rintro ⟨c, letters, cs, rfl, hc, rfl, hrun, hrest⟩
    refine ⟨beginning_opening hc _, ?_⟩
    have hname : IsRun isNameChar (c :: letters) cs :=
      ⟨List.forall_mem_cons.mpr ⟨isNameChar_of_isAlpha hc, hrun.holds⟩, hrun.ends⟩
    obtain ⟨attributes, hattributes⟩ := (tagRest_iff (String.ofList (c :: letters))).mp hrest
    refine ⟨attributes, ?_⟩
    rw [readOpenTag, List.drop_one, List.tail_cons, ← List.cons_append, hname.takeWhile_eq,
      hname.dropWhile_eq, hattributes]
  · rintro ⟨hbegin, attributes, h⟩
    obtain ⟨c, cs, rfl, hc⟩ := beginning_eq_opening_iff.mp hbegin
    have hname := isNameChar_of_isAlpha hc
    rw [readOpenTag, List.drop_one, List.tail_cons, List.takeWhile_cons_of_pos hname,
      List.dropWhile_cons_of_pos hname] at h
    refine ⟨c, cs.takeWhile isNameChar, cs.dropWhile isNameChar, ?_, hc, ?_,
      isRun_takeWhile isNameChar cs, ?_⟩
    · rw [List.takeWhile_append_dropWhile]
    · split at h <;> cases h
      rfl
    · split at h
      · cases h
      · rename_i heq
        cases h
        exact (tagRest_iff _).mpr ⟨_, heq⟩

theorem Opens.isNameChar {name : String} {selfClosing : Bool} {text rest : List Char}
    (h : Opens name selfClosing text rest) : ∀ c ∈ name.toList, isNameChar c = true := by
  obtain ⟨c, letters, cs, -, hc, rfl, hrun, -⟩ := h
  rw [String.toList_ofList]
  exact List.forall_mem_cons.mpr ⟨isNameChar_of_isAlpha hc, hrun.holds⟩

/-! ## Closing tags -/

/-- What is left of a closing tag ends with the first bracket. -/
def ClosingRest (text rest : List Char) : Prop :=
  ∃ inner, text = inner ++ '>' :: rest ∧ '>' ∉ inner

/-- No bracket is passed over with a name. -/
theorem dropWhile_dropWhile_name (cs : List Char) :
    (cs.dropWhile isNameChar).dropWhile (· ≠ '>') = cs.dropWhile (· ≠ '>') := by
  induction cs with
  | nil => rfl
  | cons c cs ih =>
    by_cases hc : isNameChar c = true
    · have hne : decide (c ≠ '>') = true := decide_eq_true (not_blank_of_isNameChar hc).2.2
      rw [List.dropWhile_cons_of_pos hc, ih]
      exact (List.dropWhile_cons_of_pos (p := (· ≠ '>')) hne).symm
    · rw [List.dropWhile_cons_of_neg hc]

theorem closingRest_iff {cs rest : List Char} :
    ClosingRest cs rest ↔ ∃ name, readCloseTag ('<' :: '/' :: cs) = .ok (name, rest) := by
  rw [readCloseTag, List.drop_succ_cons, List.drop_succ_cons, List.drop_zero,
    dropWhile_dropWhile_name]
  constructor
  · rintro ⟨inner, rfl, hinner⟩
    have hrun : IsRun (· ≠ '>') inner ('>' :: rest) := isRun_ne_iff.mpr hinner
    rw [hrun.dropWhile_eq]
    exact ⟨_, rfl⟩
  · rintro ⟨name, h⟩
    split at h
    · cases h
    · rename_i hdrop
      cases h
      exact exists_of_dropWhile_ne hdrop

end ComponentGraph.Markup
