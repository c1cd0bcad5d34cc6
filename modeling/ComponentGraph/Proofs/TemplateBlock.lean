import ComponentGraph.Proofs.ReadingOn
import ComponentGraph.Proofs.RoundTrip
/-!
# The end of a template block

The end of a template block is looked for in its interpolations and raw text, too, which the
compiler passes over. What stands there does no harm if it is quiet: its tags and comments end in
it, and its template tags are balanced. So the block of a template that compiles, and hides only
quiet text, ends with the template. A template tag that is hidden on its own ends the block early.
-/

namespace ComponentGraph.Markup

/-! ## Hidden text -/

/-- The text before the first place of the kind, or all of it if there is none. -/
def before (isPlace : List Char → Bool) : List Char → List Char
  | [] => []
  | c :: cs => if isPlace (c :: cs) then [] else c :: before isPlace cs

theorem before_append_behind? {mark cs rest : List Char} (h : behind? mark cs = some rest) :
    before mark.isPrefixOf cs ++ (mark ++ rest) = cs := by
  induction cs with
  | nil => cases h
  | cons c cs ih =>
    rw [behind?] at h
    rw [before]
    split at h
    · rename_i hmark
      cases h
      obtain ⟨rest, hrest⟩ := List.isPrefixOf_iff_prefix.mp hmark
      rw [if_pos hmark, ← hrest, List.drop_left, List.nil_append]
    · rename_i hmark
      rw [if_neg hmark, List.cons_append, ih h]

theorem before_eq_self {mark cs : List Char} (h : behind? mark cs = none) :
    before mark.isPrefixOf cs = cs := by
  induction cs with
  | nil => rfl
  | cons c cs ih =>
    rw [behind?] at h
    split at h
    · cases h
    · rename_i hmark
      rw [before, if_neg hmark, ih h]

theorem before_append_findClosing? {name : String} {cs close : List Char}
    (h : findClosing? name cs = some close) :
    before (startsClosing name) cs ++ close = cs ∧ startsClosing name close = true := by
  induction cs with
  | nil => cases h
  | cons c cs ih =>
    rw [findClosing?] at h
    rw [before]
    split at h
    · rename_i hstarts
      cases h
      rw [if_pos hstarts]
      exact ⟨rfl, hstarts⟩
    · rename_i hstarts
      rw [if_neg hstarts, List.cons_append, (ih h).1]
      exact ⟨rfl, (ih h).2⟩

/-- Where a template goes on behind what begins a text. -/
def behind (text : List Char) : List Char :=
  match beginning text with
  | .comment => (afterComment? text).getD []
  | .interpolation => afterInterpolation text
  | .closing =>
    match readCloseTag text with
    | .error _ => []
    | .ok (_, rest) => rest
  | .opening =>
    match readOpenTag text with
    | .error _ => []
    | .ok (tag, rest) =>
      match afterOpening .template tag text rest with
      | .error _ => []
      | .ok after => after
  | .other => text.drop 1

theorem length_behind (c : Char) (cs : List Char) : (behind (c :: cs)).length ≤ cs.length := by
  unfold behind
  split
  · cases h : afterComment? (c :: cs) with
    | none => exact Nat.zero_le _
    | some rest => exact length_afterComment? h
  · exact length_afterInterpolation c cs
  · split
    · exact Nat.zero_le _
    · rename_i h
      exact Nat.le_of_lt_succ (length_readCloseTag h)
  · split
    · exact Nat.zero_le _
    · rename_i h
      split
      · exact Nat.zero_le _
      · rename_i hafter
        have hlength := Nat.lt_of_le_of_lt (length_afterOpening hafter) (length_readOpenTag h)
        exact Nat.le_of_lt_succ hlength
  · exact Nat.le_refl _

/-- The content of a raw text element, from the rest behind its opening tag. -/
def rawText (tag : OpenTag) (rest : List Char) : List (List Char) :=
  if tag.isRawText && !tag.selfClosing then [before (startsClosing tag.name) rest] else []

/-- The content of the interpolation or raw text element that begins a text. -/
def hiddenHere (text : List Char) : List (List Char) :=
  match beginning text with
  | .interpolation => [before ['}', '}'].isPrefixOf (text.drop 2)]
  | .opening =>
    match readOpenTag text with
    | .error _ => []
    | .ok (tag, rest) => rawText tag rest
  | .comment | .closing | .other => []

/-- The contents of the interpolations and raw text elements of a template. -/
def hidden : List Char → List (List Char)
  | [] => []
  | c :: cs => hiddenHere (c :: cs) ++ hidden (behind (c :: cs))
termination_by cs => cs.length
decreasing_by exact Nat.lt_succ_of_le (length_behind c cs)

/-! ## Quiet text -/

/-- Every tag and comment that begins in the text ends in it, every template tag that it opens is
closed in it, and it closes no other. -/
def IsQuiet (text : List Char) : Prop :=
  (scan .block text).problem = none ∧
    templateDepth? 0 ((scan .block text).tokens.map Token.mark) = some 0

instance (text : List Char) : Decidable (IsQuiet text) := inferInstanceAs (Decidable (_ ∧ _))

theorem IsQuiet.isLevel {text : List Char} (h : IsQuiet text) :
    IsLevel ((scan .block text).tokens.map Token.mark) := by
  intro depth
  simpa using templateDepth?_add h.2 depth

/-! ## What is hidden is passed over -/

theorem isAlpha_of_toLower {c : Char} (h : c.toLower.isAlpha = true) : c.isAlpha = true := by
  unfold Char.toLower at h
  split at h
  · rename_i hupper
    have hc : c.isUpper = true := decide_eq_true hupper
    exact (Bool.or_eq_true _ _).mpr (.inl hc)
  · exact h

/-- The closing tag of a raw text element has the element's initial. -/
theorem initial_of_startsClosing {tag : OpenTag} (hraw : tag.isRawText = true) {close : List Char}
    (hstarts : startsClosing tag.name close = true) :
    ∃ c cs, close = '<' :: '/' :: c :: cs ∧ c.toLower = 's' := by
  unfold startsClosing at hstarts
  split at hstarts
  · rename_i cs
    simp only [Bool.and_eq_true, decide_eq_true_eq] at hstarts
    have hinitial := head_rawText hraw
    rw [← hstarts.1, List.head?_map, List.head?_take] at hinitial
    split at hinitial
    · cases hinitial
    · cases cs with
      | nil => cases hinitial
      | cons c cs => exact ⟨c, cs, rfl, Option.some.inj hinitial⟩
  · cases hstarts

theorem isTemplateName_eq_false_of_initial {c : Char} {cs rest : List Char} {name : String}
    (hc : c.toLower = 's') (hread : readCloseTag ('<' :: '/' :: c :: cs) = .ok (name, rest)) :
    isTemplateName name = false := by
  rw [readCloseTag] at hread
  split at hread
  · cases hread
  · cases hread
    apply eq_false_of_ne_true
    intro htemplate
    have hinitial := head_template htemplate
    rw [String.toList_ofList, List.head?_map, List.head?_takeWhile] at hinitial
    obtain ⟨d, hd, hinitial⟩ := Option.map_eq_some_iff.mp hinitial
    cases (Option.filter_eq_some_iff.mp hd).1
    rw [hc] at hinitial
    cases hinitial

/-- An interpolation is scanned as what stands in it. -/
theorem readsTo_interpolation {text more : List Char} (hbegin : beginning text = .interpolation)
    (hmore : ∀ c ∈ more.head?, c = '<' ∨ c = '}')
    (hquiet : IsQuiet (before ['}', '}'].isPrefixOf (text.drop 2))) :
    ∃ marks, IsLevel marks ∧ ReadsTo (text ++ more) marks (afterInterpolation text ++ more) := by
  have hbraces : ∀ (c : Char) (cs : List Char), c ≠ '<' →
      scan .block (c :: c :: cs) = scan .block cs := fun c cs hc =>
    @scan_text .block [c, c] (by simp [hc]) (fun hscope => Scope.noConfusion hscope) cs
  obtain ⟨cs, rfl⟩ := eq_of_beginning_interpolation hbegin
  rw [List.drop_succ_cons, List.drop_succ_cons, List.drop_zero] at hquiet
  rw [afterInterpolation, List.drop_succ_cons, List.drop_succ_cons, List.drop_zero]
  cases hbehind : behind? ['}', '}'] cs with
  | none =>
    rw [before_eq_self hbehind] at hquiet
    have hcontent := readsTo_append hmore hquiet.1
    exact ⟨_, hquiet.isLevel, .congr (hbraces '{' _ (by decide)) rfl hcontent⟩
  | some rest =>
    have hchars : before ['}', '}'].isPrefixOf cs ++ '}' :: '}' :: (rest ++ more) = cs ++ more := by
      conv_rhs => rw [← before_append_behind? hbehind]
      simp
    have hcontent : ReadsTo (_ ++ '}' :: '}' :: (rest ++ more)) _ _ :=
      readsTo_append (by simp) hquiet.1
    rw [hchars] at hcontent
    exact ⟨_, hquiet.isLevel,
      .congr (hbraces '{' _ (by decide)) (hbraces '}' _ (by decide)) hcontent⟩

theorem readsTo_rawText {tag : OpenTag} (hraw : tag.isRawText = true) {place rest after : List Char}
    (hafter : afterRawText tag place rest = .ok after)
    (hquiet : IsQuiet (before (startsClosing tag.name) rest)) (more : List Char) :
    ∃ marks, IsLevel marks ∧ ReadsTo (rest ++ more) marks (after ++ more) := by
  rw [afterRawText] at hafter
  split at hafter
  · cases hafter
  · rename_i close hfind
    split at hafter
    · cases hafter
    · rename_i name after hread
      cases hafter
      obtain ⟨hchars, hstarts⟩ := before_append_findClosing? hfind
      obtain ⟨c, cs, rfl, hc⟩ := initial_of_startsClosing hraw hstarts
      have hname := isTemplateName_eq_false_of_initial hc hread
      have hbegin := beginning_closing (isAlpha_of_toLower (by rw [hc]; rfl)) (cs ++ more)
      have hcontent : ReadsTo (_ ++ '<' :: '/' :: c :: (cs ++ more)) _ _ :=
        readsTo_append (by simp) hquiet.1
      have hclosing := readsTo_closing hbegin (readCloseTag_append_right hread more)
      have hreads := hcontent.trans hclosing
      rw [← List.cons_append, ← List.cons_append, ← List.cons_append, ← List.append_assoc,
        hchars] at hreads
      exact ⟨_, hquiet.isLevel.append (isLevel_closing hname), hreads⟩

/-- What is passed over behind an opening tag is scanned as what stands in it. -/
theorem readsTo_afterOpening {tag : OpenTag} {place rest after : List Char}
    (hafter : afterOpening .template tag place rest = .ok after)
    (hquiet : ∀ x ∈ rawText tag rest, IsQuiet x) (more : List Char) :
    ∃ marks, IsLevel marks ∧ ReadsTo (rest ++ more) marks (after ++ more) := by
  rw [afterOpening, Bool.and_assoc, decide_eq_true rfl, Bool.true_and] at hafter
  rw [rawText] at hquiet
  split at hafter
  · rename_i hraw
    rw [if_pos hraw, List.forall_mem_singleton] at hquiet
    exact readsTo_rawText (Bool.and_eq_true_iff.mp hraw).1 hafter hquiet more
  · cases hafter
    exact ⟨[], IsLevel.nil, ReadsTo.refl _⟩

/-- A template that hides only quiet text is scanned as a block with the same tags, but for
balanced ones. -/
theorem readsTo_of_template {text more : List Char}
    (hproblem : (scan .template text).problem = none) (hquiet : ∀ x ∈ hidden text, IsQuiet x)
    (hmore : ∀ c ∈ more.head?, c = '<' ∨ c = '}') :
    ∃ marks, ReadsTo (text ++ more) marks more ∧ ∀ depth, templateDepth? depth marks =
      templateDepth? depth ((scan .template text).tokens.map Token.mark) := by
  generalize hscope : Scope.template = scope at hproblem
  fun_induction scan scope text with
  | case1 => exact ⟨[], ReadsTo.refl more, fun _ => rfl⟩
  | case2 => cases hproblem
  | case3 scope c cs hbegin rest hrest ih =>
    have hbegin' := (beginning_append hmore c cs).trans hbegin
    have hrest' := afterComment?_append_right hrest more
    rw [hidden, List.forall_mem_append, behind, hbegin] at hquiet
    simp only [hrest] at hquiet
    obtain ⟨marks, hreads, hdepth⟩ := ih hquiet.2 hscope hproblem
    exact ⟨marks, .congr (scan_comment hbegin' hrest') rfl hreads, hdepth⟩
  | case4 c cs hbegin ih =>
    rw [hidden, List.forall_mem_append, hiddenHere, behind, hbegin] at hquiet
    simp only [List.forall_mem_singleton] at hquiet
    obtain ⟨marks, hreads, hdepth⟩ := ih hquiet.2 hscope hproblem
    obtain ⟨inner, hlevel, hinner⟩ := readsTo_interpolation hbegin hmore hquiet.1
    refine ⟨inner ++ marks, hinner.trans hreads, fun depth => ?_⟩
    rw [templateDepth?_append, hlevel, Option.bind_some, hdepth]
  | case5 => cases hscope
  | case6 => cases hproblem
  | case7 scope c cs hbegin name rest hread ih =>
    have hbegin' := (beginning_append hmore c cs).trans hbegin
    have hread' := readCloseTag_append_right hread more
    rw [hidden, List.forall_mem_append, behind, hbegin] at hquiet
    simp only [hread] at hquiet
    obtain ⟨marks, hreads, hdepth⟩ := ih hquiet.2 hscope hproblem
    exact ⟨_, (readsTo_closing hbegin' hread').trans hreads, templateDepth?_append_congr _ hdepth⟩
  | case8 => cases hproblem
  | case9 => cases hproblem
  | case10 scope c cs hbegin tag rest hread after hafter ih =>
    have hbegin' := (beginning_append hmore c cs).trans hbegin
    have hopening := readsTo_opening hbegin' (readOpenTag_append_right hread more)
    subst hscope
    rw [hidden, List.forall_mem_append, hiddenHere, behind, hbegin] at hquiet
    simp only [hread, hafter] at hquiet
    obtain ⟨marks, hreads, hdepth⟩ := ih hquiet.2 rfl hproblem
    obtain ⟨inner, hlevel, hinner⟩ := readsTo_afterOpening hafter hquiet.1 more
    refine ⟨_, hopening.trans (hinner.trans hreads), templateDepth?_append_congr _ fun depth => ?_⟩
    rw [templateDepth?_append, hlevel, Option.bind_some, hdepth]
  | case11 scope c cs hbegin ih =>
    have hbegin' := (beginning_append hmore c cs).trans hbegin
    rw [hidden, List.forall_mem_append, behind, hbegin] at hquiet
    obtain ⟨marks, hreads, hdepth⟩ := ih hquiet.2 hscope hproblem
    exact ⟨marks, .congr (scan_other hbegin') rfl hreads, hdepth⟩

/-! ## The block ends with the template -/

theorem templateContent_of_template {text : List Char}
    (hproblem : (scan .template text).problem = none)
    (hforest : IsForest (scan .template text).tokens) (hquiet : ∀ x ∈ hidden text, IsQuiet x)
    (place : List Char) :
    templateContent place (text ++ closingChars "template") = .ok text := by
  have hclosing : ∀ c ∈ (closingChars "template").head?, c = '<' ∨ c = '}' := by
    simp [closingChars]
  obtain ⟨marks, ⟨tokens, rfl, hscan⟩, hdepth⟩ := readsTo_of_template hproblem hquiet hclosing
  refine templateContent_of_scan hscan (fun close => ?_) place
  have hlevel := (hdepth 0).trans (hforest.isLevel 0)
  rw [matchingClose?_append hlevel, matchingClose?]
  exact if_pos (by decide +kernel)

/-- A template that compiles, and hides only quiet text, is found whole in a component that holds
it. -/
theorem template?_of_compile {template : String} {roots : List Element}
    (hcompile : compile template = .ok roots) (hquiet : ∀ x ∈ hidden template.toList, IsQuiet x) :
    template? ("<template>" ++ template ++ "</template>") = .ok (some template) := by
  obtain ⟨hproblem, hgrow⟩ := (forest_ok_iff _ _).mp ((compile_ok_iff_forest _ _).mp hcompile)
  have hopening : "<template>".toList = openingChars "template" [] := by decide +kernel
  have hclosing : "</template>".toList = closingChars "template" := by decide +kernel
  have hcontent := templateContent_of_template hproblem (closes_of_grow hgrow) hquiet
  rw [template?, String.toList_append, String.toList_append, hopening, hclosing, List.append_assoc,
    findTemplate_of_content hcontent]
  simp

/-- An interpolation may hold template tags if they are balanced. -/
def balancedTemplate : String := "<p>\x7b\x7b '<template></template>' \x7d\x7d</p>"

theorem template?_of_compile_balanced :
    compile balancedTemplate = .ok [⟨"p", [], [], []⟩] ∧
      (∀ x ∈ hidden balancedTemplate.toList, IsQuiet x) ∧
        template? ("<template>" ++ balancedTemplate ++ "</template>") =
          .ok (some balancedTemplate) := by
  have hcompile : compile balancedTemplate = .ok [⟨"p", [], [], []⟩] := by decide +kernel
  have hquiet : ∀ x ∈ hidden balancedTemplate.toList, IsQuiet x := by decide +kernel
  exact ⟨hcompile, hquiet, template?_of_compile hcompile hquiet⟩

/-- A closing tag in a closed interpolation means nothing to the compiler, and ends the block. -/
theorem template?_hidden_closing :
    compile "\x7b\x7b '</template>' \x7d\x7d" = .ok [] ∧
      template? "<template>\x7b\x7b '</template>' \x7d\x7d</template>" =
        .ok (some "\x7b\x7b '") := by
  constructor
  · decide +kernel
  · decide +kernel

end ComponentGraph.Markup
