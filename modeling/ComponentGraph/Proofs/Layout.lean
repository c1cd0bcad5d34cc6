import ComponentGraph.Proofs.ClosingBytes
import ComponentGraph.Proofs.Grammar
import ComponentGraph.Proofs.TagLayout
/-!
# The layout of a template

A template is laid out in tags, comments, interpolations and raw text, and what stands between them.
The rules say what each of them begins with and where it ends. A text can be scanned without a
problem if it is laid out by the rules, and then its opening tags are those that are scanned.
-/

namespace ComponentGraph.Markup

open Text (isMarkupBlank)

/-! ## The first place of a kind -/

/-- The property holds of the rest of a text, and of none that begins earlier in it. -/
structure IsFirst (p : List Char → Prop) (front rest : List Char) : Prop where
  holds : p rest
  first : ∀ back, back <:+ front → back ≠ [] → ¬ p (back ++ rest)

instance (p : List Char → Prop) [DecidablePred p] (front rest : List Char) :
    Decidable (IsFirst p front rest) :=
  decidable_of_iff (p rest ∧ ∀ back ∈ front.tails, back ≠ [] → ¬ p (back ++ rest))
    ⟨fun ⟨holds, first⟩ => ⟨holds, fun back hback => first back ((List.mem_tails _ _).mpr hback)⟩,
      fun h => ⟨h.holds, fun back hback => h.first back ((List.mem_tails _ _).mp hback)⟩⟩

section Firsts

variable {p q : List Char → Prop} {front rest : List Char}

theorem isFirst_nil : IsFirst p [] rest ↔ p rest := by
  refine ⟨IsFirst.holds, fun h => ⟨h, fun back hback hne => ?_⟩⟩
  exact absurd (List.suffix_nil.mp hback) hne

theorem isFirst_cons {c : Char} :
    IsFirst p (c :: front) rest ↔ ¬ p (c :: (front ++ rest)) ∧ IsFirst p front rest := by
  constructor
  · intro h
    refine ⟨h.first _ List.suffix_rfl (List.cons_ne_nil c front), h.holds, fun back hback => ?_⟩
    exact h.first back (hback.trans (List.suffix_cons c front))
  · rintro ⟨hnot, h⟩
    refine ⟨h.holds, fun back hback hne => ?_⟩
    rcases List.suffix_cons_iff.mp hback with rfl | hback
    · exact hnot
    · exact h.first back hback hne

theorem isFirst_congr (h : ∀ back, p (back ++ rest) ↔ q (back ++ rest)) :
    IsFirst p front rest ↔ IsFirst q front rest := by
  constructor
  · exact fun hp => ⟨(h []).mp hp.holds, fun back hback hne hq =>
      hp.first back hback hne ((h back).mpr hq)⟩
  · exact fun hq => ⟨(h []).mpr hq.holds, fun back hback hne hp =>
      hq.first back hback hne ((h back).mp hp)⟩

end Firsts

/-- The text from the first place of the kind on. -/
def firstPlace? (isPlace : List Char → Bool) : List Char → Option (List Char)
  | [] => none
  | c :: cs => if isPlace (c :: cs) then some (c :: cs) else firstPlace? isPlace cs

theorem firstPlace?_eq_some_iff {isPlace : List Char → Bool} (hnil : isPlace [] = false)
    {cs place : List Char} :
    firstPlace? isPlace cs = some place ↔
      ∃ front, cs = front ++ place ∧ IsFirst (isPlace · = true) front place := by
  induction cs with
  | nil =>
    simp only [firstPlace?, reduceCtorEq, false_iff]
    rintro ⟨front, hfront, hfirst⟩
    obtain ⟨-, rfl⟩ := List.append_eq_nil_iff.mp hfront.symm
    exact ne_true_of_eq_false hnil hfirst.holds
  | cons c cs ih =>
    rw [firstPlace?]
    split
    · rename_i hplace
      rw [Option.some_inj]
      constructor
      · rintro rfl
        exact ⟨[], rfl, isFirst_nil.mpr hplace⟩
      · rintro ⟨front, hfront, hfirst⟩
        cases front with
        | nil => exact hfront
        | cons d front =>
          rw [List.cons_append] at hfront
          exact absurd (hfront ▸ hplace) (isFirst_cons.mp hfirst).1
    · rename_i hplace
      rw [ih]
      constructor
      · rintro ⟨front, rfl, hfirst⟩
        exact ⟨c :: front, rfl, isFirst_cons.mpr ⟨hplace, hfirst⟩⟩
      · rintro ⟨front, hfront, hfirst⟩
        cases front with
        | nil => exact absurd (hfront ▸ hfirst.holds) hplace
        | cons d front =>
          obtain ⟨rfl, rfl⟩ := List.cons.inj hfront
          exact ⟨front, rfl, (isFirst_cons.mp hfirst).2⟩

theorem behind?_eq (mark cs : List Char) :
    behind? mark cs = (firstPlace? mark.isPrefixOf cs).map (List.drop mark.length) := by
  induction cs with
  | nil => rfl
  | cons c cs ih =>
    rw [behind?, firstPlace?, ih]
    split
    · rfl
    · rfl

theorem findClosing?_eq (name : String) (cs : List Char) :
    findClosing? name cs = firstPlace? (startsClosing name) cs := by
  induction cs with
  | nil => rfl
  | cons c cs ih => rw [findClosing?, firstPlace?, ih]

theorem behind?_eq_some_iff {mark cs rest : List Char} (hmark : mark ≠ []) :
    behind? mark cs = some rest ↔
      ∃ front, cs = front ++ (mark ++ rest) ∧ IsFirst (mark <+: ·) front (mark ++ rest) := by
  have hnil : mark.isPrefixOf [] = false := by
    rw [← Bool.not_eq_true, List.isPrefixOf_iff_prefix, List.prefix_nil]
    exact hmark
  simp only [behind?_eq, Option.map_eq_some_iff, firstPlace?_eq_some_iff hnil,
    List.isPrefixOf_iff_prefix]
  constructor
  · rintro ⟨place, ⟨front, rfl, hfirst⟩, rfl⟩
    obtain ⟨rest, rfl⟩ := hfirst.holds
    rw [List.drop_left]
    exact ⟨front, rfl, hfirst⟩
  · rintro ⟨front, rfl, hfirst⟩
    exact ⟨mark ++ rest, ⟨front, rfl, hfirst⟩, List.drop_left⟩

theorem behind?_eq_none_iff {mark cs : List Char} (hmark : mark ≠ []) :
    behind? mark cs = none ↔ ¬ mark <:+: cs := by
  induction cs with
  | nil => simp [behind?, hmark]
  | cons c cs ih =>
    rw [behind?, List.infix_cons_iff, ← List.isPrefixOf_iff_prefix]
    split
    · simp [*]
    · simp [*]

theorem findClosing?_eq_some_iff {name : String} {cs close : List Char} :
    findClosing? name cs = some close ↔
      ∃ front, cs = front ++ close ∧ IsFirst (startsClosing name · = true) front close := by
  rw [findClosing?_eq]
  exact firstPlace?_eq_some_iff rfl

/-! ## Raw text -/

/-- The text begins with a closing tag of the name, in any mixture of cases, behind which there is a
blank or a bracket. -/
def ClosesHere (name : String) (text : List Char) : Prop :=
  ∃ front c rest, text = front ++ c :: rest ∧
    Text.SameLetters (String.ofList front) ("</" ++ name) ∧ (isMarkupBlank c = true ∨ c = '>')

theorem sameLetters_closing_iff {name : String} {front : List Char} :
    Text.SameLetters (String.ofList front) ("</" ++ name) ↔
      front.map Char.toLower = ('<' :: '/' :: name.toList).map Char.toLower := by
  rw [Text.SameLetters, Text.foldCase, Text.foldCase, String.ofList_inj, String.toList_ofList,
    String.toList_append]
  rfl

theorem length_of_map_closing {name : String} {front : List Char}
    (h : front.map Char.toLower = ('<' :: '/' :: name.toList).map Char.toLower) :
    front.length = name.toList.length + 2 := by
  simpa using congrArg List.length h

/-- What follows a text does not matter to a closing tag that begins the text and ends before it. -/
theorem closesHere_of_startsClosing {name : String} {text rest : List Char}
    (hlong : name.toList.length + 2 < text.length) (h : startsClosing name (text ++ rest) = true) :
    ClosesHere name text := by
  obtain ⟨front, after, hchars, hfront, hend⟩ := startsClosing_iff.mp h
  have hlength := length_of_map_closing hfront
  obtain ⟨more, rfl⟩ : front <+: text :=
    List.prefix_of_prefix_length_le ⟨after, hchars.symm⟩ ⟨rest, rfl⟩ (by omega)
  cases more with
  | nil =>
    rw [List.append_nil] at hlong
    omega
  | cons c more =>
    rw [List.append_assoc] at hchars
    obtain rfl : c :: more ++ rest = after := List.append_cancel_left hchars
    exact ⟨front, c, more, rfl, sameLetters_closing_iff.mpr hfront, by simpa using hend⟩

theorem closesHere_iff {name : String} {text : List Char} :
    ClosesHere name text ↔
      name.toList.length + 2 < text.length ∧ startsClosing name text = true := by
  constructor
  · rintro ⟨front, c, rest, rfl, hsame, hend⟩
    have hfront := sameLetters_closing_iff.mp hsame
    have hlength := length_of_map_closing hfront
    refine ⟨?_, startsClosing_iff.mpr ⟨front, c :: rest, rfl, hfront, by simpa using hend⟩⟩
    rw [List.length_append, List.length_cons]
    omega
  · rintro ⟨hlong, hstarts⟩
    rw [← List.append_nil text] at hstarts
    exact closesHere_of_startsClosing hlong hstarts

instance (name : String) (text : List Char) : Decidable (ClosesHere name text) :=
  decidable_of_iff' _ closesHere_iff

/-- A bracket behind a closing tag shows that the text does not end with its name. -/
theorem length_lt_of_startsClosing {name : String} {text : List Char}
    (hname : ∀ c ∈ name.toList, isNameChar c = true) (htext : '>' ∈ text)
    (h : startsClosing name text = true) : name.toList.length + 2 < text.length := by
  obtain ⟨front, rest, rfl, hfront, -⟩ := startsClosing_iff.mp h
  have hlength := length_of_map_closing hfront
  have hmem : '>' ∉ front := by
    intro hmem
    have hlower : Char.toLower '>' ∈ ('<' :: '/' :: name.toList).map Char.toLower :=
      hfront ▸ List.mem_map_of_mem hmem
    obtain ⟨c, hc, heq⟩ := List.mem_map.mp hlower
    obtain rfl : c = '>' := (Tag.toLower_eq_iff (by decide)).mp heq
    simp only [List.mem_cons, Char.reduceEq, false_or] at hc
    exact absurd (hname _ hc) (by decide)
  have hrest : rest ≠ [] := by
    rintro rfl
    rw [List.append_nil] at htext
    exact hmem htext
  have hpos := List.length_pos_iff.mpr hrest
  rw [List.length_append]
  omega

/-- Raw text ends with the first closing tag of the name, and what is left behind that. -/
def RawText (name : String) (text rest : List Char) : Prop :=
  ∃ body close, text = body ++ '<' :: '/' :: close ∧
    IsFirst (ClosesHere name) body ('<' :: '/' :: close) ∧ ClosingRest close rest

theorem rawText_iff {tag : OpenTag} (hname : ∀ c ∈ tag.name.toList, isNameChar c = true)
    {place text rest : List Char} :
    RawText tag.name text rest ↔ afterRawText tag place text = .ok rest := by
  have hfirst : ∀ {body close : List Char}, ClosingRest close rest →
      (IsFirst (ClosesHere tag.name) body ('<' :: '/' :: close) ↔
        IsFirst (startsClosing tag.name · = true) body ('<' :: '/' :: close)) := by
    rintro body close ⟨inner, rfl, -⟩
    refine isFirst_congr fun back => closesHere_iff.trans ⟨And.right, fun h => ⟨?_, h⟩⟩
    exact length_lt_of_startsClosing hname (by simp) h
  constructor
  · rintro ⟨body, close, rfl, hbody, hclose⟩
    have hfind := findClosing?_eq_some_iff.mpr ⟨body, rfl, (hfirst hclose).mp hbody⟩
    obtain ⟨name, hread⟩ := closingRest_iff.mp hclose
    rw [afterRawText, hfind]
    simp only [hread]
  · intro h
    rw [afterRawText] at h
    split at h
    · cases h
    · rename_i place hfind
      obtain ⟨close, rfl⟩ := eq_of_findClosing? hfind
      split at h
      · cases h
      · rename_i hread
        cases h
        have hclose : ClosingRest close rest := closingRest_iff.mpr ⟨_, hread⟩
        obtain ⟨body, hchars, hbody⟩ := findClosing?_eq_some_iff.mp hfind
        exact ⟨body, close, hchars, (hfirst hclose).mpr hbody, hclose⟩

/-! ## The whole text -/

/-- A comment, an interpolation or a tag begins here. -/
def SomethingBegins (text : List Char) : Prop :=
  ['<', '!', '-', '-'] <+: text ∨ ['{', '{'] <+: text ∨
    ∃ c, c.isAlpha = true ∧ (['<', c] <+: text ∨ ['<', '/', c] <+: text)

theorem somethingBegins_iff {text : List Char} :
    SomethingBegins text ↔ beginning text ≠ .other := by
  constructor
  · rintro (⟨cs, rfl⟩ | ⟨cs, rfl⟩ | ⟨c, hc, ⟨cs, rfl⟩ | ⟨cs, rfl⟩⟩)
    · exact fun h => nomatch h
    · exact fun h => nomatch h
    · exact fun h => nomatch (beginning_opening hc cs).symm.trans h
    · exact fun h => nomatch (beginning_closing hc cs).symm.trans h
  · intro h
    cases hbegin : beginning text with
    | comment =>
      obtain ⟨cs, rfl⟩ := eq_of_beginning_comment hbegin
      exact .inl ⟨cs, rfl⟩
    | interpolation =>
      obtain ⟨cs, rfl⟩ := eq_of_beginning_interpolation hbegin
      exact .inr (.inl ⟨cs, rfl⟩)
    | closing =>
      obtain ⟨c, cs, rfl, hc⟩ := beginning_eq_closing_iff.mp hbegin
      exact .inr (.inr ⟨c, hc, .inr ⟨cs, rfl⟩⟩)
    | opening =>
      obtain ⟨c, cs, rfl, hc⟩ := beginning_eq_opening_iff.mp hbegin
      exact .inr (.inr ⟨c, hc, .inl ⟨cs, rfl⟩⟩)
    | other => exact absurd hbegin h

/-- The template is laid out by the rules, and its opening tags have the names, in order. -/
inductive Layout : List Char → List String → Prop
  | empty : Layout [] []
  | other {c : Char} {cs : List Char} {names : List String} : ¬ SomethingBegins (c :: cs) →
      Layout cs names → Layout (c :: cs) names
  | comment {cs rest : List Char} {names : List String} :
      IsFirst (['-', '-', '>'] <+: ·) cs (['-', '-', '>'] ++ rest) → Layout rest names →
        Layout (['<', '!', '-', '-'] ++ (cs ++ (['-', '-', '>'] ++ rest))) names
  | interpolation {cs rest : List Char} {names : List String} :
      IsFirst (['}', '}'] <+: ·) cs (['}', '}'] ++ rest) → Layout rest names →
        Layout (['{', '{'] ++ (cs ++ (['}', '}'] ++ rest))) names
  /-- An interpolation that is not closed takes all that is left. -/
  | cut {cs : List Char} : ¬ ['}', '}'] <:+: cs → Layout (['{', '{'] ++ cs) []
  | closing {c : Char} {cs rest : List Char} {names : List String} : c.isAlpha = true →
      ClosingRest (c :: cs) rest → Layout rest names → Layout ('<' :: '/' :: c :: cs) names
  | opening {name : String} {selfClosing : Bool} {text rest : List Char} {names : List String} :
      Opens name selfClosing text rest → (name = "script" ∨ name = "style" → selfClosing = true) →
        Layout rest names → Layout text (name :: names)
  | rawText {name : String} {text inner rest : List Char} {names : List String} :
      Opens name false text inner → name = "script" ∨ name = "style" → RawText name inner rest →
        Layout rest names → Layout text (name :: names)

theorem Layout.isNameChar {text : List Char} {names : List String} (h : Layout text names) :
    ∀ name ∈ names, ∀ c ∈ name.toList, isNameChar c = true := by
  induction h with
  | empty => simp
  | other _ _ ih => exact ih
  | comment _ _ ih => exact ih
  | interpolation _ _ ih => exact ih
  | cut _ => simp
  | closing _ _ _ ih => exact ih
  | opening hopens _ _ ih => exact List.forall_mem_cons.mpr ⟨hopens.isNameChar, ih⟩
  | rawText hopens _ _ _ ih => exact List.forall_mem_cons.mpr ⟨hopens.isNameChar, ih⟩

/-- The names of the opening tags that are scanned. -/
def Scan.names (s : Scan) : List String := (openTags s.tokens).map OpenTag.name

theorem isRawText_iff {tag : OpenTag} :
    tag.isRawText = true ↔ tag.name = "script" ∨ tag.name = "style" := by
  simp [OpenTag.isRawText]

theorem scan_of_layout {text : List Char} {names : List String} (h : Layout text names) :
    (scan .template text).problem = none ∧ (scan .template text).names = names := by
  induction h with
  | empty =>
    rw [scan_nil]
    exact ⟨rfl, rfl⟩
  | other hnot _ ih =>
    rw [scan_other (not_not.mp (mt somethingBegins_iff.mpr hnot))]
    exact ih
  | @comment cs rest names hfirst _ ih =>
    have hafter : afterComment? (['<', '!', '-', '-'] ++ (cs ++ (['-', '-', '>'] ++ rest))) =
        some rest := (behind?_eq_some_iff (by simp)).mpr ⟨cs, rfl, hfirst⟩
    rw [scan_comment rfl hafter]
    exact ih
  | @interpolation cs rest names hfirst _ ih =>
    have hbehind : behind? ['}', '}'] (cs ++ (['}', '}'] ++ rest)) = some rest :=
      (behind?_eq_some_iff (by simp)).mpr ⟨cs, rfl, hfirst⟩
    have hafter : afterInterpolation (['{', '{'] ++ (cs ++ (['}', '}'] ++ rest))) = rest :=
      congrArg (·.getD []) hbehind
    rw [scan_template_interpolation rfl, hafter]
    exact ih
  | @cut cs hnot =>
    have hbehind : behind? ['}', '}'] cs = none := (behind?_eq_none_iff (by simp)).mpr hnot
    have hafter : afterInterpolation (['{', '{'] ++ cs) = [] := congrArg (·.getD []) hbehind
    rw [scan_template_interpolation rfl, hafter, scan_nil]
    exact ⟨rfl, rfl⟩
  | closing hc hrest _ ih =>
    obtain ⟨name, hread⟩ := closingRest_iff.mp hrest
    rw [scan_closing (beginning_closing hc _) hread]
    exact ih
  | @opening name selfClosing text rest names hopens hraw _ ih =>
    obtain ⟨hbegin, attributes, hread⟩ := opens_iff.mp hopens
    have hafter : afterOpening .template ⟨name, attributes, selfClosing⟩ text rest = .ok rest := by
      rw [afterOpening, if_neg]
      rw [Bool.and_eq_true, Bool.and_eq_true, isRawText_iff]
      rintro ⟨⟨-, hname⟩, hself⟩
      simp [hraw hname] at hself
    rw [scan_opening hbegin hread hafter]
    exact ⟨ih.1, congrArg (name :: ·) ih.2⟩
  | @rawText name text inner rest names hopens hname hraw _ ih =>
    obtain ⟨hbegin, attributes, hread⟩ := opens_iff.mp hopens
    have hafter : afterOpening .template ⟨name, attributes, false⟩ text inner = .ok rest := by
      rw [afterOpening, if_pos]
      · exact (rawText_iff hopens.isNameChar).mp hraw
      · have hisRaw : OpenTag.isRawText ⟨name, attributes, false⟩ = true := isRawText_iff.mpr hname
        rw [hisRaw]
        rfl
    rw [scan_opening hbegin hread hafter]
    exact ⟨ih.1, congrArg (name :: ·) ih.2⟩

theorem layout_scan {text : List Char} (h : (scan .template text).problem = none) :
    Layout text (scan .template text).names := by
  generalize hscope : Scope.template = scope at h ⊢
  fun_induction scan scope text with
  | case1 => exact .empty
  | case2 => cases h
  | case3 scope c cs hbegin rest hrest ih =>
    obtain ⟨text, htext⟩ := eq_of_beginning_comment hbegin
    rw [htext] at hrest ⊢
    obtain ⟨front, rfl, hfirst⟩ := (behind?_eq_some_iff (by simp)).mp hrest
    exact .comment hfirst (ih hscope h)
  | case4 c cs hbegin ih =>
    obtain ⟨text, htext⟩ := eq_of_beginning_interpolation hbegin
    rw [htext] at h ih ⊢
    cases hbehind : behind? ['}', '}'] text with
    | none =>
      have hafter : afterInterpolation ('{' :: '{' :: text) = [] := congrArg (·.getD []) hbehind
      rw [hafter, scan_nil]
      exact .cut ((behind?_eq_none_iff (by simp)).mp hbehind)
    | some rest =>
      have hafter : afterInterpolation ('{' :: '{' :: text) = rest :=
        congrArg (·.getD []) hbehind
      rw [hafter] at h ih ⊢
      obtain ⟨front, rfl, hfirst⟩ := (behind?_eq_some_iff (by simp)).mp hbehind
      exact .interpolation hfirst (ih rfl h)
  | case5 => cases hscope
  | case6 => cases h
  | case7 scope c cs hbegin name rest hread ih =>
    obtain ⟨d, ds, htext, hd⟩ := beginning_eq_closing_iff.mp hbegin
    rw [htext] at hread ⊢
    exact .closing hd (closingRest_iff.mpr ⟨name, hread⟩) (ih hscope h)
  | case8 => cases h
  | case9 => cases h
  | case10 scope c cs hbegin tag rest hread after hafter ih =>
    subst hscope
    have hopens : Opens tag.name tag.selfClosing (c :: cs) rest :=
      opens_iff.mpr ⟨hbegin, tag.attributes, hread⟩
    have hlayout := ih rfl h
    rw [afterOpening] at hafter
    split at hafter
    · rename_i hraw
      simp only [Bool.and_eq_true, Bool.not_eq_true'] at hraw
      rw [hraw.2] at hopens
      exact .rawText hopens (isRawText_iff.mp hraw.1.2)
        ((rawText_iff hopens.isNameChar).mpr hafter) hlayout
    · rename_i hraw
      cases hafter
      refine .opening hopens (fun hname => ?_) hlayout
      simpa [isRawText_iff.mpr hname] using hraw
  | case11 scope c cs hbegin ih =>
    exact .other (fun hbegins => somethingBegins_iff.mp hbegins hbegin) (ih hscope h)

/-- The rules lay out just the texts that can be scanned without a problem, each in one way. -/
theorem layout_iff {text : List Char} {names : List String} :
    Layout text names ↔
      (scan .template text).problem = none ∧ (scan .template text).names = names := by
  refine ⟨scan_of_layout, ?_⟩
  rintro ⟨hproblem, rfl⟩
  exact layout_scan hproblem

end ComponentGraph.Markup
