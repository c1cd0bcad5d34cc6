import ComponentGraph.Proofs.BlockBytes
import ComponentGraph.Proofs.Layout
/-!
# The matching closing tag

The template of a component ends where a template tag closes that was not opened inside it: between
the two tags as many template tags are closed as are opened, and on the way never more are closed
than have been opened. The tags that count are told by rules on the characters, as is what may stand
in front of the template. A text that keeps to the rules has the template that they give it, and a
template that is found keeps to them.
-/

namespace ComponentGraph.Markup

variable {text rest inner content place post close : List Char} {name : String}

/-! ## The ends of tags -/

theorem TagRest.exists_bracket {selfClosing : Bool} (h : TagRest selfClosing text rest) :
    ∃ front, text = front ++ '>' :: rest := by
  induction h with
  | close => exact ⟨[], rfl⟩
  | selfClose => exact ⟨['/'], rfl⟩
  | blank _ _ ih | slash _ _ ih =>
    obtain ⟨front, rfl⟩ := ih
    exact ⟨_ :: front, rfl⟩
  | attr hc hattribute _ ih =>
    obtain ⟨front, rfl⟩ := ih
    obtain ⟨a, hread⟩ := (isAttribute_iff hc).mp hattribute
    obtain ⟨before, hbefore⟩ := readAttribute?_suffix hread
    exact ⟨before ++ front, by rw [← hbefore, List.append_assoc]⟩

/-- An opening tag ends with a bracket. -/
theorem Opens.exists_bracket {selfClosing : Bool} (h : Opens name selfClosing text rest) :
    ∃ tag, text = tag ++ '>' :: rest := by
  obtain ⟨c, letters, cs, rfl, -, -, -, hrest⟩ := h
  obtain ⟨front, rfl⟩ := hrest.exists_bracket
  exact ⟨'<' :: c :: (letters ++ front), by simp⟩

theorem Opens.suffix {selfClosing : Bool} (h : Opens name selfClosing text rest) :
    rest <:+ text := by
  obtain ⟨tag, rfl⟩ := h.exists_bracket
  exact (List.suffix_cons '>' rest).trans (List.suffix_append tag _)

theorem RawText.suffix (h : RawText name text rest) : rest <:+ text := by
  obtain ⟨body, close, rfl, -, inner, rfl, -⟩ := h
  exact ⟨body ++ '<' :: '/' :: (inner ++ ['>']), by simp⟩

/-- A closing tag of the name, and what is left behind it. -/
def IsClosingTag (name : String) (text rest : List Char) : Prop :=
  ∃ c letters cs, text = '<' :: '/' :: c :: (letters ++ cs) ∧ c.isAlpha = true ∧
    name = String.ofList (c :: letters) ∧ IsRun isNameChar letters cs ∧ ClosingRest cs rest

theorem isClosingTag_iff : IsClosingTag name text rest ↔
    beginning text = .closing ∧ readCloseTag text = .ok (name, rest) := by
  constructor
  · rintro ⟨c, letters, cs, rfl, hc, rfl, hrun, inner, rfl, hinner⟩
    refine ⟨beginning_closing hc _, ?_⟩
    have hname : IsRun isNameChar (c :: letters) (inner ++ '>' :: rest) :=
      ⟨List.forall_mem_cons.mpr ⟨isNameChar_of_isAlpha hc, hrun.holds⟩, hrun.ends⟩
    have hrest : IsRun (· ≠ '>') inner ('>' :: rest) := isRun_ne_iff.mpr hinner
    rw [readCloseTag, List.drop_succ_cons, List.drop_succ_cons, List.drop_zero,
      ← List.cons_append, hname.takeWhile_eq, hname.dropWhile_eq, hrest.dropWhile_eq]
  · rintro ⟨hbegin, h⟩
    obtain ⟨c, cs, rfl, hc⟩ := beginning_eq_closing_iff.mp hbegin
    have hname := isNameChar_of_isAlpha hc
    rw [readCloseTag, List.drop_succ_cons, List.drop_succ_cons, List.drop_zero,
      List.takeWhile_cons_of_pos hname, List.dropWhile_cons_of_pos hname] at h
    split at h
    · cases h
    · rename_i hdrop
      cases h
      refine ⟨c, cs.takeWhile isNameChar, cs.dropWhile isNameChar, ?_, hc, rfl,
        isRun_takeWhile isNameChar cs, exists_of_dropWhile_ne hdrop⟩
      rw [List.takeWhile_append_dropWhile]

theorem IsClosingTag.suffix (h : IsClosingTag name text rest) : rest <:+ text :=
  readCloseTag_suffix (isClosingTag_iff.mp h).2

/-- A closing tag of a template begins here. -/
def ClosesTemplate (text : List Char) : Prop :=
  ∃ name rest, IsClosingTag name text rest ∧ isTemplateName name = true

/-! ## Between tags -/

/-- No tag begins here: one character is passed over, or a comment. That an interpolation begins
makes no difference outside of a template. -/
inductive Skips : List Char → List Char → Prop
  | char {c : Char} {cs : List Char} : ¬ SomethingBegins (c :: cs) ∨ ['{', '{'] <+: c :: cs →
      Skips (c :: cs) cs
  | comment {cs rest : List Char} : IsFirst (['-', '-', '>'] <+: ·) cs (['-', '-', '>'] ++ rest) →
      Skips (['<', '!', '-', '-'] ++ (cs ++ (['-', '-', '>'] ++ rest))) rest

theorem skips_char {c : Char} {cs : List Char}
    (h : beginning (c :: cs) = .interpolation ∨ beginning (c :: cs) = .other) :
    Skips (c :: cs) cs := by
  obtain hbegin | hbegin := h
  · obtain ⟨text, htext⟩ := eq_of_beginning_interpolation hbegin
    exact .char (.inr ⟨text, htext.symm⟩)
  · exact .char (.inl fun hbegins => somethingBegins_iff.mp hbegins hbegin)

theorem skips_comment (hbegin : beginning text = .comment)
    (hrest : afterComment? text = some rest) : Skips text rest := by
  obtain ⟨cs, rfl⟩ := eq_of_beginning_comment hbegin
  obtain ⟨front, rfl, hfirst⟩ := (behind?_eq_some_iff (by simp)).mp hrest
  exact .comment hfirst

theorem skips_iff : Skips text rest ↔
    (∃ c, text = c :: rest ∧ (beginning text = .interpolation ∨ beginning text = .other)) ∨
      beginning text = .comment ∧ afterComment? text = some rest := by
  constructor
  · rintro (hbegin | hfirst)
    · rename_i c
      refine .inl ⟨c, rfl, ?_⟩
      rcases hbegin with hnot | ⟨cs, hcs⟩
      · exact .inr (not_not.mp (mt somethingBegins_iff.mpr hnot))
      · rw [← hcs]
        exact .inl rfl
    · exact .inr ⟨rfl, (behind?_eq_some_iff (by simp)).mpr ⟨_, rfl, hfirst⟩⟩
  · rintro (⟨c, rfl, hbegin⟩ | ⟨hbegin, hrest⟩)
    · exact skips_char hbegin
    · exact skips_comment hbegin hrest

theorem Skips.suffix (h : Skips text rest) : rest <:+ text := by
  obtain ⟨c, rfl, -⟩ | ⟨hbegin, hrest⟩ := skips_iff.mp h
  · exact List.suffix_cons c rest
  · exact (afterComment?_reads hbegin hrest).1

theorem scan_of_skips (h : Skips text rest) : scan .block text = scan .block rest := by
  obtain ⟨c, rfl, hbegin | hbegin⟩ | ⟨hbegin, hrest⟩ := skips_iff.mp h
  · exact scan_block_interpolation hbegin
  · exact scan_other hbegin
  · exact scan_comment hbegin hrest

theorem findTemplate_of_skips (h : Skips text rest) : findTemplate text = findTemplate rest := by
  obtain ⟨c, rfl, hbegin⟩ | ⟨hbegin, hrest⟩ := skips_iff.mp h
  · exact findTemplate_pass hbegin
  · rw [findTemplate_comment hbegin, hrest, Option.elim_some]

/-! ## The tags in a block -/

inductive BlockTag where
  | opening (name : String) (selfClosing : Bool)
  | closing (name : String)

namespace BlockTag

/-- A template tag that has to be closed. -/
def opens : BlockTag → Bool
  | opening name selfClosing => isTemplateName name && !selfClosing
  | closing _ => false

def closes : BlockTag → Bool
  | opening _ _ => false
  | closing name => isTemplateName name

end BlockTag

/-- The tags from the one text on to the other, in order. -/
inductive TagsTo : List Char → List BlockTag → List Char → Prop
  | here {text : List Char} : TagsTo text [] text
  | skip {text rest place : List Char} {tags : List BlockTag} : Skips text rest →
      TagsTo rest tags place → TagsTo text tags place
  | opening {name : String} {selfClosing : Bool} {text rest place : List Char}
      {tags : List BlockTag} : Opens name selfClosing text rest → TagsTo rest tags place →
        TagsTo text (.opening name selfClosing :: tags) place
  | closing {name : String} {text rest place : List Char} {tags : List BlockTag} :
      IsClosingTag name text rest → TagsTo rest tags place →
        TagsTo text (.closing name :: tags) place

/-- The tags close each template tag that they open and `depth` more, and at no time has a tag been
closed that was not open. -/
structure BalancesFrom (depth : Nat) (tags : List BlockTag) : Prop where
  front : ∀ front, front <+: tags →
    front.countP BlockTag.closes ≤ depth + front.countP BlockTag.opens
  all : tags.countP BlockTag.closes = depth + tags.countP BlockTag.opens

section Counting

variable {depth : Nat} {tag : BlockTag} {tags : List BlockTag}

theorem balancesFrom_nil : BalancesFrom depth [] ↔ depth = 0 := by
  constructor
  · exact fun h => h.all.symm
  · rintro rfl
    refine ⟨fun front hfront => ?_, rfl⟩
    rw [List.prefix_nil.mp hfront]
    exact Nat.le_refl _

theorem countP_cons_toNat {α : Type} (p : α → Bool) (a : α) (as : List α) :
    (a :: as).countP p = (p a).toNat + as.countP p := by
  rw [List.countP_cons, Nat.add_comm]
  cases p a with
  | true => rfl
  | false => rfl

/-- A tag closes one of those that are open, itself included, and leaves the others to the rest. -/
theorem balancesFrom_cons : BalancesFrom depth (tag :: tags) ↔
    tag.closes.toNat ≤ depth + tag.opens.toNat ∧
      BalancesFrom (depth + tag.opens.toNat - tag.closes.toNat) tags := by
  constructor
  · intro h
    have hfirst := h.front [tag] (List.prefix_append [tag] tags)
    have hall := h.all
    simp only [countP_cons_toNat, List.countP_nil] at hfirst hall
    refine ⟨by omega, fun front hfront => ?_, by omega⟩
    have hnext := h.front (tag :: front) ((List.prefix_cons_inj tag).mpr hfront)
    simp only [countP_cons_toNat] at hnext
    omega
  · rintro ⟨hfirst, h⟩
    have hall := h.all
    refine ⟨fun front hfront => ?_, ?_⟩
    · obtain rfl | ⟨later, rfl, hlater⟩ := List.prefix_cons_iff.mp hfront
      · exact Nat.zero_le _
      · have hnext := h.front later hlater
        simp only [countP_cons_toNat]
        omega
    · simp only [countP_cons_toNat]
      omega

end Counting

/-! ## The content of the template -/

theorem matchingClose?_opening (depth : Nat) (tag : OpenTag) (place : List Char)
    (tokens : List Token) : matchingClose? depth (.opening tag place :: tokens) =
      matchingClose? (depth + tag.opensTemplate.toNat) tokens := by
  rw [matchingClose?]
  cases tag.opensTemplate with
  | true => rfl
  | false => rfl

theorem matchingClose?_closing_iff {depth : Nat} {tokens : List Token} :
    matchingClose? depth (.closing name place :: tokens) = some close ↔
      (isTemplateName name = true ∧ depth = 0 ∧ place = close) ∨
        (isTemplateName name).toNat ≤ depth ∧
          matchingClose? (depth - (isTemplateName name).toNat) tokens = some close := by
  rw [matchingClose?.eq_def]
  cases depth with
  | zero => cases hname : isTemplateName name <;> simp [hname]
  | succ depth => cases hname : isTemplateName name <;> simp [hname]

/-- The closing tag that matches, by the counting of the tokens, is one up to which the template
tags balance. -/
theorem exists_tagsTo_of_matchingClose? {depth : Nat}
    (h : matchingClose? depth (scan .block text).tokens = some close) :
    ∃ tags, TagsTo text tags close ∧ BalancesFrom depth tags ∧ ClosesTemplate close := by
  -- Behind a fault there is no token, and in a block there is neither an interpolation nor raw text
  -- to pass over, so that tags and what `Skips` allows are all that is left.
  generalize hscope : Scope.block = scope at h
  fun_induction scan scope text generalizing depth with
  | case1 => cases h
  | case2 => cases h
  | case3 scope c cs hbegin rest hrest ih =>
    obtain ⟨tags, htags, hclose⟩ := ih hscope h
    exact ⟨tags, .skip (skips_comment hbegin hrest) htags, hclose⟩
  | case4 => cases hscope
  | case5 c cs hbegin ih =>
    obtain ⟨tags, htags, hclose⟩ := ih rfl h
    exact ⟨tags, .skip (skips_char (.inl hbegin)) htags, hclose⟩
  | case6 => cases h
  | case7 scope c cs hbegin name rest hread ih =>
    have htag : IsClosingTag name (c :: cs) rest := isClosingTag_iff.mpr ⟨hbegin, hread⟩
    obtain ⟨hname, rfl, rfl⟩ | ⟨hopen, h⟩ := matchingClose?_closing_iff.mp h
    · exact ⟨[], .here, balancesFrom_nil.mpr rfl, name, rest, htag, hname⟩
    · obtain ⟨tags, htags, hbalance, hclose⟩ := ih hscope h
      exact ⟨.closing name :: tags, .closing htag htags,
        balancesFrom_cons.mpr ⟨hopen, hbalance⟩, hclose⟩
  | case8 => cases h
  | case9 scope c cs _ tag rest _ problem hafter =>
    subst hscope
    cases (show Except.ok rest = Except.error problem from hafter)
  | case10 scope c cs hbegin tag rest hread after hafter ih =>
    subst hscope
    obtain rfl : rest = after := Except.ok.inj hafter
    have htag : Opens tag.name tag.selfClosing (c :: cs) rest :=
      opens_iff.mpr ⟨hbegin, tag.attributes, hread⟩
    obtain ⟨tags, htags, hbalance, hclose⟩ :=
      ih rfl ((matchingClose?_opening depth tag (c :: cs) _).symm.trans h)
    exact ⟨.opening tag.name tag.selfClosing :: tags, .opening htag htags,
      balancesFrom_cons.mpr ⟨Nat.zero_le _, hbalance⟩, hclose⟩
  | case11 scope c cs hbegin ih =>
    obtain ⟨tags, htags, hclose⟩ := ih hscope h
    exact ⟨tags, .skip (skips_char (.inr hbegin)) htags, hclose⟩

theorem matchingClose?_of_tagsTo {depth : Nat} {tags : List BlockTag}
    (h : TagsTo text tags close) (hbalance : BalancesFrom depth tags)
    (hclose : ClosesTemplate close) :
    matchingClose? depth (scan .block text).tokens = some close := by
  induction h generalizing depth with
  | here =>
    obtain ⟨name, rest, htag, hname⟩ := hclose
    obtain ⟨hbegin, hread⟩ := isClosingTag_iff.mp htag
    rw [scan_closing hbegin hread]
    exact matchingClose?_closing_iff.mpr (.inl ⟨hname, balancesFrom_nil.mp hbalance, rfl⟩)
  | skip hskips _ ih =>
    rw [scan_of_skips hskips]
    exact ih hbalance hclose
  | opening htag _ ih =>
    obtain ⟨hbegin, attributes, hread⟩ := opens_iff.mp htag
    rw [scan_opening hbegin hread rfl]
    exact (matchingClose?_opening depth _ _ _).trans (ih (balancesFrom_cons.mp hbalance).2 hclose)
  | closing htag _ ih =>
    obtain ⟨hbegin, hread⟩ := isClosingTag_iff.mp htag
    obtain ⟨hopen, hbalance⟩ := balancesFrom_cons.mp hbalance
    rw [scan_closing hbegin hread]
    exact matchingClose?_closing_iff.mpr (.inr ⟨hopen, ih hbalance hclose⟩)

theorem TagsTo.suffix {tags : List BlockTag} (h : TagsTo text tags place) : place <:+ text := by
  induction h with
  | here => exact List.suffix_rfl
  | skip hskips _ ih => exact ih.trans hskips.suffix
  | opening htag _ ih => exact ih.trans htag.suffix
  | closing htag _ ih => exact ih.trans htag.suffix

/-- The content of a template block is what stands in front of the closing tag that matches. -/
def IsContent (content inner : List Char) : Prop :=
  ∃ post tags, content = inner ++ post ∧ TagsTo content tags post ∧ BalancesFrom 0 tags ∧
    ClosesTemplate post

theorem isContent_iff : IsContent content inner ↔ templateContent place content = .ok inner := by
  constructor
  · rintro ⟨post, tags, rfl, htags, hbalance, hclose⟩
    rw [templateContent, matchingClose?_of_tagsTo htags hbalance hclose]
    simp
  · intro h
    rw [templateContent] at h
    split at h
    · rename_i close hmatch
      cases h
      obtain ⟨tags, htags, hbalance, hclose⟩ := exists_tagsTo_of_matchingClose? hmatch
      obtain ⟨inner, hinner⟩ := htags.suffix
      refine ⟨close, tags, ?_, htags, hbalance, hclose⟩
      rw [← hinner, List.length_append, Nat.add_sub_cancel, List.take_left]
    · cases h
    · cases h

/-! ## In front of the template -/

/-- Outside of the template reading goes on from the one text to the other, past what is no template
tag: a block is passed over as a whole. -/
inductive Passes : List Char → List Char → Prop
  | here {text : List Char} : Passes text text
  | skip {text rest place : List Char} : Skips text rest → Passes rest place → Passes text place
  | closing {name : String} {text rest place : List Char} : IsClosingTag name text rest →
      Passes rest place → Passes text place
  | selfClosing {name : String} {text rest place : List Char} : Opens name true text rest →
      isTemplateName name = false → Passes rest place → Passes text place
  | block {name : String} {text inner rest place : List Char} : Opens name false text inner →
      isTemplateName name = false → RawText name inner rest → Passes rest place →
        Passes text place

theorem afterBlock_iff {tag : OpenTag} (hname : ∀ c ∈ tag.name.toList, isNameChar c = true) :
    afterBlock tag place inner = .ok rest ↔ RawText tag.name inner rest := by
  rw [@rawText_iff tag hname place inner rest, afterBlock_eq, afterRawText_eq, afterContent,
    afterContent]
  cases findClosing? tag.name inner with
  | none => simp
  | some close => rfl

theorem Passes.suffix (h : Passes text place) : place <:+ text := by
  induction h with
  | here => exact List.suffix_rfl
  | skip hskips _ ih => exact ih.trans hskips.suffix
  | closing htag _ ih => exact ih.trans htag.suffix
  | selfClosing htag _ _ ih => exact ih.trans htag.suffix
  | block htag _ hraw _ ih => exact (ih.trans hraw.suffix).trans htag.suffix

theorem findTemplate_of_passes (h : Passes text place) :
    findTemplate text = findTemplate place := by
  induction h with
  | here => rfl
  | skip hskips _ ih => exact (findTemplate_of_skips hskips).trans ih
  | closing htag _ ih =>
    obtain ⟨hbegin, hread⟩ := isClosingTag_iff.mp htag
    rw [findTemplate_closing hbegin, hread]
    exact ih
  | selfClosing htag hname _ ih =>
    obtain ⟨hbegin, attributes, hread⟩ := opens_iff.mp htag
    rw [findTemplate_opening hbegin, hread]
    simp only [hname]
    exact ih
  | @block name text inner rest place htag hname hraw _ ih =>
    obtain ⟨hbegin, attributes, hread⟩ := opens_iff.mp htag
    have hafter : afterBlock ⟨name, attributes, false⟩ text inner = .ok rest :=
      (afterBlock_iff htag.isNameChar).mpr hraw
    rw [findTemplate_opening hbegin, hread]
    simp only [hname, hafter]
    exact ih

/-- A template with the content begins here. -/
inductive IsTemplate : List Char → List Char → Prop
  | selfClosing {name : String} {text rest : List Char} : Opens name true text rest →
      isTemplateName name = true → IsTemplate text []
  | block {name : String} {text content inner : List Char} : Opens name false text content →
      isTemplateName name = true → IsContent content inner → IsTemplate text inner

theorem findTemplate_of_isTemplate (h : IsTemplate text inner) :
    findTemplate text = .ok (some inner) := by
  cases h with
  | selfClosing htag hname =>
    obtain ⟨hbegin, attributes, hread⟩ := opens_iff.mp htag
    rw [findTemplate_opening hbegin, hread]
    simp only [hname]
    rfl
  | block htag hname hcontent =>
    obtain ⟨hbegin, attributes, hread⟩ := opens_iff.mp htag
    rw [findTemplate_opening hbegin, hread]
    simp only [hname, isContent_iff.mp hcontent]
    rfl

theorem exists_isTemplate_of_findTemplate (h : findTemplate text = .ok (some inner)) :
    ∃ place, Passes text place ∧ IsTemplate place inner := by
  fun_induction findTemplate text with
  | case1 => cases h
  | case2 => cases h
  | case3 c cs hbegin rest hrest ih =>
    obtain ⟨place, hpasses, htemplate⟩ := ih h
    exact ⟨place, .skip (skips_comment hbegin hrest) hpasses, htemplate⟩
  | case4 => cases h
  | case5 c cs hbegin name rest hread ih =>
    obtain ⟨place, hpasses, htemplate⟩ := ih h
    exact ⟨place, .closing (isClosingTag_iff.mpr ⟨hbegin, hread⟩) hpasses, htemplate⟩
  | case6 => cases h
  | case7 c cs hbegin tag rest hread hname hself =>
    cases h
    have htag := opens_iff.mpr ⟨hbegin, tag.attributes, hread⟩
    rw [hself] at htag
    exact ⟨_, .here, .selfClosing htag hname⟩
  | case8 c cs hbegin tag rest hread hname hself =>
    have htag := opens_iff.mpr ⟨hbegin, tag.attributes, hread⟩
    rw [eq_false_of_ne_true hself] at htag
    cases hcontent : templateContent (c :: cs) rest with
    | error problem =>
      rw [hcontent] at h
      cases h
    | ok content =>
      rw [hcontent] at h
      cases h
      exact ⟨_, .here, .block htag hname (isContent_iff.mpr hcontent)⟩
  | case9 c cs hbegin tag rest hread hname hself ih =>
    have htag := opens_iff.mpr ⟨hbegin, tag.attributes, hread⟩
    rw [hself] at htag
    obtain ⟨place, hpasses, htemplate⟩ := ih h
    exact ⟨place, .selfClosing htag (eq_false_of_ne_true hname) hpasses, htemplate⟩
  | case10 => cases h
  | case11 c cs hbegin tag rest hread hname hself after hafter ih =>
    have htag := opens_iff.mpr ⟨hbegin, tag.attributes, hread⟩
    have hraw := (afterBlock_iff htag.isNameChar).mp hafter
    rw [eq_false_of_ne_true hself] at htag
    obtain ⟨place, hpasses, htemplate⟩ := ih h
    exact ⟨place, .block htag (eq_false_of_ne_true hname) hraw hpasses, htemplate⟩
  | case12 c cs hbegin ih =>
    obtain ⟨place, hpasses, htemplate⟩ := ih h
    exact ⟨place, .skip (skips_char (.inl hbegin)) hpasses, htemplate⟩
  | case13 c cs hbegin ih =>
    obtain ⟨place, hpasses, htemplate⟩ := ih h
    exact ⟨place, .skip (skips_char (.inr hbegin)) hpasses, htemplate⟩

theorem findTemplate_eq_some_iff : findTemplate text = .ok (some inner) ↔
    ∃ place, Passes text place ∧ IsTemplate place inner := by
  refine ⟨exists_isTemplate_of_findTemplate, ?_⟩
  rintro ⟨place, hpasses, htemplate⟩
  rw [findTemplate_of_passes hpasses, findTemplate_of_isTemplate htemplate]

theorem template?_eq_some_iff_findTemplate {source t : String} :
    template? source = .ok (some t) ↔ findTemplate source.toList = .ok (some t.toList) := by
  rw [template?]
  cases findTemplate source.toList with
  | error problem => simp
  | ok content =>
    cases content with
    | none => simp
    | some inner => simp [← String.toList_inj]

/-- **The template is the block that matches.** A component has a template just if no fault stands
in front of its first template tag and that tag either closes itself, which makes the template
empty, or is closed. The template is then the text between the tag and the closing tag up to which
the template tags balance, and a fault behind that makes no difference. -/
theorem template?_eq_some_iff {source t : String} :
    template? source = .ok (some t) ↔
      (∃ place name rest, Passes source.toList place ∧ Opens name true place rest ∧
        isTemplateName name = true ∧ t = "") ∨
      ∃ front tag name post tags,
        source.toList = front ++ (tag ++ '>' :: (t.toList ++ post)) ∧
        Passes source.toList (tag ++ '>' :: (t.toList ++ post)) ∧
        Opens name false (tag ++ '>' :: (t.toList ++ post)) (t.toList ++ post) ∧
        isTemplateName name = true ∧
        TagsTo (t.toList ++ post) tags post ∧ BalancesFrom 0 tags ∧ ClosesTemplate post := by
  rw [template?_eq_some_iff_findTemplate, findTemplate_eq_some_iff]
  constructor
  · rintro ⟨place, hpasses, htemplate⟩
    generalize hinner : t.toList = inner at htemplate ⊢
    cases htemplate with
    | selfClosing htag hname =>
      exact .inl ⟨place, _, _, hpasses, htag, hname, String.toList_eq_nil_iff.mp hinner⟩
    | block htag hname hcontent =>
      obtain ⟨post, tags, rfl, htags, hbalance, hclose⟩ := hcontent
      obtain ⟨tag, rfl⟩ := htag.exists_bracket
      obtain ⟨front, hfront⟩ := hpasses.suffix
      exact .inr ⟨front, tag, _, post, tags, hfront.symm, hpasses, htag, hname, htags, hbalance,
        hclose⟩
  · rintro (⟨place, name, rest, hpasses, htag, hname, rfl⟩ |
      ⟨front, tag, name, post, tags, -, hpasses, htag, hname, htags, hbalance, hclose⟩)
    · exact ⟨place, hpasses, .selfClosing htag hname⟩
    · exact ⟨_, hpasses, .block htag hname ⟨post, tags, rfl, htags, hbalance, hclose⟩⟩

/-- Template tags are counted in any mixture of cases, but not in values and comments, and not if
they close themselves. -/
example :
    template? "<Template><b title='<template>'/><template #a/><!-- <template> --></TEMPLATE>" =
      .ok (some "<b title='<template>'/><template #a/><!-- <template> -->") := by
  decide +kernel

end ComponentGraph.Markup
