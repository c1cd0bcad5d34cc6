import ComponentGraph.Proofs.Positions
import ComponentGraph.Proofs.Scanning
import ComponentGraph.Proofs.Spellings
/-!
# Reading tags by bytes

At a position between two characters every reader of bytes says what the reader of characters says
of the rest of the text there, and goes on where that one does. So none of its slices is out of the
text or cuts a character, and its loops move on.
-/

namespace ComponentGraph.Markup

open Text (isMarkupBlank)

/-! ## What is left of a text -/

section Suffixes

variable {cs rest mark : List Char}

theorem suffix_of_dropWhile {p : Char → Bool} {c : Char} (h : cs.dropWhile p = c :: rest) :
    rest <:+ cs :=
  (h ▸ List.suffix_cons c rest).trans (List.dropWhile_suffix p)

theorem behind?_suffix (h : behind? mark cs = some rest) : rest <:+ cs := by
  induction cs with
  | nil => cases h
  | cons c cs ih =>
    rw [behind?] at h
    split at h
    · cases h
      exact List.drop_suffix _ _
    · exact (ih h).trans (List.suffix_cons c cs)

theorem afterComment?_reads (hbegin : beginning cs = .comment)
    (h : afterComment? cs = some rest) : rest <:+ cs ∧ rest.length < cs.length := by
  obtain ⟨text, rfl⟩ := eq_of_beginning_comment hbegin
  exact ⟨(behind?_suffix h).trans (List.drop_suffix 4 _),
    Nat.lt_succ_of_le (length_afterComment? h)⟩

theorem afterInterpolation_reads (hbegin : beginning cs = .interpolation) :
    afterInterpolation cs <:+ cs ∧ (afterInterpolation cs).length < cs.length := by
  obtain ⟨text, rfl⟩ := eq_of_beginning_interpolation hbegin
  refine ⟨?_, Nat.lt_succ_of_le (length_afterInterpolation _ _)⟩
  show (behind? ['}', '}'] text).getD [] <:+ _
  cases h : behind? ['}', '}'] text with
  | none => exact List.nil_suffix
  | some rest => exact (behind?_suffix h).trans (List.suffix_append ['{', '{'] text)

theorem readAttributeName_suffix (cs : List Char) : (readAttributeName cs).2 <:+ cs := by
  cases cs with
  | nil => exact List.suffix_rfl
  | cons c cs =>
    rw [readAttributeName]
    split
    · exact (List.dropWhile_suffix _).trans (List.suffix_cons c cs)
    · exact List.suffix_cons c cs

theorem readValue?_suffix {value : String} (h : readValue? cs = some (value, rest)) :
    rest <:+ cs := by
  cases cs with
  | nil =>
    cases h
    exact List.suffix_rfl
  | cons c cs =>
    rw [readValue?] at h
    split at h
    · split at h
      · cases h
      · rename_i hdrop
        cases h
        exact (suffix_of_dropWhile hdrop).trans (List.suffix_cons c cs)
    · cases h
      exact List.dropWhile_suffix _

theorem readAttribute?_suffix {a : Attribute} (h : readAttribute? cs = some (a, rest)) :
    rest <:+ cs := by
  have hblank : (readAttributeName cs).2.dropWhile isMarkupBlank <:+ cs :=
    (List.dropWhile_suffix _).trans (readAttributeName_suffix cs)
  simp only [readAttribute?] at h
  split at h
  · rename_i after hdrop
    obtain ⟨⟨value, rest'⟩, hvalue, heq⟩ := Option.map_eq_some_iff.mp h
    cases heq
    have hafter : after <:+ cs := (List.suffix_cons '=' after).trans (hdrop ▸ hblank)
    exact ((readValue?_suffix hvalue).trans (List.dropWhile_suffix _)).trans hafter
  · cases h
    exact hblank

/-- Behind an attribute there is less of the text than before it. -/
theorem readAttribute?_reads {c : Char} {after next : List Char} {a : Attribute}
    (hdrop : cs.dropWhile isMarkupBlank = c :: after)
    (hread : readAttribute? (c :: after) = some (a, next)) :
    next <:+ cs ∧ next.length < cs.length := by
  have hblank : c :: after <:+ cs := hdrop ▸ List.dropWhile_suffix isMarkupBlank
  exact ⟨(readAttribute?_suffix hread).trans hblank,
    Nat.lt_of_lt_of_le (Nat.lt_succ_of_le (length_readAttribute? hread)) hblank.length_le⟩

theorem readAttributes_suffix {tag : String} {attributes : List Attribute} {selfClosing : Bool}
    (h : readAttributes tag cs = .ok (attributes, selfClosing, rest)) : rest <:+ cs := by
  fun_induction readAttributes tag cs generalizing attributes selfClosing rest with
  | case1 => cases h
  | case2 cs after hdrop =>
    cases h
    exact suffix_of_dropWhile hdrop
  | case3 cs after hdrop =>
    cases h
    exact (List.suffix_cons '>' _).trans (suffix_of_dropWhile hdrop)
  | case4 cs after _ hdrop ih => exact (ih h).trans (suffix_of_dropWhile hdrop)
  | case5 => cases h
  | case6 => cases h
  | case7 cs c after _ _ _ hdrop a next hread attributes' selfClosing' rest' heq ih =>
    cases h
    have hnext := readAttribute?_suffix hread
    exact ((ih heq).trans hnext).trans (hdrop ▸ List.dropWhile_suffix isMarkupBlank)

theorem readOpenTag_suffix {tag : OpenTag} (h : readOpenTag cs = .ok (tag, rest)) :
    rest <:+ cs := by
  simp only [readOpenTag] at h
  split at h
  · cases h
  · rename_i heq
    cases h
    exact ((readAttributes_suffix heq).trans (List.dropWhile_suffix _)).trans
      (List.drop_suffix 1 cs)

theorem readCloseTag_suffix {name : String} (h : readCloseTag cs = .ok (name, rest)) :
    rest <:+ cs := by
  simp only [readCloseTag] at h
  split at h
  · cases h
  · rename_i hdrop
    cases h
    exact ((suffix_of_dropWhile hdrop).trans (List.dropWhile_suffix _)).trans
      (List.drop_suffix 2 cs)

theorem findClosing?_suffix {name : String} (h : findClosing? name cs = some rest) :
    rest <:+ cs := by
  induction cs with
  | nil => cases h
  | cons c cs ih =>
    rw [findClosing?] at h
    split at h
    · cases h
      exact List.suffix_rfl
    · exact (ih h).trans (List.suffix_cons c cs)

end Suffixes

namespace Cursor

open Text

/-! ## Classes of bytes -/

theorem isClassOf_blank : IsClassOf isBlankByte isMarkupBlank :=
  ((((isClassOf_eq (by decide)).or (isClassOf_eq (by decide))).or (isClassOf_eq (by decide))).or
    (isClassOf_eq (by decide))).or (isClassOf_eq (by decide))

theorem isClassOf_name : IsClassOf isNameByte isNameChar :=
  ((isClassOf_blank.or (isClassOf_eq (by decide))).or (isClassOf_eq (by decide))).not

theorem isClassOf_attributeName : IsClassOf isAttributeNameByte isAttributeNameChar :=
  isClassOf_name.and (isClassOf_ne (by decide))

theorem isClassOf_unquoted : IsClassOf isUnquotedByte isUnquotedChar :=
  (isClassOf_blank.or (isClassOf_eq (by decide))).not

theorem isClassOf_alpha : IsClassOf isAlphaByte Char.isAlpha := by
  have hclass := (isClassOf_between (show 'A'.toNat < 128 by decide)
    (show 'Z'.toNat < 128 by decide)).or (isClassOf_between (show 'a'.toNat < 128 by decide)
    (show 'z'.toNat < 128 by decide))
  intro c b hb
  refine (hclass c b hb).trans ?_
  show _ = (decide ('A' ≤ c ∧ c ≤ 'Z') || (decide ('a' ≤ c) && decide (c ≤ 'z')))
  rw [Bool.decide_and]

/-! ## What stands at a position -/

section Places

variable {source rest : List Char}

theorem head?_position (h : rest <:+ source) :
    (bytes source)[position source rest]? = (bytes rest).head? := by
  rw [← Nat.add_zero (position source rest), getElem?_position h, List.head?_eq_getElem?]

theorem atCloseTag_position (h : rest <:+ source) :
    atCloseTag (bytes source) (position source rest) =
      .ok (['<', '/'].isPrefixOf rest && (rest.drop 2).head?.any Char.isAlpha) := by
  rw [atCloseTag, startsWith_position h]
  show Except.ok (_ && _) = _
  cases hmark : ['<', '/'].isPrefixOf rest with
  | false => rw [Bool.false_and, Bool.false_and]
  | true =>
    obtain ⟨cs, rfl⟩ := List.isPrefixOf_iff_prefix.mp hmark
    have hcs : cs <:+ source := (List.suffix_append _ cs).trans h
    have hpos : position source (['<', '/'] ++ cs) + 2 = position source cs := position_add h
    rw [hpos, head?_position hcs, head?_bytes_any isClassOf_alpha]
    rfl

theorem atOpenTag_position (h : rest <:+ source) :
    atOpenTag (bytes source) (position source rest) =
      (decide (rest.head? = some '<') && (rest.drop 1).head?.any Char.isAlpha) := by
  rw [atOpenTag, head?_position h]
  by_cases hmark : rest.head? = some '<'
  · obtain ⟨cs, rfl⟩ := List.head?_eq_some_iff.mp hmark
    have hcs : cs <:+ source := (List.suffix_cons _ cs).trans h
    rw [position_succ (by decide) h, head?_position hcs, head?_bytes_any isClassOf_alpha]
    rfl
  · have hbyte : (bytes rest).head? ≠ some '<'.toUInt8 :=
      mt (head?_bytes_eq_iff (by decide) rest).mp hmark
    rw [decide_eq_false hmark, decide_eq_false hbyte, Bool.false_and, Bool.false_and]

theorem beginning_position (h : rest <:+ source) :
    beginning (bytes source) (position source rest) = .ok (Markup.beginning rest) := by
  rw [beginning, startsWith_position h, startsWith_position h, atCloseTag_position h,
    atOpenTag_position h, beginning_eq]
  simp only [ok_bind, apply_ite Except.ok]

theorem skipComment_position (h : rest <:+ source) (hbegin : Markup.beginning rest = .comment) :
    skipComment (bytes source) (position source rest) =
      match afterComment? rest with
      | none => .error (.fault (Problem.toError ⟨.unterminatedComment, rest⟩ source))
      | some after => .ok (position source after) := by
  obtain ⟨cs, rfl⟩ := eq_of_beginning_comment hbegin
  have hcs : cs <:+ source := (List.suffix_append ['<', '!', '-', '-'] cs).trans h
  have hpos : position source ('<' :: '!' :: '-' :: '-' :: cs) + 4 = position source cs :=
    @position_add source cs ['<', '!', '-', '-'] h
  rw [skipComment, hpos, sliceText_rest hcs, ok_bind]
  show _ = match behind? ['-', '-', '>'] cs with | none => _ | some after => _
  cases hbehind : behind? ['-', '-', '>'] cs with
  | none =>
    rw [find?_bytes_none (by decide) hbehind]
    exact fail_position h _
  | some after =>
    obtain ⟨offset, hfind, hafter⟩ := position_behind? (by decide) hcs hbehind
    rw [hfind]
    show Except.ok _ = Except.ok _
    rw [← hafter, ← hpos]
    congr 1
    show _ = _ + (offset + 3)
    omega

/-- A comment is passed over, if it ends. -/
theorem keeps_comment {σ τ ρ : Type} {encode : τ → σ} {said : List Char → τ → Run ρ} {t : τ}
    (h : rest <:+ source) (hbegin : Markup.beginning rest = .comment)
    (hstop : afterComment? rest = none →
      said rest t = .error (.fault (Problem.toError ⟨.unterminatedComment, rest⟩ source)))
    (hnext : ∀ after, afterComment? rest = some after → said rest t = said after t) :
    Keeps source encode said rest t
      (skipComment (bytes source) (position source rest) >>= fun next =>
        .ok (.again next (encode t))) := by
  rw [skipComment_position h hbegin]
  cases hcomment : afterComment? rest with
  | none => exact .halt (hstop hcomment)
  | some after =>
    obtain ⟨hafter, hlt⟩ := afterComment?_reads hbegin hcomment
    exact .again hafter hlt (hnext after hcomment)

theorem skipInterpolation_position (h : rest <:+ source)
    (hbegin : Markup.beginning rest = .interpolation) :
    skipInterpolation (bytes source) (position source rest) =
      .ok (position source (afterInterpolation rest)) := by
  obtain ⟨cs, rfl⟩ := eq_of_beginning_interpolation hbegin
  have hcs : cs <:+ source := (List.suffix_append ['{', '{'] cs).trans h
  have hpos : position source ('{' :: '{' :: cs) + 2 = position source cs :=
    @position_add source cs ['{', '{'] h
  rw [skipInterpolation, hpos, sliceText_rest hcs, ok_bind]
  show _ = Except.ok (position source ((behind? ['}', '}'] cs).getD []))
  cases hbehind : behind? ['}', '}'] cs with
  | none => rw [find?_bytes_none (by decide) hbehind, Option.getD_none, position_nil]
  | some after =>
    obtain ⟨offset, hfind, hafter⟩ := position_behind? (by decide) hcs hbehind
    rw [hfind, Option.getD_some, ← hafter, ← hpos]
    show Except.ok _ = Except.ok (_ + (offset + 2))
    congr 1
    omega

end Places

/-! ## Tags -/

section Tags

variable {source rest cs place : List Char}

/-- What a reader of characters says of a place, as a reader of bytes says it: a fault with the line
of the place, and the rest of the text as a position. -/
def located {α : Type} (source place : List Char) : Except Fault (α × List Char) → Run (α × Nat)
  | .error fault => .error (.fault (Problem.toError ⟨fault, place⟩ source))
  | .ok (a, rest) => .ok (a, position source rest)

theorem text_takeWhile (q : Char → Bool) (h : rest <:+ source) :
    text (bytes source) (position source rest) (position source (rest.dropWhile q)) =
      .ok (String.ofList (rest.takeWhile q)) := by
  have htext := @text_position source (rest.dropWhile q) (rest.takeWhile q)
    (by rwa [List.takeWhile_append_dropWhile])
  rwa [List.takeWhile_append_dropWhile] at htext

theorem readName_position (h : rest <:+ source) :
    readName (bytes source) (position source rest) =
      .ok (String.ofList (rest.takeWhile isNameChar),
        position source (rest.dropWhile isNameChar)) := by
  rw [readName, skipWhile_position isClassOf_name h, ok_bind, text_takeWhile isNameChar h, ok_bind]

theorem readCloseTag_position (h : '<' :: '/' :: cs <:+ source) :
    readCloseTag (bytes source) (position source ('<' :: '/' :: cs)) =
      located source ('<' :: '/' :: cs) (Markup.readCloseTag ('<' :: '/' :: cs)) := by
  have hcs : cs <:+ source := (List.suffix_append ['<', '/'] cs).trans h
  have hpos : position source ('<' :: '/' :: cs) + 2 = position source cs :=
    @position_add source cs ['<', '/'] h
  have hname : cs.dropWhile isNameChar <:+ source := (List.dropWhile_suffix _).trans hcs
  have htail : ('<' :: '/' :: cs).drop 2 = cs := rfl
  rw [readCloseTag, hpos, readName_position hcs, ok_bind, Markup.readCloseTag]
  dsimp only
  rw [htail, slice_rest hname, ok_bind]
  cases hdrop : (cs.dropWhile isNameChar).dropWhile (· ≠ '>') with
  | nil =>
    rw [findIdx?_bytes (by decide), if_pos hdrop]
    exact fail_position h _
  | cons c after =>
    obtain ⟨offset, hfind, hfound, hafter⟩ := position_findIdx? (by decide) hname hdrop
    rw [hfind]
    show Except.ok (_, _ + offset + 1) = Except.ok _
    rw [hfound, hafter]

theorem isClassOf_quote : IsClassOf (fun b => b = '"'.toUInt8 || b = '\''.toUInt8)
    fun c => c = '"' || c = '\'' :=
  (isClassOf_eq (by decide)).or (isClassOf_eq (by decide))

theorem readValue_position (tag : String) (hplace : place <:+ source) (h : rest <:+ source) :
    readValue (bytes source) (position source place) tag (position source rest) =
      located source place
        ((readValue? rest).elim (.error (.unterminatedValue tag)) Except.ok) := by
  rw [readValue, head?_position h]
  cases rest with
  | nil =>
    show (skipWhile _ _ _ >>= _) = _
    rw [skipWhile_position isClassOf_unquoted h, ok_bind, text_takeWhile isUnquotedChar h, ok_bind]
    rfl
  | cons c cs =>
    have hcs : cs <:+ source := (List.suffix_cons c cs).trans h
    obtain ⟨b, bs, hbytes, -⟩ := utf8EncodeChar_eq_cons c
    have hclass : (decide (b = '"'.toUInt8) || decide (b = '\''.toUInt8)) =
        (decide (c = '"') || decide (c = '\'')) :=
      isClassOf_quote c b (hbytes ▸ List.mem_cons_self)
    rw [readValue?, bytes_cons, hbytes, List.cons_append, List.head?_cons, Option.filter_some,
      hclass]
    by_cases hquote : (decide (c = '"') || decide (c = '\'')) = true
    · have hc : c.toNat < 128 := by
        rw [Bool.or_eq_true, decide_eq_true_eq, decide_eq_true_eq] at hquote
        rcases hquote with rfl | rfl <;> decide
      obtain rfl : b = c.toUInt8 := by
        rw [utf8EncodeChar_of_lt hc] at hbytes
        exact (List.cons.inj hbytes).1.symm
      rw [if_pos hquote, if_pos hquote]
      show (slice _ (position source (c :: cs) + 1) _ >>= _) = _
      rw [position_succ hc h, slice_rest hcs, ok_bind]
      cases hdrop : cs.dropWhile (· ≠ c) with
      | nil =>
        rw [findIdx?_bytes hc, if_pos hdrop]
        exact fail_position hplace _
      | cons d after =>
        obtain ⟨offset, hfind, hfound, hafter⟩ := position_findIdx? hc hcs hdrop
        rw [hfind]
        show (text _ _ (_ + offset) >>= fun value => .ok (value, _ + offset + 1)) = _
        rw [hfound, text_takeWhile _ hcs, ok_bind, hafter]
        rfl
    · rw [if_neg hquote, if_neg hquote]
      show (skipWhile _ _ _ >>= _) = _
      rw [skipWhile_position isClassOf_unquoted h, ok_bind, text_takeWhile isUnquotedChar h,
        ok_bind]
      rfl

/-- The name of an attribute ends where it does by characters, also if it is a stray equals sign. -/
theorem readAttributeName_position {c : Char} (h : c :: cs <:+ source)
    (hc : isAttributeNameChar c = true ∨ c = '=') :
    (if position source ((c :: cs).dropWhile isAttributeNameChar) = position source (c :: cs) then
        position source (c :: cs) + 1
      else position source ((c :: cs).dropWhile isAttributeNameChar)) =
        position source (readAttributeName (c :: cs)).2 ∧
      (readAttributeName (c :: cs)).1 ++ (readAttributeName (c :: cs)).2 = c :: cs := by
  cases hname : isAttributeNameChar c with
  | true =>
    rw [readAttributeName, if_pos hname, List.dropWhile_cons_of_pos hname]
    refine ⟨if_neg ?_, ?_⟩
    · have hsuffix : cs.dropWhile isAttributeNameChar <:+ cs := List.dropWhile_suffix _
      exact Nat.ne_of_gt (position_lt_position (hsuffix.trans (List.suffix_cons c cs))
        (Nat.lt_succ_of_le hsuffix.length_le) h)
    · rw [List.cons_append, List.takeWhile_append_dropWhile]
  | false =>
    obtain rfl : c = '=' := hc.resolve_left (ne_true_of_eq_false hname)
    rw [readAttributeName, if_neg (ne_true_of_eq_false hname),
      List.dropWhile_cons_of_neg (ne_true_of_eq_false hname), if_pos rfl]
    exact ⟨position_succ (by decide) h, rfl⟩

theorem readAttribute_position (tag : String) (hplace : place <:+ source) {c : Char}
    (h : c :: cs <:+ source) (hc : isAttributeNameChar c = true ∨ c = '=') :
    readAttribute (bytes source) (position source place) tag (position source (c :: cs)) =
      located source place
        ((readAttribute? (c :: cs)).elim (.error (.unterminatedValue tag)) Except.ok) := by
  obtain ⟨hstop, hsplit⟩ := readAttributeName_position h hc
  rw [readAttribute, readAttribute?, skipWhile_position isClassOf_attributeName h, ok_bind]
  simp only [hstop]
  generalize (readAttributeName (c :: cs)).1 = name at *
  generalize (readAttributeName (c :: cs)).2 = after at *
  rw [← hsplit] at h ⊢
  have hafter : after <:+ source := (List.suffix_append name after).trans h
  have hblank : after.dropWhile isMarkupBlank <:+ source := (List.dropWhile_suffix _).trans hafter
  rw [text_position h, ok_bind, skipWhile_position isClassOf_blank hafter, ok_bind,
    head?_position hblank]
  by_cases hequals : (after.dropWhile isMarkupBlank).head? = some '='
  · rw [if_pos ((head?_bytes_eq_iff (by decide) _).mpr hequals)]
    obtain ⟨rest, hrest⟩ := List.head?_eq_some_iff.mp hequals
    rw [hrest] at hblank ⊢
    have hsuffix : rest <:+ source := (List.suffix_cons '=' rest).trans hblank
    rw [position_succ (by decide) hblank, skipWhile_position isClassOf_blank hsuffix, ok_bind,
      readValue_position tag hplace ((List.dropWhile_suffix _).trans hsuffix)]
    show _ = located source place (((readValue? (rest.dropWhile isMarkupBlank)).map _).elim _ _)
    cases readValue? (rest.dropWhile isMarkupBlank) with
    | none => rfl
    | some value => rfl
  · rw [if_neg (mt (head?_bytes_eq_iff (by decide) _).mp hequals)]
    split
    · rename_i hrest
      exact absurd (congrArg List.head? hrest) hequals
    · rfl

theorem attributeTurn_nil (tag : String) (hplace : place <:+ source) (h : cs <:+ source)
    (hdrop : cs.dropWhile isMarkupBlank = []) (attributes : List Attribute) :
    attributeTurn (bytes source) (position source place) tag (position source cs) attributes =
      .error (.fault (Problem.toError ⟨.unterminatedTag tag, place⟩ source)) := by
  rw [attributeTurn, skipWhile_position isClassOf_blank h, ok_bind, hdrop,
    head?_position (List.nil_suffix)]
  exact fail_position hplace _

/-- What a turn over the attributes of a tag does, by characters. -/
theorem attributeTurn_cons (tag : String) (hplace : place <:+ source) (h : cs <:+ source)
    {c : Char} (hdrop : cs.dropWhile isMarkupBlank = c :: rest) (attributes : List Attribute) :
    attributeTurn (bytes source) (position source place) tag (position source cs) attributes =
      if c = '>' then .ok (.done (⟨tag, attributes, false⟩, position source rest))
      else if c = '/' then
        if rest.head? = some '>' then
          .ok (.done (⟨tag, attributes, true⟩, position source (rest.drop 1)))
        else .ok (.again (position source rest) attributes)
      else
        (readAttribute? (c :: rest)).elim
          (.error (.fault (Problem.toError ⟨.unterminatedValue tag, place⟩ source)))
          fun (a, after) => .ok (.again (position source after) (attributes ++ [a])) := by
  have htext : c :: rest <:+ source := hdrop ▸ (List.dropWhile_suffix isMarkupBlank).trans h
  have hrest : rest <:+ source := (List.suffix_cons c rest).trans htext
  have hblank : isMarkupBlank c = false := by
    have hhead := List.head?_dropWhile_not isMarkupBlank cs
    rwa [hdrop] at hhead
  obtain ⟨b, bs, hbytes, -⟩ := utf8EncodeChar_eq_cons c
  have hb : b ∈ String.utf8EncodeChar c := hbytes ▸ List.mem_cons_self
  rw [attributeTurn, skipWhile_position isClassOf_blank h, ok_bind, hdrop, head?_position htext,
    bytes_cons, hbytes, List.cons_append, List.head?_cons]
  simp only [byte_eq_iff hb (show '>'.toNat < 128 by decide),
    byte_eq_iff hb (show '/'.toNat < 128 by decide)]
  by_cases hangle : c = '>'
  · subst hangle
    rw [if_pos rfl, if_pos rfl, position_succ (by decide) htext]
  rw [if_neg hangle, if_neg hangle]
  by_cases hslash : c = '/'
  · subst hslash
    rw [if_pos rfl, if_pos rfl, position_succ (by decide) htext, head?_position hrest]
    simp only [head?_bytes_eq_iff (show '>'.toNat < 128 by decide)]
    by_cases hclose : rest.head? = some '>'
    · obtain ⟨after, rfl⟩ := List.head?_eq_some_iff.mp hclose
      have hpos : position source ('/' :: '>' :: after) + 2 = position source after :=
        @position_add source after ['/', '>'] htext
      rw [if_pos hclose, if_pos hclose, hpos]
      rfl
    · rw [if_neg hclose, if_neg hclose]
  · have hname : isAttributeNameChar c = true ∨ c = '=' := by
      rw [isAttributeNameChar, isNameChar, hblank]
      by_cases hequals : c = '='
      · exact .inr hequals
      · exact .inl (by simp [hangle, hslash, hequals])
    rw [if_neg hslash, if_neg hslash, readAttribute_position tag hplace htext hname]
    cases readAttribute? (c :: rest) with
    | none => rfl
    | some read => rfl

theorem readAttributes_position (tag : String) (hplace : place <:+ source) (h : cs <:+ source)
    (attributes : List Attribute) :
    loop (bytes source) (attributeTurn (bytes source) (position source place) tag)
        (position source cs) attributes =
      located source place ((readAttributes tag cs).map fun (more, selfClosing, rest) =>
        (⟨tag, attributes ++ more, selfClosing⟩, rest)) := by
  fun_induction readAttributes tag cs generalizing attributes with
  | case1 cs hdrop => exact loop_error (attributeTurn_nil tag hplace h hdrop attributes)
  | case2 cs after hdrop =>
    rw [loop_done (attributeTurn_cons tag hplace h hdrop attributes)]
    show _ = Except.ok (OpenTag.mk tag (attributes ++ []) false, position source after)
    rw [List.append_nil]
  | case3 cs after hdrop =>
    rw [loop_done (attributeTurn_cons tag hplace h hdrop attributes)]
    show _ = Except.ok (OpenTag.mk tag (attributes ++ []) true, position source after)
    rw [List.append_nil]
    rfl
  | case4 cs after hne hdrop ih =>
    have hafter : after <:+ cs := suffix_of_dropWhile hdrop
    have hlt : after.length < cs.length := by
      have hle := (List.dropWhile_suffix (l := cs) isMarkupBlank).length_le
      rwa [hdrop] at hle
    have hopen : after.head? ≠ some '>' := fun hhead => by
      obtain ⟨rest, rfl⟩ := List.head?_eq_some_iff.mp hhead
      exact hne rest rfl
    have hturn := attributeTurn_cons tag hplace h hdrop attributes
    rw [if_neg (by decide), if_pos rfl, if_neg hopen] at hturn
    rw [loop_position h hafter hlt hturn, ih (hafter.trans h)]
  | case5 cs c after hangle _ hslash hdrop hread =>
    have hturn := attributeTurn_cons tag hplace h hdrop attributes
    rw [if_neg hangle, if_neg hslash, hread] at hturn
    exact loop_error hturn
  | case6 cs c after hangle _ hslash hdrop a next hread fault heq ih =>
    obtain ⟨hnext, hlt⟩ := readAttribute?_reads hdrop hread
    have hturn := attributeTurn_cons tag hplace h hdrop attributes
    rw [if_neg hangle, if_neg hslash, hread] at hturn
    rw [loop_position h hnext hlt hturn, ih (hnext.trans h), heq]
    rfl
  | case7 cs c after hangle _ hslash hdrop a next hread attributes' selfClosing' rest' heq ih =>
    obtain ⟨hnext, hlt⟩ := readAttribute?_reads hdrop hread
    have hturn := attributeTurn_cons tag hplace h hdrop attributes
    rw [if_neg hangle, if_neg hslash, hread] at hturn
    rw [loop_position h hnext hlt hturn, ih (hnext.trans h), heq]
    show _ = Except.ok (OpenTag.mk tag (attributes ++ a :: attributes') selfClosing', _)
    rw [List.append_cons attributes a attributes']
    rfl

theorem readOpenTag_position (h : '<' :: cs <:+ source) :
    readOpenTag (bytes source) (position source ('<' :: cs)) =
      located source ('<' :: cs) (Markup.readOpenTag ('<' :: cs)) := by
  have hcs : cs <:+ source := (List.suffix_cons '<' cs).trans h
  have hname : cs.dropWhile isNameChar <:+ source := (List.dropWhile_suffix _).trans hcs
  have htail : ('<' :: cs).drop 1 = cs := rfl
  rw [readOpenTag, position_succ (by decide) h, readName_position hcs, ok_bind, Markup.readOpenTag]
  dsimp only
  rw [htail, readAttributes_position _ h hname []]
  cases readAttributes (String.ofList (cs.takeWhile isNameChar)) (cs.dropWhile isNameChar) with
  | error fault => rfl
  | ok read => rfl

end Tags

end Cursor

end ComponentGraph.Markup
