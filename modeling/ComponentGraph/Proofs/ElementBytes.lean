import ComponentGraph.Proofs.BlockBytes
import ComponentGraph.Proofs.Grammar
/-!
# The elements of a template by bytes

By bytes a template is read from tag to tag, and between the tags byte by byte, also within
characters. The stack of open elements is at each place between two characters the one that `grow`
has there, so that both readers of a text come to the same elements, or to the same fault.

Nothing else happens to the readers of bytes: whatever the text, no slice, difference or loop of
theirs is broken off, and a fault is told with a line of the text.
-/

namespace ComponentGraph.Markup

/-! ## From tag to tag -/

section Growth

variable {rest : List Token} {frames frames' : List Frame} {siblings siblings' : List Element}
  {name : String} {place text : List Char} {tag : OpenTag} {s : Scan}

/-- What a closing tag does to the open elements. -/
def closeTop (name : String) (place : List Char) :
    List Frame → List Element → Except Problem (List Frame × List Element)
  | [], siblings => if Tag.isVoid name then .ok ([], siblings) else .error ⟨.strayEnd name, place⟩
  | top :: frames, siblings =>
    if top.isNamed name then .ok (frames, (top.tag.element siblings.reverse).attach top.elder)
    else if Tag.isVoid name then .ok (top :: frames, siblings)
    else if frames.any (·.isNamed name) then .error ⟨.missingEnd top.tag.name, top.place⟩
    else .error ⟨.strayEnd name, place⟩

theorem grow_closing (name : String) (place : List Char) (rest : List Token)
    (frames : List Frame) (siblings : List Element) :
    grow (.closing name place :: rest) frames siblings =
      closeTop name place frames siblings >>= fun closed => grow rest closed.1 closed.2 := by
  cases frames with
  | nil =>
    rw [grow, closeTop]
    split <;> rfl
  | cons top frames =>
    rw [grow, closeTop]
    split
    · rfl
    · split
      · rfl
      · split <;> rfl

theorem closeTop_subset (h : closeTop name place frames siblings = .ok (frames', siblings')) :
    frames' ⊆ frames := by
  cases frames with
  | nil =>
    rw [closeTop] at h
    split at h
    · cases h
      exact List.Subset.refl _
    · cases h
  | cons top frames =>
    rw [closeTop] at h
    split at h
    · cases h
      exact List.subset_cons_self _ _
    · split at h
      · cases h
        exact List.Subset.refl _
      · split at h <;> cases h

/-- The elements of a template, given what is scanned from a place on at which these elements are
open. -/
def growFrom (frames : List Frame) (siblings : List Element) (s : Scan) :
    Except Problem (List Element) :=
  match grow s.tokens frames siblings with
  | .error problem => .error problem
  | .ok (frames, siblings) =>
    match s.problem, frames with
    | some problem, _ => .error problem
    | none, top :: _ => .error ⟨.missingEnd top.tag.name, top.place⟩
    | none, [] => .ok siblings.reverse

theorem forest_eq (text : List Char) : forest text = growFrom [] [] (scan .template text) := rfl

theorem growFrom_leaf (hleaf : tag.isLeaf = true) :
    growFrom frames siblings (s.prepend [.opening tag text]) =
      growFrom frames ((tag.element []).attach siblings) s := by
  rw [growFrom, Scan.prepend, List.singleton_append, grow, if_pos hleaf]
  rfl

theorem growFrom_opening (hleaf : tag.isLeaf = false) :
    growFrom frames siblings (s.prepend [.opening tag text]) =
      growFrom (⟨tag, text, siblings⟩ :: frames) [] s := by
  rw [growFrom, Scan.prepend, List.singleton_append, grow, if_neg (ne_true_of_eq_false hleaf)]
  rfl

/-- An opening tag that is the last token is no fault. -/
theorem growFrom_problem {problem : Problem} :
    growFrom frames siblings ⟨[.opening tag text], some problem⟩ = .error problem := by
  cases hleaf : tag.isLeaf with
  | true => rw [growFrom, grow, if_pos hleaf, grow]
  | false => rw [growFrom, grow, if_neg (ne_true_of_eq_false hleaf), grow]

theorem growFrom_closing :
    growFrom frames siblings (s.prepend [.closing name text]) =
      closeTop name text frames siblings >>= fun closed => growFrom closed.1 closed.2 s := by
  rw [growFrom, Scan.prepend, List.singleton_append, grow_closing]
  cases closeTop name text frames siblings with
  | error problem => rfl
  | ok closed => rfl

end Growth

namespace Cursor

open Text

/-! ## The stack of open elements -/

section Stacks

variable {source : List Char} {frames : List Frame} {siblings : List Element}

/-- The stack of open elements by bytes: an open element already has the finished ones among its
children. -/
def stackOf (source : List Char) : List Frame → List Element → Stack
  | [], siblings => ⟨[], siblings.reverse⟩
  | top :: frames, siblings =>
    let below := stackOf source frames top.elder
    ⟨(top.tag.element siblings.reverse, position source top.place) :: below.opened, below.roots⟩

theorem attach_stackOf (e : Element) :
    (stackOf source frames siblings).attach e = stackOf source frames (e.attach siblings) := by
  cases frames with
  | nil =>
    rw [stackOf, stackOf, Stack.attach, List.reverse_reverse]
  | cons top frames =>
    rw [stackOf, stackOf, Stack.attach]
    show Stack.mk ((top.tag.element (e.attach siblings.reverse.reverse).reverse, _) :: _) _ = _
    rw [List.reverse_reverse]

theorem any_stackOf (name : String) :
    ((stackOf source frames siblings).opened.any fun e => Text.SameLetters e.1.tag name) =
      frames.any (·.isNamed name) := by
  induction frames generalizing siblings with
  | nil => rfl
  | cons top frames ih =>
    rw [stackOf, List.any_cons, List.any_cons, ih]
    rfl

theorem close_stackOf {place : List Char} (name : String) (hplace : place <:+ source)
    (hwithin : ∀ f ∈ frames, f.place <:+ source) :
    (stackOf source frames siblings).close (bytes source) (position source place) name =
      told source ((closeTop name place frames siblings).map fun closed =>
        stackOf source closed.1 closed.2) := by
  cases frames with
  | nil =>
    rw [stackOf, Stack.close, closeTop]
    split
    · rfl
    · exact fail_position hplace _
  | cons top frames =>
    have htop : top.place <:+ source := hwithin top List.mem_cons_self
    have hany := @any_stackOf source (top :: frames) siblings name
    have hattach := @attach_stackOf source frames top.elder (top.tag.element siblings.reverse)
    have htag : (top.tag.element siblings.reverse).tag = top.tag.name := rfl
    rw [stackOf] at hany ⊢
    rw [Stack.close, closeTop, htag]
    by_cases hname : top.isNamed name = true
    · rw [if_pos (of_decide_eq_true hname), if_pos hname]
      exact congrArg Except.ok hattach
    · have hnot : ¬ Text.SameLetters top.tag.name name := fun h => hname (decide_eq_true h)
      rw [if_neg hnot, if_neg hname]
      split
      · rfl
      · rw [hany, List.any_cons, eq_false_of_ne_true hname, Bool.false_or]
        split
        · exact fail_position htop _
        · exact fail_position hplace _

end Stacks

/-! ## Within a character -/

section Within

variable {source bs : List UInt8} {b : UInt8} {pos : Nat}

theorem slice_drop (h : pos ≤ source.length) :
    slice source pos source.length = .ok (source.drop pos) := by
  rw [slice, if_neg (Nat.not_lt_of_le h), if_neg (Nat.lt_irrefl _), List.take_length]

/-- Nothing begins within a character. -/
theorem beginning_within (h : source.drop pos = b :: bs) (hb : 128 ≤ b) :
    beginning source pos = .ok .other := by
  have hpos : pos ≤ source.length := by
    have hlt := congrArg List.length h
    rw [List.length_drop, List.length_cons] at hlt
    omega
  have hbyte : source[pos]? = some b := by
    rw [← Nat.add_zero pos, ← List.getElem?_drop, h]
    rfl
  have hne : b ≠ '<'.toUInt8 := by
    rintro rfl
    exact absurd hb (by decide)
  have hstarts : ∀ m : Char, m.toNat < 128 → ∀ ms,
      startsWith source pos (m :: ms) = .ok false := by
    intro m hm ms
    rw [startsWith, slice_drop hpos, ok_bind, h, not_isPrefixOf_of_le hm hb]
  rw [beginning, hstarts _ (by decide), ok_bind, hstarts _ (by decide), atCloseTag,
    hstarts _ (by decide), atOpenTag, hbyte, decide_eq_false (by simpa using hne), Bool.false_and]
  rfl

theorem elementTurn_within (h : source.drop pos = b :: bs) (hb : 128 ≤ b) (stack : Stack) :
    elementTurn source pos stack = .ok (.again (pos + 1) stack) := by
  have hlt := congrArg List.length h
  rw [List.length_drop, List.length_cons] at hlt
  rw [elementTurn, if_neg (by omega), elementTag, beginning_within h hb]
  rfl

/-- The bytes of a character from 128 on are passed over one by one. -/
theorem loop_within (hbs : ∀ b ∈ bs, 128 ≤ b) (h : bs <+: source.drop pos) (stack : Stack) :
    loop source (elementTurn source) pos stack =
      loop source (elementTurn source) (pos + bs.length) stack := by
  induction bs generalizing pos with
  | nil => rfl
  | cons b bs ih =>
    obtain ⟨rest, hrest⟩ := h
    have hlt := congrArg List.length hrest
    rw [List.length_drop, List.length_append, List.length_cons] at hlt
    have hnext : bs <+: source.drop (pos + 1) := by
      rw [← List.drop_drop, ← hrest]
      exact List.prefix_append bs rest
    rw [loop_again (elementTurn_within hrest.symm (hbs b List.mem_cons_self) stack)
      (Nat.lt_succ_self pos) (by omega), ih (fun b hb => hbs b (List.mem_cons_of_mem _ hb)) hnext,
      List.length_cons, Nat.add_assoc pos 1, Nat.add_comm 1]

end Within

/-! ## The elements of a template -/

/-- What is open at a place of a template: each element began in the template. -/
structure Nest (source : List Char) where
  frames : List Frame
  siblings : List Element
  within : ∀ f ∈ frames, f.place <:+ source

namespace Nest

variable {source : List Char}

def stack (n : Nest source) : Stack := stackOf source n.frames n.siblings

/-- What is said of the elements of a template from a place on. -/
def said (rest : List Char) (n : Nest source) : Run (List Element) :=
  told source (growFrom n.frames n.siblings (scan .template rest))

def attach (n : Nest source) (e : Element) : Nest source :=
  { n with siblings := e.attach n.siblings }

theorem stack_attach (n : Nest source) (e : Element) : (n.attach e).stack = n.stack.attach e :=
  (attach_stackOf e).symm

def enter (n : Nest source) (tag : OpenTag) {place : List Char} (hplace : place <:+ source) :
    Nest source where
  frames := ⟨tag, place, n.siblings⟩ :: n.frames
  siblings := []
  within := List.forall_mem_cons.mpr ⟨hplace, n.within⟩

end Nest

section Elements

variable {source rest text cs : List Char} {c : Char} {n : Nest source}

theorem elementTurn_nil :
    Keeps source Nest.stack Nest.said [] n
      (elementTurn (bytes source) (position source []) n.stack) := by
  rw [elementTurn, position_nil, if_pos (Nat.le_refl _)]
  obtain ⟨frames, siblings, hwithin⟩ := n
  cases frames with
  | nil =>
    refine .done ?_
    rw [Nest.said, scan_nil]
    rfl
  | cons top frames =>
    show Keeps _ _ _ _ _ (fail _ (position source top.place) _)
    rw [fail_position (hwithin top List.mem_cons_self)]
    refine .halt ?_
    rw [Nest.said, scan_nil]
    rfl

theorem elementTag_comment (htext : text <:+ source) (hbegin : Markup.beginning text = .comment) :
    Keeps source Nest.stack Nest.said text n
      (elementTag (bytes source) (position source text) n.stack) := by
  rw [elementTag, beginning_position htext, hbegin, ok_bind]
  refine keeps_comment htext hbegin (fun hstop => ?_) fun after hcomment => ?_
  · rw [Nest.said, scan_comment_stop hbegin hstop]
    rfl
  · rw [Nest.said, scan_comment hbegin hcomment]
    rfl

theorem elementTag_interpolation (htext : text <:+ source)
    (hbegin : Markup.beginning text = .interpolation) :
    Keeps source Nest.stack Nest.said text n
      (elementTag (bytes source) (position source text) n.stack) := by
  rw [elementTag, beginning_position htext, hbegin, ok_bind]
  dsimp only
  rw [skipInterpolation_position htext hbegin]
  obtain ⟨hafter, hlt⟩ := afterInterpolation_reads hbegin
  refine .again hafter hlt ?_
  rw [Nest.said, scan_template_interpolation hbegin]
  rfl

theorem elementTag_closing (htext : text <:+ source) (hbegin : Markup.beginning text = .closing) :
    Keeps source Nest.stack Nest.said text n
      (elementTag (bytes source) (position source text) n.stack) := by
  obtain ⟨cs, rfl⟩ := eq_of_beginning_closing hbegin
  rw [elementTag, beginning_position htext, hbegin, ok_bind]
  dsimp only
  rw [readCloseTag_position htext]
  cases hread : Markup.readCloseTag ('<' :: '/' :: cs) with
  | error fault =>
    refine .halt ?_
    rw [Nest.said, scan_closing_stop hbegin hread]
    rfl
  | ok read =>
    obtain ⟨name, after⟩ := read
    have hsaid := @scan_closing .template _ _ _ hbegin hread
    show Keeps _ _ _ _ _ (n.stack.close _ _ name >>= _)
    rw [Nest.stack, close_stackOf name htext n.within]
    cases hclose : closeTop name ('<' :: '/' :: cs) n.frames n.siblings with
    | error problem =>
      refine .halt ?_
      rw [Nest.said, hsaid, growFrom_closing, hclose]
      rfl
    | ok closed =>
      have hsubset := closeTop_subset hclose
      let next : Nest source := ⟨closed.1, closed.2, fun f hf => n.within f (hsubset hf)⟩
      show Keeps _ _ _ _ _ (.ok (.again _ next.stack))
      refine .again (readCloseTag_suffix hread) (length_readCloseTag hread) ?_
      rw [Nest.said, hsaid, growFrom_closing, hclose]
      rfl

/-- A tag that stands for a whole element by itself. -/
theorem elementTag_leaf {tag : OpenTag} {after : List Char}
    (hbegin : Markup.beginning text = .opening) (hread : Markup.readOpenTag text = .ok (tag, after))
    (hleaf : (tag.selfClosing || tag.isVoid) = true) :
    Keeps source Nest.stack Nest.said text n
      (.ok (.again (position source after) (n.stack.attach (tag.element [])))) := by
  have hplain : (tag.isRawText && !tag.selfClosing) = false := by
    cases hself : tag.selfClosing with
    | true => rw [Bool.not_true, Bool.and_false]
    | false =>
      rw [hself, Bool.false_or] at hleaf
      rw [isRawText_eq_false_of_isVoid hleaf, Bool.false_and]
  have hafter : afterOpening .template tag text after = .ok after := by
    rw [afterOpening, Bool.and_assoc, hplain, Bool.and_false, if_neg Bool.false_ne_true]
  rw [← Nest.stack_attach]
  refine .again (readOpenTag_suffix hread) (length_readOpenTag hread) ?_
  rw [Nest.said, scan_opening hbegin hread hafter, growFrom_leaf]
  · rfl
  · rw [OpenTag.isLeaf, hleaf, Bool.true_or]

/-- A raw text element, which ends with its closing tag. -/
theorem elementTag_rawText {tag : OpenTag} {after : List Char} (htext : text <:+ source)
    (hbegin : Markup.beginning text = .opening) (hread : Markup.readOpenTag text = .ok (tag, after))
    (hself : tag.selfClosing = false) (hraw : tag.isRawText = true) :
    Keeps source Nest.stack Nest.said text n
      (skipContent (bytes source) tag.name (position source text) (.missingEnd tag.name)
        (position source after) >>= fun next =>
          .ok (.again next (n.stack.attach (tag.element [])))) := by
  have hsuffix := readOpenTag_suffix hread
  have hcontent : afterOpening .template tag text after = afterRawText tag text after := by
    rw [afterOpening, hraw, hself]
    rfl
  rw [skipContent_position _ _ htext (hsuffix.trans htext), ← afterRawText_eq]
  cases hafter : afterRawText tag text after with
  | error problem =>
    refine .halt ?_
    rw [Nest.said, scan_opening_problem hbegin hread (hcontent.trans hafter), growFrom_problem]
    rfl
  | ok next =>
    show Keeps _ _ _ _ _ (.ok (.again (position source next) (n.stack.attach (tag.element []))))
    rw [← Nest.stack_attach]
    refine .again ((afterContent_suffix hafter).trans hsuffix)
      (Nat.lt_of_le_of_lt (length_afterRawText hafter) (length_readOpenTag hread)) ?_
    rw [Nest.said, scan_opening hbegin hread (hcontent.trans hafter), growFrom_leaf]
    · rfl
    · rw [OpenTag.isLeaf, hraw, Bool.or_true]

/-- A tag whose element is open from there on. -/
theorem elementTag_open {tag : OpenTag} {after : List Char} (htext : text <:+ source)
    (hbegin : Markup.beginning text = .opening) (hread : Markup.readOpenTag text = .ok (tag, after))
    (hleaf : tag.isLeaf = false) :
    Keeps source Nest.stack Nest.said text n
      (.ok (.again (position source after)
        ⟨(tag.element [], position source text) :: n.stack.opened, n.stack.roots⟩)) := by
  have hraw : tag.isRawText = false := (Bool.or_eq_false_iff.mp hleaf).2
  have hafter : afterOpening .template tag text after = .ok after := by
    rw [afterOpening, hraw]
    rfl
  show Keeps _ _ _ _ _ (.ok (.again _ (n.enter tag htext).stack))
  refine .again (readOpenTag_suffix hread) (length_readOpenTag hread) ?_
  rw [Nest.said, scan_opening hbegin hread hafter, growFrom_opening hleaf]
  rfl

theorem elementTag_opening (htext : text <:+ source) (hbegin : Markup.beginning text = .opening) :
    Keeps source Nest.stack Nest.said text n
      (elementTag (bytes source) (position source text) n.stack) := by
  obtain ⟨cs, rfl⟩ := eq_of_beginning_opening hbegin
  rw [elementTag, beginning_position htext, hbegin, ok_bind]
  dsimp only
  rw [readOpenTag_position htext]
  cases hread : Markup.readOpenTag ('<' :: cs) with
  | error fault =>
    refine .halt ?_
    rw [Nest.said, scan_opening_stop hbegin hread]
    rfl
  | ok read =>
    obtain ⟨tag, after⟩ := read
    show Keeps _ _ _ _ _
      (if tag.selfClosing || tag.isVoid then _ else if tag.isRawText then _ else _)
    split
    · rename_i hleaf
      exact elementTag_leaf hbegin hread hleaf
    · rename_i hnot
      have hself := Bool.or_eq_false_iff.mp (eq_false_of_ne_true hnot)
      split
      · rename_i hraw
        exact elementTag_rawText htext hbegin hread hself.1 hraw
      · rename_i hraw
        refine elementTag_open htext hbegin hread ?_
        rw [OpenTag.isLeaf, hself.1, hself.2, eq_false_of_ne_true hraw]
        rfl

/-- A character below 128 is a single byte. -/
theorem elementTag_other (htext : c :: cs <:+ source) (hc : c.toNat < 128)
    (hbegin : Markup.beginning (c :: cs) = .other) :
    Keeps source Nest.stack Nest.said (c :: cs) n
      (elementTag (bytes source) (position source (c :: cs)) n.stack) := by
  rw [elementTag, beginning_position htext, hbegin, ok_bind]
  dsimp only
  rw [position_succ hc htext]
  refine .again (List.suffix_cons c cs) (Nat.lt_succ_self _) ?_
  rw [Nest.said, scan_other hbegin]
  rfl

theorem elementTurn_cons (htext : c :: cs <:+ source) (stack : Stack) :
    elementTurn (bytes source) (position source (c :: cs)) stack =
      elementTag (bytes source) (position source (c :: cs)) stack := by
  have hlt : position source (c :: cs) < position source [] :=
    position_lt_position List.nil_suffix (Nat.zero_lt_succ cs.length) htext
  rw [position_nil] at hlt
  rw [elementTurn, if_neg (Nat.not_le_of_lt hlt)]

/-- A turn at a character keeps what is said of the rest of the text, but for a character of several
bytes, which is passed over in as many turns. -/
theorem elementTurn_keeps (hrest : rest <:+ source) :
    Keeps source Nest.stack Nest.said rest n
        (elementTurn (bytes source) (position source rest) n.stack) ∨
      ∃ after, after <:+ rest ∧ after.length < rest.length ∧ Nest.said rest n = Nest.said after n ∧
        loop (bytes source) (elementTurn (bytes source)) (position source rest) n.stack =
          loop (bytes source) (elementTurn (bytes source)) (position source after) n.stack := by
  cases rest with
  | nil => exact .inl elementTurn_nil
  | cons c cs =>
    rw [elementTurn_cons hrest]
    cases hbegin : Markup.beginning (c :: cs) with
    | comment => exact .inl (elementTag_comment hrest hbegin)
    | interpolation => exact .inl (elementTag_interpolation hrest hbegin)
    | closing => exact .inl (elementTag_closing hrest hbegin)
    | opening => exact .inl (elementTag_opening hrest hbegin)
    | other =>
      rcases Nat.lt_or_ge c.toNat 128 with hc | hc
      · exact .inl (elementTag_other hrest hc hbegin)
      · have hbytes :
            String.utf8EncodeChar c <+: (bytes source).drop (position source (c :: cs)) := by
          rw [drop_position hrest, bytes_cons]
          exact List.prefix_append _ _
        have hpos := @position_add source cs [c] hrest
        rw [bytes_cons, bytes_nil, List.append_nil] at hpos
        refine .inr ⟨cs, List.suffix_cons c cs, Nat.lt_succ_self _, ?_, ?_⟩
        · rw [Nest.said, Nest.said, scan_other hbegin]
        · rw [loop_within (le_of_mem_utf8EncodeChar hc) hbytes, ← hpos]
          rfl

/-- By bytes the elements of a template are what they are by characters. -/
theorem compile_told (template : String) :
    compile template = told template.toList (forest template.toList) := by
  have hloop := @loop_eq_said Stack (Nest template.toList) _ template.toList template.toList
    Nest.stack Nest.said (elementTurn (bytes template.toList)) template.toList List.suffix_rfl
    (fun _ hrest _ => elementTurn_keeps hrest) List.suffix_rfl ⟨[], [], List.forall_mem_nil _⟩
  rw [position_self] at hloop
  rw [forest_eq]
  exact hloop

end Elements

/-! ## No breach -/

/-- A run comes to its end without a breach, and a fault is told with a line of the text. -/
def IsSafe {α : Type} (source : String) : Run α → Prop
  | .ok _ => True
  | .error (.breach _) => False
  | .error (.fault e) => 1 ≤ e.line ∧ e.line ≤ source.toList.count '\n' + 1

theorem isSafe_told {α : Type} (source : String) (r : Except Problem α) :
    IsSafe source (told source.toList r) := by
  cases r with
  | error problem =>
    exact ⟨Nat.succ_le_succ (Nat.zero_le _), Nat.succ_le_succ (Nat.sub_le _ _)⟩
  | ok a => trivial

/-- Whatever the text, the readers of bytes come to an end without a breach, and with what the
readers of characters say. -/
theorem reads_safely (source : String) :
    template? source = (Markup.template? source).mapError Halt.fault ∧
      compile source = (Markup.compile source).mapError Halt.fault ∧
      IsSafe source (template? source) ∧ IsSafe source (compile source) := by
  have htemplate := template?_told source
  have hcompile := compile_told source
  refine ⟨?_, ?_, htemplate ▸ isSafe_told source _, hcompile ▸ isSafe_told source _⟩
  · rw [htemplate, Markup.template?]
    cases findTemplate source.toList with
    | error problem => rfl
    | ok content => rfl
  · rw [hcompile, Markup.compile]
    cases forest source.toList with
    | error problem => rfl
    | ok elements => rfl

end Cursor

end ComponentGraph.Markup
