import ComponentGraph.Proofs.ClosingBytes
/-!
# The template block by bytes

By bytes a component's template is looked for from one angle bracket to the next. Each turn keeps
what is said of the text by characters, and so the whole search finds what they say.
-/

namespace ComponentGraph.Markup

/-! ## From tag to tag -/

section Search

variable {text rest cs : List Char} {c : Char}

theorem dropWhile_angle (h : rest.dropWhile (· ≠ '<') = c :: cs) :
    c = '<' ∧ c :: cs <:+ rest := by
  have hhead := List.head?_dropWhile_not (· ≠ '<') rest
  rw [h] at hhead
  exact ⟨by simpa using hhead, h ▸ List.dropWhile_suffix _⟩

theorem scan_block_dropWhile (rest : List Char) :
    scan .block (rest.dropWhile (· ≠ '<')) = scan .block rest := by
  have hskip := @scan_text .block (rest.takeWhile (· ≠ '<'))
    (fun c hc => by simpa using List.mem_takeWhile_imp hc) (fun h => nomatch h)
    (rest.dropWhile (· ≠ '<'))
  rw [List.takeWhile_append_dropWhile] at hskip
  exact hskip.symm

theorem findTemplate_pass
    (h : beginning (c :: cs) = .interpolation ∨ beginning (c :: cs) = .other) :
    findTemplate (c :: cs) = findTemplate cs := by
  rw [findTemplate.eq_def]
  obtain h | h := h <;> simp only [h]

theorem findTemplate_dropWhile (rest : List Char) :
    findTemplate (rest.dropWhile (· ≠ '<')) = findTemplate rest := by
  induction rest with
  | nil => rfl
  | cons c cs ih =>
    by_cases hc : c = '<'
    · rw [List.dropWhile_cons_of_neg (by simp [hc])]
    · rw [List.dropWhile_cons_of_pos (by simp [hc]), ih, findTemplate_pass]
      exact (beginning_of_ne hc cs).elim .inr fun h => .inl h.2

theorem findTemplate_comment (h : beginning text = .comment) :
    findTemplate text =
      (afterComment? text).elim (.error ⟨.unterminatedComment, text⟩) findTemplate := by
  cases text with
  | nil => cases h
  | cons c cs =>
    rw [findTemplate.eq_def]
    simp only [h]
    split <;> simp_all

theorem findTemplate_closing (h : beginning text = .closing) :
    findTemplate text =
      match readCloseTag text with
      | .error fault => .error ⟨fault, text⟩
      | .ok (_, rest) => findTemplate rest := by
  cases text with
  | nil => cases h
  | cons c cs =>
    rw [findTemplate.eq_def]
    simp only [h]
    split <;> simp_all

theorem findTemplate_opening (h : beginning text = .opening) :
    findTemplate text =
      match readOpenTag text with
      | .error fault => .error ⟨fault, text⟩
      | .ok (tag, rest) =>
        if isTemplateName tag.name then
          if tag.selfClosing then .ok (some []) else (templateContent text rest).map some
        else if tag.selfClosing then findTemplate rest
        else
          match afterBlock tag text rest with
          | .error problem => .error problem
          | .ok after => findTemplate after := by
  cases text with
  | nil => cases h
  | cons c cs =>
    rw [findTemplate.eq_def]
    simp only [h]
    split
    · simp_all
    · rename_i heq
      simp only [heq]
      congr 2
      split <;> simp_all

/-- The content of a template block whose opening tag began at `place`, given what is scanned from a
place inside it on at which `depth` further template tags are open. -/
def contentFrom (place content : List Char) (depth : Nat) (s : Scan) :
    Except Problem (List Char) :=
  match matchingClose? depth s.tokens, s.problem with
  | some close, _ => .ok (content.take (content.length - close.length))
  | none, some problem => .error problem
  | none, none => .error ⟨.unclosedBlock "template", place⟩

theorem templateContent_eq (place content : List Char) :
    templateContent place content = contentFrom place content 0 (scan .block content) := rfl

theorem contentFrom_opening (place content : List Char) (depth : Nat) (tag : OpenTag)
    (text : List Char) (s : Scan) :
    contentFrom place content depth (s.prepend [.opening tag text]) =
      contentFrom place content (if tag.opensTemplate then depth + 1 else depth) s := by
  cases hopens : tag.opensTemplate with
  | true => simp [contentFrom, Scan.prepend, matchingClose?, hopens]
  | false => simp [contentFrom, Scan.prepend, matchingClose?, hopens]

theorem contentFrom_closing_other (place content : List Char) (depth : Nat) {name : String}
    (hname : isTemplateName name = false) (text : List Char) (s : Scan) :
    contentFrom place content depth (s.prepend [.closing name text]) =
      contentFrom place content depth s := by
  simp [contentFrom, Scan.prepend, matchingClose?, hname]

theorem contentFrom_closing (place content : List Char) (depth : Nat) {name : String}
    (hname : isTemplateName name = true) (text : List Char) (s : Scan) :
    contentFrom place content depth (s.prepend [.closing name text]) =
      match depth with
      | 0 => .ok (content.take (content.length - text.length))
      | depth + 1 => contentFrom place content depth s := by
  cases depth with
  | zero => simp [contentFrom, Scan.prepend, matchingClose?, hname]
  | succ depth => simp [contentFrom, Scan.prepend, matchingClose?, hname]

end Search

namespace Cursor

open Text

section Seek

variable {source rest cs : List Char}

theorem seekAngle?_nil (h : rest <:+ source) (hdrop : rest.dropWhile (· ≠ '<') = []) :
    seekAngle? (bytes source) (position source rest) = .ok none := by
  rw [seekAngle?, slice_rest h, ok_bind, findIdx?_bytes (by decide), if_pos hdrop, Option.map_none]

theorem seekAngle?_cons {c : Char} (h : rest <:+ source)
    (hdrop : rest.dropWhile (· ≠ '<') = c :: cs) :
    seekAngle? (bytes source) (position source rest) = .ok (some (position source (c :: cs))) := by
  obtain ⟨offset, hfind, hfound, -⟩ := position_findIdx? (by decide) h hdrop
  rw [seekAngle?, slice_rest h, ok_bind, hfind, Option.map_some, hfound, hdrop]

end Seek

/-! ## The content of a template block -/

section Content

variable {source place content rest text : List Char}

/-- What is said of a template block from a place inside it on. -/
def contentSaid (source place content rest : List Char) (depth : Nat) : Run String :=
  told source ((contentFrom place content depth (scan .block rest)).map String.ofList)

theorem contentTag_comment (hcontent : content <:+ source) (htext : text <:+ content)
    (hbegin : Markup.beginning text = .comment) (depth : Nat) :
    Keeps source (· + 1) (contentSaid source place content) text depth
      (contentTag (bytes source) (position source content) (position source text) (depth + 1)) := by
  have hsource : text <:+ source := htext.trans hcontent
  rw [contentTag, beginning_position hsource, hbegin, ok_bind]
  refine keeps_comment hsource hbegin (fun hstop => ?_) fun after hcomment => ?_
  · rw [contentSaid, scan_comment_stop hbegin hstop]
    rfl
  · rw [contentSaid, scan_comment hbegin hcomment]
    rfl

theorem contentTag_closing (hcontent : content <:+ source) (htext : text <:+ content)
    (hbegin : Markup.beginning text = .closing) (depth : Nat) :
    Keeps source (· + 1) (contentSaid source place content) text depth
      (contentTag (bytes source) (position source content) (position source text) (depth + 1)) := by
  have hsource : text <:+ source := htext.trans hcontent
  obtain ⟨cs, rfl⟩ := eq_of_beginning_closing hbegin
  rw [contentTag, beginning_position hsource, hbegin, ok_bind]
  dsimp only
  rw [readCloseTag_position hsource]
  cases hread : Markup.readCloseTag ('<' :: '/' :: cs) with
  | error fault =>
    refine .halt ?_
    rw [contentSaid, scan_closing_stop hbegin hread]
    rfl
  | ok read =>
    obtain ⟨name, after⟩ := read
    have hafter := readCloseTag_suffix hread
    have hlt := length_readCloseTag hread
    have hsaid := @scan_closing .block _ _ _ hbegin hread
    show Keeps _ _ _ _ _ (if isTemplateName name then _ else _)
    cases hname : isTemplateName name with
    | false =>
      refine .again hafter hlt ?_
      rw [contentSaid, hsaid, contentFrom_closing_other _ _ _ hname]
      rfl
    | true =>
      cases depth with
      | zero =>
        obtain ⟨front, hfront⟩ := htext
        have hinner := @text_position source ('<' :: '/' :: cs) front (hfront ▸ hcontent)
        rw [hfront] at hinner
        show Keeps _ _ _ _ _ (text _ _ _ >>= _)
        rw [hinner, ok_bind]
        refine .done ?_
        rw [contentSaid, hsaid, contentFrom_closing _ _ _ hname, ← hfront, List.length_append,
          Nat.add_sub_cancel, List.take_left]
        rfl
      | succ depth =>
        refine .again hafter hlt ?_
        rw [contentSaid, hsaid, contentFrom_closing _ _ _ hname]
        rfl

theorem contentTag_opening (hcontent : content <:+ source) (htext : text <:+ content)
    (hbegin : Markup.beginning text = .opening) (depth : Nat) :
    Keeps source (· + 1) (contentSaid source place content) text depth
      (contentTag (bytes source) (position source content) (position source text) (depth + 1)) := by
  have hsource : text <:+ source := htext.trans hcontent
  obtain ⟨cs, rfl⟩ := eq_of_beginning_opening hbegin
  rw [contentTag, beginning_position hsource, hbegin, ok_bind]
  dsimp only
  rw [readOpenTag_position hsource]
  cases hread : Markup.readOpenTag ('<' :: cs) with
  | error fault =>
    refine .halt ?_
    rw [contentSaid, scan_opening_stop hbegin hread]
    rfl
  | ok read =>
    obtain ⟨tag, after⟩ := read
    have hsaid := @scan_opening .block _ _ _ _ hbegin hread rfl
    have hdepth : (if tag.opensTemplate then depth + 1 + 1 else depth + 1) =
        (if tag.opensTemplate then depth + 1 else depth) + 1 := by
      split <;> rfl
    show Keeps _ _ _ _ _ (.ok (.again _ _))
    rw [hdepth]
    refine .again (readOpenTag_suffix hread) (length_readOpenTag hread) ?_
    rw [contentSaid, hsaid, contentFrom_opening]
    rfl

theorem contentTag_keeps {cs : List Char} (hcontent : content <:+ source)
    (htext : '<' :: cs <:+ content) (depth : Nat) :
    Keeps source (· + 1) (contentSaid source place content) ('<' :: cs) depth
      (contentTag (bytes source) (position source content) (position source ('<' :: cs))
        (depth + 1)) := by
  cases hbegin : Markup.beginning ('<' :: cs) with
  | comment => exact contentTag_comment hcontent htext hbegin depth
  | closing => exact contentTag_closing hcontent htext hbegin depth
  | opening => exact contentTag_opening hcontent htext hbegin depth
  | interpolation =>
    obtain ⟨_, heq⟩ := eq_of_beginning_interpolation hbegin
    cases heq
  | other =>
    have hsource : '<' :: cs <:+ source := htext.trans hcontent
    rw [contentTag, beginning_position hsource, hbegin, ok_bind]
    dsimp only
    rw [position_succ (by decide) hsource]
    refine .again (List.suffix_cons '<' cs) (Nat.lt_succ_self _) ?_
    rw [contentSaid, scan_other hbegin]
    rfl

theorem contentTurn_keeps (hplace : place <:+ source) (hcontent : content <:+ source)
    (hrest : rest <:+ content) (depth : Nat) :
    Keeps source (· + 1) (contentSaid source place content) rest depth
      (contentTurn (bytes source) (position source place) (position source content)
        (position source rest) (depth + 1)) := by
  have hsource : rest <:+ source := hrest.trans hcontent
  rw [contentTurn]
  cases hdrop : rest.dropWhile (· ≠ '<') with
  | nil =>
    rw [seekAngle?_nil hsource hdrop, ok_bind]
    dsimp only
    rw [fail_position hplace]
    refine .halt ?_
    rw [contentSaid, ← scan_block_dropWhile, hdrop, scan_nil]
    rfl
  | cons c cs =>
    obtain ⟨rfl, hangle⟩ := dropWhile_angle hdrop
    rw [seekAngle?_cons hsource hdrop, ok_bind]
    refine .of_suffix hangle ?_ (contentTag_keeps hcontent (hangle.trans hrest) depth)
    rw [contentSaid, ← scan_block_dropWhile, hdrop]
    rfl

/-- By bytes the content of a template block is what it is by characters. -/
theorem templateContent_position (hplace : place <:+ source) (hcontent : content <:+ source) :
    templateContent (bytes source) (position source place) (position source content) =
      told source ((Markup.templateContent place content).map String.ofList) := by
  rw [templateContent_eq]
  exact loop_eq_said hcontent
    (fun _ hrest depth => .inl (contentTurn_keeps hplace hcontent hrest depth)) List.suffix_rfl 0

end Content

/-! ## The blocks of a component -/

section Blocks

variable {source rest text : List Char}

/-- What is said of the template of a component from a place outside its blocks on. -/
def templateSaid (source rest : List Char) (_ : Unit) : Run (Option String) :=
  told source ((findTemplate rest).map (Option.map String.ofList))

theorem blockTag_comment (htext : text <:+ source) (hbegin : Markup.beginning text = .comment) :
    Keeps source id (templateSaid source) text ()
      (blockTag (bytes source) (position source text)) := by
  rw [blockTag, beginning_position htext, hbegin, ok_bind]
  refine keeps_comment htext hbegin (fun hstop => ?_) fun after hcomment => ?_
  · rw [templateSaid, findTemplate_comment hbegin, hstop]
    rfl
  · rw [templateSaid, findTemplate_comment hbegin, hcomment]
    rfl

theorem blockTag_closing (htext : text <:+ source) (hbegin : Markup.beginning text = .closing) :
    Keeps source id (templateSaid source) text ()
      (blockTag (bytes source) (position source text)) := by
  have hsaid := findTemplate_closing hbegin
  obtain ⟨cs, rfl⟩ := eq_of_beginning_closing hbegin
  rw [blockTag, beginning_position htext, hbegin, ok_bind]
  dsimp only
  rw [readCloseTag_position htext]
  cases hread : Markup.readCloseTag ('<' :: '/' :: cs) with
  | error fault =>
    rw [hread] at hsaid
    refine .halt ?_
    rw [templateSaid, hsaid]
    rfl
  | ok read =>
    rw [hread] at hsaid
    refine .again (readCloseTag_suffix hread) (length_readCloseTag hread) ?_
    rw [templateSaid, hsaid]
    rfl

/-- The first template block is the template. -/
theorem blockTag_template {tag : OpenTag} {after : List Char} (htext : text <:+ source)
    (hbegin : Markup.beginning text = .opening) (hread : Markup.readOpenTag text = .ok (tag, after))
    (hname : isTemplateName tag.name = true) :
    Keeps source id (templateSaid source) text ()
      (if tag.selfClosing then .ok (.done (some ""))
      else templateContent (bytes source) (position source text) (position source after) >>=
        fun content => .ok (.done (some content))) := by
  have hsaid := findTemplate_opening hbegin
  rw [hread] at hsaid
  dsimp only at hsaid
  rw [if_pos hname] at hsaid
  cases hself : tag.selfClosing with
  | true =>
    rw [hself, if_pos rfl] at hsaid
    refine .done ?_
    rw [templateSaid, hsaid]
    rfl
  | false =>
    rw [hself, if_neg Bool.false_ne_true] at hsaid
    rw [if_neg Bool.false_ne_true,
      templateContent_position htext ((readOpenTag_suffix hread).trans htext)]
    cases hcontent : Markup.templateContent text after with
    | error problem =>
      refine .halt ?_
      rw [templateSaid, hsaid, hcontent]
      rfl
    | ok content =>
      refine .done ?_
      rw [templateSaid, hsaid, hcontent]
      rfl

/-- Any other block is passed over. -/
theorem blockTag_other {tag : OpenTag} {after : List Char} (htext : text <:+ source)
    (hbegin : Markup.beginning text = .opening) (hread : Markup.readOpenTag text = .ok (tag, after))
    (hname : isTemplateName tag.name = false) :
    Keeps source id (templateSaid source) text ()
      (if tag.selfClosing then .ok (.again (position source after) ())
      else skipContent (bytes source) tag.name (position source text) (.unclosedBlock tag.name)
        (position source after) >>= fun next => .ok (.again next ())) := by
  have hafter := readOpenTag_suffix hread
  have hlt := length_readOpenTag hread
  have hsaid := findTemplate_opening hbegin
  rw [hread] at hsaid
  dsimp only at hsaid
  rw [if_neg (ne_true_of_eq_false hname)] at hsaid
  cases hself : tag.selfClosing with
  | true =>
    rw [hself, if_pos rfl] at hsaid
    refine .again hafter hlt ?_
    rw [templateSaid, hsaid]
    rfl
  | false =>
    rw [hself, if_neg Bool.false_ne_true] at hsaid
    rw [if_neg Bool.false_ne_true, skipContent_position _ _ htext (hafter.trans htext),
      ← afterBlock_eq]
    cases hblock : afterBlock tag text after with
    | error problem =>
      rw [hblock] at hsaid
      refine .halt ?_
      rw [templateSaid, hsaid]
      rfl
    | ok next =>
      rw [hblock] at hsaid
      refine .again ((afterContent_suffix hblock).trans hafter)
        (Nat.lt_of_le_of_lt (length_afterBlock hblock) hlt) ?_
      rw [templateSaid, hsaid]
      rfl

theorem blockTag_opening (htext : text <:+ source) (hbegin : Markup.beginning text = .opening) :
    Keeps source id (templateSaid source) text ()
      (blockTag (bytes source) (position source text)) := by
  obtain ⟨cs, rfl⟩ := eq_of_beginning_opening hbegin
  rw [blockTag, beginning_position htext, hbegin, ok_bind]
  dsimp only
  rw [readOpenTag_position htext]
  cases hread : Markup.readOpenTag ('<' :: cs) with
  | error fault =>
    refine .halt ?_
    rw [templateSaid, findTemplate_opening hbegin, hread]
    rfl
  | ok read =>
    obtain ⟨tag, after⟩ := read
    show Keeps _ _ _ _ _ (if isTemplateName tag.name then _ else _)
    split
    · rename_i hname
      exact blockTag_template htext hbegin hread hname
    · rename_i hname
      exact blockTag_other htext hbegin hread (eq_false_of_ne_true hname)

theorem blockTag_keeps {cs : List Char} (htext : '<' :: cs <:+ source) :
    Keeps source id (templateSaid source) ('<' :: cs) ()
      (blockTag (bytes source) (position source ('<' :: cs))) := by
  cases hbegin : Markup.beginning ('<' :: cs) with
  | comment => exact blockTag_comment htext hbegin
  | closing => exact blockTag_closing htext hbegin
  | opening => exact blockTag_opening htext hbegin
  | interpolation =>
    obtain ⟨_, heq⟩ := eq_of_beginning_interpolation hbegin
    cases heq
  | other =>
    rw [blockTag, beginning_position htext, hbegin, ok_bind]
    dsimp only
    rw [position_succ (by decide) htext]
    refine .again (List.suffix_cons '<' cs) (Nat.lt_succ_self _) ?_
    rw [templateSaid, findTemplate_pass (.inr hbegin)]
    rfl

theorem blockTurn_keeps (hrest : rest <:+ source) :
    Keeps source id (templateSaid source) rest ()
      (blockTurn (bytes source) (position source rest) ()) := by
  rw [blockTurn]
  cases hdrop : rest.dropWhile (· ≠ '<') with
  | nil =>
    rw [seekAngle?_nil hrest hdrop, ok_bind]
    refine .done ?_
    rw [templateSaid, ← findTemplate_dropWhile, hdrop, findTemplate]
    rfl
  | cons c cs =>
    obtain ⟨rfl, hangle⟩ := dropWhile_angle hdrop
    rw [seekAngle?_cons hrest hdrop, ok_bind]
    refine .of_suffix hangle ?_ (blockTag_keeps (hangle.trans hrest))
    rw [templateSaid, ← findTemplate_dropWhile, hdrop]
    rfl

/-- By bytes the template of a component is what it is by characters. -/
theorem template?_told (source : String) :
    template? source =
      told source.toList ((findTemplate source.toList).map (Option.map String.ofList)) := by
  have hloop := @loop_eq_said Unit Unit _ source.toList source.toList id
    (templateSaid source.toList) (blockTurn (bytes source.toList)) source.toList List.suffix_rfl
    (fun _ hrest _ => .inl (blockTurn_keeps hrest)) List.suffix_rfl ()
  rw [position_self] at hloop
  exact hloop

end Blocks

end Cursor

end ComponentGraph.Markup
