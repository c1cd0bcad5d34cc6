import ComponentGraph.Proofs.Folding
import ComponentGraph.Proofs.Grammar
import ComponentGraph.Proofs.Reading
import ComponentGraph.Proofs.TemplateTags
/-!
# Parsing undoes rendering

On the tokens of a written forest the stack of `grow` ends with the forest, if it is folded, and
the count of open template tags ends where it began. Only the marks of the tokens matter for
either, not where the tags stand.
-/

namespace ComponentGraph.Markup

open Element (attachAll chain)

section Induction

variable {P : List Piece → Prop} (nil : P [])
  (append : ∀ pieces more, P pieces → P more → P (pieces ++ more))

include nil append

theorem tagPiecesOfAll_of_forall {es : List Element} (h : ∀ e ∈ es, P (tagPieces e)) :
    P (tagPiecesOfAll es) := by
  induction es with
  | nil =>
    rw [tagPiecesOfAll]
    exact nil
  | cons e es ih =>
    rw [tagPiecesOfAll]
    exact append _ _ (h e List.mem_cons_self) (ih fun f hf => h f (List.mem_cons_of_mem _ hf))

/-- What holds of no tags, of tags one after the other and of the tags of an element around others
holds of the tags of every element. -/
theorem tagPieces_induction
    (enclose : ∀ e inner, IsWritable e → P inner → P (enclose e.tag e.attributes inner))
    (e : Element) : (∀ f ∈ e.nodes, IsWritable f) → P (tagPieces e) := by
  induction e using Element.induction with
  | element tag attributes children branches ihChildren ihBranches =>
    intro hwritable
    have hchildren : P (tagPiecesOfAll children) := tagPiecesOfAll_of_forall nil append fun c hc =>
      ihChildren c hc fun f hf => hwritable f (Element.mem_nodes_of_children hc hf)
    have hbranches : P (tagPiecesOfAll branches) := tagPiecesOfAll_of_forall nil append fun b hb =>
      ihBranches b hb fun f hf => hwritable f (Element.mem_nodes_of_branches hb hf)
    have hself := hwritable _ (Element.mem_nodes_self _)
    rw [tagPieces]
    exact append _ _ (enclose ⟨tag, attributes, children, branches⟩ _ hself hchildren) hbranches

theorem tagPiecesOfAll_induction
    (enclose : ∀ e inner, IsWritable e → P inner → P (enclose e.tag e.attributes inner))
    {roots : List Element} (h : ∀ e ∈ Element.nodesOfAll roots, IsWritable e) :
    P (tagPiecesOfAll roots) := by
  refine tagPiecesOfAll_of_forall nil append fun e he => ?_
  exact tagPieces_induction nil append enclose e fun f hf =>
    h f (Element.mem_nodesOfAll.mpr ⟨e, he, hf⟩)

end Induction

/-- The tags of a writable forest are read as what they are, in either scope. -/
theorem isReadable_tagPiecesOfAll (scope : Scope) {roots : List Element}
    (h : ∀ e ∈ Element.nodesOfAll roots, IsWritable e) :
    ∀ p ∈ tagPiecesOfAll roots, p.IsReadable scope := by
  refine tagPiecesOfAll_induction (P := fun pieces => ∀ p ∈ pieces, p.IsReadable scope)
    (by simp) (fun _ _ hpieces hmore => List.forall_mem_append.mpr ⟨hpieces, hmore⟩) ?_ h
  intro e inner he hinner
  have htag := he.tag
  unfold enclose
  split
  · rename_i hvoid
    simpa [Piece.IsReadable] using ⟨htag, isRawText_eq_false_of_isVoid hvoid⟩
  · split
    · rename_i hraw
      simpa [Piece.IsReadable] using ⟨htag, hraw⟩
    · rename_i hraw
      have hopening : (Piece.opening e.tag e.attributes).IsReadable scope :=
        ⟨htag, eq_false_of_ne_true hraw⟩
      have hclosing : (Piece.closing e.tag).IsReadable scope := htag.without
      simpa [or_imp, forall_and] using ⟨hopening, hinner, hclosing⟩

theorem flatMap_marks_filter (scope : Scope) (pieces : List Piece) :
    (pieces.filter Piece.isTag).flatMap (Piece.marks scope) =
      pieces.flatMap (Piece.marks scope) := by
  induction pieces with
  | nil => rfl
  | cons p pieces ih =>
    by_cases htag : p.isTag = true
    · rw [List.filter_cons_of_pos htag, List.flatMap_cons, ih, List.flatMap_cons]
    · have hmarks : p.marks scope = [] := by
        cases p <;> simp [Piece.isTag] at htag <;> rfl
      rw [List.filter_cons_of_neg htag, ih, List.flatMap_cons, hmarks, List.nil_append]

/-! ## The stack ends with the forest -/

/-- On tokens with the marks of the pieces the elements are attached one by one. -/
def Grows (pieces : List Piece) (es : List Element) : Prop :=
  ∀ tokens : List Token, tokens.map Token.mark = pieces.flatMap (Piece.marks .template) →
    ∀ rest frames siblings,
      grow (tokens ++ rest) frames siblings = grow rest frames (attachAll es siblings)

theorem Grows.nil : Grows [] [] := by
  intro tokens hmarks rest frames siblings
  rw [List.flatMap_nil, List.map_eq_nil_iff] at hmarks
  rw [hmarks]
  rfl

theorem Grows.append {pieces more : List Piece} {es fs : List Element} (h : Grows pieces es)
    (hmore : Grows more fs) : Grows (pieces ++ more) (es ++ fs) := by
  intro tokens hmarks rest frames siblings
  rw [List.flatMap_append, List.map_eq_append_iff] at hmarks
  obtain ⟨front, back, rfl, hfront, hback⟩ := hmarks
  rw [List.append_assoc, h front hfront, hmore back hback, Element.attachAll_append]

theorem eq_opening_of_mark {t : Token} {tag : OpenTag} (h : t.mark = .opening tag) :
    ∃ place, t = .opening tag place := by
  cases t with
  | opening tag' place =>
    cases h
    exact ⟨place, rfl⟩
  | closing name place => cases h

theorem eq_closing_of_mark {t : Token} {name : String} (h : t.mark = .closing name) :
    ∃ place, t = .closing name place := by
  cases t with
  | opening tag place => cases h
  | closing name' place =>
    cases h
    exact ⟨place, rfl⟩

theorem eq_singleton_of_marks {tokens : List Token} {tag : OpenTag}
    (h : tokens.map Token.mark = [.opening tag]) : ∃ place, tokens = [.opening tag place] := by
  obtain ⟨t, rfl, ht⟩ := List.map_eq_singleton_iff.mp h
  obtain ⟨place, rfl⟩ := eq_opening_of_mark ht
  exact ⟨place, rfl⟩

theorem eq_enclosed_of_marks {tokens : List Token} {tag : OpenTag} {name : String}
    {marks : List Mark}
    (h : tokens.map Token.mark = .opening tag :: (marks ++ [.closing name])) :
    ∃ place inner close, tokens = .opening tag place :: (inner ++ [.closing name close]) ∧
      inner.map Token.mark = marks := by
  obtain ⟨t, others, rfl, ht, hothers⟩ := List.map_eq_cons_iff.mp h
  obtain ⟨inner, last, rfl, hmarks, hlast⟩ := List.map_eq_append_iff.mp hothers
  obtain ⟨t', rfl, ht'⟩ := List.map_eq_singleton_iff.mp hlast
  obtain ⟨place, rfl⟩ := eq_opening_of_mark ht
  obtain ⟨close, rfl⟩ := eq_closing_of_mark ht'
  exact ⟨place, inner, close, rfl, hmarks⟩

theorem grows_leaf {p : Piece} {tag : OpenTag} (hmarks : p.marks .template = [.opening tag])
    (hleaf : tag.isLeaf = true) : Grows [p] [tag.element []] := by
  intro tokens htokens rest frames siblings
  rw [List.flatMap_singleton, hmarks] at htokens
  obtain ⟨place, rfl⟩ := eq_singleton_of_marks htokens
  rw [List.singleton_append, grow, if_pos hleaf]
  rfl

theorem grows_element {name : String} {attributes : List Attribute} {inner : List Piece}
    {es children : List Element} (hleaf : (plainTag name attributes).isLeaf = false)
    (hinner : Grows inner es) (hchildren : attachAll es [] = children.reverse) :
    Grows (.opening name attributes :: (inner ++ [.closing name]))
      [(plainTag name attributes).element children] := by
  intro tokens htokens rest frames siblings
  rw [List.flatMap_cons, List.flatMap_append, List.flatMap_singleton] at htokens
  obtain ⟨place, tokens, close, rfl, hmarks⟩ := eq_enclosed_of_marks htokens
  have hnamed : (⟨plainTag name attributes, place, siblings⟩ : Frame).isNamed name = true :=
    decide_eq_true rfl
  rw [List.cons_append, List.append_assoc, grow, hleaf, if_neg Bool.false_ne_true,
    hinner tokens hmarks, hchildren, List.singleton_append, grow, if_pos hnamed,
    List.reverse_reverse]
  rfl

theorem isLeaf_plainTag (name : String) (attributes : List Attribute) :
    (plainTag name attributes).isLeaf =
      ((plainTag name attributes).isVoid || (plainTag name attributes).isRawText) := rfl

theorem grows_enclose {e : Element} (he : IsWritable e) {inner : List Piece} {es : List Element}
    (hinner : Grows inner es) (hchildren : attachAll es [] = e.children.reverse) :
    Grows (enclose e.tag e.attributes inner) [e.alone] := by
  have halone : e.alone = (plainTag e.tag e.attributes).element e.children := rfl
  have hleaf := isLeaf_plainTag e.tag e.attributes
  rw [halone, enclose]
  split
  · rename_i hvoid
    rw [hvoid, Bool.true_or] at hleaf
    rw [he.empty hleaf]
    exact grows_leaf rfl hleaf
  · rename_i hvoid
    split
    · rename_i hraw
      rw [hraw, Bool.or_true] at hleaf
      rw [he.empty hleaf]
      exact grows_leaf rfl hleaf
    · rename_i hraw
      rw [eq_false_of_ne_true hvoid, eq_false_of_ne_true hraw] at hleaf
      exact grows_element hleaf hinner hchildren

theorem grows_tagPiecesOfAll {es : List Element} (h : ∀ e ∈ es, Grows (tagPieces e) (chain e)) :
    Grows (tagPiecesOfAll es) (es.flatMap chain) := by
  induction es with
  | nil =>
    rw [tagPiecesOfAll]
    exact Grows.nil
  | cons e es ih =>
    rw [tagPiecesOfAll, List.flatMap_cons]
    exact (h e List.mem_cons_self).append (ih fun f hf => h f (List.mem_cons_of_mem _ hf))

theorem grows_tagPieces (e : Element) :
    (∀ f ∈ e.nodes, IsWritable f) → (∀ f ∈ e.nodes, f.IsFolded) →
      Grows (tagPieces e) (chain e) := by
  induction e using Element.induction with
  | element tag attributes children branches ihChildren ihBranches =>
    intro hwritable hfolded
    have hself := Element.mem_nodes_self ⟨tag, attributes, children, branches⟩
    have hchildFolded : ∀ c ∈ children, c.IsFolded := fun c hc =>
      hfolded c (Element.mem_nodes_of_children hc (Element.mem_nodes_self c))
    have hchildren : Grows (tagPiecesOfAll children) (children.flatMap chain) :=
      grows_tagPiecesOfAll fun c hc =>
        ihChildren c hc (fun f hf => hwritable f (Element.mem_nodes_of_children hc hf))
          fun f hf => hfolded f (Element.mem_nodes_of_children hc hf)
    have hbranches : Grows (tagPiecesOfAll branches) (branches.flatMap chain) :=
      grows_tagPiecesOfAll fun b hb =>
        ihBranches b hb (fun f hf => hwritable f (Element.mem_nodes_of_branches hb hf))
          fun f hf => hfolded f (Element.mem_nodes_of_branches hb hf)
    have hattach : attachAll (children.flatMap chain) [] = children.reverse := by
      rw [Element.attachAll_chains hchildFolded (hfolded _ hself).apart (by simp),
        List.append_nil]
    -- An alternative has no alternatives of its own, so it is attached as it is.
    rw [Element.flatMap_chain_of_single (hfolded _ hself).single] at hbranches
    rw [tagPieces]
    exact (grows_enclose (hwritable _ hself) hchildren hattach).append hbranches

theorem grow_of_marks {roots : List Element}
    (hwritable : ∀ e ∈ Element.nodesOfAll roots, IsWritable e)
    (hfolded : Element.IsFoldedForest roots) {tokens : List Token}
    (hmarks : tokens.map Token.mark = (tagPiecesOfAll roots).flatMap (Piece.marks .template)) :
    grow tokens [] [] = .ok ([], roots.reverse) := by
  have hnodes : ∀ e ∈ roots, ∀ f ∈ e.nodes, f ∈ Element.nodesOfAll roots := fun e he f hf =>
    Element.mem_nodesOfAll.mpr ⟨e, he, hf⟩
  have hgrows : Grows (tagPiecesOfAll roots) (roots.flatMap chain) :=
    grows_tagPiecesOfAll fun e he => grows_tagPieces e (fun f hf => hwritable f (hnodes e he f hf))
      fun f hf => hfolded.folded f (hnodes e he f hf)
  have hroots : ∀ e ∈ roots, e.IsFolded := fun e he =>
    hfolded.folded e (hnodes e he e (Element.mem_nodes_self e))
  have hend := hgrows tokens hmarks [] [] []
  rw [List.append_nil, Element.attachAll_chains hroots hfolded.apart (by simp),
    List.append_nil] at hend
  exact hend

/-! ## The block ends where it is meant to -/

/-- Tokens with the marks of the pieces leave the number of open template tags as it is. -/
def Balances (pieces : List Piece) : Prop :=
  ∀ tokens : List Token, tokens.map Token.mark = pieces.flatMap (Piece.marks .block) →
    ∀ depth rest, matchingClose? depth (tokens ++ rest) = matchingClose? depth rest

theorem opensTemplate_plainTag (name : String) (attributes : List Attribute) :
    (plainTag name attributes).opensTemplate = isTemplateName name := Bool.and_true _

theorem balances_of_isLevel {pieces : List Piece}
    (h : IsLevel (pieces.flatMap (Piece.marks .block))) : Balances pieces := by
  intro tokens hmarks depth rest
  exact matchingClose?_append (by rw [hmarks, h]) rest

theorem isLevel_enclose (e : Element) {inner : List Piece}
    (hinner : IsLevel (inner.flatMap (Piece.marks .block))) :
    IsLevel ((enclose e.tag e.attributes inner).flatMap (Piece.marks .block)) := by
  have hopens := opensTemplate_plainTag e.tag e.attributes
  unfold enclose
  split
  · rename_i hvoid
    exact isLevel_opening (hopens.trans (isTemplateName_eq_false_of_isVoid hvoid))
  · split
    · exact isLevel_enclosed hopens IsLevel.nil
    · have hlevel := isLevel_enclosed hopens hinner
      rw [List.flatMap_cons, List.flatMap_append, List.flatMap_singleton]
      exact hlevel

theorem balances_tagPiecesOfAll {roots : List Element}
    (h : ∀ e ∈ Element.nodesOfAll roots, IsWritable e) : Balances (tagPiecesOfAll roots) := by
  apply balances_of_isLevel
  refine tagPiecesOfAll_induction
    (P := fun pieces => IsLevel (pieces.flatMap (Piece.marks .block))) IsLevel.nil
    (fun pieces more hpieces hmore => ?_) (fun e _ _ hinner => isLevel_enclose e hinner) h
  rw [List.flatMap_append]
  exact hpieces.append hmore

theorem matchingClose?_of_marks {roots : List Element}
    (h : ∀ e ∈ Element.nodesOfAll roots, IsWritable e) {tokens : List Token}
    (hmarks : tokens.map Token.mark = (tagPiecesOfAll roots).flatMap (Piece.marks .block))
    (place : List Char) :
    matchingClose? 0 (tokens ++ [.closing "template" place]) = some place := by
  rw [balances_tagPiecesOfAll h tokens hmarks, matchingClose?]
  exact if_pos (by decide +kernel)

/-! ## The round trip -/

/-- The pieces are the tags of the forest, with anything around them that is no tag. -/
def Writes (pieces : List Piece) (roots : List Element) : Prop :=
  pieces.filter Piece.isTag = tagPiecesOfAll roots

theorem isReadable_of_writes (scope : Scope) {roots : List Element}
    (h : ∀ e ∈ Element.nodesOfAll roots, IsWritable e) {pieces : List Piece}
    (hwrites : Writes pieces roots)
    (hplain : scope = .block → ∀ cs unmarked, .interpolation cs unmarked ∈ pieces → '<' ∉ cs) :
    ∀ p ∈ pieces, p.IsReadable scope := by
  intro p hp
  by_cases htag : p.isTag = true
  · apply isReadable_tagPiecesOfAll scope h
    rw [← hwrites]
    exact List.mem_filter.mpr ⟨hp, htag⟩
  · cases p with
    | text => trivial
    | comment => trivial
    | interpolation cs unmarked => exact fun hscope => hplain hscope cs unmarked hp
    | opening => exact absurd rfl htag
    | closing => exact absurd rfl htag
    | rawText => exact absurd rfl htag

theorem reads_of_writes (scope : Scope) {roots : List Element}
    (h : ∀ e ∈ Element.nodesOfAll roots, IsWritable e) {pieces : List Piece}
    (hwrites : Writes pieces roots)
    (hplain : scope = .block → ∀ cs unmarked, .interpolation cs unmarked ∈ pieces → '<' ∉ cs) :
    Reads scope (textOf pieces) ((tagPiecesOfAll roots).flatMap (Piece.marks scope)) := by
  rw [← hwrites, flatMap_marks_filter]
  exact reads_pieces (isReadable_of_writes scope h hwrites hplain)

theorem forest_textOf {roots : List Element}
    (h : ∀ e ∈ Element.nodesOfAll roots, IsWritable e) (hfolded : Element.IsFoldedForest roots)
    {pieces : List Piece} (hwrites : Writes pieces roots) :
    forest (textOf pieces) = .ok roots := by
  have hreads := reads_of_writes .template h hwrites fun hscope => Scope.noConfusion hscope
  obtain ⟨tokens, hmarks, hscan⟩ := hreads []
  rw [List.append_nil] at hscan
  have htokens : (scan .template (textOf pieces)).tokens = tokens := by
    rw [hscan, scan]
    exact List.append_nil _
  have hproblem : (scan .template (textOf pieces)).problem = none := by
    rw [hscan, scan]
    rfl
  rw [forest_ok_iff, htokens]
  exact ⟨hproblem, grow_of_marks h hfolded hmarks⟩

theorem isWritableTag_template : IsWritableTag "template" [] := by decide +kernel

/-- The content of a template block ends where its tokens do not close the block. -/
theorem templateContent_of_scan {content : List Char} {tokens : List Token}
    (hscan : scan .block (content ++ closingChars "template") =
      (scan .block (closingChars "template")).prepend tokens)
    (hclose : ∀ place, matchingClose? 0 (tokens ++ [.closing "template" place]) = some place)
    (place : List Char) :
    templateContent place (content ++ closingChars "template") = .ok content := by
  have hclosing : scan .block (closingChars "template") =
      ⟨[.closing "template" (closingChars "template")], none⟩ := by
    have hbegin := beginning_closingChars isWritableTag_template []
    have hread := readCloseTag_closingChars isWritableTag_template.name []
    rw [List.append_nil] at hbegin hread
    rw [scan_closing hbegin hread, scan]
    rfl
  have htokens : (scan .block (content ++ closingChars "template")).tokens =
      tokens ++ [.closing "template" (closingChars "template")] := by
    rw [hscan, hclosing]
    rfl
  rw [templateContent]
  simp only [htokens, hclose]
  rw [List.length_append, Nat.add_sub_cancel, List.take_left]

/-- The content of a template block is a written text, if no interpolation in it seems to begin a
tag. -/
theorem templateContent_textOf {roots : List Element}
    (h : ∀ e ∈ Element.nodesOfAll roots, IsWritable e) {pieces : List Piece}
    (hwrites : Writes pieces roots)
    (hplain : ∀ cs unmarked, .interpolation cs unmarked ∈ pieces → '<' ∉ cs) (place : List Char) :
    templateContent place (textOf pieces ++ closingChars "template") = .ok (textOf pieces) := by
  obtain ⟨tokens, hmarks, hscan⟩ :=
    reads_of_writes .block h hwrites (fun _ => hplain) (closingChars "template")
  exact templateContent_of_scan hscan (matchingClose?_of_marks h hmarks) place

theorem findTemplate_of_template {text rest : List Char} {tag : OpenTag}
    (hbegin : beginning text = .opening) (hread : readOpenTag text = .ok (tag, rest))
    (htemplate : isTemplateName tag.name = true) (hopen : tag.selfClosing = false) :
    findTemplate text = (templateContent text rest).map some := by
  cases text with
  | nil => cases hbegin
  | cons c cs =>
    rw [findTemplate.eq_def]
    simp only [hbegin]
    split
    · rename_i heq
      rw [hread] at heq
      cases heq
    · rename_i heq
      rw [hread] at heq
      cases heq
      rw [if_pos htemplate, hopen, if_neg Bool.false_ne_true]

/-- A component that begins with a template block has the content of the block. -/
theorem findTemplate_of_content {content : List Char}
    (h : ∀ place, templateContent place (content ++ closingChars "template") = .ok content) :
    findTemplate (openingChars "template" [] ++ (content ++ closingChars "template")) =
      .ok (some content) := by
  have hbegin := beginning_openingChars isWritableTag_template (content ++ closingChars "template")
  have hread := readOpenTag_openingChars isWritableTag_template (content ++ closingChars "template")
  have htemplate : isTemplateName (plainTag "template" []).name = true := by decide +kernel
  rw [findTemplate_of_template hbegin hread htemplate rfl, h]
  rfl

theorem findTemplate_textOf {roots : List Element}
    (h : ∀ e ∈ Element.nodesOfAll roots, IsWritable e) {pieces : List Piece}
    (hwrites : Writes pieces roots)
    (hplain : ∀ cs unmarked, .interpolation cs unmarked ∈ pieces → '<' ∉ cs) :
    findTemplate (openingChars "template" [] ++ (textOf pieces ++ closingChars "template")) =
      .ok (some (textOf pieces)) :=
  findTemplate_of_content (templateContent_textOf h hwrites hplain)

/-- A written forest is compiled to itself, and if no interpolation in it holds an angle bracket,
its text is the template of a component that holds it. -/
theorem compile_textOf {roots : List Element}
    (hwritable : ∀ e ∈ Element.nodesOfAll roots, IsWritable e)
    (hfolded : Element.IsFoldedForest roots) {pieces : List Piece} (hwrites : Writes pieces roots) :
    compile (String.ofList (textOf pieces)) = .ok roots ∧
      ((∀ cs unmarked, .interpolation cs unmarked ∈ pieces → '<' ∉ cs) →
        template? ("<template>" ++ String.ofList (textOf pieces) ++ "</template>") =
          .ok (some (String.ofList (textOf pieces)))) := by
  constructor
  · rw [compile_ok_iff_forest, String.toList_ofList]
    exact forest_textOf hwritable hfolded hwrites
  · intro hplain
    have hopening : "<template>".toList = openingChars "template" [] := by decide +kernel
    have hclosing : "</template>".toList = closingChars "template" := by decide +kernel
    have hchars : ("<template>" ++ String.ofList (textOf pieces) ++ "</template>").toList =
        openingChars "template" [] ++ (textOf pieces ++ closingChars "template") := by
      rw [String.toList_append, String.toList_append, hopening, hclosing, String.toList_ofList,
        List.append_assoc]
    rw [template?, hchars, findTemplate_textOf hwritable hwrites hplain]
    rfl

def menuForest : List Element :=
  [⟨"ul", [],
    [⟨"li", [⟨"v-if", some "n > 0"⟩], [], [⟨"Empty", [⟨"v-else", none⟩], [], []⟩]⟩,
      ⟨"template", [⟨"#end", none⟩], [⟨"br", [], [], []⟩], []⟩], []⟩,
    ⟨"style", [], [], []⟩]

def menuPieces : List Piece :=
  [.opening "ul" [], .text [' '] (by simp), .opening "li" [⟨"v-if", some "n > 0"⟩],
    .interpolation ['n', '}'] (by decide), .closing "li", .comment ['<', 'p', '>', '-'] (by decide),
    .opening "Empty" [⟨"v-else", none⟩], .closing "Empty",
    .opening "template" [⟨"#end", none⟩], .opening "br" [], .closing "template", .closing "ul",
    .rawText "style" []]

def menuText : String :=
  "<ul> <li v-if=\"n > 0\">\x7b\x7bn\x7d\x7d\x7d</li><!--<p>---><Empty v-else></Empty>" ++
    "<template #end><br></template></ul><style></style>"

theorem compile_textOf_menu :
    compile menuText = .ok menuForest ∧
      template? ("<template>" ++ menuText ++ "</template>") = .ok (some menuText) := by
  have hwritable : ∀ e ∈ Element.nodesOfAll menuForest, IsWritable e := by decide +kernel
  have hfolded : Element.IsFoldedForest menuForest := by decide +kernel
  have hwrites : Writes menuPieces menuForest := by rfl
  have hplain : ∀ cs unmarked, .interpolation cs unmarked ∈ menuPieces → '<' ∉ cs := by
    intro cs unmarked hmem
    simp only [menuPieces, List.mem_cons, Piece.interpolation.injEq, reduceCtorEq, false_or,
      List.not_mem_nil, or_false] at hmem
    rw [hmem]
    decide
  have htext : String.ofList (textOf menuPieces) = menuText := by decide +kernel
  obtain ⟨hcompile, htemplate⟩ := compile_textOf hwritable hfolded hwrites
  rw [htext] at hcompile htemplate
  exact ⟨hcompile, htemplate hplain⟩

end ComponentGraph.Markup
