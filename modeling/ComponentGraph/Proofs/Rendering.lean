import ComponentGraph.Markup.Block
import ComponentGraph.Markup.Forest
import ComponentGraph.Proofs.Elements
import ComponentGraph.Proofs.Scanning
import Mathlib.Data.List.DropRight
/-!
# The text of a forest

A forest is written as its tags in order, the alternatives of a chain behind the element that
heads it. Around the tags there may be text, comments and interpolations, which carry the proof
that they end where they are meant to. What is written as a tag is read back as that tag, whatever
follows it.
-/

namespace ComponentGraph.Markup

open Text (isMarkupBlank)

/-! ## What can be written -/

structure IsWritableAttribute (a : Attribute) : Prop where
  named : a.name.toList ≠ []
  name : ∀ c ∈ a.name.toList, isAttributeNameChar c = true
  value : ∀ v ∈ a.value, '"' ∉ v.toList

theorem isWritableAttribute_iff (a : Attribute) :
    IsWritableAttribute a ↔
      (!a.name.toList.isEmpty && a.name.toList.all isAttributeNameChar &&
        a.value.all fun v => !v.toList.contains '"') = true := by
  simp only [Bool.and_eq_true, Bool.not_eq_true', List.isEmpty_eq_false_iff, List.all_eq_true,
    Option.all_eq_true, List.contains_eq_mem, decide_eq_false_iff_not]
  exact ⟨fun h => ⟨⟨h.named, h.name⟩, h.value⟩, fun h => ⟨h.1.1, h.1.2, h.2⟩⟩

instance (a : Attribute) : Decidable (IsWritableAttribute a) :=
  decidable_of_iff' _ (isWritableAttribute_iff a)

structure IsWritableTag (name : String) (attributes : List Attribute) : Prop where
  initial : name.toList.head?.any Char.isAlpha = true
  name : ∀ c ∈ name.toList, isNameChar c = true
  attributes : ∀ a ∈ attributes, IsWritableAttribute a

theorem isWritableTag_iff (name : String) (attributes : List Attribute) :
    IsWritableTag name attributes ↔
      (name.toList.head?.any Char.isAlpha && name.toList.all isNameChar &&
        attributes.all fun a => decide (IsWritableAttribute a)) = true := by
  simp only [Bool.and_eq_true, List.all_eq_true, decide_eq_true_eq]
  exact ⟨fun h => ⟨⟨h.initial, h.name⟩, h.attributes⟩, fun h => ⟨h.1.1, h.1.2, h.2⟩⟩

instance (name : String) (attributes : List Attribute) :
    Decidable (IsWritableTag name attributes) :=
  decidable_of_iff' _ (isWritableTag_iff name attributes)

/-- The opening tag of an element that does not close itself. -/
def plainTag (name : String) (attributes : List Attribute) : OpenTag := ⟨name, attributes, false⟩

/-- An element whose content, if it has any, is markup that can be written. -/
structure IsWritable (e : Element) : Prop where
  tag : IsWritableTag e.tag e.attributes
  empty : (plainTag e.tag e.attributes).isLeaf = true → e.children = []

instance (e : Element) : Decidable (IsWritable e) :=
  decidable_of_iff
    (IsWritableTag e.tag e.attributes ∧
      ((plainTag e.tag e.attributes).isLeaf = true → e.children = []))
    ⟨fun ⟨htag, hempty⟩ => ⟨htag, hempty⟩, fun h => ⟨h.tag, h.empty⟩⟩

/-! ## How it is written -/

def attributeChars (a : Attribute) : List Char :=
  a.name.toList ++
    match a.value with
    | none => []
    | some v => '=' :: '"' :: (v.toList ++ ['"'])

/-- The attributes of an opening tag and its end. -/
def attributesChars (attributes : List Attribute) : List Char :=
  attributes.flatMap (fun a => ' ' :: attributeChars a) ++ ['>']

def openingChars (name : String) (attributes : List Attribute) : List Char :=
  '<' :: (name.toList ++ attributesChars attributes)

def closingChars (name : String) : List Char := '<' :: '/' :: (name.toList ++ ['>'])

/-- A tag, or what may stand between tags. -/
inductive Piece where
  | text (cs : List Char) (plain : ∀ c ∈ cs, c ≠ '<' ∧ c ≠ '{')
  | comment (cs : List Char) (unmarked : ¬ ['-', '-', '>'] <:+: cs)
  | interpolation (cs : List Char) (unmarked : ¬ ['}', '}'] <:+: cs)
  | opening (name : String) (attributes : List Attribute)
  | closing (name : String)
  /-- An element without content whose content would be no markup. -/
  | rawText (name : String) (attributes : List Attribute)

namespace Piece

def isTag : Piece → Bool
  | .text .. | .comment .. | .interpolation .. => false
  | .opening .. | .closing _ | .rawText .. => true

def chars : Piece → List Char
  | .text cs _ => cs
  | .comment cs _ => ['<', '!', '-', '-'] ++ cs ++ ['-', '-', '>']
  | .interpolation cs _ => ['{', '{'] ++ cs ++ ['}', '}']
  | .opening name attributes => openingChars name attributes
  | .closing name => closingChars name
  | .rawText name attributes => openingChars name attributes ++ closingChars name

end Piece

/-- The tags of an element around those of its children. -/
def enclose (name : String) (attributes : List Attribute) (inner : List Piece) : List Piece :=
  if (plainTag name attributes).isVoid then [.opening name attributes]
  else if (plainTag name attributes).isRawText then [.rawText name attributes]
  else .opening name attributes :: (inner ++ [.closing name])

mutual

/-- The tags of an element, and behind them those of its alternatives. -/
def tagPieces : Element → List Piece
  | ⟨tag, attributes, children, branches⟩ =>
    enclose tag attributes (tagPiecesOfAll children) ++ tagPiecesOfAll branches

def tagPiecesOfAll : List Element → List Piece
  | [] => []
  | e :: es => tagPieces e ++ tagPiecesOfAll es

end

/-- The text of tags and of what stands between them. -/
def textOf (pieces : List Piece) : List Char := pieces.flatMap Piece.chars

/-! ## Attributes are read back -/

theorem isNameChar_of_isAttributeNameChar {c : Char} (h : isAttributeNameChar c = true) :
    isNameChar c = true ∧ c ≠ '=' := by
  simpa [isAttributeNameChar] using h

theorem not_blank_of_isNameChar {c : Char} (h : isNameChar c = true) :
    isMarkupBlank c = false ∧ c ≠ '/' ∧ c ≠ '>' := by
  simp only [isNameChar, Bool.not_eq_true', Bool.or_eq_false_iff, decide_eq_false_iff_not] at h
  exact ⟨h.1.1, h.1.2, h.2⟩

theorem attributesChars_nil (rest : List Char) : attributesChars [] ++ rest = '>' :: rest := rfl

theorem attributesChars_cons (a : Attribute) (attributes : List Attribute) (rest : List Char) :
    attributesChars (a :: attributes) ++ rest =
      ' ' :: (attributeChars a ++ (attributesChars attributes ++ rest)) := by
  simp [attributesChars]

theorem head_attributeChars {a : Attribute} (h : IsWritableAttribute a) :
    ∃ c cs, attributeChars a = c :: cs ∧ isAttributeNameChar c = true := by
  obtain ⟨c, cs, hname⟩ := List.exists_cons_of_ne_nil h.named
  rw [attributeChars, hname, List.cons_append]
  exact ⟨c, _, rfl, h.name c (hname ▸ List.mem_cons_self)⟩

/-- A name ends where the attributes, or the end of the tag, follow it. -/
theorem head_attributesChars (attributes : List Attribute) (rest : List Char) :
    ∀ c ∈ (attributesChars attributes ++ rest).head?, isNameChar c = false := by
  cases attributes with
  | nil =>
    rw [attributesChars_nil]
    simp [isNameChar]
  | cons a attributes =>
    rw [attributesChars_cons]
    simp [isNameChar, isMarkupBlank]

/-- No equals sign stands behind an attribute without a value. -/
theorem head_dropWhile_attributesChars {attributes : List Attribute}
    (h : ∀ a ∈ attributes, IsWritableAttribute a) (rest : List Char) :
    ∀ c ∈ ((attributesChars attributes ++ rest).dropWhile isMarkupBlank).head?, c ≠ '=' := by
  cases attributes with
  | nil =>
    rw [attributesChars_nil, List.dropWhile_cons_of_neg (by decide)]
    simp
  | cons a attributes =>
    obtain ⟨c, cs, hchars, hc⟩ := head_attributeChars (h a List.mem_cons_self)
    have hname := isNameChar_of_isAttributeNameChar hc
    have hblank : ¬ isMarkupBlank c = true :=
      ne_true_of_eq_false (not_blank_of_isNameChar hname.1).1
    rw [attributesChars_cons, hchars, List.dropWhile_cons_of_pos (by decide), List.cons_append,
      List.dropWhile_cons_of_neg hblank]
    simpa using hname.2

theorem readAttributeName_append {name more : List Char} (hnamed : name ≠ [])
    (hname : ∀ c ∈ name, isAttributeNameChar c = true)
    (hmore : ∀ c ∈ more.head?, isAttributeNameChar c = false) :
    readAttributeName (name ++ more) = (name, more) := by
  obtain ⟨c, cs, rfl⟩ := List.exists_cons_of_ne_nil hnamed
  have hcs : ∀ d ∈ cs, isAttributeNameChar d = true :=
    fun d hd => hname d (List.mem_cons_of_mem _ hd)
  rw [List.cons_append, readAttributeName, if_pos (hname c List.mem_cons_self),
    List.takeWhile_append_of_pos hcs, List.dropWhile_append_of_pos hcs]
  cases more with
  | nil => simp
  | cons d more =>
    have hd : ¬ isAttributeNameChar d = true := ne_true_of_eq_false (hmore d rfl)
    rw [List.takeWhile_cons_of_neg hd, List.dropWhile_cons_of_neg hd, List.append_nil]

theorem readValue?_quoted {v : List Char} (h : '"' ∉ v) (rest : List Char) :
    readValue? ('"' :: (v ++ '"' :: rest)) = some (String.ofList v, rest) := by
  have hv : ∀ c ∈ v, decide (c ≠ '"') = true := by
    intro c hc
    rw [decide_eq_true_eq]
    rintro rfl
    exact h hc
  rw [readValue?, if_pos (by decide), List.dropWhile_append_of_pos hv,
    List.takeWhile_append_of_pos hv]
  simp

/-- The attribute is read, and what is left has the same attributes as what follows it. -/
theorem readAttribute?_attributeChars {a : Attribute} (ha : IsWritableAttribute a)
    {attributes : List Attribute} (h : ∀ b ∈ attributes, IsWritableAttribute b)
    (rest : List Char) :
    ∃ after, readAttribute? (attributeChars a ++ (attributesChars attributes ++ rest)) =
        some (a, after) ∧
      after.dropWhile isMarkupBlank =
        (attributesChars attributes ++ rest).dropWhile isMarkupBlank := by
  obtain ⟨name, value⟩ := a
  cases value with
  | none =>
    have hname : readAttributeName (name.toList ++ (attributesChars attributes ++ rest)) =
        (name.toList, attributesChars attributes ++ rest) := by
      apply readAttributeName_append ha.named ha.name
      intro c hc
      rw [isAttributeNameChar, head_attributesChars attributes rest c hc, Bool.false_and]
    have hequals := head_dropWhile_attributesChars h rest
    refine ⟨(attributesChars attributes ++ rest).dropWhile isMarkupBlank, ?_,
      List.dropWhile_idempotent _ _⟩
    simp only [attributeChars, List.append_nil, readAttribute?, hname, String.ofList_toList]
    split
    · rename_i heq
      rw [heq] at hequals
      simp at hequals
    · rfl
  | some v =>
    have hchars : attributeChars ⟨name, some v⟩ ++ (attributesChars attributes ++ rest) =
        name.toList ++ '=' :: '"' :: (v.toList ++ '"' :: (attributesChars attributes ++ rest)) := by
      simp [attributeChars]
    have hname : readAttributeName
        (name.toList ++ '=' :: '"' :: (v.toList ++ '"' :: (attributesChars attributes ++ rest))) =
        (name.toList, '=' :: '"' :: (v.toList ++ '"' :: (attributesChars attributes ++ rest))) := by
      apply readAttributeName_append ha.named ha.name
      intro c hc
      rw [List.head?_cons, Option.mem_some_iff] at hc
      rw [← hc]
      decide
    have hvalue := readValue?_quoted (ha.value v rfl) (attributesChars attributes ++ rest)
    refine ⟨attributesChars attributes ++ rest, ?_, rfl⟩
    rw [hchars, readAttribute?, hname]
    simp only [String.ofList_toList]
    rw [List.dropWhile_cons_of_neg (by decide)]
    simp only
    rw [List.dropWhile_cons_of_neg (by decide), hvalue, String.ofList_toList]
    rfl

theorem readAttributes_end {tag : String} {cs rest : List Char}
    (h : cs.dropWhile isMarkupBlank = '>' :: rest) :
    readAttributes tag cs = .ok ([], false, rest) := by
  rw [readAttributes]
  split <;> simp_all

theorem readAttributes_attribute {tag : String} {cs more after rest : List Char} {c : Char}
    {a : Attribute} {attributes : List Attribute} {selfClosing : Bool}
    (h : cs.dropWhile isMarkupBlank = c :: more) (hslash : c ≠ '/') (hclose : c ≠ '>')
    (hread : readAttribute? (c :: more) = some (a, after))
    (hafter : readAttributes tag after = .ok (attributes, selfClosing, rest)) :
    readAttributes tag cs = .ok (a :: attributes, selfClosing, rest) := by
  rw [readAttributes]
  split
  · rename_i heq
    rw [h] at heq
    cases heq
  · rename_i heq
    rw [h] at heq
    exact absurd (List.cons.inj heq).1 hclose
  · rename_i heq
    rw [h] at heq
    exact absurd (List.cons.inj heq).1 hslash
  · rename_i heq
    rw [h] at heq
    exact absurd (List.cons.inj heq).1 hslash
  · rename_i heq
    rw [h] at heq
    obtain ⟨rfl, rfl⟩ := List.cons.inj heq
    split
    · rename_i hnone
      rw [hread] at hnone
      cases hnone
    · rename_i hsome
      rw [hread] at hsome
      cases hsome
      rw [hafter]

/-- Leading blanks mean nothing. -/
theorem readAttributes_congr {tag : String} {cs ds : List Char}
    (h : cs.dropWhile isMarkupBlank = ds.dropWhile isMarkupBlank) :
    readAttributes tag cs = readAttributes tag ds := by
  rw [readAttributes, readAttributes, h]

theorem readAttributes_attributesChars (tag : String) {attributes : List Attribute}
    (h : ∀ a ∈ attributes, IsWritableAttribute a) (rest : List Char) :
    readAttributes tag (attributesChars attributes ++ rest) = .ok (attributes, false, rest) := by
  induction attributes with
  | nil => exact readAttributes_end (by rw [attributesChars_nil]; rfl)
  | cons a attributes ih =>
    have ha := h a List.mem_cons_self
    have hothers : ∀ b ∈ attributes, IsWritableAttribute b :=
      fun b hb => h b (List.mem_cons_of_mem _ hb)
    obtain ⟨c, cs, hchars, hc⟩ := head_attributeChars ha
    obtain ⟨after, hread, hafter⟩ := readAttribute?_attributeChars ha hothers rest
    have hname := not_blank_of_isNameChar (isNameChar_of_isAttributeNameChar hc).1
    have hblank : ¬ isMarkupBlank c = true := ne_true_of_eq_false hname.1
    rw [hchars, List.cons_append] at hread
    refine readAttributes_attribute ?_ hname.2.1 hname.2.2 hread
      ((readAttributes_congr hafter).trans (ih hothers))
    rw [attributesChars_cons, hchars, List.dropWhile_cons_of_pos (by decide), List.cons_append,
      List.dropWhile_cons_of_neg hblank]

/-! ## Tags are read back -/

theorem takeWhile_name {name more : List Char} (hname : ∀ c ∈ name, isNameChar c = true)
    (hmore : ∀ c ∈ more.head?, isNameChar c = false) :
    (name ++ more).takeWhile isNameChar = name ∧ (name ++ more).dropWhile isNameChar = more := by
  rw [List.takeWhile_append_of_pos hname, List.dropWhile_append_of_pos hname]
  cases more with
  | nil => simp
  | cons d more =>
    have hd : ¬ isNameChar d = true := ne_true_of_eq_false (hmore d rfl)
    rw [List.takeWhile_cons_of_neg hd, List.dropWhile_cons_of_neg hd, List.append_nil]
    exact ⟨rfl, rfl⟩

theorem readOpenTag_openingChars {name : String} {attributes : List Attribute}
    (h : IsWritableTag name attributes) (rest : List Char) :
    readOpenTag (openingChars name attributes ++ rest) = .ok (plainTag name attributes, rest) := by
  have hchars : openingChars name attributes ++ rest =
      '<' :: (name.toList ++ (attributesChars attributes ++ rest)) := by
    simp [openingChars]
  have hname := takeWhile_name h.name (head_attributesChars attributes rest)
  rw [hchars, readOpenTag, List.drop_one, List.tail_cons, hname.1, hname.2, String.ofList_toList,
    readAttributes_attributesChars name h.attributes]
  rfl

theorem readCloseTag_closingChars {name : String} (h : ∀ c ∈ name.toList, isNameChar c = true)
    (rest : List Char) : readCloseTag (closingChars name ++ rest) = .ok (name, rest) := by
  have hchars : closingChars name ++ rest = '<' :: '/' :: (name.toList ++ '>' :: rest) := by
    simp [closingChars]
  have hend : ∀ c ∈ ('>' :: rest).head?, isNameChar c = false := by simp [isNameChar]
  have hname := takeWhile_name h hend
  rw [hchars, readCloseTag, List.drop_succ_cons, List.drop_succ_cons, List.drop_zero, hname.1,
    hname.2, List.dropWhile_cons_of_neg (by decide), String.ofList_toList]

theorem findClosing?_closingChars (name : String) (rest : List Char) :
    findClosing? name (closingChars name ++ rest) = some (closingChars name ++ rest) := by
  have hchars : closingChars name ++ rest = '<' :: '/' :: (name.toList ++ '>' :: rest) := by
    simp [closingChars]
  have hstarts : startsClosing name ('<' :: '/' :: (name.toList ++ '>' :: rest)) = true := by
    simp [startsClosing]
  rw [hchars, findClosing?, if_pos hstarts]

/-! ## What a tag begins with -/

theorem IsWritableTag.exists_cons {name : String} {attributes : List Attribute}
    (h : IsWritableTag name attributes) :
    ∃ c cs, name.toList = c :: cs ∧ c.isAlpha = true := by
  have hinitial := h.initial
  cases hname : name.toList with
  | nil =>
    rw [hname] at hinitial
    cases hinitial
  | cons c cs =>
    rw [hname] at hinitial
    exact ⟨c, cs, rfl, hinitial⟩

theorem beginning_openingChars {name : String} {attributes : List Attribute}
    (h : IsWritableTag name attributes) (rest : List Char) :
    beginning (openingChars name attributes ++ rest) = .opening := by
  obtain ⟨c, cs, hname, hc⟩ := h.exists_cons
  rw [openingChars, hname]
  exact beginning_opening hc _

theorem beginning_closingChars {name : String} {attributes : List Attribute}
    (h : IsWritableTag name attributes) (rest : List Char) :
    beginning (closingChars name ++ rest) = .closing := by
  obtain ⟨c, cs, hname, hc⟩ := h.exists_cons
  rw [closingChars, hname]
  exact beginning_closing hc _

end ComponentGraph.Markup
