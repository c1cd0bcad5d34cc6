import ComponentGraph.Markup.Element
import ComponentGraph.Markup.Fault
import ComponentGraph.Text.Blank
import ComponentGraph.Text.Split
/-!
# Reading tags

Opening tags with their attributes, and closing tags. Each reader returns what it read and
the rest of the text, which is shorter than what it was given.
-/

namespace ComponentGraph.Markup

open Text (isMarkupBlank)

structure OpenTag where
  name : String
  attributes : List Attribute
  selfClosing : Bool
deriving DecidableEq, Repr

/-- A tag's name ends before a blank, a slash or a closing bracket. -/
def isNameChar (c : Char) : Bool := !(isMarkupBlank c || c = '/' || c = '>')

/-- An attribute's name ends before an equals sign, too. -/
def isAttributeNameChar (c : Char) : Bool := isNameChar c && c ≠ '='

/-- A value without quotes ends before a blank or a closing bracket. -/
def isUnquotedChar (c : Char) : Bool := !(isMarkupBlank c || c = '>')

/-- The name of an attribute, which has at least one character, and what follows it. -/
def readAttributeName : List Char → List Char × List Char
  | [] => ([], [])
  | c :: cs =>
    if isAttributeNameChar c then
      (c :: cs.takeWhile isAttributeNameChar, cs.dropWhile isAttributeNameChar)
    else ([c], cs)

theorem length_readAttributeName (c : Char) (cs : List Char) :
    (readAttributeName (c :: cs)).2.length ≤ cs.length := by
  simp only [readAttributeName]
  split
  · exact (List.dropWhile_suffix _).length_le
  · exact Nat.le_refl _

/-- A value in quotes of either kind, or without quotes. There is none if the quotes are not
closed. -/
def readValue? : List Char → Option (String × List Char)
  | [] => some ("", [])
  | c :: cs =>
    if c = '"' || c = '\'' then
      match cs.dropWhile (· ≠ c) with
      | [] => none
      | _ :: rest => some (String.ofList (cs.takeWhile (· ≠ c)), rest)
    else
      some (String.ofList ((c :: cs).takeWhile isUnquotedChar), (c :: cs).dropWhile isUnquotedChar)

theorem length_readValue? {cs rest : List Char} {value : String}
    (h : readValue? cs = some (value, rest)) : rest.length ≤ cs.length := by
  cases cs with
  | nil => simp_all [readValue?]
  | cons c cs =>
    simp only [readValue?] at h
    split at h
    · split at h
      · cases h
      · rename_i first others hdrop
        have hle := (List.dropWhile_suffix (l := cs) (· ≠ c)).length_le
        rw [hdrop] at hle
        simp only [Option.some.injEq, Prod.mk.injEq] at h
        rw [← h.2]
        simp only [List.length_cons] at hle ⊢
        omega
    · simp only [Option.some.injEq, Prod.mk.injEq] at h
      rw [← h.2]
      exact (List.dropWhile_suffix _).length_le

/-- An attribute. Blanks may stand on both sides of the equals sign. -/
def readAttribute? (cs : List Char) : Option (Attribute × List Char) :=
  let (name, afterName) := readAttributeName cs
  match afterName.dropWhile isMarkupBlank with
  | '=' :: rest =>
    (readValue? (rest.dropWhile isMarkupBlank)).map fun (value, rest) =>
      (⟨String.ofList name, some value⟩, rest)
  | rest => some (⟨String.ofList name, none⟩, rest)

theorem length_readAttribute? {c : Char} {cs rest : List Char} {a : Attribute}
    (h : readAttribute? (c :: cs) = some (a, rest)) : rest.length ≤ cs.length := by
  have hname := length_readAttributeName c cs
  have hblank :=
    (List.dropWhile_suffix (l := (readAttributeName (c :: cs)).2) isMarkupBlank).length_le
  simp only [readAttribute?] at h
  split at h
  · rename_i after hdrop
    rw [hdrop] at hblank
    rw [Option.map_eq_some_iff] at h
    obtain ⟨⟨value, rest'⟩, hvalue, heq⟩ := h
    simp only [Prod.mk.injEq] at heq
    have hle := length_readValue? hvalue
    have hle' := (List.dropWhile_suffix (l := after) isMarkupBlank).length_le
    rw [← heq.2]
    simp only [List.length_cons] at hblank
    omega
  · simp only [Option.some.injEq, Prod.mk.injEq] at h
    rw [← h.2]
    omega

/-- The attributes up to the end of an opening tag, whether the tag closes itself, and what
follows it. A slash that does not close the tag is passed over. -/
def readAttributes (tag : String) (cs : List Char) :
    Except Fault (List Attribute × Bool × List Char) :=
  match _hdrop : cs.dropWhile isMarkupBlank with
  | [] => .error (.unterminatedTag tag)
  | '>' :: rest => .ok ([], false, rest)
  | '/' :: '>' :: rest => .ok ([], true, rest)
  | '/' :: rest => readAttributes tag rest
  | c :: rest =>
    match _hread : readAttribute? (c :: rest) with
    | none => .error (.unterminatedValue tag)
    | some (a, after) =>
      match readAttributes tag after with
      | .error fault => .error fault
      | .ok (attributes, selfClosing, rest) => .ok (a :: attributes, selfClosing, rest)
termination_by cs.length
decreasing_by
  · have hle := (List.dropWhile_suffix (l := cs) isMarkupBlank).length_le
    rw [_hdrop] at hle
    exact hle
  · have hle := (List.dropWhile_suffix (l := cs) isMarkupBlank).length_le
    rw [_hdrop] at hle
    have hle' := length_readAttribute? _hread
    simp only [List.length_cons] at hle
    omega

theorem length_readAttributes {tag : String} {cs rest : List Char} {attributes : List Attribute}
    {selfClosing : Bool} (h : readAttributes tag cs = .ok (attributes, selfClosing, rest)) :
    rest.length < cs.length := by
  fun_induction readAttributes tag cs generalizing attributes selfClosing rest with
  | case1 => cases h
  | case2 cs after hdrop =>
    have hle := (List.dropWhile_suffix (l := cs) isMarkupBlank).length_le
    rw [hdrop] at hle
    simp only [Except.ok.injEq, Prod.mk.injEq] at h
    rw [← h.2.2]
    simp only [List.length_cons] at hle
    omega
  | case3 cs after hdrop =>
    have hle := (List.dropWhile_suffix (l := cs) isMarkupBlank).length_le
    rw [hdrop] at hle
    simp only [Except.ok.injEq, Prod.mk.injEq] at h
    rw [← h.2.2]
    simp only [List.length_cons] at hle
    omega
  | case4 cs after _ hdrop ih =>
    have hle := (List.dropWhile_suffix (l := cs) isMarkupBlank).length_le
    rw [hdrop] at hle
    have hlt := ih h
    simp only [List.length_cons] at hle
    omega
  | case5 => cases h
  | case6 => cases h
  | case7 cs c after _ _ _ hdrop a next hread attributes' selfClosing' rest' heq ih =>
    have hle := (List.dropWhile_suffix (l := cs) isMarkupBlank).length_le
    rw [hdrop] at hle
    have hle' := length_readAttribute? hread
    have hlt := ih heq
    simp only [Except.ok.injEq, Prod.mk.injEq] at h
    rw [← h.2.2]
    simp only [List.length_cons] at hle
    omega

/-- An opening tag. The text begins with its bracket. -/
def readOpenTag (cs : List Char) : Except Fault (OpenTag × List Char) :=
  let name := String.ofList ((cs.drop 1).takeWhile isNameChar)
  match readAttributes name ((cs.drop 1).dropWhile isNameChar) with
  | .error fault => .error fault
  | .ok (attributes, selfClosing, rest) => .ok (⟨name, attributes, selfClosing⟩, rest)

theorem length_readOpenTag {cs rest : List Char} {tag : OpenTag}
    (h : readOpenTag cs = .ok (tag, rest)) : rest.length < cs.length := by
  simp only [readOpenTag] at h
  split at h
  · cases h
  · rename_i heq
    have hlt := length_readAttributes heq
    have hle := (List.dropWhile_suffix (l := cs.drop 1) isNameChar).length_le
    simp only [Except.ok.injEq, Prod.mk.injEq] at h
    rw [← h.2]
    simp only [List.length_drop] at hle
    omega

/-- The name of a closing tag and what follows the tag. The text begins with its bracket and
slash; whatever stands between the name and the closing bracket is passed over. -/
def readCloseTag (cs : List Char) : Except Fault (String × List Char) :=
  let name := String.ofList ((cs.drop 2).takeWhile isNameChar)
  match ((cs.drop 2).dropWhile isNameChar).dropWhile (· ≠ '>') with
  | [] => .error (.unterminatedClosing name)
  | _ :: rest => .ok (name, rest)

theorem length_readCloseTag {cs rest : List Char} {name : String}
    (h : readCloseTag cs = .ok (name, rest)) : rest.length < cs.length := by
  simp only [readCloseTag] at h
  split at h
  · cases h
  · rename_i first others hdrop
    have hle :=
      (List.dropWhile_suffix (l := (cs.drop 2).dropWhile isNameChar) (· ≠ '>')).length_le
    have hle' := (List.dropWhile_suffix (l := cs.drop 2) isNameChar).length_le
    rw [hdrop] at hle
    simp only [Except.ok.injEq, Prod.mk.injEq] at h
    rw [← h.2]
    simp only [List.length_drop, List.length_cons] at hle hle'
    omega

/-- The text begins with a closing tag of the given name, in any mixture of cases. -/
def startsClosing (name : String) : List Char → Bool
  | '<' :: '/' :: rest =>
    let length := name.toList.length
    decide ((rest.take length).map Char.toLower = name.toList.map Char.toLower) &&
      (rest.drop length).head?.all fun c => isMarkupBlank c || c = '>'
  | _ => false

/-- The text from the first closing tag of the given name on. -/
def findClosing? (name : String) : List Char → Option (List Char)
  | [] => none
  | c :: cs => if startsClosing name (c :: cs) then some (c :: cs) else findClosing? name cs

theorem length_findClosing? {name : String} {cs close : List Char}
    (h : findClosing? name cs = some close) : close.length ≤ cs.length := by
  induction cs with
  | nil => cases h
  | cons c cs ih =>
    unfold findClosing? at h
    split at h
    · simp only [Option.some.injEq] at h
      exact h ▸ Nat.le_refl _
    · exact Nat.le_succ_of_le (ih h)

end ComponentGraph.Markup
