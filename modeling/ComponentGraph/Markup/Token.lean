import ComponentGraph.Markup.Tag
import ComponentGraph.Tag.Kind
/-!
# Tag tokens

The tags of a text in order. Comments are always passed over. In a template, interpolations and
the content of `script` and `style` are passed over too, so that a raw text element is a single
token; when only the end of a block is looked for they are not.
-/

namespace ComponentGraph.Markup

/-- What is passed over besides comments. -/
inductive Scope where
  /-- Interpolations and raw text. -/
  | template
  /-- Nothing else. -/
  | block
deriving DecidableEq, Repr

/-- A tag and the text from its bracket on. -/
inductive Token where
  | opening (tag : OpenTag) (place : List Char)
  | closing (name : String) (place : List Char)
deriving DecidableEq, Repr

/-- What begins at a place. -/
inductive Beginning where
  | comment
  | interpolation
  | closing
  | opening
  | other
deriving DecidableEq, Repr

/-- A tag begins with a letter behind the bracket, or behind the bracket and slash. -/
def beginning : List Char → Beginning
  | '<' :: '!' :: '-' :: '-' :: _ => .comment
  | '<' :: '/' :: c :: _ => if c.isAlpha then .closing else .other
  | '<' :: c :: _ => if c.isAlpha then .opening else .other
  | '{' :: '{' :: _ => .interpolation
  | _ => .other

/-- The text behind the first occurrence of a mark. -/
def behind? (mark : List Char) : List Char → Option (List Char)
  | [] => none
  | c :: cs =>
    if mark.isPrefixOf (c :: cs) then some ((c :: cs).drop mark.length) else behind? mark cs

theorem length_behind? {mark cs rest : List Char} (h : behind? mark cs = some rest) :
    rest.length ≤ cs.length := by
  induction cs with
  | nil => cases h
  | cons c cs ih =>
    simp only [behind?] at h
    split at h
    · simp only [Option.some.injEq] at h
      rw [← h, List.length_drop]
      exact Nat.sub_le _ _
    · exact Nat.le_succ_of_le (ih h)

/-- The text behind a comment. -/
def afterComment? (cs : List Char) : Option (List Char) := behind? ['-', '-', '>'] (cs.drop 4)

/-- The text behind an interpolation. One that is not closed takes all that is left. -/
def afterInterpolation (cs : List Char) : List Char :=
  (behind? ['}', '}'] (cs.drop 2)).getD []

theorem length_afterComment? {c : Char} {cs rest : List Char}
    (h : afterComment? (c :: cs) = some rest) : rest.length ≤ cs.length := by
  have hle := length_behind? h
  simp only [List.length_drop, List.length_cons] at hle
  omega

theorem length_afterInterpolation (c : Char) (cs : List Char) :
    (afterInterpolation (c :: cs)).length ≤ cs.length := by
  unfold afterInterpolation
  cases h : behind? ['}', '}'] ((c :: cs).drop 2) with
  | none => simp
  | some rest =>
    have hle := length_behind? h
    simp only [List.length_drop, List.length_cons] at hle
    simp only [Option.getD_some]
    omega

/-- Elements whose content is no markup, as they are written. -/
def OpenTag.isRawText (tag : OpenTag) : Bool := tag.name = "script" || tag.name = "style"

def OpenTag.isVoid (tag : OpenTag) : Bool := Tag.isVoid tag.name

/-- The text behind a raw text element, whose opening tag began at `place`. -/
def afterRawText (tag : OpenTag) (place rest : List Char) : Except Problem (List Char) :=
  match findClosing? tag.name rest with
  | none => .error ⟨.missingEnd tag.name, place⟩
  | some close =>
    match readCloseTag close with
    | .error fault => .error ⟨fault, close⟩
    | .ok (_, rest) => .ok rest

theorem length_afterRawText {tag : OpenTag} {place rest after : List Char}
    (h : afterRawText tag place rest = .ok after) : after.length ≤ rest.length := by
  simp only [afterRawText] at h
  split at h
  · cases h
  · rename_i close hclose
    split at h
    · cases h
    · rename_i hread
      have hle := length_findClosing? hclose
      have hlt := length_readCloseTag hread
      simp only [Except.ok.injEq] at h
      subst h
      omega

/-- The text behind an opening tag and, in a template, behind the raw text it opens. -/
def afterOpening (scope : Scope) (tag : OpenTag) (place rest : List Char) :
    Except Problem (List Char) :=
  if scope = .template && tag.isRawText && !tag.selfClosing then afterRawText tag place rest
  else .ok rest

theorem length_afterOpening {scope : Scope} {tag : OpenTag} {place rest after : List Char}
    (h : afterOpening scope tag place rest = .ok after) : after.length ≤ rest.length := by
  simp only [afterOpening] at h
  split at h
  · exact length_afterRawText h
  · simp only [Except.ok.injEq] at h
    exact h ▸ Nat.le_refl _

/-- The tokens up to the end of the text, or up to the first fault. -/
structure Scan where
  tokens : List Token
  problem : Option Problem

def Scan.cons (t : Token) (s : Scan) : Scan := { s with tokens := t :: s.tokens }

def Scan.stop (fault : Fault) (place : List Char) : Scan := ⟨[], some ⟨fault, place⟩⟩

def scan (scope : Scope) : List Char → Scan
  | [] => ⟨[], none⟩
  | c :: cs =>
    match beginning (c :: cs) with
    | .comment =>
      match _h : afterComment? (c :: cs) with
      | none => .stop .unterminatedComment (c :: cs)
      | some rest => scan scope rest
    | .interpolation =>
      match scope with
      | .template => scan .template (afterInterpolation (c :: cs))
      | .block => scan .block cs
    | .closing =>
      match _h : readCloseTag (c :: cs) with
      | .error fault => .stop fault (c :: cs)
      | .ok (name, rest) => (scan scope rest).cons (.closing name (c :: cs))
    | .opening =>
      match _h : readOpenTag (c :: cs) with
      | .error fault => .stop fault (c :: cs)
      | .ok (tag, rest) =>
        match _h' : afterOpening scope tag (c :: cs) rest with
        | .error problem => ⟨[.opening tag (c :: cs)], some problem⟩
        | .ok rest => (scan scope rest).cons (.opening tag (c :: cs))
    | .other => scan scope cs
termination_by cs => cs.length
decreasing_by
  · exact Nat.lt_succ_of_le (length_afterComment? _h)
  · exact Nat.lt_succ_of_le (length_afterInterpolation c cs)
  · exact Nat.lt_succ_self _
  · exact length_readCloseTag _h
  · exact Nat.lt_of_le_of_lt (length_afterOpening _h') (length_readOpenTag _h)
  · exact Nat.lt_succ_self _

end ComponentGraph.Markup
