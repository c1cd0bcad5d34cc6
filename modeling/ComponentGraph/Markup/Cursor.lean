import ComponentGraph.Markup.Block
import ComponentGraph.Markup.Forest
import ComponentGraph.Text.Bytes
/-!
# Reading by bytes

The readers of markup on the bytes of a text. In place of the rest of the text they have a position,
which they move on byte by byte, also into the middle of a character. All that a reader of bytes
must not do is checked, and halts it as a fault of the markup does: a slice whose ends are out of
order or outside the text, a slice of text that begins or ends within a character, a number taken
off a smaller one, and a turn of a loop that does not move the position on or moves it past the end.
-/

namespace ComponentGraph.Markup.Cursor

open Text (bytes)

inductive Breach where
  /-- A slice that ends before it begins. -/
  | order
  /-- A slice that ends behind the text. -/
  | outside
  /-- A slice of text that begins or ends within a character. -/
  | withinCharacter
  | underflow
  /-- A turn of a loop that does not move the position on. -/
  | stuck
  /-- A turn of a loop that moves the position past the end. -/
  | overrun
deriving DecidableEq, Repr

inductive Halt where
  | breach (b : Breach)
  | fault (e : ParseError)
deriving DecidableEq, Repr

abbrev Run (α : Type) := Except Halt α

/-! ## Slices -/

/-- The bytes between two positions. -/
def slice (source : List UInt8) (start stop : Nat) : Run (List UInt8) :=
  if stop < start then .error (.breach .order)
  else if source.length < stop then .error (.breach .outside)
  else .ok ((source.take stop).drop start)

/-- No character goes on here: the position is at either end or at a byte that begins one. -/
def isBoundary (source : List UInt8) (pos : Nat) : Bool :=
  pos = 0 ||
    match source[pos]? with
    | none => pos = source.length
    | some b => b < 128 || 192 ≤ b

/-- The bytes of the text between two positions. -/
def sliceText (source : List UInt8) (start stop : Nat) : Run (List UInt8) := do
  let part ← slice source start stop
  if isBoundary source start && isBoundary source stop then .ok part
  else .error (.breach .withinCharacter)

/-- The text between two positions. -/
def text (source : List UInt8) (start stop : Nat) : Run String := do
  let part ← sliceText source start stop
  match String.fromUTF8? part.toByteArray with
  | some s => .ok s
  | none => .error (.breach .withinCharacter)

/-- The difference of two numbers, of which the second must not be greater. -/
def minus (n m : Nat) : Run Nat :=
  if n < m then .error (.breach .underflow) else .ok (n - m)

/-- A fault at a position, told with the number of its line. -/
def fail {α : Type} (source : List UInt8) (pos : Nat) (fault : Fault) : Run α := do
  let before ← slice source 0 (min pos source.length)
  .error (.fault ⟨before.count '\n'.toUInt8 + 1, fault⟩)

/-! ## Loops -/

/-- How a turn of a loop ends. -/
inductive Turn (σ ρ : Type) where
  | again (pos : Nat) (state : σ)
  | done (result : ρ)

/-- Take one turn after the other. -/
def loop {σ ρ : Type} (source : List UInt8) (turn : Nat → σ → Run (Turn σ ρ)) (pos : Nat)
    (state : σ) : Run ρ :=
  match turn pos state with
  | .error halt => .error halt
  | .ok (.done result) => .ok result
  | .ok (.again next state) =>
    if next ≤ pos then .error (.breach .stuck)
    else if source.length < next then .error (.breach .overrun)
    else loop source turn next state
termination_by source.length - pos

/-- The next byte, if it is of the class. -/
def skipTurn (p : UInt8 → Bool) (source : List UInt8) (pos : Nat) (_ : Unit) :
    Run (Turn Unit Nat) :=
  match source[pos]? with
  | some b => .ok (if p b then .again (pos + 1) () else .done pos)
  | none => .ok (.done pos)

/-- The position behind the bytes of a class. -/
def skipWhile (p : UInt8 → Bool) (source : List UInt8) (pos : Nat) : Run Nat :=
  loop source (skipTurn p source) pos ()

/-! ## What stands at a position -/

def isBlankByte (b : UInt8) : Bool :=
  b = ' '.toUInt8 || b = '\t'.toUInt8 || b = '\n'.toUInt8 || b = '\r'.toUInt8 ||
    b = '\x0c'.toUInt8

def isAlphaByte (b : UInt8) : Bool :=
  ('A'.toUInt8 ≤ b && b ≤ 'Z'.toUInt8) || ('a'.toUInt8 ≤ b && b ≤ 'z'.toUInt8)

/-- Lower case for the letters `A` to `Z`, all else unchanged. -/
def lowerByte (b : UInt8) : UInt8 :=
  if 'A'.toUInt8 ≤ b && b ≤ 'Z'.toUInt8 then b + 32 else b

/-- The offset of the first occurrence of a mark. -/
def find? (mark : List UInt8) : List UInt8 → Option Nat
  | [] => none
  | b :: bs => if mark.isPrefixOf (b :: bs) then some 0 else (find? mark bs).map (· + 1)

def startsWith (source : List UInt8) (pos : Nat) (mark : List Char) : Run Bool := do
  let rest ← slice source pos source.length
  .ok ((bytes mark).isPrefixOf rest)

/-- The position of the next angle bracket. -/
def seekAngle? (source : List UInt8) (pos : Nat) : Run (Option Nat) := do
  let rest ← slice source pos source.length
  .ok ((rest.findIdx? (· = '<'.toUInt8)).map (pos + ·))

def atOpenTag (source : List UInt8) (pos : Nat) : Bool :=
  source[pos]? = some '<'.toUInt8 && source[pos + 1]?.any isAlphaByte

def atCloseTag (source : List UInt8) (pos : Nat) : Run Bool := do
  let starts ← startsWith source pos ['<', '/']
  .ok (starts && source[pos + 2]?.any isAlphaByte)

def beginning (source : List UInt8) (pos : Nat) : Run Beginning := do
  if ← startsWith source pos ['<', '!', '-', '-'] then .ok .comment
  else if ← startsWith source pos ['{', '{'] then .ok .interpolation
  else if ← atCloseTag source pos then .ok .closing
  else .ok (if atOpenTag source pos then .opening else .other)

def skipComment (source : List UInt8) (pos : Nat) : Run Nat := do
  let rest ← sliceText source (pos + 4) source.length
  match find? (bytes ['-', '-', '>']) rest with
  | some offset => .ok (pos + (4 + offset + 3))
  | none => fail source pos .unterminatedComment

/-- One that is not closed takes all that is left. -/
def skipInterpolation (source : List UInt8) (pos : Nat) : Run Nat := do
  let rest ← sliceText source (pos + 2) source.length
  match find? (bytes ['}', '}']) rest with
  | some offset => .ok (pos + (2 + offset + 2))
  | none => .ok source.length

/-! ## Tags -/

def isNameByte (b : UInt8) : Bool := !(isBlankByte b || b = '/'.toUInt8 || b = '>'.toUInt8)

def isAttributeNameByte (b : UInt8) : Bool := isNameByte b && b ≠ '='.toUInt8

def isUnquotedByte (b : UInt8) : Bool := !(isBlankByte b || b = '>'.toUInt8)

def readName (source : List UInt8) (pos : Nat) : Run (String × Nat) := do
  let stop ← skipWhile isNameByte source pos
  let name ← text source pos stop
  .ok (name, stop)

/-- The value of an attribute of the tag that began at `place`. -/
def readValue (source : List UInt8) (place : Nat) (tag : String) (pos : Nat) :
    Run (String × Nat) :=
  match source[pos]?.filter fun b => b = '"'.toUInt8 || b = '\''.toUInt8 with
  | some quote => do
    let rest ← slice source (pos + 1) source.length
    match rest.findIdx? (· = quote) with
    | none => fail source place (.unterminatedValue tag)
    | some offset => do
      let value ← text source (pos + 1) (pos + 1 + offset)
      .ok (value, pos + 1 + offset + 1)
  | none => do
    let stop ← skipWhile isUnquotedByte source pos
    let value ← text source pos stop
    .ok (value, stop)

/-- The name of an attribute is at least one byte long, so that reading goes on behind a stray
equals sign. -/
def readAttribute (source : List UInt8) (place : Nat) (tag : String) (pos : Nat) :
    Run (Attribute × Nat) := do
  let last ← skipWhile isAttributeNameByte source pos
  let stop := if last = pos then pos + 1 else last
  let name ← text source pos stop
  let next ← skipWhile isBlankByte source stop
  if source[next]? = some '='.toUInt8 then
    let next ← skipWhile isBlankByte source (next + 1)
    let (value, next) ← readValue source place tag next
    .ok (⟨name, some value⟩, next)
  else .ok (⟨name, none⟩, next)

/-- An attribute of the tag that began at `place`, or the end of the tag, behind the attributes that
were read. -/
def attributeTurn (source : List UInt8) (place : Nat) (tag : String) (pos : Nat)
    (attributes : List Attribute) : Run (Turn (List Attribute) (OpenTag × Nat)) := do
  let next ← skipWhile isBlankByte source pos
  match source[next]? with
  | none => fail source place (.unterminatedTag tag)
  | some b =>
    if b = '>'.toUInt8 then .ok (.done (⟨tag, attributes, false⟩, next + 1))
    else if b = '/'.toUInt8 then
      if source[next + 1]? = some '>'.toUInt8 then
        .ok (.done (⟨tag, attributes, true⟩, next + 2))
      else .ok (.again (next + 1) attributes)
    else do
      let (a, next) ← readAttribute source place tag next
      .ok (.again next (attributes ++ [a]))

def readOpenTag (source : List UInt8) (pos : Nat) : Run (OpenTag × Nat) := do
  let (name, stop) ← readName source (pos + 1)
  loop source (attributeTurn source pos name) stop []

def readCloseTag (source : List UInt8) (pos : Nat) : Run (String × Nat) := do
  let (name, stop) ← readName source (pos + 2)
  let rest ← slice source stop source.length
  match rest.findIdx? (· = '>'.toUInt8) with
  | some offset => .ok (name, stop + offset + 1)
  | none => fail source pos (.unterminatedClosing name)

/-- The first of `count` positions at which a closing tag begins, given its lower case bytes. -/
def findNeedle? (source needle : List UInt8) : Nat → Nat → Run (Option Nat)
  | 0, _ => .ok none
  | count + 1, pos => do
    let part ← slice source pos (pos + needle.length)
    if part.map lowerByte = needle.map lowerByte &&
        source[pos + needle.length]?.all fun b => isBlankByte b || b = '>'.toUInt8 then
      .ok (some pos)
    else findNeedle? source needle count (pos + 1)

/-- The position of the first closing tag of the given name, in any mixture of cases. -/
def findClosing? (source : List UInt8) (name : String) (pos : Nat) : Run (Option Nat) := do
  let needle := bytes ('<' :: '/' :: name.toList.map Char.toLower)
  let margin ← minus needle.length 1
  findNeedle? source needle (source.length - margin - pos) pos

/-- The position behind an element without markup, whose opening tag was read. -/
def skipContent (source : List UInt8) (name : String) (place : Nat) (fault : Fault) (pos : Nat) :
    Run Nat := do
  match ← findClosing? source name pos with
  | none => fail source place fault
  | some close => do
    let (_, next) ← readCloseTag source close
    .ok next

/-! ## The template block -/

/-- The tag or comment at an angle bracket in a template block whose content begins at `content`,
when `depth` template tags are open. -/
def contentTag (source : List UInt8) (content pos depth : Nat) : Run (Turn Nat String) := do
  match ← beginning source pos with
  | .comment => do
    let next ← skipComment source pos
    .ok (.again next depth)
  | .closing => do
    let (name, next) ← readCloseTag source pos
    if isTemplateName name then
      let depth ← minus depth 1
      if depth = 0 then
        let inner ← text source content pos
        .ok (.done inner)
      else .ok (.again next depth)
    else .ok (.again next depth)
  | .opening => do
    let (tag, next) ← readOpenTag source pos
    .ok (.again next (if tag.opensTemplate then depth + 1 else depth))
  | .interpolation | .other => .ok (.again (pos + 1) depth)

/-- The next tag or comment in a template block whose opening tag began at `place`. -/
def contentTurn (source : List UInt8) (place content pos depth : Nat) : Run (Turn Nat String) := do
  match ← seekAngle? source pos with
  | none => fail source place (.unclosedBlock "template")
  | some pos => contentTag source content pos depth

/-- The content of a template block. -/
def templateContent (source : List UInt8) (place content : Nat) : Run String :=
  loop source (contentTurn source place content) content 1

/-- The block, tag or comment at an angle bracket of a component. -/
def blockTag (source : List UInt8) (pos : Nat) : Run (Turn Unit (Option String)) := do
  match ← beginning source pos with
  | .comment => do
    let next ← skipComment source pos
    .ok (.again next ())
  | .closing => do
    let (_, next) ← readCloseTag source pos
    .ok (.again next ())
  | .opening => do
    let (tag, next) ← readOpenTag source pos
    if isTemplateName tag.name then
      if tag.selfClosing then .ok (.done (some ""))
      else do
        let content ← templateContent source pos next
        .ok (.done (some content))
    else if tag.selfClosing then .ok (.again next ())
    else do
      let next ← skipContent source tag.name pos (.unclosedBlock tag.name) next
      .ok (.again next ())
  | .interpolation | .other => .ok (.again (pos + 1) ())

/-- The next block, tag or comment of a component. -/
def blockTurn (source : List UInt8) (pos : Nat) (_ : Unit) :
    Run (Turn Unit (Option String)) := do
  match ← seekAngle? source pos with
  | none => .ok (.done none)
  | some pos => blockTag source pos

/-- The template of a component, if it has one. -/
def template? (source : String) : Run (Option String) :=
  loop (bytes source.toList) (blockTurn (bytes source.toList)) 0 ()

/-! ## The elements of a template -/

/-- The open elements and where they began, the innermost first, and the finished roots. -/
structure Stack where
  opened : List (Element × Nat)
  roots : List Element

/-- Add an element to the children of the innermost open element, or to the roots. -/
def Stack.attach (e : Element) : Stack → Stack
  | ⟨[], roots⟩ => ⟨[], (e.attach roots.reverse).reverse⟩
  | ⟨(parent, place) :: below, roots⟩ =>
    let children := (e.attach parent.children.reverse).reverse
    ⟨({ parent with children := children }, place) :: below, roots⟩

/-- Close the innermost open element. A closing tag that does not name it is a fault at `pos` or
where the element began, unless it is a void element's. -/
def Stack.close (source : List UInt8) (pos : Nat) (name : String) : Stack → Run Stack
  | ⟨[], roots⟩ =>
    if Tag.isVoid name then .ok ⟨[], roots⟩ else fail source pos (.strayEnd name)
  | ⟨(top, place) :: below, roots⟩ =>
    if Text.SameLetters top.tag name then .ok (attach top ⟨below, roots⟩)
    else if Tag.isVoid name then .ok ⟨(top, place) :: below, roots⟩
    else if ((top, place) :: below).any fun e => Text.SameLetters e.1.tag name then
      fail source place (.missingEnd top.tag)
    else fail source pos (.strayEnd name)

/-- The tag, comment, interpolation or byte at a position of a template. -/
def elementTag (source : List UInt8) (pos : Nat) (stack : Stack) :
    Run (Turn Stack (List Element)) := do
  match ← beginning source pos with
  | .comment => do
    let next ← skipComment source pos
    .ok (.again next stack)
  | .interpolation => do
    let next ← skipInterpolation source pos
    .ok (.again next stack)
  | .closing => do
    let (name, next) ← readCloseTag source pos
    let stack ← stack.close source pos name
    .ok (.again next stack)
  | .opening => do
    let (tag, next) ← readOpenTag source pos
    if tag.selfClosing || tag.isVoid then .ok (.again next (stack.attach (tag.element [])))
    else if tag.isRawText then do
      let next ← skipContent source tag.name pos (.missingEnd tag.name) next
      .ok (.again next (stack.attach (tag.element [])))
    else .ok (.again next ⟨(tag.element [], pos) :: stack.opened, stack.roots⟩)
  | .other => .ok (.again (pos + 1) stack)

/-- What stands next in a template, or the end of it, where no element may be open. -/
def elementTurn (source : List UInt8) (pos : Nat) (stack : Stack) :
    Run (Turn Stack (List Element)) :=
  if source.length ≤ pos then
    match stack.opened with
    | (top, place) :: _ => fail source place (.missingEnd top.tag)
    | [] => .ok (.done stack.roots)
  else elementTag source pos stack

/-- The top-level elements of a template. -/
def compile (template : String) : Run (List Element) :=
  loop (bytes template.toList) (elementTurn (bytes template.toList)) 0 ⟨[], []⟩

end ComponentGraph.Markup.Cursor
