import ComponentGraph.Toml.Numeral
import ComponentGraph.Toml.Token
import ComponentGraph.Toml.Value
/-!
# TOML documents

A document is a sequence of statements, each on lines of its own: headers, and assignments
to the table of the latest header. A list may go over several lines, a table in braces may not. Only
what a setting can be is a value here: booleans, dates, fractions and lists of tables by
headers are refused, as they would be by every setting.
-/

namespace ComponentGraph.Toml

/-- A reading of the beginning of some tokens, and the fewer tokens that are left. -/
abbrev Reading (α : Type) (ts : List Token) :=
  Option (α × { rest : List Token // rest.length < ts.length })

/-- One piece of a key. -/
def keyPiece? : Token → Option String
  | .word cs => if cs.all isBareChar then some (String.ofList cs) else none
  | .text quote s => if quote.tripled then none else some s
  | _ => none

/-- A key and the dots in it. -/
def key? : (ts : List Token) → Reading (List String) ts
  | [] => none
  | t :: .dot :: rest => do
    let piece ← keyPiece? t
    let (pieces, ⟨left, h⟩) ← key? rest
    pure (piece :: pieces, ⟨left, by simp only [List.length_cons]; omega⟩)
  | t :: rest => do
    let piece ← keyPiece? t
    pure ([piece], ⟨rest, Nat.lt_succ_self _⟩)

def skipLineEnds (ts : List Token) : List Token := ts.dropWhile (· = .lineEnd)

theorem length_skipLineEnds (ts : List Token) : (skipLineEnds ts).length ≤ ts.length :=
  (List.dropWhile_suffix _).length_le

mutual

def value? (ts : List Token) : Reading Value ts :=
  match ts with
  | .text _ s :: rest => some (.text s, ⟨rest, Nat.lt_succ_self _⟩)
  | .word cs :: rest => (integer? cs).map fun n => (.integer n, ⟨rest, Nat.lt_succ_self _⟩)
  | .openBracket :: rest => do
    let (items, ⟨left, h⟩) ← items? rest
    pure (.list items, ⟨left, Nat.lt_succ_of_lt h⟩)
  | .openBrace :: .closeBrace :: rest =>
    some (.table .braces [], ⟨rest, by simp only [List.length_cons]; omega⟩)
  | .openBrace :: rest => do
    let (entries, ⟨left, h⟩) ← entries? [] rest
    pure (.table .braces entries, ⟨left, Nat.lt_succ_of_lt h⟩)
  | _ => none
termination_by 2 * ts.length

/-- The items of a list and its closing bracket. -/
def items? (ts : List Token) : Reading (List Value) ts :=
  have hskip := length_skipLineEnds ts
  match _h : skipLineEnds ts with
  | .closeBracket :: rest => some ([], ⟨rest, by rw [_h] at hskip; exact hskip⟩)
  | _ => do
    let (item, ⟨left, h⟩) ← value? (skipLineEnds ts)
    have hleft := length_skipLineEnds left
    match _h' : skipLineEnds left with
    | .closeBracket :: rest =>
      pure ([item], ⟨rest, by simp only [_h', List.length_cons] at hleft; omega⟩)
    | .comma :: rest =>
      have hrest : rest.length < ts.length := by
        simp only [_h', List.length_cons] at hleft
        omega
      let (items, ⟨left', h'⟩) ← items? rest
      pure (item :: items, ⟨left', Nat.lt_trans h' hrest⟩)
    | _ => none
termination_by 2 * ts.length + 1

/-- Further entries of a table in braces, at least one, and its closing brace. -/
def entries? (entries : Entries) (ts : List Token) : Reading Entries ts := do
  let (path, ⟨left, h⟩) ← key? ts
  match left, h with
  | .equals :: left, h =>
    have hlt : left.length < ts.length := Nat.lt_of_succ_lt h
    let (v, ⟨left, h'⟩) ← value? left
    let entries ← entries.assign? path v
    match left, h' with
    | .closeBrace :: rest, h' =>
      pure (entries, ⟨rest, Nat.lt_trans (Nat.lt_of_succ_lt h') hlt⟩)
    | .comma :: rest, h' =>
      have hrest : rest.length < ts.length := Nat.lt_trans (Nat.lt_of_succ_lt h') hlt
      let (entries, ⟨left, h''⟩) ← entries? entries rest
      pure (entries, ⟨left, Nat.lt_trans h'' hrest⟩)
    | _, _ => none
  | _, _ => none
termination_by 2 * ts.length + 1

end

inductive Statement where
  | header (path : List String)
  | assignment (path : List String) (value : Value)

def statement? : (ts : List Token) → Reading Statement ts
  | .openBracket :: rest => do
    let (path, ⟨left, h⟩) ← key? rest
    match left, h with
    | .closeBracket :: left, h =>
      pure (.header path, ⟨left, by simp only [List.length_cons] at h ⊢; omega⟩)
    | _, _ => none
  | ts => do
    let (path, ⟨left, h⟩) ← key? ts
    match left, h with
    | .equals :: left, h =>
      let (v, ⟨left, h'⟩) ← value? left
      pure (.assignment path v, ⟨left, by simp only [List.length_cons] at h; omega⟩)
    | _, _ => none

/-- The statements of a document. A line end stands behind each but the last. -/
def statements? : List Token → Option (List Statement)
  | [] => some []
  | .lineEnd :: rest => statements? rest
  | ts => do
    let (s, ⟨left, h⟩) ← statement? ts
    match left, h with
    | [], _ => pure [s]
    | .lineEnd :: left, h => do
      have _hlt : left.length < ts.length := Nat.lt_of_succ_lt h
      let rest ← statements? left
      pure (s :: rest)
    | _, _ => none
termination_by ts => ts.length

/-- The table that statements make up below the header `path`. -/
def tableOf? (entries : Entries) (path : List String) : List Statement → Option Entries
  | [] => some entries
  | .header path :: rest => do
    let key ← path.getLast?
    let entries ← entries.within? (Entries.addTable? key) path.dropLast
    tableOf? entries path rest
  | .assignment key value :: rest => do
    let entries ← entries.within? (fun table => table.assign? key value) path
    tableOf? entries path rest

/-- The table that a document describes. A byte order mark in front is not part of it. -/
def parse? (document : String) : Option Entries := do
  let cs :=
    match document.toList with
    | '\ufeff' :: rest => rest
    | cs => cs
  let ts ← tokens? cs
  let statements ← statements? ts
  tableOf? [] [] statements

end ComponentGraph.Toml
