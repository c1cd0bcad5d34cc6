import ComponentGraph.Keyed
/-!
# TOML values

A table remembers what made it, because that decides what may be added to it later. A header
may name a table that exists only because longer headers go through it, and a dotted key may
go through tables that dotted keys made; everything else is defined once.
-/

namespace ComponentGraph.Toml

/-- What made a table. -/
inductive Origin where
  /-- Braces. Such a table is complete. -/
  | braces
  /-- A header that names it. -/
  | header
  /-- A header that goes through it. -/
  | longerHeader
  /-- A dotted key that goes through it. -/
  | dottedKey
deriving DecidableEq, Repr

inductive Value where
  | text (s : String)
  | integer (n : Int)
  | list (items : List Value)
  | table (origin : Origin) (entries : List (String × Value))

namespace Value

def text? : Value → Option String
  | text s => some s
  | _ => none

def integer? : Value → Option Int
  | integer n => some n
  | _ => none

/-- The items of a list in which there is nothing but text. -/
def texts? : Value → Option (List String)
  | list items => items.mapM text?
  | _ => none

end Value

abbrev Entries := List (String × Value)

namespace Entries

/-- Give a value to a dotted key. -/
def assign? (entries : Entries) : List String → Value → Option Entries
  | [], _ => none
  | [key], value =>
    match Keyed.get? key entries with
    | none => some (Keyed.insert key value entries)
    | some _ => none
  | key :: rest, value => do
    let inner ←
      match Keyed.get? key entries with
      | none => assign? [] rest value
      | some (.table .dottedKey inner) => assign? inner rest value
      | some _ => none
    pure (Keyed.insert key (.table .dottedKey inner) entries)

/-- Change the entries of the table to which the keys of a header lead. -/
def within? (f : Entries → Option Entries) : List String → Entries → Option Entries
  | [], entries => f entries
  | key :: rest, entries =>
    match Keyed.get? key entries with
    | none => do
      let inner ← within? f rest []
      pure (Keyed.insert key (.table .longerHeader inner) entries)
    | some (.table .braces _) => none
    | some (.table origin inner) => do
      let inner ← within? f rest inner
      pure (Keyed.insert key (.table origin inner) entries)
    | some _ => none

/-- Make a table that is named by a header. -/
def addTable? (key : String) (entries : Entries) : Option Entries :=
  match Keyed.get? key entries with
  | none => some (Keyed.insert key (.table .header []) entries)
  | some (.table .longerHeader inner) => some (Keyed.insert key (.table .header inner) entries)
  | some _ => none

end Entries

end ComponentGraph.Toml
