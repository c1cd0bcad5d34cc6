import ComponentGraph.Toml.Quoted
/-!
# TOML tokens

Line ends, marks, words and quoted texts. A word is a bare key or the text of a number; blanks
and comments separate tokens and are dropped. The only values told apart are those that a
setting can have: text, whole numbers, lists and tables.
-/

namespace ComponentGraph.Toml

inductive Token where
  | lineEnd
  | dot
  | comma
  | equals
  | openBracket
  | closeBracket
  | openBrace
  | closeBrace
  | word (cs : List Char)
  | text (quote : Quote) (s : String)
deriving DecidableEq, Repr

/-- The token of a mark. -/
def Token.ofMark? : Char → Option Token
  | '.' => some .dot
  | ',' => some .comma
  | '=' => some .equals
  | '[' => some .openBracket
  | ']' => some .closeBracket
  | '\x7b' => some .openBrace
  | '\x7d' => some .closeBrace
  | _ => none

/-- Letters, digits, underscore and hyphen make up a bare key. -/
def isBareChar (c : Char) : Bool := c.isAlphanum || c = '_' || c = '-'

/-- A number may have a plus sign too. -/
def isWordChar (c : Char) : Bool := isBareChar c || c = '+'

/-- The tokens of a text, unless something in it begins none. -/
def tokens? : List Char → Option (List Token)
  | [] => some []
  | c :: cs =>
    if isBlank c then tokens? cs
    else if c = '#' then tokens? (cs.dropWhile isTextChar)
    else if isWordChar c then
      (tokens? (cs.dropWhile isWordChar)).map (.word (c :: cs.takeWhile isWordChar) :: ·)
    else
      match Token.ofMark? c with
      | some mark => (tokens? cs).map (mark :: ·)
      | none =>
        match _h : newline? (c :: cs) with
        | some rest => (tokens? rest).map (.lineEnd :: ·)
        | none =>
          match _h' : if c = '"' ∨ c = '\'' then quoted? c cs else none with
          | some (quote, s, rest) => (tokens? rest).map (.text quote s :: ·)
          | none => none
termination_by cs => cs.length
decreasing_by
  · exact Nat.lt_succ_self _
  · exact Nat.lt_succ_of_le (List.dropWhile_suffix (l := cs) isTextChar).length_le
  · exact Nat.lt_succ_of_le (List.dropWhile_suffix (l := cs) isWordChar).length_le
  · exact Nat.lt_succ_self _
  · exact length_newline? _h
  · split at _h'
    · exact Nat.lt_succ_of_lt (length_quoted? _h')
    · cases _h'

end ComponentGraph.Toml
