/-!
# Quoted text in TOML

A quoted text is enclosed by double quotes, in which a backslash escapes, or by single quotes, in
which nothing does. Either may be tripled, and the text may then have several lines. Each
function here reads what begins at a place and leaves a shorter text.
-/

namespace ComponentGraph.Toml

/-- Space and tab. -/
def isBlank (c : Char) : Bool := c = ' ' || c = '\t'

/-- What may stand in comments and quoted text: the tab, and all but the control characters. -/
def isTextChar (c : Char) : Bool := c = '\t' || (0x20 ≤ c.toNat && c.toNat ≠ 0x7F)

/-- The text behind a line end, which is a line feed with or without a carriage return. -/
def newline? : List Char → Option (List Char)
  | '\n' :: rest => some rest
  | '\r' :: '\n' :: rest => some rest
  | _ => none

theorem length_newline? {cs rest : List Char} (h : newline? cs = some rest) :
    rest.length < cs.length := by
  unfold newline? at h
  split at h
  · cases h
    simp
  · cases h
    simp only [List.length_cons]
    omega
  · cases h

/-- How a quoted text is enclosed. -/
structure Quote where
  mark : Char
  tripled : Bool
deriving DecidableEq, Repr

/-- The value of a hexadecimal digit of either case. -/
def hexValue? (c : Char) : Option Nat :=
  if c.isDigit then some (c.toNat - '0'.toNat)
  else if 'a' ≤ c ∧ c ≤ 'f' then some (c.toNat - 'a'.toNat + 10)
  else if 'A' ≤ c ∧ c ≤ 'F' then some (c.toNat - 'A'.toNat + 10)
  else none

/-- The value of digits in a base, if all of them are digits in that base. -/
def valueInBase? (base : Nat) (digits : List Char) : Option Nat :=
  digits.foldlM (fun value c => do
    let digit ← hexValue? c
    if digit < base then pure (value * base + digit) else none) 0

/-- A character by its code point in `n` hexadecimal digits. -/
def codePoint? (n : Nat) (cs : List Char) : Option (Char × List Char) :=
  if (cs.take n).length = n then do
    let code ← valueInBase? 16 (cs.take n)
    if code.isValidChar then pure (Char.ofNat code, cs.drop n) else none
  else none

/-- The character meant by what stands behind a backslash. -/
def escape? : List Char → Option (Char × List Char)
  | 'b' :: rest => some ('\x08', rest)
  | 't' :: rest => some ('\t', rest)
  | 'n' :: rest => some ('\n', rest)
  | 'f' :: rest => some ('\x0c', rest)
  | 'r' :: rest => some ('\r', rest)
  | '"' :: rest => some ('"', rest)
  | '\\' :: rest => some ('\\', rest)
  | 'u' :: rest => codePoint? 4 rest
  | 'U' :: rest => codePoint? 8 rest
  | _ => none

theorem length_codePoint? {n : Nat} {cs rest : List Char} {c : Char}
    (h : codePoint? n cs = some (c, rest)) : rest.length ≤ cs.length := by
  unfold codePoint? at h
  split at h
  · cases hv : valueInBase? 16 (cs.take n) with
    | none => simp [hv] at h
    | some code =>
      simp only [hv, Option.bind_eq_bind, Option.bind_some] at h
      split at h
      · cases h
        exact List.length_drop ▸ Nat.sub_le _ _
      · cases h
  · cases h

theorem length_escape? {cs rest : List Char} {c : Char} (h : escape? cs = some (c, rest)) :
    rest.length < cs.length := by
  unfold escape? at h
  split at h
  iterate 7
    · cases h
      simp
  · exact Nat.lt_succ_of_le (length_codePoint? h)
  · exact Nat.lt_succ_of_le (length_codePoint? h)
  · cases h

/-- What is left behind blanks and line ends. -/
def dropGap : List Char → List Char
  | ' ' :: rest => dropGap rest
  | '\t' :: rest => dropGap rest
  | '\n' :: rest => dropGap rest
  | '\r' :: '\n' :: rest => dropGap rest
  | cs => cs

theorem length_dropGap (cs : List Char) : (dropGap cs).length ≤ cs.length := by
  fun_induction dropGap cs with
  | case1 rest ih => exact Nat.le_succ_of_le ih
  | case2 rest ih => exact Nat.le_succ_of_le ih
  | case3 rest ih => exact Nat.le_succ_of_le ih
  | case4 rest ih => exact Nat.le_succ_of_le (Nat.le_succ_of_le ih)
  | case5 => exact Nat.le_refl _

/-- A backslash at the end of a line takes away the line end and all blanks and line ends
behind it; this is the text behind them. -/
def joinedLine? (cs : List Char) : Option (List Char) :=
  (newline? (cs.dropWhile isBlank)).map dropGap

theorem length_joinedLine? {cs rest : List Char} (h : joinedLine? cs = some rest) :
    rest.length < cs.length := by
  simp only [joinedLine?, Option.map_eq_some_iff] at h
  obtain ⟨behind, hbehind, rfl⟩ := h
  have hgap := length_dropGap behind
  have hline := length_newline? hbehind
  have hblank := (List.dropWhile_suffix (l := cs) isBlank).length_le
  omega

/-- The number of marks in front, of which five are counted. -/
def run (mark : Char) (cs : List Char) : Nat := ((cs.take 5).takeWhile (· = mark)).length

/-- The text up to the closing mark, and what is left behind it. A tripled mark closes the text
when it is followed by no more than two further marks, which then belong to the text
instead of those in front of them. -/
def quotedBody (q : Quote) : List Char → Option (List Char × List Char)
  | [] => none
  | c :: cs =>
    if c = q.mark ∧ q.tripled = false then some ([], cs)
    else if c = q.mark ∧ 3 ≤ run q.mark (c :: cs) then
      let kept := run q.mark (c :: cs) - 3
      some (List.replicate kept q.mark, (c :: cs).drop (kept + 3))
    else if c = '\\' ∧ q.mark = '"' then
      match _h : if q.tripled then joinedLine? cs else none with
      | some rest => quotedBody q rest
      | none =>
        match _h' : escape? cs with
        | some (e, rest) => (quotedBody q rest).map fun (body, rest) => (e :: body, rest)
        | none => none
    else if isTextChar c then (quotedBody q cs).map fun (body, rest) => (c :: body, rest)
    else
      match _h : if q.tripled then newline? (c :: cs) else none with
      | some rest => (quotedBody q rest).map fun (body, rest) => ('\n' :: body, rest)
      | none => none
termination_by cs => cs.length
decreasing_by
  · split at _h
    · exact Nat.lt_succ_of_lt (length_joinedLine? _h)
    · cases _h
  · exact Nat.lt_succ_of_lt (length_escape? _h')
  · exact Nat.lt_succ_self _
  · split at _h
    · exact length_newline? _h
    · cases _h

theorem length_quotedBody {q : Quote} {cs body rest : List Char}
    (h : quotedBody q cs = some (body, rest)) : rest.length < cs.length := by
  fun_induction quotedBody q cs generalizing body rest with
  | case1 => cases h
  | case2 c cs _ =>
    cases h
    simp
  | case3 c cs _ _ =>
    cases h
    simp only [List.length_drop, List.length_cons]
    omega
  | case4 c cs _ _ _ after hafter ih =>
    have hlt := ih h
    split at hafter
    · have := length_joinedLine? hafter
      simp only [List.length_cons]
      omega
    · cases hafter
  | case5 c cs _ _ _ _ e after hafter ih =>
    simp only [Option.map_eq_some_iff, Prod.mk.injEq] at h
    obtain ⟨⟨b, r⟩, hb, _, rfl⟩ := h
    have hlt := ih hb
    have := length_escape? hafter
    simp only [List.length_cons]
    omega
  | case6 => cases h
  | case7 c cs _ _ _ _ ih =>
    simp only [Option.map_eq_some_iff, Prod.mk.injEq] at h
    obtain ⟨⟨b, r⟩, hb, _, rfl⟩ := h
    exact Nat.lt_succ_of_lt (ih hb)
  | case8 c cs _ _ _ _ after hafter ih =>
    simp only [Option.map_eq_some_iff, Prod.mk.injEq] at h
    obtain ⟨⟨b, r⟩, hb, _, rfl⟩ := h
    have hlt := ih hb
    split at hafter
    · exact Nat.lt_trans hlt (length_newline? hafter)
    · cases hafter
  | case9 => cases h

/-- A quoted text, and what is left behind it; `cs` is what stands behind its first mark. The
first line end behind a tripled mark is not part of the text. -/
def quoted? (mark : Char) (cs : List Char) : Option (Quote × String × List Char) :=
  match cs with
  | c :: d :: rest =>
    if c = mark ∧ d = mark then
      let q : Quote := ⟨mark, true⟩
      (quotedBody q ((newline? rest).getD rest)).map fun (body, rest) =>
        (q, String.ofList body, rest)
    else
      let q : Quote := ⟨mark, false⟩
      (quotedBody q cs).map fun (body, rest) => (q, String.ofList body, rest)
  | _ =>
    let q : Quote := ⟨mark, false⟩
    (quotedBody q cs).map fun (body, rest) => (q, String.ofList body, rest)

theorem length_quoted? {mark : Char} {cs rest : List Char} {q : Quote} {text : String}
    (h : quoted? mark cs = some (q, text, rest)) : rest.length < cs.length := by
  unfold quoted? at h
  split at h
  · rename_i c d behind
    split at h
    · simp only [Option.map_eq_some_iff, Prod.mk.injEq] at h
      obtain ⟨⟨b, r⟩, hb, _, _, rfl⟩ := h
      have hlt := length_quotedBody hb
      cases hn : newline? behind with
      | none =>
        simp only [hn, Option.getD_none] at hlt
        simp only [List.length_cons]
        omega
      | some after =>
        have := length_newline? hn
        simp only [hn, Option.getD_some] at hlt
        simp only [List.length_cons]
        omega
    · simp only [Option.map_eq_some_iff, Prod.mk.injEq] at h
      obtain ⟨⟨b, r⟩, hb, _, _, rfl⟩ := h
      exact length_quotedBody hb
  · simp only [Option.map_eq_some_iff, Prod.mk.injEq] at h
    obtain ⟨⟨b, r⟩, hb, _, _, rfl⟩ := h
    exact length_quotedBody hb

end ComponentGraph.Toml
