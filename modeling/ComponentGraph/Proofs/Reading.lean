import ComponentGraph.Proofs.Rendering
import ComponentGraph.Proofs.Scanning
/-!
# Reading what is written

The tokens read from a written text are those of its tags: what stands between the tags is passed
over, in a template and, if no interpolation holds an angle bracket, in a block as well. Scanning
goes on behind each piece, whatever follows it. The tokens are known by their marks, which leave
out where the tags stand.
-/

namespace ComponentGraph.Markup

/-! ## Where comments and interpolations end -/

theorem behind?_comment {cs : List Char} (h : ¬ ['-', '-', '>'] <:+: cs) (rest : List Char) :
    behind? ['-', '-', '>'] (cs ++ '-' :: '-' :: '>' :: rest) = some rest := by
  induction cs with
  | nil => simp [behind?]
  | cons c cs ih =>
    have hcs : ¬ ['-', '-', '>'] <:+: cs := fun hoccurs => h (List.infix_cons hoccurs)
    have hprefix :
        ¬ ['-', '-', '>'].isPrefixOf (c :: (cs ++ '-' :: '-' :: '>' :: rest)) = true := by
      rw [List.isPrefixOf_iff_prefix]
      intro hmark
      rcases cs with _ | ⟨d, _ | ⟨e, cs⟩⟩
      · simp at hmark
      · simp at hmark
      · simp only [List.cons_append, List.cons_prefix_cons, List.nil_prefix, and_true] at hmark
        obtain ⟨rfl, rfl, rfl⟩ := hmark
        exact h ⟨[], cs, rfl⟩
    rw [List.cons_append, behind?, if_neg hprefix, ih hcs]

/-- If the body ends with a brace of its own, the mark is found one place early. -/
theorem behind?_interpolation {cs : List Char} (h : ¬ ['}', '}'] <:+: cs) (rest : List Char) :
    behind? ['}', '}'] (cs ++ '}' :: '}' :: rest) = some rest ∨
      behind? ['}', '}'] (cs ++ '}' :: '}' :: rest) = some ('}' :: rest) := by
  induction cs with
  | nil => simp [behind?]
  | cons c cs ih =>
    have hcs : ¬ ['}', '}'] <:+: cs := fun hoccurs => h (List.infix_cons hoccurs)
    by_cases hprefix : ['}', '}'].isPrefixOf (c :: (cs ++ '}' :: '}' :: rest)) = true
    · -- Within the body the mark cannot stand, so it begins with the body's last brace.
      right
      rw [List.cons_append, behind?, if_pos hprefix]
      rw [List.isPrefixOf_iff_prefix] at hprefix
      cases cs with
      | nil => rfl
      | cons d cs =>
        simp only [List.cons_append, List.cons_prefix_cons, List.nil_prefix, and_true] at hprefix
        obtain ⟨rfl, rfl⟩ := hprefix
        exact absurd ⟨[], cs, rfl⟩ h
    · rw [List.cons_append, behind?, if_neg hprefix]
      exact ih hcs

/-! ## Scanning goes on behind a piece -/

/-- A tag without its place. -/
inductive Mark where
  | opening (tag : OpenTag)
  | closing (name : String)

def Token.mark : Token → Mark
  | .opening tag _ => .opening tag
  | .closing name _ => .closing name

/-- The marks of a piece. Raw text is a single token only in a template. -/
def Piece.marks (scope : Scope) : Piece → List Mark
  | .text .. | .comment .. | .interpolation .. => []
  | .opening name attributes => [.opening (plainTag name attributes)]
  | .closing name => [.closing name]
  | .rawText name attributes =>
    match scope with
    | .template => [.opening (plainTag name attributes)]
    | .block => [.opening (plainTag name attributes), .closing name]

/-- In the scope the piece is read as what it is. -/
def Piece.IsReadable (scope : Scope) : Piece → Prop
  | .text .. | .comment .. => True
  | .interpolation cs _ => scope = .block → '<' ∉ cs
  | .opening name attributes =>
    IsWritableTag name attributes ∧ (plainTag name attributes).isRawText = false
  | .closing name => IsWritableTag name []
  | .rawText name attributes =>
    IsWritableTag name attributes ∧ (plainTag name attributes).isRawText = true

theorem IsWritableTag.without {name : String} {attributes : List Attribute}
    (h : IsWritableTag name attributes) : IsWritableTag name [] :=
  ⟨h.initial, h.name, by simp⟩

/-- The tokens read from the text have the marks, and scanning goes on behind it. -/
def Reads (scope : Scope) (text : List Char) (marks : List Mark) : Prop :=
  ∀ rest, ∃ tokens, tokens.map Token.mark = marks ∧
    scan scope (text ++ rest) = (scan scope rest).prepend tokens

theorem Reads.nil (scope : Scope) : Reads scope [] [] := fun _ => ⟨[], rfl, rfl⟩

theorem Reads.append {scope : Scope} {text more : List Char} {marks others : List Mark}
    (h : Reads scope text marks) (hmore : Reads scope more others) :
    Reads scope (text ++ more) (marks ++ others) := by
  intro rest
  obtain ⟨tokens, hmarks, hscan⟩ := h (more ++ rest)
  obtain ⟨tokens', hmarks', hscan'⟩ := hmore rest
  refine ⟨tokens ++ tokens', ?_, ?_⟩
  · rw [List.map_append, hmarks, hmarks']
  · rw [List.append_assoc, hscan, hscan', Scan.prepend_prepend]

theorem reads_text {scope : Scope} {cs : List Char} (htag : ∀ c ∈ cs, c ≠ '<')
    (hbrace : scope = .template → ∀ c ∈ cs, c ≠ '{') : Reads scope cs [] :=
  fun rest => ⟨[], rfl, scan_text htag hbrace rest⟩

theorem reads_comment (scope : Scope) {cs : List Char} (h : ¬ ['-', '-', '>'] <:+: cs) :
    Reads scope (['<', '!', '-', '-'] ++ cs ++ ['-', '-', '>']) [] := by
  intro rest
  have hafter : afterComment? (['<', '!', '-', '-'] ++ cs ++ ['-', '-', '>'] ++ rest) =
      some rest := by
    have hbehind := behind?_comment h rest
    simpa [afterComment?] using hbehind
  exact ⟨[], rfl, scan_comment rfl hafter⟩

/-- A brace that the interpolation leaves behind is text. -/
theorem reads_interpolation {cs : List Char} (h : ¬ ['}', '}'] <:+: cs) :
    Reads .template (['{', '{'] ++ cs ++ ['}', '}']) [] := by
  intro rest
  refine ⟨[], rfl, ?_⟩
  have hchars : ['{', '{'] ++ cs ++ ['}', '}'] ++ rest =
      '{' :: '{' :: (cs ++ '}' :: '}' :: rest) := by
    simp
  rw [hchars, scan_template_interpolation rfl, afterInterpolation, List.drop_succ_cons,
    List.drop_succ_cons, List.drop_zero]
  rcases behind?_interpolation h rest with hbehind | hbehind
  · rw [hbehind]
    rfl
  · rw [hbehind, Option.getD_some, scan_other rfl]
    rfl

theorem reads_block_interpolation {cs : List Char} (h : '<' ∉ cs) :
    Reads .block (['{', '{'] ++ cs ++ ['}', '}']) [] := by
  refine reads_text ?_ (fun hscope => Scope.noConfusion hscope)
  intro c hc
  rintro rfl
  simp at hc
  exact h hc

theorem reads_opening {scope : Scope} {name : String} {attributes : List Attribute}
    (h : IsWritableTag name attributes)
    (hplain : scope = .template → (plainTag name attributes).isRawText = false) :
    Reads scope (openingChars name attributes) [.opening (plainTag name attributes)] := by
  intro rest
  refine ⟨_, rfl, scan_opening (beginning_openingChars h rest) (readOpenTag_openingChars h rest) ?_⟩
  rw [afterOpening, if_neg]
  rw [Bool.and_eq_true, Bool.and_eq_true, decide_eq_true_eq]
  rintro ⟨⟨hscope, hraw⟩, _⟩
  rw [hplain hscope] at hraw
  cases hraw

theorem reads_closing (scope : Scope) {name : String} (h : IsWritableTag name []) :
    Reads scope (closingChars name) [.closing name] := by
  intro rest
  have hread := readCloseTag_closingChars h.name rest
  exact ⟨_, rfl, scan_closing (beginning_closingChars h rest) hread⟩

theorem reads_rawText {name : String} {attributes : List Attribute}
    (h : IsWritableTag name attributes) (hraw : (plainTag name attributes).isRawText = true) :
    Reads .template (openingChars name attributes ++ closingChars name)
      [.opening (plainTag name attributes)] := by
  intro rest
  rw [List.append_assoc]
  refine ⟨_, rfl, scan_opening (beginning_openingChars h _) (readOpenTag_openingChars h _) ?_⟩
  have hskip : (decide (Scope.template = .template) && (plainTag name attributes).isRawText &&
      !(plainTag name attributes).selfClosing) = true := by
    rw [hraw]
    rfl
  rw [afterOpening, if_pos hskip, afterRawText]
  have hfind : findClosing? (plainTag name attributes).name (closingChars name ++ rest) =
      some (closingChars name ++ rest) := findClosing?_closingChars name rest
  rw [hfind]
  simp only [readCloseTag_closingChars h.name rest]

theorem reads_piece {scope : Scope} {p : Piece} (h : p.IsReadable scope) :
    Reads scope p.chars (p.marks scope) := by
  cases p with
  | text cs plain =>
    exact reads_text (fun c hc => (plain c hc).1) fun _ c hc => (plain c hc).2
  | comment cs unmarked => exact reads_comment scope unmarked
  | interpolation cs unmarked =>
    cases scope with
    | template => exact reads_interpolation unmarked
    | block => exact reads_block_interpolation (h rfl)
  | opening name attributes => exact reads_opening h.1 fun _ => h.2
  | closing name => exact reads_closing scope h
  | rawText name attributes =>
    cases scope with
    | template => exact reads_rawText h.1 h.2
    | block =>
      exact (reads_opening h.1 fun hscope => Scope.noConfusion hscope).append
        (reads_closing .block h.1.without)

theorem reads_pieces {scope : Scope} {pieces : List Piece} (h : ∀ p ∈ pieces, p.IsReadable scope) :
    Reads scope (textOf pieces) (pieces.flatMap (Piece.marks scope)) := by
  induction pieces with
  | nil => exact Reads.nil scope
  | cons p pieces ih =>
    have hp := reads_piece (h p List.mem_cons_self)
    exact hp.append (ih fun q hq => h q (List.mem_cons_of_mem _ hq))

end ComponentGraph.Markup
