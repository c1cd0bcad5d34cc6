import ComponentGraph.Markup.Cursor
/-!
# Positions in a text

A position between two characters is told by the rest of the text from there on. There a slice is
what the characters in between say, and a loop that passes over a class of bytes passes over the
characters of that class.
-/

namespace ComponentGraph.Markup.Cursor

open Text

/-! ## Runs -/

section Run

variable {α β : Type}

@[simp] theorem ok_bind (a : α) (f : α → Run β) : ((.ok a : Run α) >>= f) = f a := rfl

end Run

/-! ## Positions -/

/-- The position at which the rest of a text begins. -/
def position (source rest : List Char) : Nat := (bytes source).length - (bytes rest).length

section Position

variable {source rest part after : List Char}

theorem position_append (front rest : List Char) :
    position (front ++ rest) rest = (bytes front).length := by
  rw [position, bytes_append, List.length_append, Nat.add_sub_cancel]

@[simp] theorem position_self (source : List Char) : position source source = 0 := Nat.sub_self _

@[simp] theorem position_nil (source : List Char) :
    position source [] = (bytes source).length := rfl

theorem position_add (h : part ++ rest <:+ source) :
    position source (part ++ rest) + (bytes part).length = position source rest := by
  obtain ⟨front, rfl⟩ := h
  rw [position_append, ← List.append_assoc, position_append, bytes_append, List.length_append]

theorem position_succ {c : Char} (hc : c.toNat < 128) (h : c :: rest <:+ source) :
    position source (c :: rest) + 1 = position source rest := by
  rw [← @position_add source rest [c] h, bytes_cons, utf8EncodeChar_of_lt hc]
  rfl

theorem position_le_length (source rest : List Char) :
    position source rest ≤ (bytes source).length :=
  Nat.sub_le _ _

/-- Reading on moves the position on. -/
theorem position_lt_position (hafter : after <:+ rest) (hlt : after.length < rest.length)
    (h : rest <:+ source) : position source rest < position source after := by
  obtain ⟨part, rfl⟩ := hafter
  cases part with
  | nil => exact absurd hlt (Nat.lt_irrefl _)
  | cons c cs =>
    rw [← position_add h, bytes_cons, List.length_append]
    have hpos : 0 < (String.utf8EncodeChar c).length :=
      List.length_pos_iff.mpr String.utf8EncodeChar_ne_nil
    omega

theorem drop_position (h : rest <:+ source) :
    (bytes source).drop (position source rest) = bytes rest := by
  obtain ⟨front, rfl⟩ := h
  rw [position_append, bytes_append, List.drop_left]

theorem getElem?_position (h : rest <:+ source) (n : Nat) :
    (bytes source)[position source rest + n]? = (bytes rest)[n]? := by
  rw [← List.getElem?_drop, drop_position h]

/-! ## Slices -/

theorem slice_position (h : part ++ rest <:+ source) :
    slice (bytes source) (position source (part ++ rest)) (position source rest) =
      .ok (bytes part) := by
  rw [slice, if_neg (by rw [← position_add h]; omega),
    if_neg (Nat.not_lt_of_le (position_le_length source rest))]
  obtain ⟨front, rfl⟩ := h
  rw [position_append, ← List.append_assoc, position_append, bytes_append (front ++ part),
    List.take_left, bytes_append, List.drop_left]

theorem slice_rest (h : rest <:+ source) :
    slice (bytes source) (position source rest) (bytes source).length = .ok (bytes rest) := by
  have hslice := @slice_position source [] rest (by rwa [List.append_nil])
  rwa [List.append_nil] at hslice

/-- Between two characters no character goes on. -/
theorem isBoundary_position (h : rest <:+ source) :
    isBoundary (bytes source) (position source rest) = true := by
  rw [isBoundary, ← Nat.add_zero (position source rest), getElem?_position h]
  cases rest with
  | nil => simp
  | cons c cs =>
    obtain ⟨b, bs, hc, hb, -⟩ := utf8EncodeChar_eq_cons c
    rw [bytes_cons, hc]
    simp [hb]

theorem sliceText_position (h : part ++ rest <:+ source) :
    sliceText (bytes source) (position source (part ++ rest)) (position source rest) =
      .ok (bytes part) := by
  have hrest : rest <:+ source := (List.suffix_append part rest).trans h
  rw [sliceText, slice_position h, isBoundary_position h, isBoundary_position hrest]
  rfl

theorem sliceText_rest (h : rest <:+ source) :
    sliceText (bytes source) (position source rest) (bytes source).length = .ok (bytes rest) := by
  have hslice := @sliceText_position source [] rest (by rwa [List.append_nil])
  rwa [List.append_nil] at hslice

theorem text_position (h : part ++ rest <:+ source) :
    text (bytes source) (position source (part ++ rest)) (position source rest) =
      .ok (String.ofList part) := by
  rw [text, sliceText_position h, ok_bind, fromUTF8?_bytes]

/-- What is said of a text by its characters, as it is said by its bytes: a problem is a fault with
the line of its place. -/
def told {α : Type} (source : List Char) : Except Problem α → Run α
  | .error problem => .error (.fault (problem.toError source))
  | .ok a => .ok a

/-- A fault is told with the line of its place. -/
theorem fail_position {α : Type} (h : rest <:+ source) (fault : Fault) :
    (fail (bytes source) (position source rest) fault : Run α) =
      .error (.fault (Problem.toError ⟨fault, rest⟩ source)) := by
  obtain ⟨front, rfl⟩ := h
  have hslice := @slice_position (front ++ rest) rest front List.suffix_rfl
  rw [position_self] at hslice
  rw [fail, Nat.min_eq_left (position_le_length _ rest), hslice, ok_bind]
  rw [count_bytes (by decide), Problem.toError, Problem.line, List.count_append,
    Nat.add_sub_cancel]

end Position

/-! ## Loops -/

section Loop

variable {σ ρ : Type} {turn : Nat → σ → Run (Turn σ ρ)} {state next : σ}

theorem loop_error {source : List UInt8} {pos : Nat} {halt : Halt}
    (h : turn pos state = .error halt) : loop source turn pos state = .error halt := by
  rw [loop, h]

theorem loop_done {source : List UInt8} {pos : Nat} {result : ρ}
    (h : turn pos state = .ok (.done result)) : loop source turn pos state = .ok result := by
  rw [loop, h]

theorem loop_again {source : List UInt8} {pos pos' : Nat}
    (h : turn pos state = .ok (.again pos' next)) (hlt : pos < pos')
    (hle : pos' ≤ source.length) :
    loop source turn pos state = loop source turn pos' next := by
  rw [loop, h]
  show (if pos' ≤ pos then _ else if source.length < pos' then _ else _) = _
  rw [if_neg (Nat.not_le_of_lt hlt), if_neg (Nat.not_lt_of_le hle)]

/-- A turn that reads on in the text is followed by the next. -/
theorem loop_position {source rest after : List Char} (hrest : rest <:+ source)
    (hafter : after <:+ rest) (hlt : after.length < rest.length)
    (h : turn (position source rest) state = .ok (.again (position source after) next)) :
    loop (bytes source) turn (position source rest) state =
      loop (bytes source) turn (position source after) next :=
  loop_again h (position_lt_position hafter hlt hrest) (position_le_length source after)

end Loop

section Keeping

variable {σ τ ρ : Type} {source rest text : List Char} {encode : τ → σ}
  {said : List Char → τ → Run ρ} {t : τ}

/-- What a turn at a place comes to keeps what is said of the rest of the text there: the turn ends
with it, or goes on at a later place of which the same is said. -/
inductive Keeps (source : List Char) (encode : τ → σ) (said : List Char → τ → Run ρ)
    (rest : List Char) (t : τ) : Run (Turn σ ρ) → Prop where
  | halt {halt : Halt} (hsaid : said rest t = .error halt) :
    Keeps source encode said rest t (.error halt)
  | done {result : ρ} (hsaid : said rest t = .ok result) :
    Keeps source encode said rest t (.ok (.done result))
  | again {after : List Char} {next : τ} (hafter : after <:+ rest)
      (hlt : after.length < rest.length) (hsaid : said rest t = said after next) :
    Keeps source encode said rest t (.ok (.again (position source after) (encode next)))

/-- A turn may begin with text of which nothing is said. -/
theorem Keeps.of_suffix {turn : Run (Turn σ ρ)} (htext : text <:+ rest)
    (hsaid : said rest t = said text t) (h : Keeps source encode said text t turn) :
    Keeps source encode said rest t turn := by
  cases h with
  | halt h => exact .halt (hsaid.trans h)
  | done h => exact .done (hsaid.trans h)
  | again hafter hlt h =>
    exact .again (hafter.trans htext) (Nat.lt_of_lt_of_le hlt htext.length_le) (hsaid.trans h)

/-- By induction on what is left of the text, a loop comes to what its turns keep. A text may also
be passed over in several turns. -/
theorem loop_eq_said {turn : Nat → σ → Run (Turn σ ρ)} {whole : List Char}
    (hwhole : whole <:+ source)
    (hkeeps : ∀ rest, rest <:+ whole → ∀ t,
      Keeps source encode said rest t (turn (position source rest) (encode t)) ∨
        ∃ after, after <:+ rest ∧ after.length < rest.length ∧ said rest t = said after t ∧
          loop (bytes source) turn (position source rest) (encode t) =
            loop (bytes source) turn (position source after) (encode t))
    (hrest : rest <:+ whole) (t : τ) :
    loop (bytes source) turn (position source rest) (encode t) = said rest t := by
  induction hlength : rest.length using Nat.strongRecOn generalizing rest t with
  | ind n ih =>
    subst hlength
    obtain h | ⟨after, hafter, hlt, hsaid, hloop⟩ := hkeeps rest hrest t
    · generalize hturn : turn (position source rest) (encode t) = result at h
      cases h with
      | halt h => rw [loop_error hturn, h]
      | done h => rw [loop_done hturn, h]
      | again hafter hlt h =>
        rw [loop_position (hrest.trans hwhole) hafter hlt hturn, h]
        exact ih _ hlt (hafter.trans hrest) _ rfl
    · rw [hloop, hsaid]
      exact ih _ hlt (hafter.trans hrest) t rfl

end Keeping

theorem skipWhile_eq {p : UInt8 → Bool} {source rest : List UInt8} {pos : Nat}
    (h : pos + rest.length = source.length) (hrest : source.drop pos = rest) :
    skipWhile p source pos = .ok (pos + (rest.takeWhile p).length) := by
  induction rest generalizing pos with
  | nil =>
    have hbyte : source[pos]? = none := by
      rw [List.getElem?_eq_none_iff, ← h]
      exact Nat.le_refl _
    exact loop_done (by rw [skipTurn, hbyte]; rfl)
  | cons b rest ih =>
    have hbyte : source[pos]? = some b := by
      rw [← Nat.add_zero pos, ← List.getElem?_drop, hrest]
      rfl
    have hnext : source.drop (pos + 1) = rest := by
      rw [← List.drop_drop, hrest]
      rfl
    rw [List.length_cons] at h
    cases hp : p b with
    | false =>
      rw [List.takeWhile_cons_of_neg (ne_true_of_eq_false hp)]
      exact loop_done (by rw [skipTurn, hbyte]; simp [hp])
    | true =>
      rw [List.takeWhile_cons_of_pos hp, List.length_cons, Nat.add_comm _ 1, ← Nat.add_assoc,
        ← ih (by omega) hnext]
      exact loop_again (by rw [skipTurn, hbyte]; simp [hp]) (Nat.lt_succ_self pos) (by omega)

section Scanning

variable {p : UInt8 → Bool} {q : Char → Bool} {source rest : List Char}

/-- The bytes of a class are passed over with the characters they belong to. -/
theorem skipWhile_position (hclass : IsClassOf p q) (h : rest <:+ source) :
    skipWhile p (bytes source) (position source rest) =
      .ok (position source (rest.dropWhile q)) := by
  have hsplit : rest.takeWhile q ++ rest.dropWhile q <:+ source := by
    rwa [List.takeWhile_append_dropWhile]
  have hadd := position_add hsplit
  rw [List.takeWhile_append_dropWhile] at hadd
  have hlength : position source rest + (bytes rest).length = (bytes source).length := by
    have hall := @position_add source [] rest (by rwa [List.append_nil])
    rwa [List.append_nil] at hall
  rw [skipWhile_eq hlength (drop_position h), takeWhile_bytes hclass, hadd]

theorem findIdx?_eq (p : UInt8 → Bool) (bs : List UInt8) :
    bs.findIdx? p =
      if bs.dropWhile (!p ·) = [] then none else some (bs.takeWhile (!p ·)).length := by
  induction bs with
  | nil => rfl
  | cons b bs ih =>
    rw [List.findIdx?_cons, ih]
    cases hp : p b with
    | true => simp [hp]
    | false =>
      rw [if_neg Bool.false_ne_true, List.dropWhile_cons_of_pos (by simp [hp]),
        List.takeWhile_cons_of_pos (by simp [hp])]
      split
      · rfl
      · rfl

theorem bytes_eq_nil_iff {cs : List Char} : bytes cs = [] ↔ cs = [] := by
  cases cs with
  | nil => simp
  | cons c cs => simp [bytes_cons, String.utf8EncodeChar_ne_nil]

/-- The byte of a character below 128 is found where the character is. -/
theorem findIdx?_bytes {d : Char} (hd : d.toNat < 128) (cs : List Char) :
    (bytes cs).findIdx? (· = d.toUInt8) =
      if cs.dropWhile (· ≠ d) = [] then none
      else some (bytes (cs.takeWhile (· ≠ d))).length := by
  have hclass : IsClassOf (fun b => !decide (b = d.toUInt8)) (· ≠ d) := by
    simpa only [decide_not] using isClassOf_ne hd
  rw [findIdx?_eq, dropWhile_bytes hclass, takeWhile_bytes hclass]
  simp only [bytes_eq_nil_iff]

/-- A character that is found stands where the characters before it end. -/
theorem position_findIdx? {c d : Char} {after : List Char} (hd : d.toNat < 128)
    (h : rest <:+ source) (hdrop : rest.dropWhile (· ≠ d) = c :: after) :
    ∃ offset, (bytes rest).findIdx? (· = d.toUInt8) = some offset ∧
      position source rest + offset = position source (rest.dropWhile (· ≠ d)) ∧
      position source (rest.dropWhile (· ≠ d)) + 1 = position source after := by
  have hc : c = d := by
    have hhead := List.head?_dropWhile_not (· ≠ d) rest
    rw [hdrop] at hhead
    simpa using hhead
  have hsplit : rest.takeWhile (· ≠ d) ++ rest.dropWhile (· ≠ d) <:+ source := by
    rwa [List.takeWhile_append_dropWhile]
  have hadd := position_add hsplit
  rw [List.takeWhile_append_dropWhile] at hadd
  have hafter : d :: after <:+ source := by
    rw [← hc, ← hdrop]
    exact (List.dropWhile_suffix _).trans h
  refine ⟨_, (findIdx?_bytes hd rest).trans (if_neg (hdrop ▸ List.cons_ne_nil c after)), hadd, ?_⟩
  rw [hdrop, hc, position_succ hd hafter]

theorem startsWith_position (h : rest <:+ source) (mark : List Char) :
    startsWith (bytes source) (position source rest) mark = .ok (mark.isPrefixOf rest) := by
  rw [startsWith, slice_rest h, ok_bind, isPrefixOf_bytes]

/-- No mark of characters below 128 begins within a character. -/
theorem not_isPrefixOf_of_le {m : Char} (hm : m.toNat < 128) {b : UInt8} (hb : 128 ≤ b)
    (ms : List Char) (bs : List UInt8) : (bytes (m :: ms)).isPrefixOf (b :: bs) = false := by
  have hne : (m.toUInt8 == b) = false := by
    rw [beq_eq_false_iff_ne]
    rintro rfl
    rw [UInt8.le_iff_toNat_le, toNat_toUInt8 hm] at hb
    exact Nat.not_lt_of_le hb hm
  rw [bytes_cons, utf8EncodeChar_of_lt hm, List.singleton_append, List.isPrefixOf_cons_cons, hne,
    Bool.false_and]

theorem find?_append_of_le {m : Char} (hm : m.toNat < 128) (ms : List Char) {bs : List UInt8}
    (hbs : ∀ b ∈ bs, 128 ≤ b) (rest : List UInt8) :
    find? (bytes (m :: ms)) (bs ++ rest) =
      (find? (bytes (m :: ms)) rest).map (bs.length + ·) := by
  induction bs with
  | nil => simp
  | cons b bs ih =>
    rw [List.forall_mem_cons] at hbs
    rw [List.cons_append, find?, not_isPrefixOf_of_le hm hbs.1, if_neg Bool.false_ne_true,
      ih hbs.2, Option.map_map, List.length_cons]
    congr 1
    funext n
    show bs.length + n + 1 = bs.length + 1 + n
    omega

theorem find?_bytes_cons {m c : Char} (hm : m.toNat < 128) {ms cs : List Char}
    (hnot : (m :: ms).isPrefixOf (c :: cs) = false) :
    find? (bytes (m :: ms)) (bytes (c :: cs)) =
      (find? (bytes (m :: ms)) (bytes cs)).map ((String.utf8EncodeChar c).length + ·) := by
  have hbytes := (isPrefixOf_bytes (m :: ms) (c :: cs)).trans hnot
  obtain ⟨b, bs, hc, -, hbs⟩ := utf8EncodeChar_eq_cons c
  rw [bytes_cons c, hc, List.cons_append] at hbytes ⊢
  rw [find?, hbytes, if_neg Bool.false_ne_true, find?_append_of_le hm ms hbs, Option.map_map,
    List.length_cons]
  congr 1
  funext n
  show bs.length + n + 1 = bs.length + 1 + n
  omega

/-- The bytes of a mark are found where its characters are. -/
theorem find?_bytes_some {m : Char} (hm : m.toNat < 128) {ms cs after : List Char}
    (h : behind? (m :: ms) cs = some after) :
    ∃ front, cs = front ++ (m :: ms ++ after) ∧
      find? (bytes (m :: ms)) (bytes cs) = some (bytes front).length := by
  induction cs with
  | nil => cases h
  | cons c cs ih =>
    rw [behind?] at h
    split at h
    · rename_i hmark
      cases h
      obtain ⟨after, hafter⟩ := List.isPrefixOf_iff_prefix.mp hmark
      refine ⟨[], by rw [← hafter, List.drop_left]; rfl, ?_⟩
      have hbytes := (isPrefixOf_bytes (m :: ms) (c :: cs)).trans hmark
      obtain ⟨b, bs, hc, -⟩ := utf8EncodeChar_eq_cons c
      rw [bytes_cons c, hc, List.cons_append] at hbytes ⊢
      rw [find?, if_pos hbytes]
      rfl
    · rename_i hmark
      obtain ⟨front, rfl, hfind⟩ := ih h
      refine ⟨c :: front, rfl, ?_⟩
      rw [find?_bytes_cons hm (eq_false_of_ne_true hmark), hfind, Option.map_some, bytes_cons,
        List.length_append]

/-- Behind a mark that was found reading goes on where it does by characters. -/
theorem position_behind? {m : Char} (hm : m.toNat < 128) {ms after : List Char}
    (h : rest <:+ source) (hbehind : behind? (m :: ms) rest = some after) :
    ∃ offset, find? (bytes (m :: ms)) (bytes rest) = some offset ∧
      position source rest + (offset + (bytes (m :: ms)).length) = position source after := by
  obtain ⟨front, rfl, hfind⟩ := find?_bytes_some hm hbehind
  rw [← List.append_assoc] at h
  refine ⟨_, hfind, ?_⟩
  rw [← List.append_assoc, ← position_add h, bytes_append, List.length_append]

theorem find?_bytes_none {m : Char} (hm : m.toNat < 128) {ms cs : List Char}
    (h : behind? (m :: ms) cs = none) : find? (bytes (m :: ms)) (bytes cs) = none := by
  induction cs with
  | nil => rfl
  | cons c cs ih =>
    rw [behind?] at h
    split at h
    · cases h
    · rename_i hmark
      rw [find?_bytes_cons hm (eq_false_of_ne_true hmark), ih h, Option.map_none]

end Scanning

end ComponentGraph.Markup.Cursor
