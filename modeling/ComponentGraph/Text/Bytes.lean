/-!
# Bytes of a text

A text as its UTF-8 bytes. A character below 128 is one byte, the bytes of any other are all from
128 on, and the order of texts is that of their bytes.
-/

namespace ComponentGraph.Text

def bytes (cs : List Char) : List UInt8 := cs.flatMap String.utf8EncodeChar

@[simp] theorem bytes_nil : bytes [] = [] := rfl

theorem bytes_cons (c : Char) (cs : List Char) :
    bytes (c :: cs) = String.utf8EncodeChar c ++ bytes cs := rfl

@[simp] theorem bytes_append (cs ds : List Char) : bytes (cs ++ ds) = bytes cs ++ bytes ds :=
  List.flatMap_append

/-- The bytes are those of which a text is made. -/
theorem bytes_toList (s : String) : (bytes s.toList).toByteArray = s.toByteArray :=
  String.utf8Encode_toList

/-- The bytes of a text are read as that text. -/
theorem fromUTF8?_bytes (cs : List Char) :
    String.fromUTF8? (bytes cs).toByteArray = some (String.ofList cs) :=
  dif_pos ⟨cs, rfl⟩

/-! ## Bytes of a character -/

theorem utf8EncodeChar_of_lt {c : Char} (h : c.toNat < 128) :
    String.utf8EncodeChar c = [c.toUInt8] := by
  rw [String.utf8EncodeChar]
  exact if_pos (Nat.le_of_lt_succ h)

theorem toNat_toUInt8 {c : Char} (h : c.toNat < 128) : c.toUInt8.toNat = c.toNat :=
  Nat.mod_eq_of_lt (Nat.lt_trans h (by decide))

/-- The first byte of a character from 128 on tells that one begins, the others that none does. -/
theorem exists_utf8EncodeChar {c : Char} (h : 128 ≤ c.toNat) :
    ∃ b bs, String.utf8EncodeChar c = b :: bs ∧ 192 ≤ b ∧ ∀ b ∈ bs, 128 ≤ b ∧ b < 192 := by
  have hc : 128 ≤ c.val.toNat := h
  have hvalid : c.val.toNat < 0x110000 := by
    have hvalid := c.valid
    simp only [UInt32.isValidChar, Nat.isValidChar] at hvalid
    omega
  simp only [String.utf8EncodeChar]
  rw [if_neg (by omega)]
  repeat' split
  all_goals
    refine ⟨_, _, rfl, ?_, ?_⟩
    · simp only [UInt8.le_iff_toNat_le, UInt8.toNat_ofNat']
      simp (disch := omega) only [Nat.mod_eq_of_lt, UInt8.reduceToNat]
      omega
    · simp only [List.forall_mem_cons, UInt8.le_iff_toNat_le, UInt8.lt_iff_toNat_lt,
        UInt8.toNat_ofNat', List.not_mem_nil, false_imp_iff, implies_true, and_true]
      simp (disch := omega) only [Nat.mod_eq_of_lt, UInt8.reduceToNat]
      omega

theorem le_of_mem_utf8EncodeChar {c : Char} (h : 128 ≤ c.toNat) :
    ∀ b ∈ String.utf8EncodeChar c, 128 ≤ b := by
  obtain ⟨first, others, hc, hfirst, hothers⟩ := exists_utf8EncodeChar h
  intro b hb
  rw [hc, List.mem_cons] at hb
  rcases hb with rfl | hb
  · exact UInt8.le_trans (by decide) hfirst
  · exact (hothers b hb).1

/-- The first byte of a character is none that goes on with one, as all others are. -/
theorem utf8EncodeChar_eq_cons (c : Char) :
    ∃ b bs, String.utf8EncodeChar c = b :: bs ∧ (b < 128 ∨ 192 ≤ b) ∧ ∀ b ∈ bs, 128 ≤ b := by
  rcases Nat.lt_or_ge c.toNat 128 with h | h
  · refine ⟨_, _, utf8EncodeChar_of_lt h, .inl ?_, fun b hb => absurd hb List.not_mem_nil⟩
    rw [UInt8.lt_iff_toNat_lt, toNat_toUInt8 h]
    exact h
  · obtain ⟨b, bs, hc, hb, hbs⟩ := exists_utf8EncodeChar h
    exact ⟨b, bs, hc, .inr hb, fun b hb => (hbs b hb).1⟩

/-! ## Order -/

/-- Two characters differ in their bytes before either of them ends. -/
theorem utf8EncodeChar_lt {c d : Char} (h : c < d) (as bs : List UInt8) :
    String.utf8EncodeChar c ++ as < String.utf8EncodeChar d ++ bs := by
  have hlt : c.val.toNat < d.val.toNat := h
  have hd : d.val.toNat < 0x110000 := by
    have hvalid := d.valid
    simp only [UInt32.isValidChar, Nat.isValidChar] at hvalid
    omega
  -- Either the first bytes tell the lengths apart, or the first byte that differs decides.
  simp only [String.utf8EncodeChar]
  repeat' split
  all_goals
    simp only [List.cons_append, List.cons_lt_cons_iff, UInt8.lt_iff_toNat_lt, ← UInt8.toNat_inj,
      UInt8.toNat_ofNat']
    simp (disch := omega) only [Nat.mod_eq_of_lt]
    omega

theorem bytes_lt_bytes {cs ds : List Char} (h : cs < ds) : bytes cs < bytes ds := by
  induction h with
  | @nil d ds =>
    obtain ⟨b, bs, hd⟩ := List.exists_cons_of_ne_nil (String.utf8EncodeChar_ne_nil (c := d))
    rw [bytes_cons, hd]
    exact List.nil_lt_cons b _
  | cons _ ih => exact List.append_left_lt ih
  | rel h => exact utf8EncodeChar_lt h _ _

/-- The order of the characters is that of the bytes. -/
theorem bytes_lt_bytes_iff {cs ds : List Char} : bytes cs < bytes ds ↔ cs < ds := by
  refine ⟨fun h => ?_, bytes_lt_bytes⟩
  by_cases hlt : cs < ds
  · exact hlt
  · rcases List.le_iff_lt_or_eq.mp (List.not_lt.mp hlt) with hgt | rfl
    · exact absurd h (List.lt_asymm (bytes_lt_bytes hgt))
    · exact absurd h (List.lt_irrefl _)

theorem bytes_toList_le_iff {s t : String} : bytes s.toList ≤ bytes t.toList ↔ s ≤ t :=
  not_congr bytes_lt_bytes_iff

/-! ## Beginnings -/

theorem utf8EncodeChar_append_inj {c d : Char} {as bs : List UInt8}
    (h : String.utf8EncodeChar c ++ as = String.utf8EncodeChar d ++ bs) : c = d ∧ as = bs := by
  have hcd : c = d := by
    rcases Nat.lt_trichotomy c.toNat d.toNat with hlt | heq | hgt
    · exact absurd (h ▸ utf8EncodeChar_lt hlt as bs) (List.lt_irrefl _)
    · exact Char.toNat_inj.mp heq
    · exact absurd (h ▸ utf8EncodeChar_lt hgt bs as) (List.lt_irrefl _)
  subst hcd
  exact ⟨rfl, List.append_cancel_left h⟩

theorem bytes_prefix_bytes_iff {cs ds : List Char} : bytes cs <+: bytes ds ↔ cs <+: ds := by
  constructor
  · intro h
    induction cs generalizing ds with
    | nil => exact List.nil_prefix
    | cons c cs ih =>
      obtain ⟨rest, hrest⟩ := h
      rw [bytes_cons, List.append_assoc] at hrest
      cases ds with
      | nil =>
        obtain ⟨hc, -⟩ := List.append_eq_nil_iff.mp hrest
        exact absurd hc String.utf8EncodeChar_ne_nil
      | cons d ds =>
        obtain ⟨rfl, hcs⟩ := utf8EncodeChar_append_inj hrest
        exact List.cons_prefix_cons.mpr ⟨rfl, ih ⟨rest, hcs⟩⟩
  · rintro ⟨rest, rfl⟩
    rw [bytes_append]
    exact List.prefix_append _ _

theorem isPrefixOf_bytes (cs ds : List Char) :
    (bytes cs).isPrefixOf (bytes ds) = cs.isPrefixOf ds := by
  rw [Bool.eq_iff_iff, List.isPrefixOf_iff_prefix, List.isPrefixOf_iff_prefix,
    bytes_prefix_bytes_iff]

/-! ## Classes -/

/-- The bytes of the characters of a class are in the class of bytes, all others are not. -/
def IsClassOf (p : UInt8 → Bool) (q : Char → Bool) : Prop :=
  ∀ c, ∀ b ∈ String.utf8EncodeChar c, p b = q c

section Classes

variable {p p' : UInt8 → Bool} {q q' : Char → Bool}

/-- For a class of characters below 128 it is enough to look at these. -/
theorem isClassOf_of_lt (hlt : ∀ c : Char, c.toNat < 128 → p c.toUInt8 = q c)
    (hp : ∀ b, 128 ≤ b → p b = false) (hq : ∀ c : Char, 128 ≤ c.toNat → q c = false) :
    IsClassOf p q := by
  intro c b hb
  rcases Nat.lt_or_ge c.toNat 128 with h | h
  · rw [utf8EncodeChar_of_lt h, List.mem_singleton] at hb
    rw [hb, hlt c h]
  · rw [hp b (le_of_mem_utf8EncodeChar h b hb), hq c h]

theorem isClassOf_eq {d : Char} (hd : d.toNat < 128) : IsClassOf (· = d.toUInt8) (· = d) := by
  apply isClassOf_of_lt
  · intro c hc
    rw [decide_eq_decide, ← UInt8.toNat_inj, toNat_toUInt8 hc, toNat_toUInt8 hd, Char.toNat_inj]
  · intro b hb
    refine decide_eq_false fun heq => ?_
    rw [heq, UInt8.le_iff_toNat_le, toNat_toUInt8 hd] at hb
    exact absurd hd (Nat.not_lt_of_le hb)
  · intro c hc
    exact decide_eq_false fun heq => Nat.not_lt_of_le hc (heq ▸ hd)

theorem isClassOf_between {low high : Char} (hlow : low.toNat < 128) (hhigh : high.toNat < 128) :
    IsClassOf (fun b => low.toUInt8 ≤ b && b ≤ high.toUInt8) fun c => low ≤ c && c ≤ high := by
  apply isClassOf_of_lt
  · intro c hc
    rw [Bool.eq_iff_iff]
    simp only [Bool.and_eq_true, decide_eq_true_eq, UInt8.le_iff_toNat_le, toNat_toUInt8, hc, hlow,
      hhigh]
    exact Iff.rfl
  · intro b hb
    have hgt : ¬ b ≤ high.toUInt8 := by
      rw [UInt8.le_iff_toNat_le, toNat_toUInt8 hhigh, Nat.not_le]
      exact Nat.lt_of_lt_of_le hhigh hb
    rw [decide_eq_false hgt, Bool.and_false]
  · intro c hc
    have hgt : ¬ c ≤ high := fun hle => Nat.not_lt_of_le hc (Nat.lt_of_le_of_lt hle hhigh)
    rw [decide_eq_false hgt, Bool.and_false]

theorem IsClassOf.not (h : IsClassOf p q) : IsClassOf (!p ·) (!q ·) :=
  fun c b hb => congrArg (!·) (h c b hb)

theorem byte_eq_iff {b : UInt8} {c d : Char} (hb : b ∈ String.utf8EncodeChar c)
    (hd : d.toNat < 128) : b = d.toUInt8 ↔ c = d :=
  decide_eq_decide.mp (isClassOf_eq hd c b hb)

theorem isClassOf_ne {d : Char} (hd : d.toNat < 128) : IsClassOf (· ≠ d.toUInt8) (· ≠ d) := by
  intro c b hb
  simpa only [decide_not] using (isClassOf_eq hd).not c b hb

theorem IsClassOf.or (h : IsClassOf p q) (h' : IsClassOf p' q') :
    IsClassOf (fun b => p b || p' b) (fun c => q c || q' c) := by
  intro c b hb
  show (_ || _) = (_ || _)
  rw [h c b hb, h' c b hb]

theorem IsClassOf.and (h : IsClassOf p q) (h' : IsClassOf p' q') :
    IsClassOf (fun b => p b && p' b) (fun c => q c && q' c) := by
  intro c b hb
  show (_ && _) = (_ && _)
  rw [h c b hb, h' c b hb]

theorem takeWhile_bytes (h : IsClassOf p q) (cs : List Char) :
    (bytes cs).takeWhile p = bytes (cs.takeWhile q) := by
  induction cs with
  | nil => rfl
  | cons c cs ih =>
    rw [bytes_cons, List.takeWhile_cons]
    cases hc : q c with
    | true =>
      rw [if_pos rfl, bytes_cons, ← ih]
      exact List.takeWhile_append_of_pos fun b hb => (h c b hb).trans hc
    | false =>
      obtain ⟨b, bs, hbytes⟩ := List.exists_cons_of_ne_nil (String.utf8EncodeChar_ne_nil (c := c))
      have hb : p b = false := (h c b (hbytes ▸ List.mem_cons_self)).trans hc
      rw [if_neg Bool.false_ne_true, hbytes, List.cons_append,
        List.takeWhile_cons_of_neg (ne_true_of_eq_false hb), bytes_nil]

theorem dropWhile_bytes (h : IsClassOf p q) (cs : List Char) :
    (bytes cs).dropWhile p = bytes (cs.dropWhile q) := by
  have hsplit := (bytes cs).takeWhile_append_dropWhile (p := p)
  conv at hsplit => rhs; rw [← cs.takeWhile_append_dropWhile (p := q), bytes_append]
  rw [takeWhile_bytes h] at hsplit
  exact List.append_cancel_left hsplit

theorem head?_bytes_any (h : IsClassOf p q) (cs : List Char) :
    (bytes cs).head?.any p = cs.head?.any q := by
  cases cs with
  | nil => rfl
  | cons c cs =>
    obtain ⟨b, bs, hbytes⟩ := List.exists_cons_of_ne_nil (String.utf8EncodeChar_ne_nil (c := c))
    rw [bytes_cons, hbytes]
    exact h c b (hbytes ▸ List.mem_cons_self)

theorem head?_bytes_all (h : IsClassOf p q) (cs : List Char) :
    (bytes cs).head?.all p = cs.head?.all q := by
  cases cs with
  | nil => rfl
  | cons c cs =>
    obtain ⟨b, bs, hbytes⟩ := List.exists_cons_of_ne_nil (String.utf8EncodeChar_ne_nil (c := c))
    rw [bytes_cons, hbytes]
    exact h c b (hbytes ▸ List.mem_cons_self)

theorem head?_bytes_eq_iff {d : Char} (hd : d.toNat < 128) (cs : List Char) :
    (bytes cs).head? = some d.toUInt8 ↔ cs.head? = some d := by
  have hany := head?_bytes_any (isClassOf_eq hd) cs
  rw [Bool.eq_iff_iff, Option.any_eq_true, Option.any_eq_true] at hany
  simpa using hany

end Classes

theorem count_bytes {d : Char} (hd : d.toNat < 128) (cs : List Char) :
    (bytes cs).count d.toUInt8 = cs.count d := by
  induction cs with
  | nil => rfl
  | cons c cs ih =>
    rw [bytes_cons, List.count_append, ih, List.count_cons, Nat.add_comm]
    congr 1
    by_cases hc : c = d
    · rw [hc, utf8EncodeChar_of_lt hd, List.count_singleton_self, if_pos (beq_self_eq_true d)]
    · rw [if_neg (by simpa using hc), List.count_eq_zero]
      exact fun hmem =>
        hc (of_decide_eq_true ((isClassOf_eq hd c _ hmem).symm.trans (decide_eq_true rfl)))

end ComponentGraph.Text
