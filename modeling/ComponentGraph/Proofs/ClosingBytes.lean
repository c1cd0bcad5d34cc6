import ComponentGraph.Proofs.ReadingBytes
/-!
# Finding a closing tag by bytes

A closing tag is looked for byte by byte, in any mixture of cases. Its first byte is an angle
bracket, so that none is found within a character, and it is found where it is by characters.
-/

namespace ComponentGraph.Markup

open Text (bytes isMarkupBlank)

/-! ## What a closing tag is -/

/-- A closing tag begins with the bytes of its name, up to the case of letters, and its name ends
there. -/
theorem startsClosing_iff {name : String} {cs : List Char} :
    startsClosing name cs = true ↔
      ∃ front rest, cs = front ++ rest ∧
        front.map Char.toLower = ('<' :: '/' :: name.toList).map Char.toLower ∧
        (rest.head?.all fun c => isMarkupBlank c || c = '>') = true := by
  constructor
  · intro h
    unfold startsClosing at h
    split at h
    · rename_i rest
      rw [Bool.and_eq_true, decide_eq_true_eq] at h
      refine ⟨'<' :: '/' :: rest.take name.toList.length, rest.drop name.toList.length, ?_, ?_,
        h.2⟩
      · rw [List.cons_append, List.cons_append, List.take_append_drop]
      · rw [List.map_cons, List.map_cons, h.1, List.map_cons, List.map_cons]
    · cases h
  · rintro ⟨front, rest, rfl, hfront, hrest⟩
    obtain ⟨a, others, rfl, ha, hothers⟩ := List.map_eq_cons_iff.mp hfront
    obtain ⟨b, letters, rfl, hb, hletters⟩ := List.map_eq_cons_iff.mp hothers
    obtain rfl : a = '<' := (Tag.toLower_eq_iff (by decide)).mp ha
    obtain rfl : b = '/' := (Tag.toLower_eq_iff (by decide)).mp hb
    have hlength : letters.length = name.toList.length := by
      have hmap := congrArg List.length hletters
      rwa [List.length_map, List.length_map] at hmap
    rw [List.cons_append, List.cons_append, startsClosing]
    simp only [← hlength, List.take_left, List.drop_left, Bool.and_eq_true, decide_eq_true_eq]
    exact ⟨hletters, hrest⟩

theorem eq_of_findClosing? {name : String} {cs close : List Char}
    (h : findClosing? name cs = some close) : ∃ rest, close = '<' :: '/' :: rest := by
  induction cs with
  | nil => cases h
  | cons c cs ih =>
    rw [findClosing?] at h
    split at h
    · rename_i hstarts
      unfold startsClosing at hstarts
      split at hstarts
      · rename_i rest heq
        exact ⟨rest, (Option.some.inj h).symm.trans heq⟩
      · cases hstarts
    · exact ih h

/-- The text behind an element without markup, whose opening tag began at `place`. -/
def afterContent (name : String) (fault : Fault) (place rest : List Char) :
    Except Problem (List Char) :=
  match findClosing? name rest with
  | none => .error ⟨fault, place⟩
  | some close =>
    match readCloseTag close with
    | .error fault => .error ⟨fault, close⟩
    | .ok (_, rest) => .ok rest

theorem afterBlock_eq (tag : OpenTag) :
    afterBlock tag = afterContent tag.name (.unclosedBlock tag.name) := rfl

theorem afterRawText_eq (tag : OpenTag) :
    afterRawText tag = afterContent tag.name (.missingEnd tag.name) := rfl

theorem afterContent_suffix {name : String} {fault : Fault} {place rest after : List Char}
    (h : afterContent name fault place rest = .ok after) : after <:+ rest := by
  simp only [afterContent] at h
  split at h
  · cases h
  · rename_i hclose
    split at h
    · cases h
    · rename_i hread
      cases h
      exact (readCloseTag_suffix hread).trans (findClosing?_suffix hclose)

namespace Cursor

open Text

/-! ## Lower case -/

theorem lowerByte_of_le {b : UInt8} (hb : 128 ≤ b) : lowerByte b = b := by
  have hnot : ¬ b ≤ 'Z'.toUInt8 := fun hle => absurd (UInt8.le_trans hb hle) (by decide)
  rw [lowerByte, decide_eq_false hnot, Bool.and_false, if_neg Bool.false_ne_true]

theorem lowerByte_toUInt8 :
    ∀ n < 128, lowerByte (Char.ofNat n).toUInt8 = (Char.ofNat n).toLower.toUInt8 ∧
      (Char.ofNat n).toLower.toNat < 128 := by
  decide

theorem map_lowerByte (c : Char) :
    (String.utf8EncodeChar c).map lowerByte = String.utf8EncodeChar c.toLower := by
  rcases Nat.lt_or_ge c.toNat 128 with h | h
  · obtain ⟨hbyte, hlt⟩ := lowerByte_toUInt8 c.toNat h
    rw [Char.ofNat_toNat] at hbyte hlt
    rw [utf8EncodeChar_of_lt h, utf8EncodeChar_of_lt hlt, List.map_singleton, hbyte]
  · have hupper : ¬ c.isUpper = true := by
      intro hupper
      have hle : c.toNat ≤ 'Z'.toNat := (of_decide_eq_true hupper).2
      exact absurd (Nat.le_trans h hle) (by decide)
    rw [Char.toLower_eq_of_not_isUpper hupper]
    refine (List.map_congr_left fun b hb => ?_).trans (List.map_id _)
    exact lowerByte_of_le (le_of_mem_utf8EncodeChar h b hb)

theorem map_lowerByte_bytes (cs : List Char) :
    (bytes cs).map lowerByte = bytes (cs.map Char.toLower) := by
  induction cs with
  | nil => rfl
  | cons c cs ih => rw [bytes_cons, List.map_append, ih, map_lowerByte, List.map_cons, bytes_cons]

/-- The bytes that are looked for, with the bracket and slash. -/
def needle (name : String) : List UInt8 := bytes ('<' :: '/' :: name.toList.map Char.toLower)

theorem needle_eq (name : String) :
    needle name = bytes (('<' :: '/' :: name.toList).map Char.toLower) := rfl

theorem map_lowerByte_needle (name : String) : (needle name).map lowerByte = needle name := by
  rw [needle_eq, map_lowerByte_bytes, List.map_map]
  congr 2
  funext c
  exact Char.toLower_toLower_eq_toLower c

theorem length_bytes_of_map_eq {cs ds : List Char}
    (h : cs.map Char.toLower = ds.map Char.toLower) : (bytes cs).length = (bytes ds).length := by
  rw [← List.length_map lowerByte, map_lowerByte_bytes, h, ← map_lowerByte_bytes, List.length_map]

theorem isClassOf_nameEnd : IsClassOf (fun b => isBlankByte b || b = '>'.toUInt8)
    fun c => isMarkupBlank c || c = '>' :=
  isClassOf_blank.or (isClassOf_eq (by decide))

/-- Where there are enough bytes left, they tell whether a closing tag begins. -/
theorem startsClosing_iff_bytes {name : String} {cs : List Char} :
    startsClosing name cs = true ↔ (needle name).length ≤ (bytes cs).length ∧
      ((bytes cs).take (needle name).length).map lowerByte = (needle name).map lowerByte ∧
      (((bytes cs).drop (needle name).length).head?.all
        fun b => isBlankByte b || b = '>'.toUInt8) = true := by
  have hlength : (needle name).length = (bytes ('<' :: '/' :: name.toList)).length := by
    rw [needle_eq, ← map_lowerByte_bytes, List.length_map]
  rw [startsClosing_iff, map_lowerByte_needle]
  constructor
  · rintro ⟨front, rest, rfl, hfront, hrest⟩
    rw [← length_bytes_of_map_eq hfront] at hlength
    rw [bytes_append, hlength, List.take_left, List.drop_left, map_lowerByte_bytes, hfront,
      head?_bytes_all isClassOf_nameEnd, List.length_append]
    exact ⟨Nat.le_add_right _ _, rfl, hrest⟩
  · rintro ⟨-, htake, hend⟩
    have hfront : needle name <+: bytes (cs.map Char.toLower) := by
      rw [List.prefix_iff_eq_take, ← map_lowerByte_bytes, ← List.map_take, htake]
    obtain ⟨others, hothers⟩ := bytes_prefix_bytes_iff.mp hfront
    obtain ⟨front, rest, rfl, hfront, -⟩ := List.map_eq_append_iff.mp hothers.symm
    refine ⟨front, rest, rfl, hfront, ?_⟩
    rwa [hlength, ← length_bytes_of_map_eq hfront, bytes_append, List.drop_left,
      head?_bytes_all isClassOf_nameEnd] at hend

/-! ## The search -/

theorem slice_add {source : List UInt8} {pos n : Nat} (h : pos + n ≤ source.length) :
    slice source pos (pos + n) = .ok ((source.drop pos).take n) := by
  rw [slice, if_neg (by omega), if_neg (by omega), List.drop_take, Nat.add_sub_cancel_left]

/-- A closing tag begins with its bracket, which is no byte of a character from 128 on. -/
theorem ne_needle_of_le {b : UInt8} (hb : 128 ≤ b) (name : String) (bs : List UInt8) :
    ((b :: bs).take (needle name).length).map lowerByte ≠ (needle name).map lowerByte := by
  have hcons : needle name = '<'.toUInt8 :: bytes ('/' :: name.toList.map Char.toLower) := by
    rw [needle, bytes_cons, utf8EncodeChar_of_lt (by decide), List.singleton_append]
  rw [map_lowerByte_needle, hcons, List.length_cons, List.take_succ_cons, List.map_cons,
    lowerByte_of_le hb]
  intro heq
  rw [(List.cons.inj heq).1] at hb
  exact absurd hb (by decide)

theorem findNeedle?_within {source bs : List UInt8} {name : String} {count pos : Nat}
    (hbs : ∀ b ∈ bs, 128 ≤ b) (hfront : bs <+: source.drop pos)
    (hfits : count + pos + (needle name).length ≤ source.length + 1) :
    findNeedle? source (needle name) count pos =
      findNeedle? source (needle name) (count - bs.length) (pos + bs.length) := by
  induction bs generalizing count pos with
  | nil => rfl
  | cons b bs ih =>
    cases count with
    | zero => rw [Nat.zero_sub, findNeedle?, findNeedle?]
    | succ count =>
      obtain ⟨rest, hrest⟩ := hfront
      have hnext : bs <+: source.drop (pos + 1) := by
        rw [← List.drop_drop, ← hrest]
        exact List.prefix_append bs rest
      rw [findNeedle?, slice_add (by omega), ok_bind, ← hrest, List.cons_append,
        decide_eq_false (ne_needle_of_le (hbs b List.mem_cons_self) name _), Bool.false_and,
        if_neg Bool.false_ne_true, ih (fun b hb => hbs b (List.mem_cons_of_mem _ hb)) hnext
        (by omega), List.length_cons, Nat.add_sub_add_right, Nat.add_assoc pos 1,
        Nat.add_comm 1]

/-- Where a closing tag may begin by the number of bytes left, one look tells. -/
theorem findNeedle?_succ {source cs : List Char} {name : String} (h : cs <:+ source)
    (hfits : (needle name).length ≤ (bytes cs).length) (count : Nat) :
    findNeedle? (bytes source) (needle name) (count + 1) (position source cs) =
      if startsClosing name cs then .ok (some (position source cs))
      else findNeedle? (bytes source) (needle name) count (position source cs + 1) := by
  have hend := @position_add source [] cs (by rwa [List.append_nil])
  rw [List.append_nil, position_nil] at hend
  rw [findNeedle?, slice_add (by omega), ok_bind, drop_position h, getElem?_position h,
    ← List.head?_drop]
  have hiff := @startsClosing_iff_bytes name cs
  cases hstarts : startsClosing name cs with
  | true =>
    obtain ⟨-, htake, hall⟩ := hiff.mp hstarts
    rw [decide_eq_true htake, hall]
    rfl
  | false =>
    rw [if_neg Bool.false_ne_true, if_neg]
    intro htest
    rw [Bool.and_eq_true, decide_eq_true_eq] at htest
    cases hstarts.symm.trans (hiff.mpr ⟨hfits, htest⟩)

/-- By bytes a closing tag is found where it is by characters. -/
theorem findNeedle?_position {source cs : List Char} (name : String) (h : cs <:+ source) :
    findNeedle? (bytes source) (needle name) ((bytes cs).length + 1 - (needle name).length)
        (position source cs) =
      .ok ((Markup.findClosing? name cs).map (position source)) := by
  induction cs with
  | nil =>
    have hpos : 0 < (needle name).length :=
      List.length_pos_iff.mpr (mt bytes_eq_nil_iff.mp (List.cons_ne_nil _ _))
    rw [bytes_nil, List.length_nil, Nat.sub_eq_zero_of_le (by omega), findNeedle?]
    rfl
  | cons c cs ih =>
    have hcs : cs <:+ source := (List.suffix_cons c cs).trans h
    obtain ⟨b, bs, hbytes, -, hbs⟩ := utf8EncodeChar_eq_cons c
    have hsize : (bytes (c :: cs)).length = bs.length + 1 + (bytes cs).length := by
      rw [bytes_cons, hbytes, List.length_append, List.length_cons]
    rw [Markup.findClosing?]
    by_cases hfits : (needle name).length ≤ (bytes (c :: cs)).length
    · rw [Nat.sub_add_comm hfits, findNeedle?_succ h hfits]
      split
      · rfl
      · have hpos : position source (c :: cs) + 1 + bs.length = position source cs := by
          rw [← @position_add source cs [c] h, bytes_cons, hbytes, bytes_nil, List.append_nil,
            List.length_cons]
          show _ = position source (c :: cs) + _
          omega
        have hend := @position_add source [] (c :: cs) (by rwa [List.append_nil])
        have hwithin : bs <+: (bytes source).drop (position source (c :: cs) + 1) := by
          rw [← List.drop_drop, drop_position h, bytes_cons, hbytes]
          exact List.prefix_append bs (bytes cs)
        rw [List.append_nil, position_nil] at hend
        rw [findNeedle?_within hbs hwithin (by omega), hpos, ← ih hcs]
        congr 1
        omega
    · have hstarts : ¬ startsClosing name (c :: cs) = true := fun hstarts =>
        hfits (startsClosing_iff_bytes.mp hstarts).1
      rw [if_neg hstarts]
      have hnone := ih hcs
      rw [Nat.sub_eq_zero_of_le (by omega), findNeedle?] at hnone ⊢
      exact hnone

theorem findClosing?_position {source cs : List Char} (name : String) (h : cs <:+ source) :
    findClosing? (bytes source) name (position source cs) =
      .ok ((Markup.findClosing? name cs).map (position source)) := by
  have hpos : 1 ≤ (needle name).length :=
    List.length_pos_iff.mpr (mt bytes_eq_nil_iff.mp (List.cons_ne_nil _ _))
  have hend := @position_add source [] cs (by rwa [List.append_nil])
  rw [List.append_nil, position_nil] at hend
  have hcount : (bytes source).length - ((needle name).length - 1) - position source cs =
      (bytes cs).length + 1 - (needle name).length := by
    omega
  show (minus (needle name).length 1 >>= fun margin => findNeedle? _ (needle name) _ _) = _
  rw [minus, if_neg (Nat.not_lt_of_le hpos), ok_bind, hcount, findNeedle?_position name h]

/-- Behind an element without markup reading goes on where it does by characters. -/
theorem skipContent_position {source place rest : List Char} (name : String) (fault : Fault)
    (hplace : place <:+ source) (h : rest <:+ source) :
    skipContent (bytes source) name (position source place) fault (position source rest) =
      told source ((afterContent name fault place rest).map (position source)) := by
  rw [skipContent, findClosing?_position name h, ok_bind, afterContent]
  cases hclose : Markup.findClosing? name rest with
  | none => exact fail_position hplace fault
  | some close =>
    have hsuffix : close <:+ source := (findClosing?_suffix hclose).trans h
    obtain ⟨cs, rfl⟩ := eq_of_findClosing? hclose
    dsimp only [Option.map_some]
    rw [readCloseTag_position hsuffix]
    cases Markup.readCloseTag ('<' :: '/' :: cs) with
    | error fault => rfl
    | ok read => rfl

end Cursor

end ComponentGraph.Markup
