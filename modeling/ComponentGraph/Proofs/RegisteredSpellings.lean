import ComponentGraph.Proofs.Spellings
/-!
# Spellings of a registered key

A tag is spelled anew when it is looked for, a key is not. So what matters is whether the spellings
of a key lead back to it. They do from both sides if the key is in kebab case or in upper camel case,
and a key of another kind, such as `userCard`, is found as it is written but not as `UserCard` or
`user-card`. What the spellings leave as it is, and what comes back from one through the other, can
be read off the places of capitals and hyphens.
-/

namespace ComponentGraph

namespace Tag

theorem toUpper_eq_self_iff {c : Char} : c.toUpper = c ↔ c.isLower = false := by
  constructor
  · intro h
    by_contra hlower
    rw [Bool.not_eq_false] at hlower
    have hupper : c.toUpper.isUpper = true := by
      rw [Char.isUpper_toUpper_eq_isAlpha]
      exact (Bool.or_eq_true _ _).mpr (.inr hlower)
    rw [h] at hupper
    exact Char.not_isLower_of_isUpper hupper hlower
  · exact fun h => Char.toUpper_eq_of_not_isLower (ne_true_of_eq_false h)

theorem isWordChar_toLower (c : Char) : isWordChar c.toLower = isWordChar c := by
  by_cases hupper : c.isUpper = true
  · have hc : c.isAlpha = true := (Bool.or_eq_true _ _).mpr (.inl hupper)
    rw [isWordChar, isWordChar, Char.isAlphanum, Char.isAlphanum, Char.isAlpha_toLower_eq_isAlpha,
      hc]
    rfl
  · rw [Char.toLower_eq_of_not_isUpper hupper]

/-! ## What a spelling leaves as it is -/

theorem upperCamel_eq_self_iff {s : String} :
    upperCamel s = s ↔ '-' ∉ s.toList ∧ s.toList.head?.any Char.isLower = false := by
  rw [← String.toList_inj, toList_upperCamel]
  constructor
  · intro h
    have hhyphen : '-' ∉ s.toList := h ▸ hyphen_not_mem_camelFrom true s.toList
    refine ⟨hhyphen, ?_⟩
    rw [(camelFrom_of_not_mem hhyphen).2] at h
    cases hs : s.toList with
    | nil => rfl
    | cons c cs =>
      rw [hs, capitalize, List.cons.injEq] at h
      exact toUpper_eq_self_iff.mp h.1
  · rintro ⟨hhyphen, hinitial⟩
    rw [(camelFrom_of_not_mem hhyphen).2]
    cases hs : s.toList with
    | nil => rfl
    | cons c cs =>
      rw [hs] at hinitial
      rw [capitalize, toUpper_eq_self_iff.mpr hinitial]

theorem toLower_eq_self_iff {c : Char} : c.toLower = c ↔ c.isUpper = false := by
  constructor
  · intro h
    rw [← h]
    exact Char.isUpper_toLower_eq_false c
  · exact fun h => Char.toLower_eq_of_not_isUpper (ne_true_of_eq_false h)

theorem toLower_ne_hyphen {c : Char} (h : c ≠ '-') : c.toLower ≠ '-' :=
  fun heq => h ((toLower_eq_iff (by decide)).mp heq)

/-- Each character is put in lower case, and a capital that follows a word character gets a hyphen
before it. -/
theorem kebabAfter_cons (before : Option Char) (c : Char) (cs : List Char) :
    kebabAfter before (c :: cs) =
      if c.isUpper = true ∧ before.any isWordChar = true then
        '-' :: c.toLower :: kebabAfter (some c) cs
      else c.toLower :: kebabAfter (some c) cs := by
  rw [kebabAfter]
  by_cases hupper : c.isUpper = true
  · by_cases hword : before.any isWordChar = true
    · rw [if_pos hupper, if_pos hword, if_pos ⟨hupper, hword⟩]
    · rw [if_pos hupper, if_neg hword, if_neg fun h => hword h.2]
  · rw [if_neg hupper, if_neg fun h => hupper h.1, Char.toLower_eq_of_not_isUpper hupper]

theorem isUpper_of_mem_kebabAfter {before : Option Char} {cs : List Char} {c : Char}
    (h : c ∈ kebabAfter before cs) : c.isUpper = false := by
  induction cs generalizing before with
  | nil => cases h
  | cons d ds ih =>
    have hrest : c ∈ d.toLower :: kebabAfter (some d) ds → c.isUpper = false := by
      intro hmem
      rcases List.mem_cons.mp hmem with rfl | hmem
      · exact Char.isUpper_toLower_eq_false d
      · exact ih hmem
    rw [kebabAfter_cons] at h
    split at h
    · rcases List.mem_cons.mp h with rfl | h
      · rfl
      · exact hrest h
    · exact hrest h

theorem kebab_eq_self_iff {s : String} : kebab s = s ↔ ∀ c ∈ s.toList, c.isUpper = false := by
  rw [kebab, ← String.toList_inj, String.toList_ofList]
  exact ⟨fun h c hc => isUpper_of_mem_kebabAfter (h ▸ hc), fun h => kebabAfter_of_noCapital h none⟩

theorem kebab_kebab (s : String) : kebab (kebab s) = kebab s := by
  rw [kebab_eq_self_iff, kebab, String.toList_ofList]
  exact fun c => isUpper_of_mem_kebabAfter

/-! ## What comes back from a spelling -/

/-- The hyphens of kebab case are those before a capital that follows a word character. -/
theorem hyphens_kebabAfter {before : Option Char} {cs : List Char} (hcs : '-' ∉ cs)
    {front back : List Char} (h : kebabAfter before cs = front ++ '-' :: back) :
    (before.toList ++ front).getLast?.any isWordChar = true ∧
      back.head?.any Char.isLower = true := by
  induction cs generalizing before front with
  | nil => cases front <;> cases h
  | cons c cs ih =>
    rw [List.mem_cons, not_or] at hcs
    have hlowered : c.toLower ≠ '-' := toLower_ne_hyphen fun heq => hcs.1 heq.symm
    -- Past the first character, what stands before the hyphen begins with it, in lower case.
    have hlater : ∀ rest front' : List Char,
        c.toLower :: kebabAfter (some c) cs = front' ++ '-' :: back →
          (rest ++ front').getLast?.any isWordChar = true ∧ back.head?.any Char.isLower = true := by
      intro rest front' hsplit
      cases front' with
      | nil => exact absurd (List.cons.inj hsplit).1 hlowered
      | cons d front'' =>
        obtain ⟨rfl, htail⟩ := List.cons.inj hsplit
        obtain ⟨hword, hlower⟩ := ih hcs.2 htail
        refine ⟨?_, hlower⟩
        rw [Option.toList_some, List.singleton_append] at hword
        rw [List.getLast?_append_cons]
        cases front'' with
        | nil => exact (isWordChar_toLower c).trans hword
        | cons e es => rwa [List.getLast?_cons_cons] at hword ⊢
    rw [kebabAfter_cons] at h
    split at h
    · rename_i hcapital
      cases front with
      | nil =>
        obtain ⟨-, rfl⟩ := List.cons.inj h
        refine ⟨?_, ?_⟩
        · cases before with
          | none => cases hcapital.2
          | some b => exact hcapital.2
        · rw [List.head?_cons, Option.any_some, Char.isLower_toLower_eq_isAlpha]
          exact (Bool.or_eq_true _ _).mpr (.inl hcapital.1)
      | cons d front' =>
        have hsplit := (List.cons.inj h).2
        rw [List.append_cons]
        exact hlater _ front' hsplit
    · exact hlater before.toList front h

theorem kebab_upperCamel_eq_self_iff {s : String} :
    kebab (upperCamel s) = s ↔ IsKebab s.toList := by
  refine ⟨fun h => ?_, kebab_upperCamel⟩
  rw [kebab, toList_upperCamel, ← String.toList_inj, String.toList_ofList] at h
  constructor
  · exact fun c hc => isUpper_of_mem_kebabAfter (h.symm ▸ hc)
  · intro front back hsplit
    exact hyphens_kebabAfter (hyphen_not_mem_camelFrom true s.toList) (h.trans hsplit)

/-- There is no hyphen, the first character is no lower case letter, and each capital behind it
follows a word character. -/
structure IsUpperCamel (key : List Char) : Prop where
  noHyphen : '-' ∉ key
  initial : key.head?.any Char.isLower = false
  capitals : key.IsChain fun before c => c.isUpper = true → isWordChar before = true

instance (key : List Char) : Decidable (IsUpperCamel key) :=
  decidable_of_iff
    ('-' ∉ key ∧ key.head?.any Char.isLower = false ∧
      key.IsChain fun before c => c.isUpper = true → isWordChar before = true)
    ⟨fun h => ⟨h.1, h.2.1, h.2.2⟩, fun h => ⟨h.1, h.2, h.3⟩⟩

/-- Behind a character, upper camel case gives back what kebab case took if each capital got its
hyphen. -/
theorem camelFrom_kebabAfter_iff {cs : List Char} (hcs : '-' ∉ cs) (before : Char) :
    camelFrom false (kebabAfter (some before) cs) = cs ↔
      (before :: cs).IsChain fun b c => c.isUpper = true → isWordChar b = true := by
  induction cs generalizing before with
  | nil => simp [kebabAfter, camelFrom]
  | cons c cs ih =>
    rw [List.mem_cons, not_or] at hcs
    have hlowered : c.toLower ≠ '-' := toLower_ne_hyphen fun heq => hcs.1 heq.symm
    rw [List.isChain_cons_cons, ← ih hcs.2 c, kebabAfter_cons, Option.any_some]
    split
    · rename_i hcapital
      have hupper : c.toLower.toUpper = c := by
        rw [Char.toUpper_toLower_eq_toUpper]
        exact Char.toUpper_eq_of_not_isLower (Char.not_isLower_of_isUpper hcapital.1)
      rw [camelFrom, if_pos rfl, camelFrom, if_neg hlowered, if_pos rfl, hupper,
        List.cons.injEq]
      exact and_congr_left fun _ => iff_of_true rfl fun _ => hcapital.2
    · rename_i hsmall
      rw [camelFrom, if_neg hlowered, if_neg Bool.false_ne_true, List.cons.injEq,
        toLower_eq_self_iff, ← Bool.not_eq_true]
      exact and_congr_left fun _ =>
        ⟨fun hc hupper => absurd hupper hc, fun h hupper => hsmall ⟨hupper, h hupper⟩⟩

/-- A key in whose first place there is neither a hyphen nor a lower case letter keeps its first
character. -/
theorem camelFrom_kebabAfter_cons {c : Char} (hhyphen : c ≠ '-') (hinitial : c.isLower = false)
    (cs : List Char) :
    camelFrom true (kebabAfter none (c :: cs)) = c :: camelFrom false (kebabAfter (some c) cs) := by
  rw [kebabAfter_cons, if_neg fun h => Bool.false_ne_true h.2, camelFrom,
    if_neg (toLower_ne_hyphen hhyphen), if_pos rfl, Char.toUpper_toLower_eq_toUpper,
    toUpper_eq_self_iff.mpr hinitial]

theorem upperCamel_kebab_eq_self_iff {s : String} :
    upperCamel (kebab s) = s ↔ IsUpperCamel s.toList := by
  have hback : '-' ∉ s.toList → s.toList.head?.any Char.isLower = false →
      (upperCamel (kebab s) = s ↔
        s.toList.IsChain fun b c => c.isUpper = true → isWordChar b = true) := by
    intro hhyphen hinitial
    rw [← String.toList_inj, toList_upperCamel, kebab, String.toList_ofList]
    cases hs : s.toList with
    | nil => simp [kebabAfter, camelFrom]
    | cons c cs =>
      rw [hs] at hhyphen hinitial
      rw [List.mem_cons, not_or] at hhyphen
      rw [camelFrom_kebabAfter_cons (fun heq => hhyphen.1 heq.symm) hinitial, List.cons.injEq,
        ← camelFrom_kebabAfter_iff hhyphen.2 c]
      exact and_iff_right rfl
  constructor
  · intro h
    have hcamel : upperCamel s = s := by
      rw [← h, upperCamel_upperCamel]
    obtain ⟨hhyphen, hinitial⟩ := upperCamel_eq_self_iff.mp hcamel
    exact ⟨hhyphen, hinitial, (hback hhyphen hinitial).mp h⟩
  · exact fun h => (hback h.noHyphen h.initial).mpr h.capitals

/-- **The spellings make round trips.** To spell again changes nothing, and there and back comes
what is in kebab case, or in upper camel case, and nothing else. -/
theorem round_trip_iff (s : String) :
    kebab (kebab s) = kebab s ∧ upperCamel (upperCamel s) = upperCamel s ∧
      (kebab (upperCamel s) = s ↔ IsKebab s.toList) ∧
      (upperCamel (kebab s) = s ↔ IsUpperCamel s.toList) :=
  ⟨kebab_kebab s, upperCamel_upperCamel s, kebab_upperCamel_eq_self_iff,
    upperCamel_kebab_eq_self_iff⟩

/-- A hyphen before a digit is lost, as the digit has no capital that could bring it back. -/
example : kebab (upperCamel "x-1") = "x1" := by decide

/-! ## Spellings that lead back -/

theorem mem_spellings_upperCamel_iff {key : String} :
    key ∈ spellings (upperCamel key) ↔
      IsKebab key.toList ∨ '-' ∉ key.toList ∧ key.toList.head?.any Char.isLower = false := by
  simp only [spellings, upperCamel_upperCamel, List.mem_cons, List.not_mem_nil, or_false,
    eq_comm (a := key), upperCamel_eq_self_iff, kebab_upperCamel_eq_self_iff]
  tauto

theorem mem_spellings_kebab_iff {key : String} :
    key ∈ spellings (kebab key) ↔
      IsUpperCamel key.toList ∨ ∀ c ∈ key.toList, c.isUpper = false := by
  simp only [spellings, kebab_kebab, List.mem_cons, List.not_mem_nil, or_false,
    eq_comm (a := key), kebab_eq_self_iff, upperCamel_kebab_eq_self_iff]
  tauto

theorem isKebab_of_not_mem {key : List Char} (hhyphen : '-' ∉ key)
    (hcapital : ∀ c ∈ key, c.isUpper = false) : IsKebab key := by
  refine ⟨hcapital, ?_⟩
  rintro front back rfl
  exact absurd (List.mem_append_right front List.mem_cons_self) hhyphen

/-- A key and a spelling of it that leads back to it have the same spellings. -/
theorem spellings_subset {tag key : String} (htag : tag ∈ spellings key)
    (hkey : key ∈ spellings tag) : ∀ spelling ∈ spellings tag, spelling ∈ spellings key := by
  intro spelling hspelling
  simp only [spellings, List.mem_cons, List.not_mem_nil, or_false] at htag hkey hspelling ⊢
  rcases htag with rfl | rfl | rfl
  · rw [upperCamel_upperCamel] at hkey hspelling
    grind
  · rw [kebab_kebab] at hkey hspelling
    grind
  · exact hspelling

end Tag

namespace Registry

variable {r : Registry} {tag key path : String}

theorem mem_spellings_of_find? (h : r.find? tag = some (key, path)) : key ∈ Tag.spellings tag := by
  obtain ⟨k, hk, hfound⟩ := List.exists_of_findSome?_eq_some h
  obtain ⟨_, _, heq⟩ := Option.map_eq_some_iff.mp hfound
  cases heq
  exact hk

/-- The only key among the spellings of a tag is found, in whichever place it stands. -/
theorem find?_of_only (hpath : r.get? key = some path) (hkey : key ∈ Tag.spellings tag)
    (honly : ∀ spelling ∈ Tag.spellings tag, spelling ≠ key → r.get? spelling = none) :
    r.find? tag = some (key, path) := by
  obtain ⟨front, back, hsplit, hfirst⟩ := List.eq_append_cons_of_mem hkey
  rw [find?, List.findSome?_eq_some_iff]
  refine ⟨front, key, back, hsplit, by rw [hpath]; rfl, fun spelling hspelling => ?_⟩
  have hmem : spelling ∈ Tag.spellings tag := hsplit ▸ List.mem_append_left _ hspelling
  have hne : spelling ≠ key := fun heq => hfirst (heq ▸ hspelling)
  rw [honly spelling hmem hne]
  rfl

/-- A spelling of a key finds it if the key is a spelling of that spelling. -/
theorem find?_iff_mem_spellings (hpath : r.get? key = some path)
    (honly : ∀ spelling ∈ Tag.spellings key, spelling ≠ key → r.get? spelling = none)
    (htag : tag ∈ Tag.spellings key) :
    r.find? tag = some (key, path) ↔ key ∈ Tag.spellings tag := by
  refine ⟨mem_spellings_of_find?, fun hkey => find?_of_only hpath hkey fun spelling hspelling => ?_⟩
  exact honly spelling (Tag.spellings_subset htag hkey spelling hspelling)

/-- **Which spellings find a key.** A key that is the only one among its spellings is found as it is
written. Its upper camel case finds it exactly if the key is in kebab case, or has no hyphen and no
lower case letter in front; its kebab case exactly if the key is in upper camel case or has no
capital. So all three find it exactly if it is in kebab case or in upper camel case. -/
theorem find?_spellings_iff (hpath : r.get? key = some path)
    (honly : ∀ spelling ∈ Tag.spellings key, spelling ≠ key → r.get? spelling = none) :
    r.find? key = some (key, path) ∧
      (r.find? (Tag.upperCamel key) = some (key, path) ↔
        Tag.IsKebab key.toList ∨
          '-' ∉ key.toList ∧ key.toList.head?.any Char.isLower = false) ∧
      (r.find? (Tag.kebab key) = some (key, path) ↔
        Tag.IsUpperCamel key.toList ∨ ∀ c ∈ key.toList, c.isUpper = false) ∧
      ((∀ tag ∈ Tag.spellings key, r.find? tag = some (key, path)) ↔
        Tag.IsKebab key.toList ∨ Tag.IsUpperCamel key.toList) := by
  have hself : key ∈ Tag.spellings key := by simp [Tag.spellings]
  have hwritten : r.find? key = some (key, path) := find?_of_only hpath hself honly
  have hleads : ∀ tag ∈ Tag.spellings key,
      (r.find? tag = some (key, path) ↔ key ∈ Tag.spellings tag) :=
    fun tag htag => find?_iff_mem_spellings hpath honly htag
  have hcamel := (hleads (Tag.upperCamel key) (by simp [Tag.spellings])).trans
    Tag.mem_spellings_upperCamel_iff
  have hkebab := (hleads (Tag.kebab key) (by simp [Tag.spellings])).trans
    Tag.mem_spellings_kebab_iff
  refine ⟨hwritten, hcamel, hkebab, ?_⟩
  have hall : (∀ tag ∈ Tag.spellings key, r.find? tag = some (key, path)) ↔
      r.find? (Tag.upperCamel key) = some (key, path) ∧
        r.find? (Tag.kebab key) = some (key, path) := by
    simp [Tag.spellings, hwritten]
  rw [hall, hcamel, hkebab]
  constructor
  · rintro ⟨hkey | ⟨hhyphen, -⟩, hcapitals⟩
    · exact .inl hkey
    · rcases hcapitals with hkey | hcapitals
      · exact .inr hkey
      · exact .inl (Tag.isKebab_of_not_mem hhyphen hcapitals)
  · rintro (hkey | hkey)
    · exact ⟨.inl hkey, .inr hkey.noCapital⟩
    · exact ⟨.inr ⟨hkey.noHyphen, hkey.initial⟩, .inl hkey⟩

theorem find?_spellings_iff_addCard :
    let r := Registry.ofList [("AddCard", "AddCard.vue"), ("card", "Card.vue")]
    r.get? "AddCard" = some "AddCard.vue" ∧
      (∀ spelling ∈ Tag.spellings "AddCard", spelling ≠ "AddCard" → r.get? spelling = none) ∧
      ∀ tag ∈ Tag.spellings "AddCard", r.find? tag = some ("AddCard", "AddCard.vue") := by
  intro r
  have hpath : r.get? "AddCard" = some "AddCard.vue" := by decide +kernel
  have honly : ∀ spelling ∈ Tag.spellings "AddCard", spelling ≠ "AddCard" →
      r.get? spelling = none := by
    decide +kernel
  have hkey : Tag.IsUpperCamel "AddCard".toList := by decide +kernel
  exact ⟨hpath, honly, (find?_spellings_iff hpath honly).2.2.2.mpr (.inr hkey)⟩

/-- A key that begins with a small letter and has a capital further on is not found under its upper
camel case, nor under its kebab case. -/
theorem find?_spellings_userCard :
    let r := Registry.ofList [("userCard", "userCard.vue")]
    Tag.spellings "userCard" = ["UserCard", "user-card", "userCard"] ∧
      r.get? "userCard" = some "userCard.vue" ∧
      (∀ spelling ∈ Tag.spellings "userCard", spelling ≠ "userCard" → r.get? spelling = none) ∧
      r.find? "userCard" = some ("userCard", "userCard.vue") ∧
      r.find? "UserCard" = none ∧ r.find? "user-card" = none := by
  decide +kernel

end Registry

end ComponentGraph
