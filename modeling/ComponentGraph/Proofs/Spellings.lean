import ComponentGraph.Registry
import Mathlib
/-!
# Spellings of one component

A tag in kebab case and its upper camel case are looked for alike: each is a spelling of the other,
so that both find the entry under the upper camel case, or else the one under the kebab case. What
makes a tag kebab case is where its hyphens stand. Only the letters `A` to `Z` have a case.
-/

namespace ComponentGraph

/-- A letter in the other case is a letter, so that nothing else comes from it. -/
theorem Tag.toUpper_eq_iff {c d : Char} (h : d.isAlpha = false) : c.toUpper = d ↔ c = d := by
  by_cases hlower : c.isLower = true
  · have halpha : c.isAlpha = true := (Bool.or_eq_true _ _).mpr (.inr hlower)
    have hupper : c.toUpper ≠ d := by
      rintro rfl
      rw [Char.isAlpha_toUpper_eq_isAlpha, halpha] at h
      cases h
    have hsame : c ≠ d := by
      rintro rfl
      rw [halpha] at h
      cases h
    exact ⟨fun heq => absurd heq hupper, fun heq => absurd heq hsame⟩
  · rw [Char.toUpper_eq_of_not_isLower hlower]

theorem Tag.toLower_eq_iff {c d : Char} (h : d.isAlpha = false) : c.toLower = d ↔ c = d := by
  by_cases hupper : c.isUpper = true
  · have halpha : c.isAlpha = true := (Bool.or_eq_true _ _).mpr (.inl hupper)
    have hlower : c.toLower ≠ d := by
      rintro rfl
      rw [Char.isAlpha_toLower_eq_isAlpha, halpha] at h
      cases h
    have hsame : c ≠ d := by
      rintro rfl
      rw [halpha] at h
      cases h
    exact ⟨fun heq => absurd heq hlower, fun heq => absurd heq hsame⟩
  · rw [Char.toLower_eq_of_not_isUpper hupper]

namespace Tag

/-! ## Upper camel case, character by character -/

/-- Upper camel case of the rest of a tag. `start` says whether a segment begins here. -/
def camelFrom (start : Bool) : List Char → List Char
  | [] => []
  | c :: cs =>
    if c = '-' then camelFrom true cs
    else (if start then c.toUpper else c) :: camelFrom false cs

theorem camelFrom_eq (cs : List Char) :
    camelFrom true cs = (Text.splitOn '-' cs).flatMap capitalize ∧
      ∀ first others, Text.splitOn '-' cs = first :: others →
        camelFrom false cs = first ++ others.flatMap capitalize := by
  induction cs with
  | nil =>
    refine ⟨rfl, fun first others hsplit => ?_⟩
    cases hsplit
    rfl
  | cons c cs ih =>
    obtain ⟨ihStart, ihInside⟩ := ih
    by_cases hc : c = '-'
    · subst hc
      rw [Text.splitOn, if_pos rfl]
      refine ⟨?_, fun first others hsplit => ?_⟩
      · rw [camelFrom, if_pos rfl, ihStart]
        rfl
      · cases hsplit
        rw [camelFrom, if_pos rfl, ihStart]
        rfl
    · rw [Text.splitOn, if_neg hc]
      cases hsplit : Text.splitOn '-' cs with
      | nil => exact absurd hsplit (Text.splitOn_ne_nil '-' cs)
      | cons piece pieces =>
        have hrest := ihInside piece pieces hsplit
        refine ⟨?_, fun first others heq => ?_⟩
        · rw [camelFrom, if_neg hc, if_pos rfl, hrest]
          rfl
        · cases heq
          rw [camelFrom, if_neg hc, if_neg Bool.false_ne_true, hrest]
          rfl

theorem toList_upperCamel (s : String) : (upperCamel s).toList = camelFrom true s.toList := by
  rw [upperCamel, String.toList_ofList, (camelFrom_eq s.toList).1]

theorem hyphen_not_mem_camelFrom (start : Bool) (cs : List Char) : '-' ∉ camelFrom start cs := by
  induction cs generalizing start with
  | nil => exact List.not_mem_nil
  | cons c cs ih =>
    rw [camelFrom]
    split
    · exact ih true
    · rename_i hc
      have hfirst : '-' ≠ if start then c.toUpper else c := by
        split
        · exact fun heq => hc ((toUpper_eq_iff (by decide)).mp heq.symm)
        · exact fun heq => hc heq.symm
      exact List.not_mem_cons_of_ne_of_not_mem hfirst (ih false)

/-- Without a hyphen there is one segment. -/
theorem camelFrom_of_not_mem {cs : List Char} (h : '-' ∉ cs) :
    camelFrom false cs = cs ∧ camelFrom true cs = capitalize cs := by
  induction cs with
  | nil => exact ⟨rfl, rfl⟩
  | cons c cs ih =>
    rw [List.mem_cons, not_or] at h
    have hc : c ≠ '-' := fun heq => h.1 heq.symm
    rw [camelFrom, if_neg hc, camelFrom, if_neg hc, (ih h.2).1]
    exact ⟨rfl, rfl⟩

theorem capitalize_camelFrom (cs : List Char) :
    capitalize (camelFrom true cs) = camelFrom true cs := by
  induction cs with
  | nil => rfl
  | cons c cs ih =>
    rw [camelFrom]
    split
    · exact ih
    · rw [if_pos rfl, capitalize, Char.toUpper_toUpper_eq_toUpper]

theorem upperCamel_upperCamel (s : String) : upperCamel (upperCamel s) = upperCamel s := by
  rw [← String.toList_inj, toList_upperCamel, toList_upperCamel,
    (camelFrom_of_not_mem (hyphen_not_mem_camelFrom true _)).2, capitalize_camelFrom]

/-! ## Kebab case -/

/-- There is no capital, and each hyphen stands between a word character and a lower case letter. -/
structure IsKebab (tag : List Char) : Prop where
  noCapital : ∀ c ∈ tag, c.isUpper = false
  hyphens : ∀ front back, tag = front ++ '-' :: back →
    front.getLast?.any isWordChar = true ∧ back.head?.any Char.isLower = true

theorem isKebab_iff {tag : List Char} :
    IsKebab tag ↔ tag.all (fun c => !c.isUpper) ∧ ∀ i < tag.length, tag[i]? = some '-' →
      (tag.take i).getLast?.any isWordChar = true ∧
        (tag.drop (i + 1)).head?.any Char.isLower = true := by
  simp only [List.all_eq_true, Bool.not_eq_true']
  constructor
  · rintro ⟨hcapital, hhyphens⟩
    refine ⟨hcapital, fun i hi hhyphen => hhyphens _ _ ?_⟩
    rw [List.getElem?_eq_getElem hi, Option.some.injEq] at hhyphen
    rw [← hhyphen, List.getElem_cons_drop, List.take_append_drop]
  · rintro ⟨hcapital, hplaces⟩
    refine ⟨hcapital, ?_⟩
    rintro front back rfl
    simpa using hplaces front.length (by simp) (by simp)

instance (tag : List Char) : Decidable (IsKebab tag) := decidable_of_iff _ isKebab_iff.symm

theorem kebabAfter_of_noCapital {cs : List Char} (h : ∀ c ∈ cs, c.isUpper = false)
    (before : Option Char) : kebabAfter before cs = cs := by
  induction cs generalizing before with
  | nil => rfl
  | cons c cs ih =>
    rw [kebabAfter, h c List.mem_cons_self, if_neg Bool.false_ne_true,
      ih fun d hd => h d (List.mem_cons_of_mem c hd)]

theorem isWordChar_toUpper (c : Char) : isWordChar c.toUpper = isWordChar c := by
  by_cases hlower : c.isLower = true
  · have hc : c.isAlpha = true := (Bool.or_eq_true _ _).mpr (.inr hlower)
    rw [isWordChar, isWordChar, Char.isAlphanum, Char.isAlphanum, Char.isAlpha_toUpper_eq_isAlpha,
      hc]
    rfl
  · rw [Char.toUpper_eq_of_not_isLower hlower]

/-- A letter that upper camel case made a capital becomes itself again, with a hyphen before it if
it follows a word character. -/
theorem kebabAfter_toUpper {c : Char} (hc : c.isLower = true) (before : Option Char)
    (cs : List Char) :
    kebabAfter before (c.toUpper :: cs) =
      (if before.any isWordChar then ['-', c] else [c]) ++ kebabAfter (some c.toUpper) cs := by
  have hupper : c.toUpper.isUpper = true := by
    rw [Char.isUpper_toUpper_eq_isAlpha]
    exact (Bool.or_eq_true _ _).mpr (.inr hc)
  have hlower : c.toUpper.toLower = c := by
    rw [Char.toLower_toUpper_eq_toLower,
      Char.toLower_eq_of_not_isUpper (Char.not_isUpper_of_isLower hc)]
  rw [kebabAfter, if_pos hupper, hlower]
  split <;> rfl

/-- Behind `front`, kebab case gives back what upper camel case took: the letters as they were
inside a segment, and the hyphen too where a segment begins. -/
theorem kebabAfter_camelFrom {front cs : List Char} (h : IsKebab (front ++ cs))
    (before : Option Char) :
    (before.any isWordChar = front.getLast?.any isWordChar →
      kebabAfter before (camelFrom false cs) = cs) ∧
    (before.any isWordChar = true → cs.head?.any Char.isLower = true →
      kebabAfter before (camelFrom true cs) = '-' :: cs) := by
  induction cs generalizing front before with
  | nil => exact ⟨fun _ => rfl, fun _ h => nomatch h⟩
  | cons c cs ih =>
    rw [List.append_cons] at h
    have hinside : ∀ d, isWordChar d = isWordChar c →
        kebabAfter (some d) (camelFrom false cs) = cs := by
      intro d hd
      apply (ih h (some d)).1
      rw [List.getLast?_concat, Option.any_some, hd, Option.any_some]
    constructor
    · intro hbefore
      by_cases hc : c = '-'
      · subst hc
        obtain ⟨hword, hlower⟩ := h.hyphens front cs (List.append_cons _ _ _).symm
        rw [camelFrom, if_pos rfl]
        exact (ih h before).2 (hbefore.trans hword) hlower
      · have hcapital : c.isUpper = false := h.noCapital c (by simp)
        rw [camelFrom, if_neg hc, if_neg Bool.false_ne_true, kebabAfter, hcapital,
          if_neg Bool.false_ne_true, hinside c rfl]
    · intro hword hlower
      have hc : c.isLower = true := hlower
      have hhyphen : c ≠ '-' := by
        rintro rfl
        cases hc
      rw [camelFrom, if_neg hhyphen, if_pos rfl, kebabAfter_toUpper hc, if_pos hword,
        hinside _ (isWordChar_toUpper c)]
      rfl

theorem kebab_of_isKebab {s : String} (h : IsKebab s.toList) : kebab s = s := by
  rw [kebab, kebabAfter_of_noCapital h.noCapital none, String.ofList_toList]

theorem kebab_upperCamel {s : String} (h : IsKebab s.toList) : kebab (upperCamel s) = s := by
  have hkebab : kebabAfter none (camelFrom true s.toList) = s.toList := by
    cases hs : s.toList with
    | nil => rfl
    | cons c cs =>
      rw [hs] at h
      have hhyphen : c ≠ '-' := by
        rintro rfl
        exact absurd (h.hyphens [] cs rfl).1 (by decide)
      have hfront : IsKebab ([c] ++ cs) := h
      have hinside : kebabAfter (some c.toUpper) (camelFrom false cs) = cs :=
        (kebabAfter_camelFrom hfront (some c.toUpper)).1 (isWordChar_toUpper c)
      rw [camelFrom, if_neg hhyphen, if_pos rfl]
      by_cases hlower : c.isLower = true
      · rw [kebabAfter_toUpper hlower, hinside]
        rfl
      · have hcapital := h.noCapital c List.mem_cons_self
        rw [Char.toUpper_eq_of_not_isLower hlower] at hinside ⊢
        rw [kebabAfter, hcapital, if_neg Bool.false_ne_true, hinside]
  rw [kebab, toList_upperCamel, hkebab, String.ofList_toList]

end Tag

/-- **Both spellings find the same entry.** A tag in kebab case and its upper camel case are found
under the same key, with the same path, or neither of them is found. -/
theorem Registry.find?_upperCamel (r : Registry) {tag : String} (h : Tag.IsKebab tag.toList) :
    r.find? tag = r.find? (Tag.upperCamel tag) := by
  -- The third candidate of each is one of its first two.
  rw [find?, find?, Tag.spellings, Tag.spellings, Tag.upperCamel_upperCamel,
    Tag.kebab_upperCamel h, Tag.kebab_of_isKebab h]
  cases hcamel : r.get? (Tag.upperCamel tag) with
  | some path => simp [hcamel]
  | none => cases hkebab : r.get? tag <;> simp [hcamel, hkebab]

theorem Registry.find?_upperCamel_userCard :
    Tag.IsKebab "user-card".toList ∧
      (Registry.ofList [("user-card", "B.vue"), ("UserCard", "A.vue")]).find? "user-card" =
        (Registry.ofList [("user-card", "B.vue"), ("UserCard", "A.vue")]).find?
          (Tag.upperCamel "user-card") := by
  have h : Tag.IsKebab "user-card".toList := by decide +kernel
  exact ⟨h, find?_upperCamel _ h⟩

end ComponentGraph
