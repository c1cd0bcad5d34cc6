import ComponentGraph.Proofs.NormalizedPaths
/-!
# Where a normalized path leads

A written path names its components: the pieces between its slashes but the empty ones and `.`.
Normalizing keeps them all, so that following a normalized path from a base climbs from the base
along the components of what was written. There is one exception. When a second slash stands behind
a leading `./`, taking the `./` off brings that slash to the front, and the path is followed from
the root instead of the base.
-/

namespace ComponentGraph

namespace Text

theorem dropEndWhile_append {p : Char → Bool} (cs ds : List Char) :
    dropEndWhile p (cs ++ ds) =
      if dropEndWhile p ds = [] then dropEndWhile p cs else cs ++ dropEndWhile p ds := by
  simp only [dropEndWhile, List.reverse_append, List.dropWhile_append, List.isEmpty_iff,
    List.reverse_eq_nil_iff]
  split
  · rfl
  · simp

theorem dropEndWhile_replicate (c : Char) (n : Nat) :
    dropEndWhile (· = c) (List.replicate n c) = [] := by
  simp [dropEndWhile]

theorem eq_dropEndWhile_append (c : Char) (cs : List Char) :
    ∃ n, cs = dropEndWhile (· = c) cs ++ List.replicate n c := by
  refine ⟨(cs.reverse.takeWhile (· = c)).length, ?_⟩
  have htaken : cs.reverse.takeWhile (· = c) =
      List.replicate (cs.reverse.takeWhile (· = c)).length c :=
    List.eq_replicate_of_mem fun d hd =>
      of_decide_eq_true (List.all_eq_true.mp List.all_takeWhile d hd)
  rw [← List.reverse_inj, List.reverse_append, List.reverse_replicate, ← htaken, dropEndWhile,
    List.reverse_reverse, List.takeWhile_append_dropWhile]

end Text

namespace Path

/-- The pieces of a written path, but the empty ones and `.`. -/
def components (written : String) : List String :=
  ((Text.splitOn '/' written.toList).map String.ofList).filter fun piece =>
    piece ≠ "" && piece ≠ "."

/-- One component further: `..` goes back one name, any other leads on. -/
def climb (names : List String) (component : String) : List String :=
  if component = ".." then names.dropLast else names ++ [component]

/-- The leading `./`, `n` times. -/
def leadingHere (n : Nat) : List Char := (List.replicate n ['.', '/']).flatten

/-- A path that is followed from the root: a slash stands behind its leading `./`, if it has any, in
front of something that is no slash. -/
def Restarts (written : String) : Prop :=
  ∃ n rest, written.toList = leadingHere n ++ '/' :: rest ∧ ∃ c ∈ rest, c ≠ '/'

/-! ## Components -/

variable {base : Path} {written : String}

theorem names_step {piece : List Char} (h : '/' ∉ piece) (p : Path) :
    (p.step piece).names =
      ([String.ofList piece].filter fun name => name ≠ "" && name ≠ ".").foldl climb p.names := by
  have hslash : '/' ∉ (String.ofList piece).toList := by rwa [String.toList_ofList]
  rw [step]
  generalize String.ofList piece = name at hslash
  by_cases hempty : name = ""
  · subst hempty
    rfl
  by_cases hhere : name = "."
  · subst hhere
    rfl
  have hkept : [name].filter (fun name => name ≠ "" && name ≠ ".") = [name] := by
    simp [hempty, hhere]
  rw [hkept, List.foldl_cons, List.foldl_nil, climb]
  by_cases habove : name = ".."
  · subst habove
    rfl
  · simp only [dif_pos (show IsPlainName name from ⟨hempty, hhere, habove, hslash⟩), if_neg habove]
    rfl

theorem names_foldl_step {pieces : List (List Char)} (h : ∀ piece ∈ pieces, '/' ∉ piece)
    (p : Path) :
    (pieces.foldl step p).names =
      ((pieces.map String.ofList).filter fun name => name ≠ "" && name ≠ ".").foldl climb
        p.names := by
  induction pieces generalizing p with
  | nil => rfl
  | cons piece pieces ih =>
    obtain ⟨hpiece, hpieces⟩ := List.forall_mem_cons.mp h
    rw [List.foldl_cons, ih hpieces, names_step hpiece, ← List.foldl_append, ← List.filter_append]
    rfl

/-- Following all pieces of a path is climbing along its components. -/
theorem names_foldl_splitOn (base : Path) (written : String) :
    ((Text.splitOn '/' written.toList).foldl step base).names =
      (components written).foldl climb base.names :=
  names_foldl_step (fun _ hpiece => Text.not_mem_of_mem_splitOn hpiece) base

/-! ## What normalizing takes off -/

theorem leadingHere_succ (n : Nat) : leadingHere (n + 1) = '.' :: '/' :: leadingHere n := by
  rw [leadingHere, List.replicate_succ, List.flatten_cons]
  rfl

theorem dropHere_leadingHere_append (n : Nat) (cs : List Char) :
    dropHere (leadingHere n ++ cs) = dropHere cs := by
  induction n with
  | zero => rfl
  | succ n ih =>
    rw [leadingHere_succ]
    exact ih

theorem exists_leadingHere (cs : List Char) : ∃ n, cs = leadingHere n ++ dropHere cs := by
  fun_induction dropHere cs with
  | case1 rest ih =>
    obtain ⟨n, hn⟩ := ih
    refine ⟨n + 1, ?_⟩
    rw [leadingHere_succ, List.cons_append, List.cons_append, ← hn]
  | case2 cs => exact ⟨0, rfl⟩

theorem toList_normalize (written : String) :
    let rest := dropHere (Text.dropEndWhile (· = '/') written.toList)
    (normalize written).toList = if rest = ['.'] then [] else rest := by
  intro rest
  rw [normalize]
  split
  · rfl
  · rw [String.toList_ofList]

theorem foldl_step_append_slashes (base : Path) (cs : List Char) (n : Nat) :
    (Text.splitOn '/' (cs ++ List.replicate n '/')).foldl step base =
      (Text.splitOn '/' cs).foldl step base := by
  induction n with
  | zero => rw [List.replicate_zero, List.append_nil]
  | succ n ih =>
    rw [List.replicate_succ', ← List.append_assoc, Text.splitOn_append_cons, List.foldl_append, ih]
    rfl

/-- A normalized path is followed through the pieces of what was written. -/
theorem foldl_step_normalize (base : Path) (written : String) :
    (Text.splitOn '/' (normalize written).toList).foldl step base =
      (Text.splitOn '/' written.toList).foldl step base := by
  obtain ⟨n, hn⟩ := Text.eq_dropEndWhile_append '/' written.toList
  have hrest : (Text.splitOn '/' (dropHere (Text.dropEndWhile (· = '/') written.toList))).foldl
      step base = (Text.splitOn '/' written.toList).foldl step base := by
    rw [foldl_step_dropHere, ← foldl_step_append_slashes base _ n, ← hn]
  rw [toList_normalize, ← hrest]
  split
  · rename_i hdot
    rw [hdot]
    rfl
  · rfl

/-! ## Paths that are followed from the root -/

/-- Only a second slash behind a leading `./` comes to the front. -/
theorem head?_normalize_iff :
    (normalize written).toList.head? = some '/' ↔ Restarts written := by
  obtain ⟨m, hm⟩ := Text.eq_dropEndWhile_append '/' written.toList
  have hlast := @Text.getLast?_dropEndWhile (· = '/') written.toList
  rw [toList_normalize]
  constructor
  · intro hhead
    have hslash : (dropHere (Text.dropEndWhile (· = '/') written.toList)).head? = some '/' := by
      split at hhead
      · cases hhead
      · exact hhead
    obtain ⟨rest, hrest⟩ := List.head?_eq_some_iff.mp hslash
    obtain ⟨n, hn⟩ := exists_leadingHere (Text.dropEndWhile (· = '/') written.toList)
    rw [hrest] at hn
    rw [hn] at hm hlast
    -- What is left does not end with a slash, so that something stands behind the one in front.
    cases hend : rest.getLast? with
    | none =>
      rw [List.getLast?_eq_none_iff] at hend
      have hfalse := hlast '/' (by simp [hend])
      simp at hfalse
    | some c =>
      refine ⟨n, rest ++ List.replicate m '/', by rw [hm, List.append_assoc, List.cons_append], c,
        List.mem_append_left _ (List.mem_of_getLast? hend), of_decide_eq_false (hlast c ?_)⟩
      rw [List.getLast?_append, List.getLast?_cons, hend]
      rfl
  · rintro ⟨n, rest, hwritten, c, hc, hslash⟩
    have hrest : Text.dropEndWhile (· = '/') rest ≠ [] := by
      intro hnil
      obtain ⟨k, hk⟩ := Text.eq_dropEndWhile_append '/' rest
      rw [hnil, List.nil_append] at hk
      exact hslash (List.eq_of_mem_replicate (hk ▸ hc))
    have htrimmed : Text.dropEndWhile (· = '/') ('/' :: rest) =
        '/' :: Text.dropEndWhile (· = '/') rest := by
      rw [← List.singleton_append, Text.dropEndWhile_append, if_neg hrest]
      rfl
    rw [hwritten, Text.dropEndWhile_append, htrimmed, if_neg (List.cons_ne_nil _ _),
      dropHere_leadingHere_append]
    rfl

instance (written : String) : Decidable (Restarts written) :=
  decidable_of_iff _ head?_normalize_iff

/-! ## Following what was written -/

theorem leadingHere_succ' (n : Nat) : leadingHere (n + 1) = leadingHere n ++ ['.', '/'] := by
  rw [leadingHere, List.replicate_succ', List.flatten_append]
  rfl

/-- In front of slashes alone the last `./` loses its slash, and what is left of it is dropped. -/
theorem dropHere_dropEndWhile_leadingHere (n : Nat) :
    let rest := dropHere (Text.dropEndWhile (· = '/') (leadingHere n))
    rest = [] ∨ rest = ['.'] := by
  cases n with
  | zero => exact .inl rfl
  | succ n =>
    right
    have hdot : Text.dropEndWhile (· = '/') ['.', '/'] = ['.'] := by decide
    rw [leadingHere_succ', Text.dropEndWhile_append, hdot, if_neg (List.cons_ne_nil _ _),
      dropHere_leadingHere_append]
    rfl

/-- Leading `./` and trailing slashes are not there when a path is normalized. -/
theorem normalize_between (written : String) (n m : Nat) :
    normalize (String.ofList (leadingHere n ++ written.toList ++ List.replicate m '/')) =
      normalize written := by
  rw [← String.toList_inj, toList_normalize, toList_normalize, String.toList_ofList,
    Text.dropEndWhile_append _ (List.replicate m '/'), Text.dropEndWhile_replicate, if_pos rfl,
    Text.dropEndWhile_append]
  by_cases hslashes : Text.dropEndWhile (· = '/') written.toList = []
  · rw [if_pos hslashes, hslashes]
    rcases dropHere_dropEndWhile_leadingHere n with h | h
    · rw [h]
      rfl
    · rw [h]
      rfl
  · rw [if_neg hslashes, dropHere_leadingHere_append]

/-- **Where a normalized path leads.** Following a normalized path from a base always leads
somewhere: from the base along the components of what was written, unless a second slash stands
behind a leading `./`, or one slash in front of all; then it leads there from the root. Leading `./`
and trailing slashes that are added to a path change nothing. -/
theorem join?_normalize_climbs (base : Path) (written : String) :
    (∃ p, base.join? (normalize written) = some p ∧
      p.names =
        (components written).foldl climb (if Restarts written then [] else base.names)) ∧
    ∀ n m, base.join? (normalize
        (String.ofList (leadingHere n ++ written.toList ++ List.replicate m '/'))) =
      base.join? (normalize written) := by
  refine ⟨⟨_, join?_eq base (getLast?_normalize written), ?_⟩, fun n m => ?_⟩
  · simp only [head?_normalize_iff]
    rw [foldl_step_normalize, names_foldl_splitOn]
    split <;> rfl
  · rw [normalize_between]

/-- A second slash behind the leading `./`: the path does not begin with a slash, and yet it is
followed from the root, not from the base. -/
theorem join?_normalize_second_slash :
    let base : Path := ⟨["proj"], by decide⟩
    let written := ".//pages/index.vue"
    written.toList.head? ≠ some '/' ∧
      ¬ ∃ p, base.join? (normalize written) = some p ∧
        p.names = (components written).foldl climb base.names := by
  decide

end Path

end ComponentGraph
