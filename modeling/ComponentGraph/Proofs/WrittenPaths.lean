import ComponentGraph.Path
import ComponentGraph.Path.FileName
/-!
# Paths as they are written

A path below a base is written as its names with slashes between them. Following it from the base
leads to the entry, normalizing leaves it as it is, and it is what an entry below the base is shown
as. An entry that is not below the base may be shown as a path that begins with `./`: taking the
base off as text leaves that behind when the entry lies beside the base, under the name of the base
and a dot more.
-/

namespace ComponentGraph

/-! ## The text of a path -/

theorem Path.toList_text (p : Path) :
    p.text.toList = p.names.flatMap fun name => '/' :: name.toList := by
  rw [text, String.toList_join, List.flatMap_map]
  simp

/-- A path as it is written does not end with a slash. -/
theorem Path.getLast?_text (p : Path) : ∀ c ∈ p.text.toList.getLast?, c ≠ '/' := by
  rw [toList_text]
  rcases List.eq_nil_or_concat p.names with hnil | ⟨names, name, hnames⟩
  · simp [hnil]
  · obtain ⟨hname, -, -, hslash⟩ := p.plain name (by simp [hnames])
    have hlast : ∀ cs : List Char, (cs ++ name.toList).getLast? = name.toList.getLast? := by
      intro cs
      obtain ⟨last, hsome⟩ := Option.ne_none_iff_exists'.mp
        (mt List.getLast?_eq_none_iff.mp (mt String.toList_eq_nil_iff.mp hname))
      rw [List.getLast?_append, hsome]
      rfl
    intro c hc
    rw [hnames, List.concat_eq_append, List.flatMap_append, List.flatMap_singleton,
      List.append_cons, hlast] at hc
    rintro rfl
    exact hslash (List.mem_of_getLast? hc)

theorem Path.relativeTo_suffix (base p : Path) :
    (base.relativeTo p).toList <:+ p.text.toList := by
  rw [relativeTo, String.toList_ofList]
  refine (List.dropWhile_suffix _).trans ?_
  split
  · exact List.drop_suffix _ _
  · exact List.suffix_rfl

theorem dropHere_eq_self {cs : List Char} (h : ¬ ['.', '/'] <+: cs) : dropHere cs = cs := by
  unfold dropHere
  split
  · rename_i rest
    exact absurd ⟨rest, rfl⟩ h
  · rfl

theorem Text.dropEndWhile_eq_self {p : Char → Bool} {cs : List Char}
    (h : ∀ c ∈ cs.getLast?, p c = false) : dropEndWhile p cs = cs := by
  rw [dropEndWhile]
  cases hreverse : cs.reverse with
  | nil =>
    rw [List.reverse_eq_nil_iff] at hreverse
    rw [hreverse]
    rfl
  | cons c rest =>
    have hc : p c = false := by
      apply h
      rw [← List.head?_reverse, hreverse]
      rfl
    rw [List.dropWhile_cons_of_neg (ne_true_of_eq_false hc), ← hreverse, List.reverse_reverse]

/-- A path that does not end with a slash nor begins with `./` is normalized, unless it is `.`. -/
theorem normalize_eq_self {written : String} (hend : ∀ c ∈ written.toList.getLast?, c ≠ '/')
    (hhere : ¬ ['.', '/'] <+: written.toList) (hdot : written ≠ ".") :
    normalize written = written := by
  have hend' : ∀ c ∈ written.toList.getLast?, decide (c = '/') = false :=
    fun c hc => decide_eq_false (hend c hc)
  have hdot' : written.toList ≠ ['.'] := fun h => hdot (String.toList_inj.mp h)
  rw [normalize, Text.dropEndWhile_eq_self hend', dropHere_eq_self hhere]
  simp only [if_neg hdot', String.ofList_toList]

theorem Path.getLast?_relativeTo (base p : Path) :
    ∀ c ∈ (base.relativeTo p).toList.getLast?, c ≠ '/' := by
  intro c hc
  obtain ⟨front, htext⟩ := base.relativeTo_suffix p
  apply p.getLast?_text
  rw [← htext, List.getLast?_append, hc]
  rfl

theorem normalize_relativeTo {base p : Path}
    (hcomponent : FileName.isComponent (base.relativeTo p) = true)
    (hhere : ¬ ['.', '/'] <+: (base.relativeTo p).toList) :
    normalize (base.relativeTo p) = base.relativeTo p := by
  refine normalize_eq_self (base.getLast?_relativeTo p) hhere fun hdot => ?_
  rw [hdot] at hcomponent
  exact absurd hcomponent (by decide +kernel)

/-! ## Pieces between slashes -/

namespace Text

theorem splitOn_append_cons (sep : Char) (cs rest : List Char) :
    splitOn sep (cs ++ sep :: rest) = splitOn sep cs ++ splitOn sep rest := by
  induction cs with
  | nil => simp [splitOn]
  | cons c cs ih =>
    rw [List.cons_append, splitOn, splitOn, ih]
    split
    · rfl
    · cases hcs : splitOn sep cs with
      | nil => exact absurd hcs (splitOn_ne_nil sep cs)
      | cons piece pieces => rfl

theorem splitOn_of_not_mem {sep : Char} {piece : List Char} (h : sep ∉ piece) :
    splitOn sep piece = [piece] := by
  induction piece with
  | nil => rfl
  | cons c cs ih =>
    rw [List.mem_cons, not_or] at h
    have hc : c ≠ sep := fun heq => h.1 heq.symm
    rw [splitOn, if_neg hc, ih h.2]

theorem splitOn_append_sep {sep : Char} {piece : List Char} (h : sep ∉ piece) (rest : List Char) :
    splitOn sep (piece ++ sep :: rest) = piece :: splitOn sep rest := by
  rw [splitOn_append_cons, splitOn_of_not_mem h]
  rfl

theorem splitOn_intercalate {sep : Char} {pieces : List (List Char)} (hne : pieces ≠ [])
    (h : ∀ piece ∈ pieces, sep ∉ piece) : splitOn sep ([sep].intercalate pieces) = pieces := by
  induction pieces with
  | nil => exact absurd rfl hne
  | cons piece pieces ih =>
    have hpiece := h piece List.mem_cons_self
    cases pieces with
    | nil =>
      rw [List.intercalate_singleton, splitOn_of_not_mem hpiece]
    | cons next pieces =>
      rw [List.intercalate_cons_cons, List.append_assoc, List.singleton_append,
        splitOn_append_sep hpiece, ih (by simp) fun p hp => h p (List.mem_cons_of_mem piece hp)]

end Text

namespace Path

/-- The path as it is written from a base on: its names with slashes between them. -/
def written (p : Path) : String := "/".intercalate p.names

/-- The first `n` names of a path. -/
def take (p : Path) (n : Nat) : Path :=
  ⟨p.names.take n, fun name h => p.plain name (List.mem_of_mem_take h)⟩

/-- The path without its first `n` names. -/
def drop (p : Path) (n : Nat) : Path :=
  ⟨p.names.drop n, fun name h => p.plain name (List.mem_of_mem_drop h)⟩

theorem slash_not_mem (p : Path) : ∀ piece ∈ p.names.map String.toList, '/' ∉ piece := by
  intro piece hpiece
  obtain ⟨name, hname, rfl⟩ := List.mem_map.mp hpiece
  exact (p.plain name hname).2.2.2

theorem splitOn_written {p : Path} (h : p ≠ root) :
    Text.splitOn '/' p.written.toList = p.names.map String.toList := by
  have hne : p.names.map String.toList ≠ [] := by
    rw [ne_eq, List.map_eq_nil_iff]
    exact fun hnil => h (Path.ext hnil)
  rw [written, String.toList_intercalate]
  exact Text.splitOn_intercalate hne p.slash_not_mem

@[simp] theorem written_root : root.written = "" := rfl

@[simp] theorem names_append (p q : Path) : (p.append q).names = p.names ++ q.names := rfl

@[simp] theorem names_take (p : Path) (n : Nat) : (p.take n).names = p.names.take n := rfl

@[simp] theorem names_drop (p : Path) (n : Nat) : (p.drop n).names = p.names.drop n := rfl

theorem names_ne_nil {p : Path} (h : p ≠ root) : p.names ≠ [] := fun hnil => h (Path.ext hnil)

/-- No name of a path is what stands between two slashes without leading on. -/
theorem not_mem_splitOn_written {p : Path} (h : p ≠ root) (piece : List Char)
    (hpiece : ¬ IsPlainName (String.ofList piece)) : piece ∉ Text.splitOn '/' p.written.toList := by
  rw [splitOn_written h]
  intro hmem
  obtain ⟨name, hname, rfl⟩ := List.mem_map.mp hmem
  rw [String.ofList_toList] at hpiece
  exact hpiece (p.plain name hname)

theorem written_eq_empty_iff {p : Path} : p.written = "" ↔ p = root := by
  refine ⟨fun h => ?_, fun h => h ▸ rfl⟩
  refine Decidable.byContradiction fun hroot => ?_
  refine not_mem_splitOn_written hroot [] (by decide) ?_
  rw [h]
  exact List.mem_singleton_self _

/-- A path is told by its names. -/
theorem written_injective {p q : Path} (h : p.written = q.written) : p = q := by
  by_cases hp : p = root
  · rw [hp, written_root] at h
    rw [hp, written_eq_empty_iff.mp h.symm]
  · have hq : q ≠ root := fun hq => hp (written_eq_empty_iff.mp (h.trans (hq ▸ written_root)))
    have hnames := splitOn_written hp
    rw [h, splitOn_written hq] at hnames
    exact Path.ext ((List.map_inj_right fun _ _ => String.toList_inj.mp).mp hnames.symm)

theorem toList_text_of_ne_root {p : Path} (h : p ≠ root) :
    p.text.toList = '/' :: p.written.toList := by
  rw [toList_text, written]
  have hne := names_ne_nil h
  generalize p.names = names at hne
  induction names with
  | nil => exact absurd rfl hne
  | cons name names ih =>
    by_cases hnil : names = []
    · simp [hnil]
    · rw [List.flatMap_cons, ih hnil, String.intercalate_cons_of_ne_nil hnil]
      simp

theorem getLast?_written (p : Path) : ∀ c ∈ p.written.toList.getLast?, c ≠ '/' := by
  by_cases h : p = root
  · simp [h]
  · intro c hc
    apply p.getLast?_text
    rw [toList_text_of_ne_root h, List.getLast?_cons, hc]
    rfl

theorem head?_written (p : Path) : p.written.toList.head? ≠ some '/' := by
  by_cases h : p = root
  · simp [h]
  · intro hhead
    obtain ⟨rest, hrest⟩ := List.head?_eq_some_iff.mp hhead
    refine not_mem_splitOn_written h [] (by decide) ?_
    rw [hrest, Text.splitOn, if_pos rfl]
    exact List.mem_cons_self

theorem not_here_isPrefix_written (p : Path) : ¬ ['.', '/'] <+: p.written.toList := by
  by_cases h : p = root
  · simp [h]
  · rintro ⟨rest, hrest⟩
    refine not_mem_splitOn_written h ['.'] (by decide) ?_
    have hsplit := Text.splitOn_append_sep (show '/' ∉ ['.'] by decide) rest
    rw [← hrest]
    exact hsplit ▸ List.mem_cons_self

/-- A path as it is written is normalized. -/
theorem normalize_written (p : Path) : normalize p.written = p.written := by
  refine normalize_eq_self p.getLast?_written p.not_here_isPrefix_written fun hdot => ?_
  have hroot : p ≠ root := by
    rintro rfl
    exact absurd hdot (by decide)
  refine not_mem_splitOn_written hroot ['.'] (by decide) ?_
  rw [hdot]
  exact List.mem_singleton_self _

/-! ## Paths below a base -/

theorem step_toList {p : Path} {name : String} (h : IsPlainName name) :
    p.step name.toList = p.child name h := by
  rw [step]
  simp only [String.ofList_toList, dif_pos h]

/-- The names of a path, followed from a base, lead to the entry below the base. -/
theorem foldl_step (base p : Path) :
    (p.names.map String.toList).foldl step base = base.append p := by
  obtain ⟨names, plain⟩ := p
  induction names generalizing base with
  | nil => exact Path.ext (List.append_nil base.names).symm
  | cons name names ih =>
    rw [List.map_cons, List.foldl_cons, step_toList (plain name List.mem_cons_self),
      ih _ fun n hn => plain n (List.mem_cons_of_mem name hn)]
    exact Path.ext (List.append_assoc base.names [name] names)

theorem append_root (base : Path) : base.append root = base :=
  Path.ext (List.append_nil base.names)

/-- Following a path as it is written from a base leads to the entry below the base. -/
theorem join?_written (base p : Path) : base.join? p.written = some (base.append p) := by
  by_cases h : p = root
  · rw [h, append_root]
    rfl
  · have hne : p.written.toList ≠ [] := by
      rw [ne_eq, String.toList_eq_nil_iff, written_eq_empty_iff]
      exact h
    have hend : p.written.toList.getLast? ≠ some '/' := fun hlast =>
      p.getLast?_written '/' hlast rfl
    rw [join?]
    split
    · rename_i hnil
      exact absurd hnil hne
    · rw [if_neg fun hslash => hend hslash.2]
      simp only [if_neg p.head?_written, splitOn_written h, foldl_step]

theorem toList_text_append (base p : Path) :
    (base.append p).text.toList = base.text.toList ++ p.text.toList := by
  simp only [toList_text, names_append, List.flatMap_append]

/-- An entry below the base is shown as its path from the base on. -/
theorem relativeTo_append (base p : Path) : base.relativeTo (base.append p) = p.written := by
  have hdrop : (base.append p).text.toList.drop base.text.length = p.text.toList := by
    rw [toList_text_append, ← String.length_toList, List.drop_left]
  have hprefix : base.text.toList.isPrefixOf (base.append p).text.toList = true := by
    rw [List.isPrefixOf_iff_prefix, toList_text_append]
    exact List.prefix_append _ _
  rw [relativeTo]
  simp only [if_pos hprefix, hdrop]
  by_cases h : p = root
  · rw [h]
    rfl
  · rw [toList_text_of_ne_root h, List.dropWhile_cons_of_pos (by simp)]
    have hhead := p.head?_written
    rw [← String.toList_inj, String.toList_ofList]
    cases hcs : p.written.toList with
    | nil => rfl
    | cons c cs =>
      rw [hcs, List.head?_cons, ne_eq, Option.some.injEq] at hhead
      rw [List.dropWhile_cons_of_neg (by simpa using hhead)]

/-- What is written of a path is what is written of a directory above it, a slash, and the rest. -/
theorem toList_written_take {p : Path} {n : Nat} (hpos : 0 < n) (hn : n < p.depth) :
    p.written.toList = ((p.take n).written.toList ++ ['/']) ++ (p.drop n).written.toList := by
  have htake : p.names.take n ≠ [] := by
    rw [← List.length_pos_iff, List.length_take, Nat.lt_min]
    exact ⟨hpos, Nat.lt_trans hpos hn⟩
  have hdrop : p.names.drop n ≠ [] := by
    rw [← List.length_pos_iff, List.length_drop]
    exact Nat.sub_pos_of_lt hn
  have hsplit := String.intercalate_append_of_ne_nil (s := "/") htake hdrop
  rw [List.take_append_drop] at hsplit
  rw [written, hsplit, String.toList_append, String.toList_append]
  rfl

end Path

end ComponentGraph
