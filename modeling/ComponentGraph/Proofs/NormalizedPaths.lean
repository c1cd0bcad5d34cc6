import ComponentGraph.Project
import ComponentGraph.Proofs.WrittenPaths
/-!
# Following normalized paths

A normalized path does not end with a slash, so that following it from a base always leads
somewhere, and normalizing it again changes nothing. What an entry is shown as, relative to a base,
is a first piece and then names; such a path leads to the same place whether or not it is
normalized. It is a path as it is written, with nothing but names between its slashes, unless it
begins with `./` or `../`.
-/

namespace ComponentGraph

namespace Text

variable {sep : Char} {cs ds : List Char}

theorem head?_dropWhile {p : Char → Bool} (cs : List Char) :
    ∀ c ∈ (cs.dropWhile p).head?, p c = false := by
  intro c hc
  have hhead := List.head?_dropWhile_not p cs
  rwa [hc] at hhead

theorem getLast?_dropEndWhile {p : Char → Bool} (cs : List Char) :
    ∀ c ∈ (dropEndWhile p cs).getLast?, p c = false := by
  rw [dropEndWhile, List.getLast?_reverse]
  exact head?_dropWhile cs.reverse

theorem splitOn_cons_sep (sep : Char) (cs : List Char) :
    splitOn sep (sep :: cs) = [] :: splitOn sep cs := by
  rw [splitOn, if_pos rfl]

theorem splitOn_cons_of_ne {c : Char} (h : c ≠ sep) (cs : List Char) :
    ∃ piece pieces, splitOn sep cs = piece :: pieces ∧
      splitOn sep (c :: cs) = (c :: piece) :: pieces := by
  cases hsplit : splitOn sep cs with
  | nil => exact absurd hsplit (splitOn_ne_nil sep cs)
  | cons piece pieces =>
    refine ⟨piece, pieces, rfl, ?_⟩
    rw [splitOn, if_neg h, hsplit]

/-- What is cut off in front takes at most the first pieces. -/
theorem tail_splitOn_suffix (h : cs <:+ ds) :
    (splitOn sep cs).tail <:+ (splitOn sep ds).tail := by
  induction ds with
  | nil =>
    obtain rfl := List.suffix_nil.mp h
    exact List.suffix_rfl
  | cons d ds ih =>
    rcases List.suffix_cons_iff.mp h with rfl | h
    · exact List.suffix_rfl
    · refine (ih h).trans ?_
      by_cases hd : d = sep
      · subst hd
        rw [splitOn_cons_sep, List.tail_cons]
        exact List.tail_suffix _
      · obtain ⟨piece, pieces, hds, hcons⟩ := splitOn_cons_of_ne hd ds
        rw [hds, hcons]
        exact List.suffix_rfl

theorem intercalate_splitOn (sep : Char) (cs : List Char) :
    [sep].intercalate (splitOn sep cs) = cs := by
  induction cs with
  | nil => rfl
  | cons c cs ih =>
    by_cases hc : c = sep
    · subst hc
      rw [splitOn_cons_sep, List.intercalate_cons_of_ne_nil (splitOn_ne_nil c cs), ih]
      rfl
    · obtain ⟨piece, pieces, hcs, hcons⟩ := splitOn_cons_of_ne hc cs
      rw [hcs] at ih
      rw [hcons, ← ih]
      cases pieces with
      | nil => rw [List.intercalate_singleton, List.intercalate_singleton]
      | cons next pieces => simp [List.intercalate_cons_cons]

end Text

/-! ## Normalizing -/

theorem dropHere_suffix (cs : List Char) : dropHere cs <:+ cs := by
  fun_induction dropHere cs with
  | case1 rest ih => exact ih.trans ((List.suffix_cons '/' rest).trans (List.suffix_cons '.' _))
  | case2 => exact List.suffix_rfl

theorem not_here_isPrefix_dropHere (cs : List Char) : ¬ ['.', '/'] <+: dropHere cs := by
  fun_induction dropHere cs with
  | case1 rest ih => exact ih
  | case2 cs hhere =>
    rintro ⟨rest, rfl⟩
    exact hhere rest rfl

/-- What is left of a text ends as the text does. -/
theorem getLast?_of_suffix {cs ds : List Char} (h : cs <:+ ds) {c : Char}
    (hc : c ∈ cs.getLast?) : c ∈ ds.getLast? := by
  obtain ⟨front, rfl⟩ := h
  rw [List.getLast?_append, hc]
  rfl

theorem getLast?_normalize (written : String) :
    ∀ c ∈ (normalize written).toList.getLast?, c ≠ '/' := by
  intro c hc
  rw [normalize] at hc
  split at hc
  · cases hc
  · rw [String.toList_ofList] at hc
    exact of_decide_eq_false
      (Text.getLast?_dropEndWhile written.toList c (getLast?_of_suffix (dropHere_suffix _) hc))

theorem normalize_normalize (written : String) :
    normalize (normalize written) = normalize written := by
  refine normalize_eq_self (getLast?_normalize written) ?_ ?_
  · rw [normalize]
    split
    · decide
    · rw [String.toList_ofList]
      exact not_here_isPrefix_dropHere _
  · rw [normalize]
    split
    · decide
    · rename_i hdot
      rwa [ne_eq, ← String.toList_inj, String.toList_ofList]

namespace Path

variable {base p : Path} {written : String}

/-! ## Following -/

/-- Following a path goes through all its pieces, from the root if it begins with a slash. -/
theorem join?_eq (base : Path) (hend : ∀ c ∈ written.toList.getLast?, c ≠ '/') :
    base.join? written = some ((Text.splitOn '/' written.toList).foldl step
      (if written.toList.head? = some '/' then root else base)) := by
  rw [join?]
  split
  · rename_i hnil
    rw [hnil]
    rfl
  · rw [if_neg fun h => hend '/' h.2 rfl]

theorem exists_join?_normalize (base : Path) (written : String) :
    ∃ p, base.join? (normalize written) = some p :=
  ⟨_, join?_eq base (getLast?_normalize written)⟩

theorem splitOn_here (cs : List Char) :
    Text.splitOn '/' ('.' :: '/' :: cs) = ['.'] :: Text.splitOn '/' cs :=
  Text.splitOn_append_sep (show '/' ∉ ['.'] by decide) cs

theorem foldl_step_dropHere (base : Path) (cs : List Char) :
    (Text.splitOn '/' (dropHere cs)).foldl step base = (Text.splitOn '/' cs).foldl step base := by
  fun_induction dropHere cs with
  | case1 rest ih =>
    rw [ih, splitOn_here, List.foldl_cons]
    rfl
  | case2 => rfl

/-- Behind the first piece there is no empty one, so that no slash comes to the front. -/
theorem head?_dropHere {cs : List Char} (hhead : cs.head? ≠ some '/')
    (hpieces : [] ∉ (Text.splitOn '/' cs).tail) : (dropHere cs).head? ≠ some '/' := by
  fun_induction dropHere cs with
  | case1 rest ih =>
    rw [splitOn_here, List.tail_cons] at hpieces
    refine ih (fun hslash => hpieces ?_) fun hmem => hpieces (List.mem_of_mem_tail hmem)
    obtain ⟨rest', rfl⟩ := List.head?_eq_some_iff.mp hslash
    rw [Text.splitOn_cons_sep]
    exact List.mem_cons_self
  | case2 => exact hhead

/-- A path of pieces that are not empty leads to the same place whether or not it is normalized. -/
theorem join?_normalize (base : Path) (hend : ∀ c ∈ written.toList.getLast?, c ≠ '/')
    (hhead : written.toList.head? ≠ some '/')
    (hpieces : [] ∉ (Text.splitOn '/' written.toList).tail) :
    base.join? (normalize written) = base.join? written := by
  have hend' : ∀ c ∈ written.toList.getLast?, decide (c = '/') = false :=
    fun c hc => decide_eq_false (hend c hc)
  have hfront := head?_dropHere hhead hpieces
  rw [join?_eq base (getLast?_normalize written), join?_eq base hend, normalize,
    Text.dropEndWhile_eq_self hend', if_neg hhead, ← foldl_step_dropHere base written.toList]
  by_cases hdot : dropHere written.toList = ['.']
  · simp only [hdot]
    rfl
  · simp only [if_neg hdot, String.toList_ofList, if_neg hfront]

/-! ## What an entry is shown as -/

theorem head?_relativeTo (base p : Path) : (base.relativeTo p).toList.head? ≠ some '/' := by
  rw [relativeTo, String.toList_ofList]
  exact fun h => of_decide_eq_false (Text.head?_dropWhile _ '/' h) rfl

theorem splitOn_text (p : Path) :
    (Text.splitOn '/' p.text.toList).tail = p.names.map String.toList := by
  by_cases h : p = root
  · subst h
    rfl
  · rw [toList_text_of_ne_root h, Text.splitOn_cons_sep, List.tail_cons, splitOn_written h]

/-- Behind the first slash there are only names. -/
theorem isPlainName_of_mem_tail (base p : Path) :
    ∀ piece ∈ (Text.splitOn '/' (base.relativeTo p).toList).tail,
      IsPlainName (String.ofList piece) := by
  intro piece hpiece
  have hmem := (Text.tail_splitOn_suffix (base.relativeTo_suffix p)).subset hpiece
  rw [splitOn_text] at hmem
  obtain ⟨name, hname, rfl⟩ := List.mem_map.mp hmem
  rw [String.ofList_toList]
  exact p.plain name hname

theorem join?_normalize_relativeTo (base p : Path) :
    base.join? (normalize (base.relativeTo p)) = base.join? (base.relativeTo p) := by
  refine join?_normalize base (getLast?_relativeTo base p) (head?_relativeTo base p) fun hmem => ?_
  exact absurd (isPlainName_of_mem_tail base p [] hmem) (by decide)

/-! ## Paths of names alone -/

/-- A path that has only names between its slashes is a path as it is written. -/
theorem exists_written
    (h : ∀ piece ∈ Text.splitOn '/' written.toList, IsPlainName (String.ofList piece)) :
    ∃ q : Path, written = q.written := by
  refine ⟨⟨(Text.splitOn '/' written.toList).map String.ofList, ?_⟩, ?_⟩
  · intro name hname
    obtain ⟨piece, hpiece, rfl⟩ := List.mem_map.mp hname
    exact h piece hpiece
  · have hpieces : (Text.splitOn '/' written.toList).map (String.toList ∘ String.ofList) =
        Text.splitOn '/' written.toList := by
      simp
    rw [← String.toList_inj, Path.written, String.toList_intercalate, List.map_map, hpieces]
    exact (Text.intercalate_splitOn '/' written.toList).symm

/-- What a component file is shown as is a path as it is written, unless it begins with `./` or
`../`. -/
theorem exists_written_relativeTo
    (hcomponent : FileName.isComponent (base.relativeTo p) = true)
    (hhere : ¬ ['.', '/'] <+: (base.relativeTo p).toList)
    (habove : ¬ ['.', '.', '/'] <+: (base.relativeTo p).toList) :
    ∃ q : Path, base.relativeTo p = q.written := by
  apply exists_written
  have hrest := isPlainName_of_mem_tail base p
  have hhead := head?_relativeTo base p
  generalize base.relativeTo p = written at *
  have hwhole := Text.intercalate_splitOn '/' written.toList
  cases hsplit : Text.splitOn '/' written.toList with
  | nil => exact absurd hsplit (Text.splitOn_ne_nil '/' _)
  | cons first rest =>
    rw [hsplit] at hwhole hrest
    have hslash : '/' ∉ first :=
      Text.not_mem_of_mem_splitOn (hsplit ▸ List.mem_cons_self : first ∈ Text.splitOn '/' _)
    -- The first piece is the whole path or has a slash behind it.
    have hfirst : ∀ name : String, String.ofList first = name → FileName.isComponent name = false →
        name.toList ++ ['/'] <+: written.toList := by
      rintro name rfl hname
      rw [String.toList_ofList]
      cases rest with
      | nil =>
        rw [List.intercalate_singleton] at hwhole
        rw [hwhole, String.ofList_toList, hcomponent] at hname
        cases hname
      | cons next rest =>
        rw [List.intercalate_cons_cons] at hwhole
        exact ⟨_, hwhole⟩
    refine List.forall_mem_cons.mpr ⟨⟨?_, ?_, ?_, ?_⟩, hrest⟩
    · intro heq
      obtain ⟨behind, hbehind⟩ := hfirst "" heq (by decide +kernel)
      rw [← hbehind] at hhead
      exact hhead rfl
    · exact fun heq => hhere (hfirst "." heq (by decide +kernel))
    · exact fun heq => habove (hfirst ".." heq (by decide +kernel))
    · rwa [String.toList_ofList]

end Path

/-- Every path that a user writes leads somewhere. -/
theorem Project.exists_locate (p : Project) (written : String) :
    ∃ path, p.locate written = .ok path := by
  obtain ⟨path, hpath⟩ := p.base.exists_join?_normalize written
  exact ⟨path, by rw [locate, FileSystem.locate, hpath]⟩

end ComponentGraph
