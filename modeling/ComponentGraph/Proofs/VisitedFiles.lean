import ComponentGraph.Proofs.NormalizedPaths
import ComponentGraph.Proofs.WalkedFiles
/-!
# Back to the files that a walk visits

A walk shows the files that it visits as paths relative to the base of the project. Such a path
always leads somewhere from the base, and it leads back to its file if, and only if, the file lies
below the base. A walk through a directory below the base, however it is written, visits no other
files. Through `..` a walk also comes to files beside the base, and what is shown of these leads to
another place.
-/

namespace ComponentGraph

theorem Text.intercalate_cons (sep : Char) (first : List Char) (rest : List (List Char)) :
    [sep].intercalate (first :: rest) = first ++ rest.flatMap (sep :: ·) := by
  induction rest generalizing first with
  | nil => rw [List.intercalate_singleton, List.flatMap_nil, List.append_nil]
  | cons next rest ih => simp [List.intercalate_cons_cons, ih]

namespace Path

variable {base p : Path}

/-! ## Where a shown path leads -/

/-- What an entry is shown as is a first piece and then names, and it is followed from where the
first piece leads. -/
theorem exists_step_relativeTo (base p : Path) :
    ∃ (first : List Char) (tail : Path),
      (base.relativeTo p).toList = first ++ tail.text.toList ∧
        base.join? (base.relativeTo p) = some ((base.step first).append tail) := by
  have hnames := isPlainName_of_mem_tail base p
  have hwhole := Text.intercalate_splitOn '/' (base.relativeTo p).toList
  have hjoin := join?_eq base (getLast?_relativeTo base p)
  rw [if_neg (head?_relativeTo base p)] at hjoin
  cases hsplit : Text.splitOn '/' (base.relativeTo p).toList with
  | nil => exact absurd hsplit (Text.splitOn_ne_nil '/' _)
  | cons first rest =>
    rw [hsplit] at hnames hwhole hjoin
    have hplain : ∀ name ∈ rest.map String.ofList, IsPlainName name := by
      intro name hname
      obtain ⟨piece, hpiece, rfl⟩ := List.mem_map.mp hname
      exact hnames piece hpiece
    let tail : Path := ⟨rest.map String.ofList, hplain⟩
    have hrest : tail.names.map String.toList = rest := by simp [tail, Function.comp_def]
    refine ⟨first, tail, ?_, ?_⟩
    · rw [← hwhole, Text.intercalate_cons, toList_text, ← hrest, List.flatMap_map]
    · rw [hjoin, List.foldl_cons, ← foldl_step, hrest]

/-- The base is taken off as text, or else nothing is. -/
theorem relativeTo_of_not_isPrefix (h : ¬ base.text.toList <+: p.text.toList) :
    base.relativeTo p = p.written := by
  have hwhole : root.relativeTo p = p.written := relativeTo_append root p
  rw [← hwhole, relativeTo, relativeTo, if_neg (mt List.isPrefixOf_iff_prefix.mp h)]
  rfl

theorem length_relativeTo_le (h : base.text.toList <+: p.text.toList) :
    base.text.toList.length + (base.relativeTo p).toList.length ≤ p.text.toList.length := by
  rw [relativeTo, if_pos (List.isPrefixOf_iff_prefix.mpr h), String.toList_ofList,
    ← String.length_toList]
  have hdrop := (List.dropWhile_suffix (· = '/') :
    (p.text.toList.drop base.text.toList.length).dropWhile _ <:+ _).length_le
  rw [List.length_drop] at hdrop
  have hle := h.length_le
  omega

theorem length_text_parent_le (p : Path) :
    p.parent.text.toList.length ≤ p.text.toList.length := by
  obtain ⟨last, hlast⟩ := List.dropLast_prefix p.names
  rw [p.toList_text, ← hlast, List.flatMap_append, toList_text, List.length_append]
  exact Nat.le_add_right _ _

/-- **Back from what is shown.** What an entry is shown as leads back to it if, and only if, it lies
below the base. -/
theorem join?_relativeTo_iff (base p : Path) :
    base.join? (base.relativeTo p) = some p ↔ ∃ d, p = base.append d := by
  constructor
  · intro hback
    by_cases hprefix : base.text.toList <+: p.text.toList
    · obtain ⟨first, tail, hshown, hjoin⟩ := exists_step_relativeTo base p
      have hp : (base.step first).append tail = p := Option.some.inj (hjoin.symm.trans hback)
      rw [step] at hp
      split at hp
      · rename_i hplain
        refine ⟨⟨String.ofList first :: tail.names, ?_⟩, ?_⟩
        · exact List.forall_mem_cons.mpr ⟨hplain, tail.plain⟩
        · rw [← hp]
          exact Path.ext (List.append_assoc base.names [String.ofList first] tail.names)
      · split at hp
        · -- A step back would leave less text than the shown path and the base have together.
          rename_i hup
          have hfirst : first = ['.', '.'] := by
            rw [← String.toList_ofList (l := first), hup]
            rfl
          have hlength := length_relativeTo_le hprefix
          have hparent := length_text_parent_le base
          rw [hshown, hfirst, ← hp, toList_text_append] at hlength
          simp only [List.length_append, List.length_cons, List.length_nil] at hlength
          omega
        · exact ⟨tail, hp.symm⟩
    · rw [relativeTo_of_not_isPrefix hprefix, join?_written, Option.some.injEq] at hback
      exact ⟨p, hback.symm⟩
  · rintro ⟨d, rfl⟩
    rw [relativeTo_append, join?_written]

theorem exists_append_trans {q d : Path} (hq : ∃ e, q = p.append e) (hp : p = base.append d) :
    ∃ e, q = base.append e := by
  obtain ⟨e, rfl⟩ := hq
  exact ⟨d.append e, hp ▸ Path.ext (List.append_assoc base.names d.names e.names)⟩

end Path

/-! ## Visits -/

namespace Walk

/-- A visit of a directory, with the ignore files in force above it, comes to a component file. -/
inductive Meets (w : Walk) (globs : List Glob) : List IgnoreFile → Path → Path → Prop
  | file {above : List IgnoreFile} {dir q : Path} :
      q ∈ w.entries dir → w.skips globs (w.enter above dir).value q = false →
        w.project.files.isDirectory q = false → FileName.isComponent (w.relative q) = true →
          w.Meets globs above dir q
  | inside {above : List IgnoreFile} {dir entry q : Path} :
      entry ∈ w.entries dir → w.skips globs (w.enter above dir).value entry = false →
        w.project.files.isDirectory entry = true →
          w.Meets globs (w.enter above dir).value entry q → w.Meets globs above dir q

/-- The walk comes to a component file: to the one that it starts at, or to one below the directory
that it starts at. -/
inductive Visits (w : Walk) (q : Path) : Prop
  | start (content : Content) : FileSystem.locate w.project.base w.dir = .ok q →
      w.project.files.entry? q = some (.file content) →
        FileName.isComponent (w.relative q) = true → w.Visits q
  | inside (start : Path) : FileSystem.locate w.project.base w.dir = .ok start →
      w.project.files.entry? start = some .directory →
        w.Meets (globs w.patterns).value (w.enterAll [] w.above).value start q → w.Visits q

variable {w : Walk}

/-- A visit finds what the files that it meets are shown as. -/
theorem mem_visit_iff_meets {globs : List Glob} {above : List IgnoreFile} {dir : Path}
    {s : String} :
    s ∈ (w.visit globs above dir).value ↔ ∃ q, w.Meets globs above dir q ∧ w.relative q = s := by
  constructor
  · intro hs
    rw [visit_eq, Logged.value_bind, mem_collect] at hs
    obtain ⟨entry, hentry, hs⟩ := hs
    obtain ⟨hkept, hs⟩ := mem_look_iff.mp hs
    split at hs
    · rename_i hdirectory
      obtain ⟨q, hmeets, hq⟩ := mem_visit_iff_meets.mp hs
      exact ⟨q, .inside hentry hkept hdirectory hmeets, hq⟩
    · rename_i hdirectory
      exact ⟨entry, .file hentry hkept (eq_false_of_ne_true hdirectory) hs.1, hs.2.symm⟩
  · rintro ⟨q, hmeets, rfl⟩
    induction hmeets with
    | file hentry hkept hdirectory hcomponent =>
      rw [visit_eq, Logged.value_bind, mem_collect]
      refine ⟨_, hentry, mem_look_iff.mpr ⟨hkept, ?_⟩⟩
      rw [if_neg (ne_true_of_eq_false hdirectory)]
      exact ⟨hcomponent, rfl⟩
    | inside hentry hkept hdirectory _ ih =>
      rw [visit_eq, Logged.value_bind, mem_collect]
      refine ⟨_, hentry, mem_look_iff.mpr ⟨hkept, ?_⟩⟩
      rw [if_pos hdirectory]
      exact ih
termination_by w.project.files.height - dir.depth
decreasing_by
  rw [entries, List.mem_mergeSort] at hentry
  have hdepth := FileSystem.depth_of_mem_children hentry
  omega

theorem Meets.exists_append {globs : List Glob} {above : List IgnoreFile} {dir q : Path}
    (h : w.Meets globs above dir q) : ∃ d, q = dir.append d := by
  have hchild : ∀ {dir entry : Path}, entry ∈ w.entries dir → ∃ d, entry = dir.append d := by
    intro dir entry hentry
    rw [entries, List.mem_mergeSort] at hentry
    obtain ⟨-, name, hname, rfl⟩ := FileSystem.mem_children.mp hentry
    exact ⟨Path.root.child name hname, rfl⟩
  induction h with
  | file hentry _ _ _ => exact hchild hentry
  | inside hentry _ _ _ ih =>
    obtain ⟨d, hd⟩ := hchild hentry
    exact Path.exists_append_trans ih hd

/-- What is visited lies where the walk starts or below. -/
theorem Visits.exists_append {q start : Path} (h : w.Visits q)
    (hstart : FileSystem.locate w.project.base w.dir = .ok start) : ∃ d, q = start.append d := by
  cases h with
  | start content hlocate _ _ =>
    obtain rfl : q = start := Except.ok.inj (hlocate.symm.trans hstart)
    exact ⟨.root, q.append_root.symm⟩
  | inside start' hlocate _ hmeets =>
    obtain rfl : start' = start := Except.ok.inj (hlocate.symm.trans hstart)
    exact hmeets.exists_append

/-- A walk finds what the files that it visits are shown as. -/
theorem mem_files_iff {found : List String} (h : w.files.value = .ok found) {s : String} :
    s ∈ found ↔ ∃ q, w.Visits q ∧ w.relative q = s := by
  obtain ⟨start, hstart, hfound⟩ := exists_start_of_files h
  have hsame : ∀ {start'}, FileSystem.locate w.project.base w.dir = .ok start' →
      start' = start := fun h => Except.ok.inj (h.symm.trans hstart)
  obtain ⟨hentry, rfl⟩ | ⟨content, hentry, rfl⟩ | ⟨hentry, rfl⟩ := hfound
  · constructor
    · intro hs
      cases hs
    · rintro ⟨q, hvisits, -⟩
      cases hvisits with
      | start content hlocate hfile _ =>
        rw [hsame hlocate, hentry] at hfile
        cases hfile
      | inside start' hlocate hdirectory _ =>
        rw [hsame hlocate, hentry] at hdirectory
        cases hdirectory
  · constructor
    · intro hs
      split at hs
      · rename_i hcomponent
        exact ⟨start, .start content hstart hentry hcomponent, (List.mem_singleton.mp hs).symm⟩
      · cases hs
    · rintro ⟨q, hvisits, rfl⟩
      cases hvisits with
      | start content' hlocate _ hcomponent =>
        obtain rfl := hsame hlocate
        rw [if_pos hcomponent]
        exact List.mem_singleton_self _
      | inside start' hlocate hdirectory _ =>
        rw [hsame hlocate, hentry] at hdirectory
        cases hdirectory
  · rw [List.mem_mergeSort, mem_visit_iff_meets]
    constructor
    · rintro ⟨q, hmeets, hq⟩
      exact ⟨q, .inside start hstart hentry hmeets, hq⟩
    · rintro ⟨q, hvisits, hq⟩
      cases hvisits with
      | start content hlocate hfile _ =>
        rw [hsame hlocate, hentry] at hfile
        cases hfile
      | inside start' hlocate _ hmeets =>
        obtain rfl := hsame hlocate
        exact ⟨q, hmeets, hq⟩

end Walk

theorem Project.locate_eq_of_join? {project : Project} {q r : Path}
    (h : project.base.join? (project.base.relativeTo q) = some r) :
    project.locate (project.base.relativeTo q) = .ok r := by
  rw [locate, FileSystem.locate, Path.join?_normalize_relativeTo, h]

/-- **Back to the files.** What a walk finds is what the files that it visits are shown as. Each of
these paths leads somewhere from the base, also once it is normalized, and there to its file if, and
only if, the file lies below the base. If the directory lies below the base, however it is written,
then all of them lead back to their files. -/
theorem Walk.leads_back_of_files {project : Project} {written : String}
    {patterns found : List String}
    (h : (through project written patterns).files.value = .ok found) :
    (∀ s, s ∈ found ↔
      ∃ q, (through project written patterns).Visits q ∧ project.base.relativeTo q = s) ∧
    (∀ q, (through project written patterns).Visits q → ∃ r,
      project.base.join? (project.base.relativeTo q) = some r ∧
        project.locate (project.base.relativeTo q) = .ok r ∧
        (r = q ↔ ∃ d, q = project.base.append d)) ∧
    ∀ d, project.locate written = .ok (project.base.append d) →
      ∀ s ∈ found, ∃ q, (through project written patterns).Visits q ∧
        project.base.relativeTo q = s ∧ project.base.join? s = some q ∧
        project.locate s = .ok q := by
  have hfound := fun s => mem_files_iff (s := s) h
  refine ⟨hfound, fun q _ => ?_, fun d hstart s hs => ?_⟩
  · obtain ⟨first, tail, -, hjoin⟩ := project.base.exists_step_relativeTo q
    refine ⟨_, hjoin, Project.locate_eq_of_join? hjoin, ?_⟩
    rw [← Path.join?_relativeTo_iff, hjoin, Option.some.injEq]
  · obtain ⟨q, hvisits, rfl⟩ := (hfound s).mp hs
    have hbelow := Path.exists_append_trans (hvisits.exists_append hstart) rfl
    have hjoin := (project.base.join?_relativeTo_iff q).mpr hbelow
    exact ⟨q, hvisits, rfl, hjoin, Project.locate_eq_of_join? hjoin⟩

/-- Beside the base is a directory whose name begins like that of the base. -/
def neighbours : Project where
  base := ⟨["site"], by decide⟩
  files :=
    { medium := .memory
      entries :=
        [(Path.root, .directory),
          (⟨["site"], by decide⟩, .directory),
          (⟨["site", "A.vue"], by decide⟩, .file (.text "")),
          (⟨["site2"], by decide⟩, .directory),
          (⟨["site2", "B.vue"], by decide⟩, .file (.text ""))]
      distinct := by decide }

theorem Walk.leads_back_of_files_neighbours :
    (through neighbours "../site/." []).files.value = .ok ["A.vue"] ∧
      neighbours.locate "../site/." = .ok (neighbours.base.append Path.root) ∧
      ∃ q, (through neighbours "../site/." []).Visits q ∧
        neighbours.base.relativeTo q = "A.vue" ∧ neighbours.base.join? "A.vue" = some q ∧
        neighbours.locate "A.vue" = .ok q := by
  have hfiles : (through neighbours "../site/." []).files.value = .ok ["A.vue"] := by
    decide +kernel
  have hstart : neighbours.locate "../site/." = .ok (neighbours.base.append Path.root) := by
    decide +kernel
  obtain ⟨-, -, hback⟩ := leads_back_of_files hfiles
  exact ⟨hfiles, hstart, hback Path.root hstart _ List.mem_cons_self⟩

/-- A file beside the base is shown as a path that leads to no file of the walk. -/
theorem Walk.files_beside_base :
    (through neighbours "../site2" []).files.value = .ok ["2/B.vue"] ∧
      neighbours.base.join? "2/B.vue" = some ⟨["site", "2", "B.vue"], by decide⟩ ∧
      ∀ q, (through neighbours "../site2" []).Visits q →
        neighbours.base.join? "2/B.vue" ≠ some q := by
  have hjoin : neighbours.base.join? "2/B.vue" = some ⟨["site", "2", "B.vue"], by decide⟩ := by
    decide +kernel
  have hstart : FileSystem.locate neighbours.base (through neighbours "../site2" []).dir =
      .ok ⟨["site2"], by decide⟩ := by
    decide +kernel
  refine ⟨by decide +kernel, hjoin, fun q hvisits hq => ?_⟩
  obtain ⟨d, hd⟩ := hvisits.exists_append hstart
  rw [hjoin, Option.some.injEq, hd] at hq
  exact absurd (List.cons.inj (congrArg Path.names hq)).1 (by decide)

end ComponentGraph
