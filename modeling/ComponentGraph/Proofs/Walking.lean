import ComponentGraph.Discovery.Walk
import ComponentGraph.Proofs.WrittenPaths
/-!
# What a walk finds

Every file that a walk finds is a component file by its name, and is shown as a path relative to
the base of the project.
-/

namespace ComponentGraph

namespace Walk

variable {w : Walk}

theorem value_collect {α β : Type} (visit : α → Logged (List β)) (entries : List α) :
    (collect visit entries).value = entries.flatMap fun a => (visit a).value := by
  induction entries with
  | nil => rfl
  | cons a rest ih =>
    rw [List.flatMap_cons, ← ih]
    rfl

theorem mem_collect {α β : Type} {visit : α → Logged (List β)} {entries : List α} {b : β} :
    b ∈ (collect visit entries).value ↔ ∃ a ∈ entries, b ∈ (visit a).value := by
  rw [value_collect, List.mem_flatMap]

theorem collect_attach {α β : Type} (visit : α → Logged (List β)) (entries : List α) :
    collect (fun entry : { a // a ∈ entries } => visit entry.1) entries.attach =
      collect visit entries := by
  have hmap : ∀ es : List { a // a ∈ entries },
      collect (fun entry => visit entry.1) es = collect visit (es.map Subtype.val) := by
    intro es
    induction es with
    | nil => rfl
    | cons e es ih => rw [List.map_cons, collect, collect, ih]
  rw [hmap, List.attach_map_subtype_val]

/-- What an entry adds to what is found in its directory. -/
def look (w : Walk) (globs : List Glob) (ignores : List IgnoreFile) (entry : Path) :
    Logged (List String) :=
  if w.skips globs ignores entry then pure []
  else if w.project.files.isDirectory entry then w.visit globs ignores entry
  else if FileName.isComponent (w.relative entry) then pure [w.relative entry]
  else pure []

theorem mem_look_iff {globs : List Glob} {ignores : List IgnoreFile} {entry : Path} {s : String} :
    s ∈ (w.look globs ignores entry).value ↔ w.skips globs ignores entry = false ∧
      if w.project.files.isDirectory entry then s ∈ (w.visit globs ignores entry).value
      else FileName.isComponent (w.relative entry) = true ∧ s = w.relative entry := by
  rw [look]
  split
  · rename_i hskips
    simp [hskips]
  · rename_i hskips
    split
    · simp [hskips]
    · split
      · rename_i hcomponent
        simp [hskips, hcomponent]
      · rename_i hcomponent
        simp [hskips, hcomponent]

theorem visit_eq (w : Walk) (globs : List Glob) (above : List IgnoreFile) (dir : Path) :
    w.visit globs above dir = (do
      let ignores ← w.enter above dir
      collect (w.look globs ignores) (w.entries dir)) := by
  rw [visit]
  congr 1
  funext ignores
  exact collect_attach (w.look globs ignores) (w.entries dir)

theorem mem_visit {globs : List Glob} {above : List IgnoreFile} {dir : Path} {v : String}
    (h : v ∈ (w.visit globs above dir).value) :
    FileName.isComponent v = true ∧ ∃ p, v = w.relative p := by
  rw [visit_eq, Logged.value_bind, mem_collect] at h
  obtain ⟨entry, hentry, hv⟩ := h
  obtain ⟨-, hv⟩ := mem_look_iff.mp hv
  split at hv
  · exact mem_visit hv
  · obtain ⟨hcomponent, rfl⟩ := hv
    exact ⟨hcomponent, entry, rfl⟩
termination_by w.project.files.height - dir.depth
decreasing_by
  rw [entries, List.mem_mergeSort] at hentry
  have hdepth := FileSystem.depth_of_mem_children hentry
  omega

/-- A directory is visited with the ignore files of all directories above it. -/
theorem files_of_directory {start : Path}
    (hstart : FileSystem.locate w.project.base w.dir = .ok start)
    (hdirectory : w.project.files.entry? start = some .directory) :
    w.files.value = .ok ((w.visit (globs w.patterns).value (w.enterAll [] w.above).value
      start).value.mergeSort fun s t => s ≤ t) := by
  rw [files, hstart]
  simp only [hdirectory]
  rfl

theorem ordered_mergeSort (found : List String) :
    (found.mergeSort fun s t => s ≤ t).Pairwise fun s t => s ≤ t := by
  have hsorted := @List.pairwise_mergeSort String (fun s t => decide (s ≤ t))
    (by simpa using fun _ _ _ => String.le_trans) (by simpa using String.le_total) found
  exact hsorted.imp of_decide_eq_true

/-- Where the entries and what is found of them are in order already, nothing is sorted. -/
theorem files_of_ordered {start : Path} {children : List Path} {found : List String}
    (hstart : FileSystem.locate w.project.base w.dir = .ok start)
    (hdirectory : w.project.files.entry? start = some .directory)
    (hchildren : w.project.files.children start = children)
    (hordered : children.Pairwise fun p q => p.text ≤ q.text)
    (hfound : (children.flatMap fun entry => (w.look (globs w.patterns).value
      (w.enter (w.enterAll [] w.above).value start).value entry).value) = found)
    (hsorted : found.Pairwise fun s t => s ≤ t) : w.files.value = .ok found := by
  have hentries : w.entries start = children := by
    rw [entries, hchildren]
    exact List.mergeSort_of_pairwise (hordered.imp decide_eq_true)
  rw [files_of_directory hstart hdirectory, visit_eq, Logged.value_bind, value_collect, hentries,
    hfound, List.mergeSort_of_pairwise (hsorted.imp decide_eq_true)]

/-- A walk that succeeds starts at nothing, at a file, or at a directory. -/
theorem exists_start_of_files {found : List String} (h : w.files.value = .ok found) :
    ∃ start, FileSystem.locate w.project.base w.dir = .ok start ∧
      ((w.project.files.entry? start = none ∧ found = []) ∨
        (∃ content, w.project.files.entry? start = some (.file content) ∧
          found = if FileName.isComponent (w.relative start) then [w.relative start] else []) ∨
        (w.project.files.entry? start = some .directory ∧
          found = (w.visit (globs w.patterns).value (w.enterAll [] w.above).value
            start).value.mergeSort fun s t => s ≤ t)) := by
  cases hstart : FileSystem.locate w.project.base w.dir with
  | error e =>
    rw [files, hstart] at h
    cases h
  | ok start =>
    refine ⟨start, rfl, ?_⟩
    cases hentry : w.project.files.entry? start with
    | none =>
      rw [files, hstart] at h
      simp only [hentry] at h
      exact .inl ⟨rfl, (Except.ok.inj h).symm⟩
    | some entry =>
      cases entry with
      | file content =>
        rw [files, hstart] at h
        simp only [hentry, Logged.value_pure, Except.ok.injEq] at h
        exact .inr (.inl ⟨content, rfl, h.symm⟩)
      | directory =>
        rw [files_of_directory hstart hentry, Except.ok.injEq] at h
        exact .inr (.inr ⟨rfl, h.symm⟩)

theorem mem_files {views : List String} (h : w.files.value = .ok views) {v : String}
    (hv : v ∈ views) : FileName.isComponent v = true ∧ ∃ p, v = w.relative p := by
  obtain ⟨start, -, ⟨-, rfl⟩ | ⟨content, -, rfl⟩ | ⟨-, rfl⟩⟩ := exists_start_of_files h
  · cases hv
  · split at hv
    · rename_i hcomponent
      cases List.mem_singleton.mp hv
      exact ⟨hcomponent, start, rfl⟩
    · cases hv
  · exact mem_visit (List.mem_mergeSort.mp hv)

end Walk

end ComponentGraph
