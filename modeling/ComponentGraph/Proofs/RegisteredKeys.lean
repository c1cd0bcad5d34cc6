import ComponentGraph.Proofs.RegisteredFiles
import ComponentGraph.Proofs.WalkedFiles
import Mathlib.Data.Finset.Card
/-!
# What is registered under which key

Component files are registered in the order of their paths, each under its stem, and a later file
takes the place of an earlier one. So of the files of one stem the last stays, which is the greatest
by its bytes, and every other was told of when it went. Views come after the components and are
registered under their own paths, whatever is there already.
-/

namespace ComponentGraph

/-! ## Files of one stem -/

namespace FileName

/-- The files of one stem, in order. -/
def ofStem (key : String) (files : List String) : List String :=
  files.filter fun file => stem? file = some key

theorem mem_ofStem {key file : String} {files : List String} :
    file ∈ ofStem key files ↔ file ∈ files ∧ stem? file = some key := by
  rw [ofStem, List.mem_filter, decide_eq_true_eq]

theorem ofStem_concat (key : String) (files : List String) (file : String) :
    ofStem key (files ++ [file]) =
      ofStem key files ++ if stem? file = some key then [file] else [] := by
  rw [ofStem, List.filter_append, ← ofStem]
  congr 1
  by_cases h : stem? file = some key <;> simp [h]

theorem ofStem_eq_nil_iff {key : String} {files : List String} :
    ofStem key files = [] ↔ key ∉ files.filterMap stem? := by
  simp [ofStem]

theorem exists_stem?_of_isComponent {file : String} (h : isComponent file = true) :
    ∃ key, stem? file = some key := by
  rw [isComponent, decide_eq_true_eq, extension?, Option.bind_eq_some_iff] at h
  obtain ⟨name, hname, -⟩ := h
  exact ⟨_, by rw [stem?, hname, Option.map_some]⟩

end FileName

/-- What is told where a file takes the place of another of its key. -/
def Notice.ofReplacement (key file previous : String) : Notice :=
  ⟨.debug, "duplicate component key " ++ key ++ ": " ++ file ++ " replaces " ++ previous⟩

/-- A notice of a replacement is told from others by its beginning. -/
def Notice.TellsReplacement (n : Notice) : Prop :=
  n.level = .debug ∧ "duplicate component key ".toList <+: n.text.toList

instance : DecidablePred Notice.TellsReplacement := fun n =>
  inferInstanceAs (Decidable (n.level = .debug ∧ _))

theorem Notice.tellsReplacement_ofReplacement (key file previous : String) :
    (ofReplacement key file previous).TellsReplacement := by
  refine ⟨rfl, ?_⟩
  simp only [ofReplacement, String.append_assoc, String.toList_append]
  exact List.prefix_append _ _

theorem Notice.not_tellsReplacement_found (text : String) :
    ¬ TellsReplacement ⟨.debug, "found " ++ text⟩ := by
  rintro ⟨-, hprefix⟩
  rw [String.toList_append] at hprefix
  exact absurd (List.cons_prefix_cons.mp hprefix).1 (by decide)

/-- What is told of the file at a place in a list, if it is not the first of its stem: it replaces
the nearest before it. -/
def replacementAt? (files : List String) (n : Nat) : Option Notice := do
  let file ← files[n]?
  let key ← FileName.stem? file
  let previous ← (FileName.ofStem key (files.take n)).getLast?
  pure (.ofReplacement key file previous)

def replacements (files : List String) : List Notice :=
  (List.range files.length).filterMap (replacementAt? files)

theorem filterMap_singleton {α β : Type} (f : α → Option β) (a : α) :
    [a].filterMap f = (f a).toList := by
  rw [List.filterMap_cons]
  cases f a <;> rfl

theorem replacements_concat (files : List String) (file : String) :
    replacements (files ++ [file]) = replacements files ++
      ((FileName.stem? file).bind fun key => (FileName.ofStem key files).getLast?.map
        fun previous => Notice.ofReplacement key file previous).toList := by
  have hold : ∀ n ∈ List.range files.length,
      replacementAt? (files ++ [file]) n = replacementAt? files n := by
    intro n hn
    have hlt := List.mem_range.mp hn
    rw [replacementAt?, replacementAt?, List.getElem?_append_left hlt,
      List.take_append_of_le_length (Nat.le_of_lt hlt)]
  have hnew : replacementAt? (files ++ [file]) files.length =
      (FileName.stem? file).bind fun key => (FileName.ofStem key files).getLast?.map
        fun previous => Notice.ofReplacement key file previous := by
    rw [replacementAt?, List.getElem?_concat_length, List.take_left]
    simp [Option.map_eq_bind]
  rw [replacements, List.length_append, List.length_singleton, List.range_succ,
    List.filterMap_append, List.filterMap_congr hold, filterMap_singleton, hnew,
    replacements]

theorem tellsReplacement_of_mem {files : List String} {n : Notice} (h : n ∈ replacements files) :
    n.TellsReplacement := by
  obtain ⟨m, -, hm⟩ := List.mem_filterMap.mp h
  simp only [replacementAt?, bind, Option.bind_eq_some_iff] at hm
  obtain ⟨file, -, key, -, previous, -, hn⟩ := hm
  cases hn
  exact Notice.tellsReplacement_ofReplacement key file previous

/-- All but the first files of their stems are told of. -/
theorem length_replacements (files : List String) :
    (replacements files).length + (files.filterMap FileName.stem?).toFinset.card =
      (files.filterMap FileName.stem?).length := by
  induction files using List.reverseRecOn with
  | nil => rfl
  | append_singleton files file ih =>
    rw [replacements_concat, List.length_append, List.filterMap_append, filterMap_singleton]
    cases hstem : FileName.stem? file with
    | none => simpa using ih
    | some key =>
      have hinsert : (files.filterMap FileName.stem? ++ [key]).toFinset =
          insert key (files.filterMap FileName.stem?).toFinset := by
        rw [List.toFinset_append, Finset.union_comm]
        rfl
      rw [Option.toList_some, hinsert, List.length_append, List.length_singleton]
      by_cases hmem : key ∈ files.filterMap FileName.stem?
      · have hne : FileName.ofStem key files ≠ [] := fun h => FileName.ofStem_eq_nil_iff.mp h hmem
        rw [Option.bind_some, List.getLast?_eq_some_getLast hne, Option.map_some,
          Option.toList_some, List.length_singleton,
          Finset.insert_eq_of_mem (List.mem_toFinset.mpr hmem)]
        omega
      · rw [Option.bind_some, FileName.ofStem_eq_nil_iff.mpr hmem, List.getLast?_nil,
          Option.map_none, Option.toList_none, List.length_nil,
          Finset.card_insert_of_notMem (mt List.mem_toFinset.mp hmem)]
        omega

/-! ## Registering -/

theorem registerFiles_append (r : Registry) (files more : List String) :
    registerFiles r (files ++ more) = registerFiles r files >>= (registerFiles · more) := by
  induction files generalizing r with
  | nil => rfl
  | cons file rest ih =>
    rw [List.cons_append, registerFiles, registerFiles]
    split
    · exact ih r
    · split
      · exact ih _
      · rw [bind_assoc]
        congr 1
        funext _
        exact ih _

theorem value_registerFiles_singleton (r : Registry) (file : String) :
    (registerFiles r [file]).value = (FileName.stem? file).elim r (r.set · file) := by
  rw [registerFiles]
  cases FileName.stem? file with
  | none => rfl
  | some key =>
    cases hprevious : r.get? key with
    | none => simp [hprevious, registerFiles]
    | some previous => simp [hprevious, registerFiles]

theorem log_registerFiles_singleton (r : Registry) (file : String) :
    (registerFiles r [file]).log = ((FileName.stem? file).bind fun key => (r.get? key).map
      fun previous => Notice.ofReplacement key file previous).toList := by
  rw [registerFiles]
  cases FileName.stem? file with
  | none => rfl
  | some key =>
    cases hprevious : r.get? key with
    | none => simp [hprevious, registerFiles]
    | some previous => simp [hprevious, registerFiles, Notice.ofReplacement]

/-- Under each stem the last of its files is registered. -/
theorem get?_registerFiles_empty (files : List String) (key : String) :
    (registerFiles .empty files).value.get? key = (FileName.ofStem key files).getLast? := by
  induction files using List.reverseRecOn with
  | nil => rfl
  | append_singleton files file ih =>
    rw [registerFiles_append, Logged.value_bind, value_registerFiles_singleton,
      FileName.ofStem_concat, List.getLast?_append]
    cases hstem : FileName.stem? file with
    | none => simpa using ih
    | some stem =>
      rw [Option.elim_some, Registry.get?_set, ih]
      by_cases hkey : key = stem
      · simp [hkey]
      · simp [hkey, Ne.symm hkey]

theorem log_registerFiles_empty (files : List String) :
    (registerFiles .empty files).log = replacements files := by
  induction files using List.reverseRecOn with
  | nil => rfl
  | append_singleton files file ih =>
    rw [registerFiles_append, Logged.log_bind, ih, log_registerFiles_singleton,
      replacements_concat]
    simp only [get?_registerFiles_empty]

theorem log_discoverComponents {w : Walk} {files : List String} (h : w.files.value = .ok files) :
    (discoverComponents w).log = w.files.log ++ replacements files := by
  rw [discoverComponents, Logged.log_bind, h]
  simp only [Logged.log_bind, Logged.log_pure, List.append_nil, log_registerFiles_empty]

/-! ## What a walk tells and in which order it finds -/

namespace Walk

variable {w : Walk} {n : Notice}

theorem error_of_mem_globs {patterns : List String} (h : n ∈ (globs patterns).log) :
    n.level = .error := by
  induction patterns with
  | nil => cases h
  | cons pattern rest ih =>
    rw [globs] at h
    split at h
    · rw [Logged.log_bind, Logged.log_pure, List.append_nil] at h
      exact ih h
    · rw [Logged.log_bind, List.mem_append] at h
      rcases h with h | h
      · rw [List.mem_singleton.mp h]
      · exact ih h

theorem error_of_mem_enter {above : List IgnoreFile} {dir : Path}
    (h : n ∈ (w.enter above dir).log) : n.level = .error := by
  rw [enter] at h
  split at h
  · split at h
    · split at h
      · cases h
      · rw [List.mem_singleton.mp h]
    · rw [List.mem_singleton.mp h]
  · cases h

theorem error_of_mem_enterAll {above : List IgnoreFile} {dirs : List Path}
    (h : n ∈ (w.enterAll above dirs).log) : n.level = .error := by
  induction dirs generalizing above with
  | nil => cases h
  | cons dir rest ih =>
    rw [enterAll, Logged.log_bind, List.mem_append] at h
    exact h.elim error_of_mem_enter ih

theorem mem_log_collect {α β : Type} {visit : α → Logged (List β)} {entries : List α}
    (h : n ∈ (collect visit entries).log) : ∃ a ∈ entries, n ∈ (visit a).log := by
  induction entries with
  | nil => cases h
  | cons a rest ih =>
    rw [collect, Logged.log_bind, List.mem_append] at h
    rcases h with h | h
    · exact ⟨a, List.mem_cons_self, h⟩
    · rw [Logged.log_bind, Logged.log_pure, List.append_nil] at h
      obtain ⟨b, hb, hn⟩ := ih h
      exact ⟨b, List.mem_cons_of_mem a hb, hn⟩

theorem error_of_mem_visit {globs : List Glob} {above : List IgnoreFile} {dir : Path}
    (h : n ∈ (w.visit globs above dir).log) : n.level = .error := by
  rw [visit_eq, Logged.log_bind, List.mem_append] at h
  rcases h with h | h
  · exact error_of_mem_enter h
  · obtain ⟨entry, hentry, hn⟩ := mem_log_collect h
    rw [look] at hn
    split at hn
    · cases hn
    · split at hn
      · exact error_of_mem_visit hn
      · split at hn
        · cases hn
        · cases hn
termination_by w.project.files.height - dir.depth
decreasing_by
  rw [entries, List.mem_mergeSort] at hentry
  have hdepth := FileSystem.depth_of_mem_children hentry
  omega

/-- A walk tells of errors, and then of how many files it found. -/
theorem not_tellsReplacement_of_mem_files (h : n ∈ w.files.log) : ¬ n.TellsReplacement := by
  have herror : n.level = .error → ¬ n.TellsReplacement := by
    rintro hlevel ⟨hdebug, -⟩
    cases hlevel.symm.trans hdebug
  rw [files] at h
  split at h
  · cases h
  · split at h
    · exact herror (by rw [List.mem_singleton.mp h])
    · cases h
    · simp only [Logged.log_bind, Logged.log_say, Logged.log_pure, List.mem_append,
        List.append_nil, List.mem_singleton] at h
      rcases h with h | h | h | h
      · exact herror (error_of_mem_globs h)
      · exact herror (error_of_mem_enterAll h)
      · exact herror (error_of_mem_visit h)
      · rw [h]
        simp only [String.append_assoc]
        exact Notice.not_tellsReplacement_found _

/-- What a walk finds is in the order of the bytes. -/
theorem pairwise_bytes_files {found : List String} (h : w.files.value = .ok found) :
    found.Pairwise fun s t => Text.bytes s.toList ≤ Text.bytes t.toList := by
  obtain ⟨start, -, ⟨-, rfl⟩ | ⟨content, -, rfl⟩ | ⟨-, rfl⟩⟩ := exists_start_of_files h
  · exact .nil
  · split
    · exact List.pairwise_singleton _ _
    · exact .nil
  · exact (ordered_mergeSort _).imp Text.bytes_toList_le_iff.mpr

end Walk

/-- Of the files of one stem in a sorted list the last is the greatest. -/
theorem FileName.getLast?_ofStem_iff {key path : String} {files : List String}
    (hsorted : files.Pairwise fun s t => Text.bytes s.toList ≤ Text.bytes t.toList) :
    (ofStem key files).getLast? = some path ↔
      path ∈ files ∧ stem? path = some key ∧ ∀ file ∈ files, stem? file = some key →
        Text.bytes file.toList ≤ Text.bytes path.toList := by
  have hgreatest : ∀ {last}, (ofStem key files).getLast? = some last →
      ∀ file ∈ ofStem key files, file ≤ last := by
    intro last hlast file hfile
    obtain ⟨front, hfront⟩ := List.getLast?_eq_some_iff.mp hlast
    have hpairs : (ofStem key files).Pairwise _ := hsorted.sublist List.filter_sublist
    rw [hfront] at hpairs hfile
    rcases List.mem_append.mp hfile with hmem | hmem
    · exact Text.bytes_toList_le_iff.mp
        ((List.pairwise_append.mp hpairs).2.2 file hmem last (List.mem_singleton_self last))
    · rw [List.mem_singleton.mp hmem]
  constructor
  · intro hlast
    obtain ⟨hmem, hstem⟩ := mem_ofStem.mp (List.mem_of_getLast? hlast)
    refine ⟨hmem, hstem, fun file hfile hkey => Text.bytes_toList_le_iff.mpr ?_⟩
    exact hgreatest hlast file (mem_ofStem.mpr ⟨hfile, hkey⟩)
  · rintro ⟨hmem, hstem, hall⟩
    have hpath := mem_ofStem.mpr ⟨hmem, hstem⟩
    obtain ⟨last, hlast⟩ : ∃ last, (ofStem key files).getLast? = some last :=
      ⟨_, List.getLast?_eq_some_getLast (List.ne_nil_of_mem hpath)⟩
    obtain ⟨hlastmem, hlaststem⟩ := mem_ofStem.mp (List.mem_of_getLast? hlast)
    rw [hlast, String.le_antisymm (hgreatest hlast path hpath)
      (Text.bytes_toList_le_iff.mp (hall _ hlastmem hlaststem))]

namespace Registry

/-- A registry has as many entries as there are keys under which something is found. -/
theorem size_eq_card {r : Registry} {keys : Finset String}
    (h : ∀ key, key ∈ keys ↔ r.get? key ≠ none) : r.size = keys.card := by
  have hnodup : (r.entries.map Prod.fst).Nodup := by
    refine List.Pairwise.imp (fun {j k} hlt heq => ?_) r.sorted
    exact String.lt_irrefl k (heq ▸ hlt)
  have hkeys : keys = (r.entries.map Prod.fst).toFinset := by
    ext key
    rw [h, List.mem_toFinset, get?, ne_eq, Keyed.get?_eq_none_iff, not_not]
  rw [hkeys, List.toFinset_card_of_nodup hnodup, List.length_map, size]

/-- Views are registered under their own paths. Component files are registered under their stems
where no view is: of the files of one stem the one whose path has the greatest bytes. -/
structure IsOf (r : Registry) (views files : List String) : Prop where
  view : ∀ key ∈ views, r.get? key = some key
  component : ∀ key ∉ views, ∀ path, r.get? key = some path ↔
    path ∈ files ∧ FileName.stem? path = some key ∧ ∀ file ∈ files,
      FileName.stem? file = some key → Text.bytes file.toList ≤ Text.bytes path.toList
  absent : ∀ key ∉ views, r.get? key = none ↔ ∀ file ∈ files, FileName.stem? file ≠ some key
  size : r.size = (views ++ files.filterMap FileName.stem?).toFinset.card

theorem isOf_setAll {files : List String} (views : List String)
    (hsorted : files.Pairwise fun s t => Text.bytes s.toList ≤ Text.bytes t.toList) :
    ((registerFiles .empty files).value.setAll (views.map fun view => (view, view))).IsOf
      views files := by
  have hget : ∀ key, ((registerFiles .empty files).value.setAll
      (views.map fun view => (view, view))).get? key =
        if key ∈ views then some key else (FileName.ofStem key files).getLast? := by
    intro key
    rw [get?_setAll_self, get?_registerFiles_empty]
  constructor
  · intro key hkey
    rw [hget, if_pos hkey]
  · intro key hkey path
    rw [hget, if_neg hkey, FileName.getLast?_ofStem_iff hsorted]
  · intro key hkey
    rw [hget, if_neg hkey, List.getLast?_eq_none_iff, FileName.ofStem_eq_nil_iff]
    simp
  · refine size_eq_card fun key => ?_
    rw [hget, List.mem_toFinset, List.mem_append]
    by_cases hkey : key ∈ views
    · simp [hkey]
    · rw [if_neg hkey, ne_eq, List.getLast?_eq_none_iff, FileName.ofStem_eq_nil_iff, not_not]
      simp [hkey]

end Registry

/-- **What a run over views registers.** If it succeeds, its registry is that of the views and of the
component files that were found. While the components are registered, each file that is not the
first of its stem is told of, in the order of the files, and nothing else is told but what the
walk tells, which is of another kind. -/
theorem isOf_of_analyzeViews {p : Project} {viewsDir componentsDir : String}
    {ignore : List String} {a : Analysis}
    (h : (analyzeViews p viewsDir componentsDir ignore).result = .ok a) :
    ∃ views files, (Walk.through p viewsDir ignore).files.value = .ok views ∧
      (Walk.through p componentsDir ignore).files.value = .ok files ∧
      a.registry.IsOf views files ∧
      (discoverComponents (Walk.through p componentsDir ignore)).log =
        (Walk.through p componentsDir ignore).files.log ++ replacements files ∧
      (discoverComponents (Walk.through p componentsDir ignore)).log.countP
          (·.TellsReplacement) + (files.filterMap FileName.stem?).toFinset.card =
        files.length := by
  obtain ⟨components, views, hcomponents, hviews, hregistry, -⟩ := exists_of_analyzeViews h
  obtain ⟨files, hfiles, rfl⟩ := exists_files_of_setupRegistry hcomponents
  have hlog := log_discoverComponents hfiles
  refine ⟨views, files, hviews, hfiles, ?_, hlog, ?_⟩
  · rw [hregistry]
    exact Registry.isOf_setAll views (Walk.pairwise_bytes_files hfiles)
  · have hwalk : (Walk.through p componentsDir ignore).files.log.countP
        (·.TellsReplacement) = 0 := by
      rw [List.countP_eq_zero]
      intro n hn
      simpa using Walk.not_tellsReplacement_of_mem_files hn
    have htold : (replacements files).countP (·.TellsReplacement) =
        (replacements files).length := by
      rw [List.countP_eq_length]
      intro n hn
      simpa using tellsReplacement_of_mem hn
    have hstems : (files.filterMap FileName.stem?).length = files.length := by
      rw [List.filterMap_length_eq_length]
      intro file hfile
      obtain ⟨key, hkey⟩ := FileName.exists_stem?_of_isComponent (Walk.mem_files hfiles hfile).1
      rw [hkey]
      rfl
    rw [hlog, List.countP_append, hwalk, htold, Nat.zero_add, length_replacements, hstems]

/-- Two components have one stem, and the view mentions it. -/
def shelves : Project where
  base := Path.root
  files :=
    { medium := .memory
      entries :=
        [(Path.root, .directory),
          (⟨["stock"], by decide⟩, .directory),
          (⟨["stock", "Card.vue"], by decide⟩, .file (.text "")),
          (⟨["stock", "old"], by decide⟩, .directory),
          (⟨["stock", "old", "Card.vue"], by decide⟩, .file (.text "")),
          (⟨["front"], by decide⟩, .directory),
          (⟨["front", "Shop.vue"], by decide⟩, .file (.text "<template><Card/></template>"))]
      distinct := by decide }

def shelvesAnalysis : Analysis where
  registry := .ofList [("Card", "stock/old/Card.vue"), ("front/Shop.vue", "front/Shop.vue")]
  trees := [.withEdges "front/Shop.vue" [.bare "Card"]]

theorem files_shelves : (Walk.through shelves "stock" []).files.value =
    .ok ["stock/Card.vue", "stock/old/Card.vue"] := by
  have hchildren : shelves.files.children ⟨["stock"], by decide⟩ =
      [⟨["stock", "Card.vue"], by decide⟩, ⟨["stock", "old"], by decide⟩] := by
    decide +kernel
  exact Walk.files_of_ordered (by decide +kernel) (by decide +kernel) hchildren
    (by decide +kernel) (by decide +kernel) (by decide +kernel)

theorem analyzeViews_shelves :
    (analyzeViews shelves "front" "stock" []).result = .ok shelvesAnalysis := by
  have hsetup : (Attempt.ofStorage (setupRegistry shelves "stock" [])).result =
      .ok (.ofList [("Card", "stock/old/Card.vue")]) := by
    rw [Attempt.result_ofStorage, setupRegistry, Logged.value_bind, discoverComponents,
      Logged.value_bind, files_shelves]
    decide +kernel
  rw [analyzeViews, Attempt.result_bind_ok hsetup]
  decide +kernel

theorem isOf_of_analyzeViews_shelves :
    (analyzeViews shelves "front" "stock" []).result = .ok shelvesAnalysis ∧
      ∃ views, (Walk.through shelves "front" []).files.value = .ok views ∧
        shelvesAnalysis.registry.IsOf views ["stock/Card.vue", "stock/old/Card.vue"] ∧
        (discoverComponents (Walk.through shelves "stock" [])).log.countP
          (·.TellsReplacement) = 1 := by
  obtain ⟨views, files, hviews, hfiles, hregistry, -, hcount⟩ :=
    isOf_of_analyzeViews analyzeViews_shelves
  obtain rfl := Except.ok.inj (files_shelves.symm.trans hfiles)
  have hstems : (["stock/Card.vue", "stock/old/Card.vue"].filterMap
      FileName.stem?).toFinset.card = 1 := by
    decide +kernel
  rw [hstems] at hcount
  exact ⟨analyzeViews_shelves, views, hviews, hregistry, Nat.succ_injective hcount⟩

end ComponentGraph
