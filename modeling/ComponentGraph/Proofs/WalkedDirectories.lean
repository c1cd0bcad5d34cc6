import ComponentGraph.Proofs.WalkedFiles
/-!
# A walk through a part of the project

A walk through a directory below the base finds what the walk through the whole project finds below
that directory, in the same order, if the walk through the whole project comes to the directory at
all. Otherwise that walk finds nothing below it. Whether it comes there depends on the directories
on the way only: each has to be a directory, and none may be left out.
-/

namespace ComponentGraph

/-! ## Paths below a directory -/

namespace Path

variable {a d q : Path} {n : Nat}

/-- The written path leads to something below the directory. -/
def isAbove (d : Path) (written : String) : Bool :=
  (d.written ++ "/").toList.isPrefixOf written.toList

theorem isAbove_written_iff (hd : d ≠ root) :
    d.isAbove q.written = true ↔ q.take d.depth = d ∧ d.depth < q.depth := by
  have hslash : (d.written ++ "/").toList = d.written.toList ++ ['/'] := String.toList_append
  rw [isAbove, List.isPrefixOf_iff_prefix, hslash]
  constructor
  · rintro ⟨rest, hrest⟩
    have hq : q ≠ root := by
      rintro rfl
      simp at hrest
    have hnames : q.names.map String.toList =
        d.names.map String.toList ++ Text.splitOn '/' rest := by
      rw [← splitOn_written hq, ← splitOn_written hd, ← Text.splitOn_append_cons, ← hrest,
        List.append_assoc, List.singleton_append]
    have hlength := congrArg List.length hnames
    have hpieces := List.length_pos_iff.mpr (Text.splitOn_ne_nil '/' rest)
    simp only [List.length_map, List.length_append] at hlength
    refine ⟨ext ?_, ?_⟩
    · have htake := congrArg (List.take d.names.length) hnames
      rw [← List.map_take, List.take_left' (List.length_map _)] at htake
      exact (List.map_inj_right fun _ _ => String.toList_inj.mp).mp htake
    · show d.names.length < q.names.length
      omega
  · rintro ⟨hbelow, hdeeper⟩
    have hpos : 0 < d.depth := List.length_pos_iff.mpr (names_ne_nil hd)
    refine ⟨(q.drop d.depth).written.toList, ?_⟩
    rw [toList_written_take hpos hdeeper, hbelow]

theorem depth_le_of_take (hbelow : d.take a.depth = a) : a.depth ≤ d.depth := by
  have hdepth := congrArg depth hbelow
  rw [depth_take] at hdepth
  omega

theorem take_of_take_eq (hbelow : q.take d.depth = d) (hn : n ≤ d.depth) : q.take n = d.take n := by
  rw [← hbelow, take_take, Nat.min_eq_left hn]

end Path

/-! ## The way to a directory -/

namespace Project

variable {project : Project} {patterns : List String} {a d q : Path}

/-- A visit of the directory `a` comes to `d`: what lies on the way down to `d`, and `d` itself, are
directories that are not left out. -/
structure Leads (project : Project) (patterns : List String) (a d : Path) : Prop where
  below : d.take a.depth = a
  reached : ∀ n ≤ d.depth, a.depth < n →
    project.files.isDirectory (project.base.append (d.take n)) = true
  kept : ∀ n ≤ d.depth, a.depth < n → ¬ project.LeavesOut patterns (d.take n)

theorem leads_self (project : Project) (patterns : List String) (a : Path) :
    project.Leads patterns a a where
  below := a.take_depth
  reached n hn hlt := by omega
  kept n hn hlt := by omega

/-- The way leads through the next directory, which is kept, or is at its end. -/
theorem leads_iff :
    project.Leads patterns a d ↔ d = a ∨ ∃ name, ∃ h : IsPlainName name,
      project.files.isDirectory (project.base.append (a.child name h)) = true ∧
        ¬ project.LeavesOut patterns (a.child name h) ∧
          project.Leads patterns (a.child name h) d := by
  constructor
  · intro hleads
    rcases Nat.lt_or_ge a.depth d.depth with hlt | hge
    · obtain ⟨name, h, hnext⟩ := Path.exists_child_of_take hleads.below hlt
      have hdepth := Path.depth_child a name h
      refine .inr ⟨name, h, ?_, ?_, ?_, fun n hn hlt => ?_, fun n hn hlt => ?_⟩
      · exact hnext ▸ hleads.reached _ hlt (Nat.lt_succ_self _)
      · exact hnext ▸ hleads.kept _ hlt (Nat.lt_succ_self _)
      · rw [hdepth, hnext]
      · exact hleads.reached n hn (by omega)
      · exact hleads.kept n hn (by omega)
    · have hbelow := hleads.below
      exact .inl (hbelow ▸ (Path.ext (List.take_of_length_le hge)).symm)
  · rintro (rfl | ⟨name, h, hdirectory, hkept, hleads⟩)
    · exact project.leads_self patterns d
    · have hdepth := Path.depth_child a name h
      have hnext : d.take (a.depth + 1) = a.child name h := hdepth ▸ hleads.below
      refine ⟨?_, fun n hn hlt => ?_, fun n hn hlt => ?_⟩
      · have htake := Path.take_take d a.depth (a.depth + 1)
        rw [hnext, Path.take_child (Nat.le_refl _), Path.take_depth,
          Nat.min_eq_left (Nat.le_succ _)] at htake
        exact htake.symm
      · rcases Nat.lt_or_eq_of_le (Nat.succ_le_of_lt hlt) with hlt | rfl
        · exact hleads.reached n hn (hdepth ▸ hlt)
        · exact hnext ▸ hdirectory
      · rcases Nat.lt_or_eq_of_le (Nat.succ_le_of_lt hlt) with hlt | rfl
        · exact hleads.kept n hn (hdepth ▸ hlt)
        · exact hnext ▸ hkept

/-- What is found below `a` and lies below `d` is what is found from `d`, if the way leads there. -/
theorem finds_below_iff (ha : a.depth ≤ d.depth) :
    project.Finds patterns a q ∧ q.take d.depth = d ∧ d.depth < q.depth ↔
      project.Leads patterns a d ∧ project.Finds patterns d q := by
  constructor
  · rintro ⟨hfinds, hbelow, hdeeper⟩
    have hsame : ∀ n ≤ d.depth, q.take n = d.take n := fun n => Path.take_of_take_eq hbelow
    refine ⟨⟨?_, fun n hn hlt => ?_, fun n hn hlt => ?_⟩, ?_⟩
    · rw [← hsame _ ha, hfinds.below]
    · exact hsame n hn ▸ hfinds.reached n (by omega) hlt
    · exact hsame n hn ▸ hfinds.kept n (by omega) hlt
    · exact { hfinds with
        below := hbelow
        deeper := hdeeper
        reached := fun n hn hlt => hfinds.reached n hn (by omega)
        kept := fun n hn hlt => hfinds.kept n hn (by omega) }
  · rintro ⟨hleads, hfinds⟩
    have hsame : ∀ n ≤ d.depth, q.take n = d.take n := fun n => Path.take_of_take_eq hfinds.below
    have hdeeper := hfinds.deeper
    refine ⟨{ hfinds with
      below := by rw [hsame _ ha, hleads.below]
      deeper := by omega
      reached := fun n hn hlt => ?_
      kept := fun n hn hlt => ?_ }, hfinds.below, hfinds.deeper⟩
    · rcases Nat.lt_or_ge d.depth n with hlt' | hle
      · exact hfinds.reached n hn hlt'
      · exact hsame n hle ▸ hleads.reached n hle hlt
    · rcases Nat.lt_or_ge d.depth n with hlt' | hle
      · exact hfinds.kept n hn hlt'
      · exact hsame n hle ▸ hleads.kept n hle hlt

end Project

namespace Walk

variable {w : Walk}

/-- A visit of a directory, with the ignore files in force above it, comes to a directory. -/
inductive Enters (w : Walk) (globs : List Glob) : List IgnoreFile → Path → Path → Prop
  | here {above : List IgnoreFile} {dir : Path} : w.Enters globs above dir dir
  | inside {above : List IgnoreFile} {dir entry p : Path} :
      entry ∈ w.entries dir → w.skips globs (w.enter above dir).value entry = false →
        w.project.files.isDirectory entry = true →
          w.Enters globs (w.enter above dir).value entry p → w.Enters globs above dir p

/-- The walk comes to a directory. -/
def ComesTo (w : Walk) (p : Path) : Prop :=
  ∃ start, FileSystem.locate w.project.base w.dir = .ok start ∧
    w.project.files.entry? start = some .directory ∧
      w.Enters (globs w.patterns).value (w.enterAll [] w.above).value start p

theorem leads_of_enters {above : List IgnoreFile} {a p : Path}
    (henter : (w.enter above (w.project.base.append a)).value = w.project.ignoreFiles a)
    (h : w.Enters (globs w.patterns).value above (w.project.base.append a) p) :
    ∃ d, p = w.project.base.append d ∧ w.project.Leads w.patterns a d := by
  generalize hdir : w.project.base.append a = dir at h
  induction h generalizing a with
  | here => exact ⟨a, hdir.symm, w.project.leads_self w.patterns a⟩
  | inside hentry hkept hdirectory _ ih =>
    subst hdir
    obtain ⟨-, name, hname, rfl⟩ := mem_entries_append.mp hentry
    rw [henter] at hkept ih
    obtain ⟨d, hp, hleads⟩ := ih (w.value_enter_child a name hname) rfl
    have hleft := mt (skips_iff rfl).mpr (ne_true_of_eq_false hkept)
    exact ⟨d, hp, Project.leads_iff.mpr (.inr ⟨name, hname, hdirectory, hleft, hleads⟩)⟩

theorem enters_of_leads {above : List IgnoreFile} {a d : Path}
    (henter : (w.enter above (w.project.base.append a)).value = w.project.ignoreFiles a)
    (h : w.project.Leads w.patterns a d) :
    w.Enters (globs w.patterns).value above (w.project.base.append a)
      (w.project.base.append d) := by
  obtain rfl | ⟨name, hname, hdirectory, hkept, hleads⟩ := Project.leads_iff.mp h
  · exact .here
  · have hlisted := FileSystem.mem_entries_of_isDirectory hdirectory
    refine .inside (mem_entries_append.mpr ⟨hlisted, name, hname, rfl⟩) ?_ hdirectory ?_
    · rw [henter]
      exact eq_false_of_ne_true (mt (skips_iff rfl).mp hkept)
    · rw [henter]
      exact enters_of_leads (w.value_enter_child a name hname) hleads
termination_by d.depth - a.depth
decreasing_by
  have hdepth := Path.depth_child a name hname
  have hle := Path.depth_le_of_take hleads.below
  omega

/-! ## Walks through two directories of a project -/

variable {project : Project} {patterns : List String} {a d : Path}

theorem locate_through (project : Project) (d : Path) (patterns : List String) :
    FileSystem.locate project.base (through project d.written patterns).dir =
      .ok (project.base.append d) := by
  rw [through, Path.normalize_written, FileSystem.locate, Path.join?_written]

/-- The ignore files that are loaded ahead of a visit are those that a walk from the base carries
along when it comes to the directory. -/
theorem value_enter_through (project : Project) (d : Path) (patterns : List String) :
    let w := through project d.written patterns
    (w.enter (w.enterAll [] w.above).value (w.project.base.append d)).value =
      w.project.ignoreFiles d := by
  intro w
  have habove : w.above = ((List.range d.depth).map d.take).map w.project.base.append :=
    above_through project d patterns
  rw [habove, value_enterAll, value_enter, Project.ignoreFiles_eq, List.append_nil,
    ← List.map_reverse, List.filterMap_map]
  rfl

theorem comesTo_append_iff : (through project a.written patterns).ComesTo
    (project.base.append d) ↔
      project.files.isDirectory (project.base.append a) = true ∧ project.Leads patterns a d := by
  have henter := value_enter_through project a patterns
  constructor
  · rintro ⟨start, hstart, hdirectory, henters⟩
    obtain rfl : project.base.append a = start :=
      Except.ok.inj ((locate_through project a patterns).symm.trans hstart)
    obtain ⟨d', hd', hleads⟩ := leads_of_enters henter henters
    obtain rfl := Path.append_injective hd'
    exact ⟨decide_eq_true hdirectory, hleads⟩
  · rintro ⟨hdirectory, hleads⟩
    exact ⟨_, locate_through project a patterns, of_decide_eq_true hdirectory,
      enters_of_leads henter hleads⟩

/-- From the base, a walk comes to a directory if it is let through on every step of the way. -/
theorem comesTo_iff : (through project "" patterns).ComesTo (project.base.append d) ↔
    ∀ n ≤ d.depth, project.files.isDirectory (project.base.append (d.take n)) = true ∧
      (0 < n → ¬ project.LeavesOut patterns (d.take n)) := by
  rw [← Path.written_root, comesTo_append_iff]
  constructor
  · rintro ⟨hbase, hleads⟩ n hn
    refine ⟨?_, hleads.kept n hn⟩
    rcases Nat.eq_zero_or_pos n with rfl | hpos
    · exact hbase
    · exact hleads.reached n hn hpos
  · intro hway
    exact ⟨(hway 0 (Nat.zero_le _)).1, rfl, fun n hn _ => (hway n hn).1, fun n hn => (hway n hn).2⟩

/-- The found files that lie below a directory are those that are found from there, if the visit
comes there. -/
theorem mem_filter_isAbove {above : List IgnoreFile} (hd : d ≠ Path.root)
    (ha : a.depth ≤ d.depth)
    (henter : (w.enter above (w.project.base.append a)).value = w.project.ignoreFiles a)
    {s : String} :
    s ∈ (w.visit (globs w.patterns).value above (w.project.base.append a)).value.filter
      d.isAbove ↔ w.project.Leads w.patterns a d ∧
        ∃ q : Path, q.written = s ∧ w.project.Finds w.patterns d q := by
  rw [List.mem_filter, mem_visit_iff henter]
  constructor
  · rintro ⟨⟨q, rfl, hfinds⟩, habove⟩
    obtain ⟨hleads, hfinds⟩ :=
      (Project.finds_below_iff ha).mp ⟨hfinds, (Path.isAbove_written_iff hd).mp habove⟩
    exact ⟨hleads, q, rfl, hfinds⟩
  · rintro ⟨hleads, q, rfl, hfinds⟩
    obtain ⟨hfinds, hbelow⟩ := (Project.finds_below_iff ha).mpr ⟨hleads, hfinds⟩
    exact ⟨⟨q, rfl, hfinds⟩, (Path.isAbove_written_iff hd).mpr hbelow⟩

/-- Sorting what is found does not get in the way of keeping a part of it. -/
theorem filter_mergeSort_of_perm {all part : List String} {keep : String → Bool}
    (h : (all.filter keep).Perm part) :
    (all.mergeSort fun s t => s ≤ t).filter keep = part.mergeSort fun s t => s ≤ t := by
  have hsorted := (ordered_mergeSort all).filter keep
  have hperm : ((all.mergeSort fun s t => s ≤ t).filter keep).Perm
      (part.mergeSort fun s t => s ≤ t) :=
    (((List.mergeSort_perm all _).filter keep).trans h).trans (List.mergeSort_perm part _).symm
  exact hperm.eq_of_pairwise (fun s t _ _ => String.le_antisymm) hsorted (ordered_mergeSort part)

/-- A visit that is let through to a directory finds below it what is found from there. -/
theorem filter_visit_perm {w' : Walk} {above above' : List IgnoreFile} (hd : d ≠ Path.root)
    (hleads : w.project.Leads w.patterns a d)
    (henter : (w.enter above (w.project.base.append a)).value = w.project.ignoreFiles a)
    (hproject : w'.project = w.project) (hpatterns : w'.patterns = w.patterns)
    (henter' : (w'.enter above' (w'.project.base.append d)).value = w'.project.ignoreFiles d) :
    ((w.visit (globs w.patterns).value above (w.project.base.append a)).value.filter
      d.isAbove).Perm
        (w'.visit (globs w'.patterns).value above' (w'.project.base.append d)).value := by
  have ha := Path.depth_le_of_take hleads.below
  rw [List.perm_ext_iff_of_nodup ((nodup_visit henter).filter _) (nodup_visit henter')]
  intro s
  rw [mem_filter_isAbove hd ha henter, mem_visit_iff henter', hproject, hpatterns,
    and_iff_right hleads]

/-- From what is no directory and has no component's path, nothing is found. -/
theorem files_of_isDirectory_eq_false {start : Path}
    (hstart : FileSystem.locate w.project.base w.dir = .ok start)
    (hdirectory : w.project.files.isDirectory start = false)
    (hcomponent : FileName.isComponent (w.relative start) = false) : w.files.value = .ok [] := by
  rw [files, hstart]
  cases hentry : w.project.files.entry? start with
  | none => simp only [hentry, Logged.value_bind, Logged.value_pure]
  | some entry =>
    cases entry with
    | directory => exact absurd hentry (of_decide_eq_false hdirectory)
    | file content => simp [hentry, hcomponent]

end Walk

end ComponentGraph
