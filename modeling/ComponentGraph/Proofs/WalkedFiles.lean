import ComponentGraph.Proofs.Walking
import ComponentGraph.Text.Bytes
import Mathlib.Data.List.Nodup
/-!
# The files that a walk finds

A walk through a directory of the project finds the component files below it that nothing leaves
out on the way. Every entry on the way is judged on its own path: by its name if it is a directory,
by the patterns, and by the ignore files of the directories from the base down to its parent, of
which the deepest that says anything of the entry decides. So the ignore files that a walk carries
along are at every directory those of the directories above it and its own, whatever was visited
before.
-/

namespace ComponentGraph

/-! ## What leaves an entry out -/

namespace Project

/-- The rules of the ignore file in a directory below the base, if there is one that can be used. -/
def rulesIn? (project : Project) (dir : Path) : Option (List Ignore.Rule) :=
  let file := (project.base.append dir).child ignoreFileName isPlainName_ignoreFileName
  (project.files.readText file).toOption.bind fun source => (Ignore.rules source).toOption

/-- What the ignore file of the `n`-th directory on the way to an entry says of the entry. -/
def verdictAt? (project : Project) (q : Path) (n : Nat) : Option Ignore.Verdict :=
  (project.rulesIn? (q.take n)).bind fun rules =>
    Ignore.verdict rules (q.drop n).written (project.files.isDirectory (project.base.append q))

/-- Why an entry below the base is left out. -/
inductive LeavesOut (project : Project) (patterns : List String) (q : Path) : Prop where
  | skipped (name : String)
      (directory : project.files.isDirectory (project.base.append q) = true)
      (last : q.names.getLast? = some name) (mem : name ∈ skippedDirectories)
  | matched (pattern : String) (g : Glob) (mem : pattern ∈ patterns)
      (valid : Glob.parse pattern = .ok g) (isMatch : g.isMatch q.written = true)
  /-- Of the directories above the entry, the deepest whose ignore file says anything of it. -/
  | ignored (n : Nat) (above : n < q.depth) (leftOut : project.verdictAt? q n = some .leftOut)
      (deepest : ∀ m < q.depth, n < m → project.verdictAt? q m = none)

/-- The entry is a component file below the directory, and neither it nor a directory on the way to
it is left out. What is listed by its directory and is itself no directory counts as a file. -/
structure Finds (project : Project) (patterns : List String) (d q : Path) : Prop where
  below : q.take d.depth = d
  deeper : d.depth < q.depth
  listed : project.base.append q ∈ project.files.entries.map Prod.fst
  noDirectory : project.files.isDirectory (project.base.append q) = false
  component : FileName.isComponent q.written = true
  reached : ∀ n < q.depth, d.depth < n →
    project.files.isDirectory (project.base.append (q.take n)) = true
  kept : ∀ n ≤ q.depth, d.depth < n → ¬ project.LeavesOut patterns (q.take n)

end Project

/-! ## First names -/

namespace Path

variable {p q : Path} {n m : Nat}

@[simp] theorem depth_take : (p.take n).depth = min n p.depth := List.length_take

theorem take_depth (p : Path) : p.take p.depth = p := Path.ext List.take_length

theorem take_take (p : Path) (n m : Nat) : (p.take m).take n = p.take (min n m) :=
  Path.ext List.take_take

theorem drop_zero (p : Path) : p.drop 0 = p := rfl

theorem take_child {name : String} {h : IsPlainName name} (hn : n ≤ p.depth) :
    (p.child name h).take n = p.take n :=
  Path.ext (List.take_append_of_le_length hn)

/-- The next name on the way to a path below another. -/
theorem exists_child_of_take (hbelow : q.take p.depth = p) (hdeeper : p.depth < q.depth) :
    ∃ name, ∃ h : IsPlainName name, q.take (p.depth + 1) = p.child name h := by
  have hlt : p.depth < q.names.length := hdeeper
  refine ⟨q.names[p.depth], q.plain _ (List.getElem_mem hlt), Path.ext ?_⟩
  have hnames : q.names.take p.depth = p.names := congrArg names hbelow
  show q.names.take (p.depth + 1) = p.names ++ [q.names[p.depth]]
  rw [List.take_succ_eq_append_getElem hlt, hnames]

theorem append_child (base p : Path) {name : String} (h : IsPlainName name) :
    (base.append p).child name h = base.append (p.child name h) :=
  Path.ext (List.append_assoc base.names p.names [name])

theorem append_injective {base : Path} (h : base.append p = base.append q) : p = q :=
  Path.ext (List.append_cancel_left (congrArg names h))

end Path

theorem FileSystem.mem_entries_of_isDirectory {fs : FileSystem} {p : Path}
    (h : fs.isDirectory p = true) : p ∈ fs.entries.map Prod.fst := by
  rw [isDirectory, decide_eq_true_eq, entry?] at h
  split at h
  · cases h
  · rw [held?, Option.map_eq_some_iff] at h
    obtain ⟨entry, hfind, -⟩ := h
    have hp : entry.1 = p := by simpa using List.find?_some hfind
    exact List.mem_map.mpr ⟨entry, List.mem_of_find?_eq_some hfind, hp⟩

/-- What is listed and is no directory is a file, unless the medium refuses its path. -/
theorem FileSystem.isFile_of_mem_entries {fs : FileSystem} {p : Path}
    (hlisted : p ∈ fs.entries.map Prod.fst) (hdirectory : fs.isDirectory p = false)
    (hmedium : fs.medium.refusal? p = none) : fs.isFile p = true := by
  obtain ⟨entry, hmem, rfl⟩ := List.mem_map.mp hlisted
  have hheld : (fs.held? entry.1).isSome = true := by
    rw [held?, Option.isSome_map, List.find?_isSome]
    exact ⟨entry, hmem, by simp⟩
  obtain ⟨found, hfound⟩ := Option.isSome_iff_exists.mp hheld
  rw [isDirectory, decide_eq_false_iff_not, entry?_eq_held? hmedium, hfound] at hdirectory
  rw [isFile, entry?_eq_held? hmedium, hfound]
  cases found with
  | file content => rfl
  | directory => exact absurd rfl hdirectory

theorem FileSystem.mem_children {fs : FileSystem} {dir p : Path} :
    p ∈ fs.children dir ↔
      p ∈ fs.entries.map Prod.fst ∧ ∃ name, ∃ h : IsPlainName name, p = dir.child name h := by
  simp only [children, List.mem_filter, Bool.and_eq_true, decide_eq_true_eq]
  refine and_congr_right fun _ => ⟨?_, ?_⟩
  · rintro ⟨hdepth, hparent⟩
    have hne : p.names ≠ [] := List.ne_nil_of_length_eq_add_one hdepth
    refine ⟨p.names.getLast hne, p.plain _ (List.getLast_mem hne), Path.ext ?_⟩
    have hnames : p.names.dropLast = dir.names := congrArg Path.names hparent
    show p.names = dir.names ++ [p.names.getLast hne]
    rw [← hnames, List.dropLast_append_getLast]
  · rintro ⟨name, h, rfl⟩
    exact ⟨Path.depth_child dir name h, Path.ext List.dropLast_concat⟩

/-! ## The ignore files in force -/

/-- The first that a function is defined at, from the greatest number on. -/
theorem findSome?_reverse_range {β : Type} {f : Nat → Option β} {n : Nat} {b : β} :
    (List.range n).reverse.findSome? f = some b ↔
      ∃ k < n, f k = some b ∧ ∀ m < n, k < m → f m = none := by
  induction n with
  | zero => simp
  | succ n ih =>
    rw [List.range_succ, List.reverse_append, List.reverse_singleton, List.singleton_append,
      List.findSome?_cons]
    cases hn : f n with
    | some c =>
      constructor
      · rintro ⟨⟩
        exact ⟨n, Nat.lt_succ_self n, hn, by omega⟩
      · rintro ⟨k, hk, hkb, hdeepest⟩
        rcases Nat.lt_succ_iff_lt_or_eq.mp hk with hk | rfl
        · rw [hdeepest n (Nat.lt_succ_self n) hk] at hn
          cases hn
        · exact hn.symm.trans hkb
    | none =>
      rw [ih]
      constructor
      · rintro ⟨k, hk, hkb, hdeepest⟩
        refine ⟨k, Nat.lt_succ_of_lt hk, hkb, fun m hm hkm => ?_⟩
        rcases Nat.lt_succ_iff_lt_or_eq.mp hm with hm | rfl
        · exact hdeepest m hm hkm
        · exact hn
      · rintro ⟨k, hk, hkb, hdeepest⟩
        have hne : k ≠ n := by
          rintro rfl
          cases hn.symm.trans hkb
        exact ⟨k, by omega, hkb, fun m hm hkm => hdeepest m (Nat.lt_succ_of_lt hm) hkm⟩

namespace Project

variable {project : Project} {patterns : List String}

/-- The ignore file in a directory below the base. -/
def ignoreFile? (project : Project) (dir : Path) : Option IgnoreFile :=
  (project.rulesIn? dir).map fun rules => ⟨dir.written, rules⟩

/-- The ignore files in force in a directory below the base: its own and those of the directories
above it, the deepest first. -/
def ignoreFiles (project : Project) (dir : Path) : List IgnoreFile :=
  (List.range (dir.depth + 1)).reverse.filterMap fun n => project.ignoreFile? (dir.take n)

theorem ignoreFiles_eq (project : Project) (dir : Path) :
    project.ignoreFiles dir = (project.ignoreFile? dir).toList ++
      (List.range dir.depth).reverse.filterMap fun n => project.ignoreFile? (dir.take n) := by
  rw [ignoreFiles, List.range_succ, List.reverse_append, List.reverse_singleton,
    List.singleton_append, List.filterMap_cons, dir.take_depth]
  cases project.ignoreFile? dir with
  | none => rfl
  | some file => rfl

/-- A directory adds its own ignore file to those in force above it. -/
theorem ignoreFiles_child (project : Project) (dir : Path) {name : String} (h : IsPlainName name) :
    project.ignoreFiles (dir.child name h) =
      (project.ignoreFile? (dir.child name h)).toList ++ project.ignoreFiles dir := by
  rw [ignoreFiles_eq, ignoreFiles, Path.depth_child]
  congr 1
  apply List.filterMap_congr
  intro n hn
  rw [List.mem_reverse, List.mem_range] at hn
  rw [Path.take_child (Nat.le_of_lt_succ hn)]

/-- A directory above an entry shows its ignore file the rest of the entry's path. -/
theorem below?_written {q : Path} {n : Nat} (hn : n < q.depth) (rules : List Ignore.Rule) :
    (IgnoreFile.mk (q.take n).written rules).below? q.written = some (q.drop n).written := by
  rw [IgnoreFile.below?]
  rcases Nat.eq_zero_or_pos n with rfl | hpos
  · rfl
  · have hroot : (q.take n).written ≠ "" := by
      rw [ne_eq, Path.written_eq_empty_iff]
      intro hroot
      have hdepth := congrArg Path.depth hroot
      rw [Path.depth_take, Nat.min_eq_left (Nat.le_of_lt hn)] at hdepth
      exact Nat.ne_of_gt hpos hdepth
    have hsplit := Path.toList_written_take hpos hn
    rw [if_neg hroot]
    simp only [hsplit, List.isPrefixOf_iff_prefix, List.prefix_append, if_true, List.drop_left,
      String.ofList_toList]

theorem verdict_ignoreFile? {q : Path} {n : Nat} (hn : n < q.depth) :
    ((project.ignoreFile? (q.take n)).bind fun file =>
      file.verdict q.written (project.files.isDirectory (project.base.append q))) =
      project.verdictAt? q n := by
  rw [ignoreFile?, verdictAt?, Option.bind_map]
  congr 1
  funext rules
  rw [Function.comp_apply, IgnoreFile.verdict, below?_written hn]
  rfl

theorem leaveOut_ignoreFiles_iff {a q : Path} {name : String} {h : IsPlainName name}
    (hq : q = a.child name h) :
    IgnoreFile.leaveOut (project.ignoreFiles a) q.written
        (project.files.isDirectory (project.base.append q)) = true ↔
      ∃ n < q.depth, project.verdictAt? q n = some .leftOut ∧
        ∀ m < q.depth, n < m → project.verdictAt? q m = none := by
  have hdepth : q.depth = a.depth + 1 := hq ▸ Path.depth_child a name h
  have hverdicts : (project.ignoreFiles a).findSome? (·.verdict q.written
      (project.files.isDirectory (project.base.append q))) =
      (List.range q.depth).reverse.findSome? (project.verdictAt? q) := by
    rw [← List.head?_filterMap, ignoreFiles, List.filterMap_filterMap, ← List.head?_filterMap,
      hdepth]
    congr 1
    apply List.filterMap_congr
    intro n hn
    rw [List.mem_reverse, List.mem_range] at hn
    have htake : a.take n = q.take n := hq ▸ (Path.take_child (Nat.le_of_lt_succ hn)).symm
    rw [htake]
    exact verdict_ignoreFile? (hdepth ▸ hn)
  rw [IgnoreFile.leaveOut, decide_eq_true_eq, hverdicts, findSome?_reverse_range]

/-! ## The files below a directory -/

variable {a q : Path} {name : String} {h : IsPlainName name}

theorem finds_child (hlisted : project.base.append (a.child name h) ∈
      project.files.entries.map Prod.fst)
    (hkept : ¬ project.LeavesOut patterns (a.child name h))
    (hdirectory : project.files.isDirectory (project.base.append (a.child name h)) = false)
    (hcomponent : FileName.isComponent (a.child name h).written = true) :
    project.Finds patterns a (a.child name h) := by
  have hdepth := Path.depth_child a name h
  exact {
    below := by rw [Path.take_child (Nat.le_refl _), Path.take_depth]
    deeper := by omega
    listed := hlisted
    noDirectory := hdirectory
    component := hcomponent
    reached := fun n hn hlt => by omega
    kept := fun n hn hlt => by
      obtain rfl : n = (a.child name h).depth := by omega
      rwa [Path.take_depth] }

theorem Finds.of_child (hfinds : project.Finds patterns (a.child name h) q)
    (hkept : ¬ project.LeavesOut patterns (a.child name h))
    (hdirectory : project.files.isDirectory (project.base.append (a.child name h)) = true) :
    project.Finds patterns a q := by
  have hdepth := Path.depth_child a name h
  have hnext : q.take (a.depth + 1) = a.child name h := hdepth ▸ hfinds.below
  have hdeeper := hfinds.deeper
  have hbelow : (q.take (a.depth + 1)).take a.depth = a := by
    rw [hnext, Path.take_child (Nat.le_refl _), Path.take_depth]
  exact {
    below := by rwa [Path.take_take, Nat.min_eq_left (Nat.le_succ _)] at hbelow
    deeper := by omega
    listed := hfinds.listed
    noDirectory := hfinds.noDirectory
    component := hfinds.component
    reached := fun n hn hlt => by
      rcases Nat.lt_or_eq_of_le (Nat.succ_le_of_lt hlt) with hlt | rfl
      · exact hfinds.reached n hn (hdepth ▸ hlt)
      · exact hnext ▸ hdirectory
    kept := fun n hn hlt => by
      rcases Nat.lt_or_eq_of_le (Nat.succ_le_of_lt hlt) with hlt | rfl
      · exact hfinds.kept n hn (hdepth ▸ hlt)
      · exact hnext ▸ hkept }

theorem Finds.child (hfinds : project.Finds patterns a q)
    (hnext : q.take (a.depth + 1) = a.child name h) (hlt : a.depth + 1 < q.depth) :
    project.Finds patterns (a.child name h) q := by
  have hdepth := Path.depth_child a name h
  exact {
    below := by rw [hdepth, hnext]
    deeper := hdepth ▸ hlt
    listed := hfinds.listed
    noDirectory := hfinds.noDirectory
    component := hfinds.component
    reached := fun n hn hlt => hfinds.reached n hn (by omega)
    kept := fun n hn hlt => hfinds.kept n hn (by omega) }

theorem Finds.isFile (hfinds : project.Finds patterns a q)
    (hmedium : project.files.medium.refusal? (project.base.append q) = none) :
    project.files.isFile (project.base.append q) = true :=
  FileSystem.isFile_of_mem_entries hfinds.listed hfinds.noDirectory hmedium

/-- A file is found below a directory if it is an entry of it that is kept, or is found below a
directory in it that is kept. -/
theorem finds_iff :
    project.Finds patterns a q ↔ ∃ name, ∃ h : IsPlainName name,
      project.base.append (a.child name h) ∈ project.files.entries.map Prod.fst ∧
      ¬ project.LeavesOut patterns (a.child name h) ∧
      if project.files.isDirectory (project.base.append (a.child name h)) then
        project.Finds patterns (a.child name h) q
      else FileName.isComponent (a.child name h).written = true ∧ q = a.child name h := by
  constructor
  · intro hfinds
    obtain ⟨name, h, hnext⟩ := Path.exists_child_of_take hfinds.below hfinds.deeper
    have hkept := hfinds.kept _ hfinds.deeper (Nat.lt_succ_self _)
    rcases Nat.lt_or_eq_of_le (Nat.succ_le_of_lt hfinds.deeper) with hlt | heq
    · have hdirectory := hfinds.reached _ hlt (Nat.lt_succ_self _)
      rw [hnext] at hdirectory hkept
      refine ⟨name, h, FileSystem.mem_entries_of_isDirectory hdirectory, hkept, ?_⟩
      rw [if_pos hdirectory]
      exact hfinds.child hnext hlt
    · have hq : q.take (a.depth + 1) = q := by
        rw [show a.depth + 1 = q.depth from heq, Path.take_depth]
      rw [hq] at hnext hkept
      subst hnext
      refine ⟨name, h, hfinds.listed, hkept, ?_⟩
      rw [if_neg (ne_true_of_eq_false hfinds.noDirectory)]
      exact ⟨hfinds.component, rfl⟩
  · rintro ⟨name, h, hlisted, hkept, hrest⟩
    split at hrest
    · rename_i hdirectory
      exact hrest.of_child hkept hdirectory
    · rename_i hdirectory
      obtain ⟨hcomponent, rfl⟩ := hrest
      exact finds_child hlisted hkept (eq_false_of_ne_true hdirectory) hcomponent

end Project

theorem FileSystem.exists?_of_readText {fs : FileSystem} {p : Path} {source : String}
    (h : fs.readText p = .ok source) : fs.exists? p = true := by
  rw [readText] at h
  rw [exists?]
  cases hentry : fs.entry? p with
  | none =>
    rw [hentry] at h
    cases h
  | some entry => rfl

namespace Walk

variable {w : Walk}

theorem relative_append (w : Walk) (q : Path) :
    w.relative (w.project.base.append q) = q.written :=
  Path.relativeTo_append w.project.base q

theorem value_enter (w : Walk) (above : List IgnoreFile) (dir : Path) :
    (w.enter above (w.project.base.append dir)).value =
      (w.project.ignoreFile? dir).toList ++ above := by
  rw [enter, Project.ignoreFile?, Project.rulesIn?]
  simp only [relative_append]
  cases hread : w.project.files.readText
      ((w.project.base.append dir).child ignoreFileName isPlainName_ignoreFileName) with
  | error e =>
    split
    · rfl
    · rfl
  | ok source =>
    rw [if_pos (FileSystem.exists?_of_readText hread)]
    simp only [Except.toOption, Option.bind_some]
    cases Ignore.rules source with
    | error e => rfl
    | ok rules => rfl

/-- The ignore files in force in a directory are those in force above it and its own. -/
theorem value_enter_child (w : Walk) (a : Path) (name : String) (h : IsPlainName name) :
    (w.enter (w.project.ignoreFiles a) (w.project.base.append (a.child name h))).value =
      w.project.ignoreFiles (a.child name h) := by
  rw [value_enter, Project.ignoreFiles_child]

theorem value_enterAll (w : Walk) (above : List IgnoreFile) (dirs : List Path) :
    (w.enterAll above (dirs.map w.project.base.append)).value =
      dirs.reverse.filterMap w.project.ignoreFile? ++ above := by
  induction dirs generalizing above with
  | nil => rfl
  | cons dir dirs ih =>
    rw [List.map_cons, enterAll, Logged.value_bind, ih, value_enter, List.reverse_cons,
      List.filterMap_append, List.append_assoc, List.filterMap_cons]
    cases w.project.ignoreFile? dir with
    | none => rfl
    | some file => rfl

/-- The directories above the one that is walked are those on the way to it from the base. -/
theorem above_through (project : Project) (d : Path) (patterns : List String) :
    (through project d.written patterns).above =
      ((List.range d.depth).map d.take).map project.base.append := by
  rw [above, through, Path.normalize_written]
  by_cases h : d = Path.root
  · rw [h]
    rfl
  · have hfilter : (d.names.map String.toList).filter (· ≠ []) = d.names.map String.toList := by
      rw [List.filter_eq_self]
      intro piece hpiece
      obtain ⟨name, hname, rfl⟩ := List.mem_map.mp hpiece
      simpa using (d.plain name hname).1
    have hne : ¬ (d.names.map String.toList).isEmpty = true := by
      simpa using Path.names_ne_nil h
    simp only [Path.splitOn_written h, hfilter, if_neg hne, List.length_map, List.map_map]
    apply List.map_congr_left
    intro n _
    rw [← List.map_take]
    exact Path.foldl_step project.base (d.take n)

theorem mem_globs {patterns : List String} {g : Glob} :
    g ∈ (globs patterns).value ↔ ∃ pattern ∈ patterns, Glob.parse pattern = .ok g := by
  induction patterns with
  | nil => simp [globs]
  | cons pattern rest ih =>
    rw [globs, List.exists_mem_cons_iff, ← ih]
    cases hparse : Glob.parse pattern with
    | ok first => simp [eq_comm]
    | error e => simp

theorem skips_iff {a q : Path} {name : String} {h : IsPlainName name} (hq : q = a.child name h) :
    w.skips (globs w.patterns).value (w.project.ignoreFiles a) (w.project.base.append q) = true ↔
      w.project.LeavesOut w.patterns q := by
  have hne : q.names ≠ [] := by
    rw [hq]
    exact List.append_ne_nil_of_right_ne_nil a.names (List.cons_ne_nil name [])
  have hlast : (w.project.base.append q).names.getLast? = q.names.getLast? :=
    List.getLast?_append_of_ne_nil _ hne
  rw [skips, relative_append, hlast]
  simp only [Bool.or_eq_true, Bool.and_eq_true]
  rw [Project.leaveOut_ignoreFiles_iff hq]
  simp only [Option.any_eq_true, List.any_eq_true, List.contains_iff_mem]
  constructor
  · rintro ((⟨hdirectory, name, hname, hskipped⟩ | ⟨g, hg, hmatch⟩) | ⟨n, hn, hout, hdeepest⟩)
    · exact .skipped name hdirectory hname hskipped
    · obtain ⟨pattern, hpattern, hparse⟩ := mem_globs.mp hg
      exact .matched pattern g hpattern hparse hmatch
    · exact .ignored n hn hout hdeepest
  · rintro (⟨name, hdirectory, hname, hskipped⟩ | ⟨pattern, g, hpattern, hparse, hmatch⟩ |
      ⟨n, hn, hout, hdeepest⟩)
    · exact .inl (.inl ⟨hdirectory, name, hname, hskipped⟩)
    · exact .inl (.inr ⟨g, mem_globs.mpr ⟨pattern, hpattern, hparse⟩, hmatch⟩)
    · exact .inr ⟨n, hn, hout, hdeepest⟩

/-- What an entry adds, when the ignore files in force are those of its directory. -/
theorem mem_look {a q : Path} {name : String} {h : IsPlainName name} (hq : q = a.child name h)
    {s : String} :
    s ∈ (w.look (globs w.patterns).value (w.project.ignoreFiles a)
        (w.project.base.append q)).value ↔
      ¬ w.project.LeavesOut w.patterns q ∧
      if w.project.files.isDirectory (w.project.base.append q) then
        s ∈ (w.visit (globs w.patterns).value (w.project.ignoreFiles a)
          (w.project.base.append q)).value
      else FileName.isComponent q.written = true ∧ s = q.written := by
  rw [mem_look_iff, ← skips_iff hq, relative_append, Bool.not_eq_true]

theorem mem_entries_append {a p : Path} :
    p ∈ w.entries (w.project.base.append a) ↔
      p ∈ w.project.files.entries.map Prod.fst ∧
        ∃ name, ∃ h : IsPlainName name, p = w.project.base.append (a.child name h) := by
  rw [entries, List.mem_mergeSort, FileSystem.mem_children]
  simp only [Path.append_child]

/-- A visit finds the files below its directory, when the ignore files in force there are those of
the directories above it and its own. -/
theorem mem_visit_iff {above : List IgnoreFile} {a : Path}
    (henter : (w.enter above (w.project.base.append a)).value = w.project.ignoreFiles a)
    {s : String} :
    s ∈ (w.visit (globs w.patterns).value above (w.project.base.append a)).value ↔
      ∃ q : Path, q.written = s ∧ w.project.Finds w.patterns a q := by
  rw [visit_eq, Logged.value_bind, henter, mem_collect]
  constructor
  · rintro ⟨entry, hentry, hs⟩
    obtain ⟨hlisted, name, h, rfl⟩ := mem_entries_append.mp hentry
    obtain ⟨hkept, hs⟩ := (mem_look rfl).mp hs
    split at hs
    · rename_i hdirectory
      obtain ⟨q, hq, hfinds⟩ := (mem_visit_iff (w.value_enter_child a name h)).mp hs
      exact ⟨q, hq, hfinds.of_child hkept hdirectory⟩
    · rename_i hdirectory
      exact ⟨_, hs.2.symm, Project.finds_child hlisted hkept (eq_false_of_ne_true hdirectory) hs.1⟩
  · rintro ⟨q, rfl, hfinds⟩
    obtain ⟨name, h, hlisted, hkept, hrest⟩ := Project.finds_iff.mp hfinds
    refine ⟨_, mem_entries_append.mpr ⟨hlisted, name, h, rfl⟩, (mem_look rfl).mpr ⟨hkept, ?_⟩⟩
    split at hrest
    · rename_i hdirectory
      rw [if_pos hdirectory]
      exact (mem_visit_iff (w.value_enter_child a name h)).mpr ⟨q, rfl, hrest⟩
    · rename_i hdirectory
      rw [if_neg hdirectory, hrest.2]
      exact ⟨hrest.1, rfl⟩
termination_by w.project.files.height - (w.project.base.append a).depth
decreasing_by
  all_goals
    have hheight := FileSystem.depth_le_height hlisted
    rw [← Path.append_child, Path.depth_child] at hheight ⊢
    omega

/-! ## The order of what is found -/

theorem take_of_mem_look {a q : Path} {name : String} {h : IsPlainName name}
    (hq : q = a.child name h) {s : String}
    (hs : s ∈ (w.look (globs w.patterns).value (w.project.ignoreFiles a)
      (w.project.base.append q)).value) :
    ∃ r : Path, r.written = s ∧ r.take q.depth = q := by
  obtain ⟨-, hs⟩ := (mem_look hq).mp hs
  split at hs
  · subst hq
    obtain ⟨r, hr, hfinds⟩ := (mem_visit_iff (w.value_enter_child a name h)).mp hs
    exact ⟨r, hr, hfinds.below⟩
  · exact ⟨q, hs.2.symm, q.take_depth⟩

theorem nodup_entries (w : Walk) (dir : Path) : (w.entries dir).Nodup := by
  rw [entries, (List.mergeSort_perm _ _).nodup_iff]
  exact w.project.files.distinct.filter _

/-- No file is found twice: what is found of two entries of a directory lies below them. -/
theorem nodup_visit {above : List IgnoreFile} {a : Path}
    (henter : (w.enter above (w.project.base.append a)).value = w.project.ignoreFiles a) :
    (w.visit (globs w.patterns).value above (w.project.base.append a)).value.Nodup := by
  rw [visit_eq, Logged.value_bind, henter, value_collect, List.nodup_flatMap]
  constructor
  · intro entry hentry
    obtain ⟨hlisted, name, h, rfl⟩ := mem_entries_append.mp hentry
    rw [look]
    split
    · exact List.nodup_nil
    · split
      · exact nodup_visit (w.value_enter_child a name h)
      · split
        · exact List.nodup_singleton _
        · exact List.nodup_nil
  · apply (w.nodup_entries (w.project.base.append a)).imp_of_mem
    intro entry other hentry hother hne s hs hs'
    obtain ⟨-, name, h, rfl⟩ := mem_entries_append.mp hentry
    obtain ⟨-, name', h', rfl⟩ := mem_entries_append.mp hother
    obtain ⟨r, hr, hbelow⟩ := take_of_mem_look rfl hs
    obtain ⟨r', hr', hbelow'⟩ := take_of_mem_look rfl hs'
    obtain rfl : r = r' := Path.written_injective (hr.trans hr'.symm)
    rw [Path.depth_child] at hbelow hbelow'
    exact hne (congrArg w.project.base.append (hbelow.symm.trans hbelow'))
termination_by w.project.files.height - (w.project.base.append a).depth
decreasing_by
  have hheight := FileSystem.depth_le_height hlisted
  rw [← Path.append_child, Path.depth_child] at hheight ⊢
  omega

theorem pairwise_bytes_mergeSort {found : List String} (hnodup : found.Nodup) :
    (found.mergeSort fun s t => s ≤ t).Pairwise
      fun s t => Text.bytes s.toList < Text.bytes t.toList := by
  have hdistinct := (List.mergeSort_perm found fun s t => decide (s ≤ t)).nodup_iff.mpr hnodup
  refine ((ordered_mergeSort found).and hdistinct).imp fun {s t} ⟨hle, hne⟩ => ?_
  rw [Text.bytes_lt_bytes_iff]
  have hlt : ¬ t ≤ s := fun hge => hne (String.le_antisymm hle hge)
  exact String.not_le.mp hlt

end Walk

/-- The base leaves out drafts, which a directory below takes in again. -/
def drafts : Project where
  base := ⟨["lib"], by decide⟩
  files :=
    { medium := .memory
      entries :=
        [(⟨["lib"], by decide⟩, .directory),
          (⟨["lib", ".gitignore"], by decide⟩, .file (.text "Draft.vue\n")),
          (⟨["lib", "atoms"], by decide⟩, .directory),
          (⟨["lib", "atoms", "Draft.vue"], by decide⟩, .file (.text "")),
          (⟨["lib", "atoms", ".gitignore"], by decide⟩, .file (.text "!Draft.vue\n")),
          (⟨["lib", "Draft.vue"], by decide⟩, .file (.text ""))]
      distinct := by decide }

def atoms : Path := ⟨["atoms"], by decide⟩

end ComponentGraph
