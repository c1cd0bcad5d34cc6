import ComponentGraph.FileSystem
import Mathlib.Data.List.Chain
/-!
# File systems as trees

A file system is a tree if its root is a directory and every entry lies in another: all that come
about by creating directories and files are. Below a path where nothing is there is nothing either,
so that in memory the missing directories on the way to a path can all be created as soon as the
first can.
-/

namespace ComponentGraph

/-! ## The way to a path -/

namespace Path

@[simp] theorem parent_child (p : Path) (name : String) (h : IsPlainName name) :
    (p.child name h).parent = p :=
  Path.ext List.dropLast_concat

theorem child_ne_root (p : Path) (name : String) (h : IsPlainName name) :
    p.child name h ≠ root := fun heq => by
  have hdepth := congrArg depth heq
  rw [depth_child] at hdepth
  exact Nat.succ_ne_zero _ hdepth

theorem getElem_way (p : Path) (i : Nat) (h : i < (root :: p.way).length) :
    (root :: p.way)[i].names = p.names.take i := by
  cases i with
  | zero => rfl
  | succ i => simp [way]

theorem length_way (p : Path) : p.way.length = p.depth := by
  rw [way, List.length_map, List.length_range, depth]

theorem mem_way_self {p : Path} (h : p ≠ root) : p ∈ p.way := by
  have hlast : p.depth < (root :: p.way).length := by
    rw [List.length_cons, length_way]
    exact Nat.lt_succ_self _
  have hself : (root :: p.way)[p.depth] = p := by
    apply Path.ext
    rw [getElem_way]
    exact List.take_length
  have hmem := List.getElem_mem hlast
  rw [hself] at hmem
  exact (List.mem_cons.mp hmem).resolve_left h

/-- Each path on the way lies in the one before it, and the first in the root. -/
theorem isChain_way (p : Path) : (root :: p.way).IsChain fun a b => b.parent = a := by
  refine List.isChain_iff_getElem.mpr fun i hi => Path.ext ?_
  have hlength : i < p.names.length := by
    rwa [List.length_cons, length_way, Nat.add_lt_add_iff_right] at hi
  show (root :: p.way)[i + 1].names.dropLast = (root :: p.way)[i].names
  rw [getElem_way, getElem_way, List.dropLast_eq_take, List.take_take, List.length_take,
    Nat.min_eq_left (Nat.succ_le_of_lt hlength), Nat.min_eq_left (Nat.sub_le _ 1)]
  rfl

end Path

namespace FileSystem

variable {fs after : FileSystem} {p q : Path}

/-! ## What a path holds -/

theorem find?_assign (p q : Path) (e : Entry) (entries : List (Path × Entry)) :
    ((assign p e entries).find? (·.1 = q)).map Prod.snd =
      if q = p then some e else (entries.find? (·.1 = q)).map Prod.snd := by
  induction entries with
  | nil => by_cases h : q = p <;> simp [assign, h, eq_comm]
  | cons entry rest ih =>
    obtain ⟨r, d⟩ := entry
    rw [assign]
    by_cases hr : r = p
    · subst hr
      by_cases hq : q = r
      · simp [hq]
      · simp [hq, Ne.symm hq]
    · rw [if_neg hr]
      by_cases hq : r = q
      · subst hq
        simp [hr]
      · simpa [hq] using ih

/-- Putting an entry changes what its path holds, and nothing else. -/
theorem held?_put (fs : FileSystem) (p q : Path) (e : Entry) :
    (fs.put p e).held? q = if q = p then some e else fs.held? q :=
  find?_assign p q e fs.entries

@[simp] theorem held?_put_self (fs : FileSystem) (p : Path) (e : Entry) :
    (fs.put p e).held? p = some e := by
  rw [held?_put, if_pos rfl]

theorem held?_put_of_ne (h : q ≠ p) (e : Entry) : (fs.put p e).held? q = fs.held? q := by
  rw [held?_put, if_neg h]

theorem put_put (fs : FileSystem) (p : Path) (d e : Entry) : (fs.put p d).put p e = fs.put p e := by
  have hassign : ∀ entries : List (Path × Entry),
      assign p e (assign p d entries) = assign p e entries := by
    intro entries
    induction entries with
    | nil => simp [assign]
    | cons entry rest ih =>
      by_cases h : entry.1 = p
      · simp [assign, h]
      · simp [assign, h, ih]
  simp only [put, hassign]

/-- Every path that is not touched holds what it held before. -/
structure ChangesOnly (touched : Path → Prop) (before after : FileSystem) : Prop where
  medium : after.medium = before.medium
  held? : ∀ q, ¬touched q → after.held? q = before.held? q

theorem changesOnly_put (fs : FileSystem) (p : Path) (e : Entry) :
    ChangesOnly (· = p) fs (fs.put p e) :=
  ⟨rfl, fun _ hq => held?_put_of_ne hq e⟩

/-- What is found in memory is what is there. -/
theorem entry?_of_memory (h : fs.medium = .memory) (p : Path) : fs.entry? p = fs.held? p :=
  entry?_eq_held? (by rw [h]; rfl)

/-! ## Trees -/

def paths (fs : FileSystem) : List Path := fs.entries.map Prod.fst

theorem mem_paths_iff : p ∈ fs.paths ↔ fs.held? p ≠ none := by
  simp [paths, held?]

/-- The root is a directory, and every entry lies in another. -/
structure IsTree (fs : FileSystem) : Prop where
  root : fs.held? Path.root = some .directory
  parent : ∀ p ∈ fs.paths, p.parent ∈ fs.paths

instance (fs : FileSystem) : Decidable fs.IsTree :=
  decidable_of_iff
    (fs.held? Path.root = some .directory ∧ ∀ p ∈ fs.paths, p.parent ∈ fs.paths)
    ⟨fun h => ⟨h.1, h.2⟩, fun h => ⟨h.root, h.parent⟩⟩

theorem isTree_empty (medium : Medium) : (empty medium).IsTree where
  root := rfl
  parent p hp := by
    rw [List.mem_singleton.mp hp]
    exact List.mem_singleton_self _

theorem IsTree.put (h : fs.IsTree) (hroot : p ≠ Path.root) (hparent : p.parent ∈ fs.paths)
    (e : Entry) : (fs.put p e).IsTree where
  root := by rw [held?_put_of_ne hroot.symm, h.root]
  parent q hq := by
    rcases mem_assign.mp hq with rfl | hq
    · exact mem_assign.mpr (.inr hparent)
    · exact mem_assign.mpr (.inr (h.parent q hq))

theorem mem_paths_of_found {e : Entry} (h : fs.entry? p = some e) : p ∈ fs.paths := by
  unfold entry? at h
  split at h
  · cases h
  · exact mem_paths_iff.mpr (by rw [h]; exact Option.some_ne_none e)

/-- Writing a file puts its content at its path, which is not the root and whose directory is
there. -/
theorem writeFile_ok {content : Content} (h : fs.writeFile p content = .ok after) :
    p ≠ Path.root ∧ fs.entry? p.parent = some .directory ∧
      after = fs.put p (.file content) := by
  rw [writeFile] at h
  split at h
  · cases h
  · cases h
  · rename_i hparent
    split at h
    · split at h
      · cases h
      · exact ⟨‹_›, hparent, (Except.ok.inj h).symm⟩
    · split at h
      · cases h
      · split at h
        · cases h
        · rename_i hdirectory
          refine ⟨?_, hparent, (Except.ok.inj h).symm⟩
          rintro rfl
          exact hdirectory (decide_eq_true hparent)

theorem createStep_ok (h : createStep p fs q = .ok after) :
    fs.entry? q = some .directory ∧ after = fs ∨
      fs.held? q = none ∧ after = fs.put q .directory := by
  rw [createStep] at h
  split at h
  · rename_i hdirectory
    exact .inl ⟨hdirectory, (Except.ok.inj h).symm⟩
  · cases h
  · rename_i hnone
    split at h
    · cases h
    · rename_i hrefusal
      exact .inr ⟨entry?_eq_held? hrefusal ▸ hnone, (Except.ok.inj h).symm⟩

theorem IsTree.writeFile {content : Content} (h : fs.IsTree)
    (hwrite : fs.writeFile p content = .ok after) : after.IsTree := by
  obtain ⟨hroot, hparent, rfl⟩ := writeFile_ok hwrite
  exact h.put hroot (mem_paths_of_found hparent) _

/-! ## Writing files -/

/-- Whether a file can be written does not depend on what it is to hold. -/
theorem writeFile_eq_map (fs : FileSystem) (p : Path) (c d : Content) :
    fs.writeFile p d = (fs.writeFile p c).map (·.put p (.file d)) := by
  rw [writeFile, writeFile]
  split
  · rfl
  · rfl
  · split
    · split
      · rfl
      · rw [Except.map, put_put]
    · split
      · rfl
      · split
        · rfl
        · rw [Except.map, put_put]

theorem isDirectory_iff (hmemory : fs.medium = .memory) :
    fs.isDirectory p ↔ fs.held? p = some .directory := by
  rw [isDirectory, entry?_of_memory hmemory, decide_eq_true_iff]

/-- In memory a file can be written into every directory, and nowhere else. -/
theorem exists_writeFile_iff (hmemory : fs.medium = .memory) (content : Content) :
    (∃ after, fs.writeFile p content = .ok after) ↔
      p ≠ Path.root ∧ fs.isDirectory p.parent := by
  constructor
  · rintro ⟨after, h⟩
    obtain ⟨hroot, hparent, -⟩ := writeFile_ok h
    exact ⟨hroot, decide_eq_true hparent⟩
  · rintro ⟨hroot, hparent⟩
    rw [writeFile, of_decide_eq_true hparent]
    simp only [hmemory, if_neg hroot]
    exact ⟨_, rfl⟩

/-! ## Creating the directories on a way -/

variable {next : Path} {steps rest : List Path}

theorem createAll_cons_ok (h : (next :: rest).foldlM (createStep p) fs = .ok after) :
    ∃ files, createStep p fs next = .ok files ∧ rest.foldlM (createStep p) files = .ok after := by
  rw [List.foldlM_cons] at h
  cases hstep : createStep p fs next with
  | error e =>
    rw [hstep] at h
    cases h
  | ok files =>
    rw [hstep] at h
    exact ⟨files, rfl, h⟩

theorem IsTree.createAll {here : Path} (h : fs.IsTree)
    (hchain : (here :: steps).IsChain fun a b => b.parent = a) (hhere : here ∈ fs.paths)
    (hcreate : steps.foldlM (createStep p) fs = .ok after) : after.IsTree := by
  induction steps generalizing fs here with
  | nil => exact Except.ok.inj hcreate ▸ h
  | cons next rest ih =>
    obtain ⟨files, hstep, hrest⟩ := createAll_cons_ok hcreate
    obtain ⟨hparent, hchain⟩ := List.isChain_cons_cons.mp hchain
    rcases createStep_ok hstep with ⟨hthere, rfl⟩ | ⟨hnone, rfl⟩
    · exact ih h hchain (mem_paths_of_found hthere) hrest
    · have hroot : next ≠ Path.root := by
        rintro rfl
        exact Option.some_ne_none _ (h.root.symm.trans hnone)
      exact ih (h.put hroot (hparent ▸ hhere) _) hchain (mem_paths_iff.mpr (by simp)) hrest

/-- Creating directories leaves a tree. -/
theorem IsTree.createDirectories (h : fs.IsTree)
    (hcreate : fs.createDirectories p = .ok after) : after.IsTree :=
  h.createAll p.isChain_way (mem_paths_iff.mpr (h.root ▸ Option.some_ne_none _)) hcreate

/-- What creating directories does: they are all there, and no others are new. -/
structure Opens (steps : List Path) (before after : FileSystem) : Prop where
  directory : ∀ q ∈ steps, after.held? q = some .directory
  changes : ChangesOnly (fun q => q ∈ steps ∧ before.held? q = none) before after

theorem opens_createAll (hmemory : fs.medium = .memory)
    (hcreate : steps.foldlM (createStep p) fs = .ok after) : Opens steps fs after := by
  induction steps generalizing fs with
  | nil =>
    obtain rfl := Except.ok.inj hcreate
    exact ⟨fun q hq => (List.not_mem_nil hq).elim, rfl, fun _ _ => rfl⟩
  | cons next rest ih =>
    obtain ⟨files, hstep, hrest⟩ := createAll_cons_ok hcreate
    have hnext : files.held? next = some .directory ∧
        ChangesOnly (fun q => q = next ∧ fs.held? q = none) fs files := by
      rcases createStep_ok hstep with ⟨hthere, rfl⟩ | ⟨hnone, rfl⟩
      · rw [entry?_of_memory hmemory] at hthere
        exact ⟨hthere, rfl, fun _ _ => rfl⟩
      · refine ⟨held?_put_self fs next _, rfl, fun q hq => held?_put_of_ne (fun heq => ?_) _⟩
        exact hq ⟨heq, heq ▸ hnone⟩
    obtain ⟨hthere, hmedium, hheld⟩ := hnext
    obtain ⟨hdirectory, hmedium', hheld'⟩ := ih (hmedium.trans hmemory) hrest
    refine ⟨fun q hq => ?_, hmedium'.trans hmedium, fun q hq => ?_⟩
    · rcases List.mem_cons.mp hq with rfl | hq
      · rw [hheld' q fun h => Option.some_ne_none _ (hthere.symm.trans h.2), hthere]
      · exact hdirectory q hq
    · have hfirst := hheld q fun h => hq ⟨h.1 ▸ List.mem_cons_self, h.2⟩
      rw [hheld' q fun h => hq ⟨List.mem_cons_of_mem next h.1, hfirst ▸ h.2⟩, hfirst]

/-- In a tree in memory a file can be written into a directory that has been created. -/
theorem writeFile_child {name : String} (hname : IsPlainName name) (hmemory : fs.medium = .memory)
    (htree : fs.IsTree) (hcreate : fs.createDirectories p = .ok after) (content : Content) :
    after.writeFile (p.child name hname) content =
      .ok (after.put (p.child name hname) (.file content)) := by
  have hopens := opens_createAll hmemory hcreate
  have hmedium := hopens.changes.medium.trans hmemory
  have hdirectory : after.isDirectory p := by
    refine (isDirectory_iff hmedium).mpr ?_
    by_cases hroot : p = Path.root
    · subst hroot
      exact (htree.createDirectories hcreate).root
    · exact hopens.directory p (Path.mem_way_self hroot)
  rw [← Path.parent_child p name hname] at hdirectory
  obtain ⟨written, hwrite⟩ :=
    (exists_writeFile_iff hmedium content).mpr ⟨p.child_ne_root name hname, hdirectory⟩
  rw [hwrite, (writeFile_ok hwrite).2.2]

/-! ## Where directories can be created -/

/-- Below a path where nothing is there is nothing. -/
theorem IsTree.missing_of_chain (h : fs.IsTree) (hnone : fs.held? next = none)
    (hchain : (next :: rest).IsChain fun a b => b.parent = a) : ∀ q ∈ rest, fs.held? q = none := by
  induction rest generalizing next with
  | nil => exact fun q hq => (List.not_mem_nil hq).elim
  | cons second rest ih =>
    obtain ⟨hparent, hchain⟩ := List.isChain_cons_cons.mp hchain
    have hsecond : fs.held? second = none := by
      by_contra hheld
      have hmem := h.parent second (mem_paths_iff.mpr hheld)
      rw [hparent] at hmem
      exact mem_paths_iff.mp hmem hnone
    exact List.forall_mem_cons.mpr ⟨hsecond, ih hsecond hchain⟩

theorem isFile_eq_false_iff (hmemory : fs.medium = .memory) :
    fs.isFile p = false ↔ fs.held? p = none ∨ fs.held? p = some .directory := by
  rw [isFile, entry?_of_memory hmemory]
  rcases fs.held? p with _ | _ | _ <;> simp

/-- A directory is only created where no file is, and what is a file stays one. -/
theorem isFile_of_createStep_ok (hmemory : fs.medium = .memory)
    (hstep : createStep p fs q = .ok after) :
    fs.isFile q = false ∧ after.medium = .memory ∧ ∀ r, after.isFile r = fs.isFile r := by
  rcases createStep_ok hstep with ⟨hthere, rfl⟩ | ⟨hnone, rfl⟩
  · rw [entry?_of_memory hmemory] at hthere
    exact ⟨(isFile_eq_false_iff hmemory).mpr (.inr hthere), hmemory, fun _ => rfl⟩
  · have hmedium : (fs.put q .directory).medium = .memory := hmemory
    have hfile : fs.isFile q = false := (isFile_eq_false_iff hmemory).mpr (.inl hnone)
    refine ⟨hfile, hmedium, fun r => ?_⟩
    by_cases hr : r = q
    · subst hr
      rw [hfile, isFile_eq_false_iff hmedium, held?_put_self]
      exact .inr rfl
    · rw [isFile, isFile, entry?_of_memory hmedium, entry?_of_memory hmemory, held?_put_of_ne hr]

theorem isFile_of_createStep_error {e : Error} (hmemory : fs.medium = .memory)
    (hstep : createStep p fs q = .error e) : fs.isFile q = true := by
  rw [createStep] at hstep
  split at hstep
  · cases hstep
  · rename_i hfile
    rw [isFile, hfile]
  · rw [hmemory] at hstep
    cases hstep

/-- In memory directories can all be created, one after another, unless one of them is a file. -/
theorem exists_createAll_iff (hmemory : fs.medium = .memory) :
    (∃ after, steps.foldlM (createStep p) fs = .ok after) ↔ ∀ q ∈ steps, fs.isFile q = false := by
  induction steps generalizing fs with
  | nil => exact ⟨fun _ q hq => (List.not_mem_nil hq).elim, fun _ => ⟨fs, rfl⟩⟩
  | cons next rest ih =>
    rw [List.foldlM_cons, List.forall_mem_cons]
    cases hstep : createStep p fs next with
    | error e =>
      have hfile := isFile_of_createStep_error hmemory hstep
      constructor
      · rintro ⟨after, hafter⟩
        cases hafter
      · rintro ⟨hnext, -⟩
        cases hfile.symm.trans hnext
    | ok files =>
      obtain ⟨hnext, hmedium, hfiles⟩ := isFile_of_createStep_ok hmemory hstep
      simp only [← hfiles]
      exact (ih hmedium).trans (and_iff_right ((hfiles next).trans hnext)).symm

end FileSystem

end ComponentGraph
