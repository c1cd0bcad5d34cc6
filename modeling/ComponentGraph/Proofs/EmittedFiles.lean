import ComponentGraph.Emission
import ComponentGraph.Proofs.FileTrees
import ComponentGraph.Proofs.NormalizedPaths
import ComponentGraph.Proofs.PageAndViews
/-!
# What emitting changes

Emitting creates directories and files one after another, and each of these steps may fail. In a
tree in memory nothing is left of the steps before a failure. A directory that is missing is only
created where all that follow are missing too, so that no later step can come upon a file; and the
text of a drawing cannot fail once its file is there. So emitting changes its target alone if there
is a directory for the file, or no file on the way to the preview, and else fails and changes nothing.
-/

namespace ComponentGraph

/-- In a tree in memory the data of a preview can be written wherever their directory can be
created. -/
theorem writePreview_eq_map {fs : FileSystem} (hmemory : fs.medium = .memory) (htree : fs.IsTree)
    (outDir : Path) (elements : List PreviewElement) :
    writePreview fs outDir elements = (fs.createDirectories outDir).map fun opened =>
      let data := outDir.child dataFile isPlainName_dataFile
      (opened.put data (.file (.text (PreviewElement.data elements))), data) := by
  rw [writePreview]
  cases hcreate : fs.createDirectories outDir with
  | error e => rfl
  | ok opened =>
    have hwrite := FileSystem.writeFile_child isPlainName_dataFile hmemory htree hcreate
      (.text (PreviewElement.data elements))
    simp only [bind, Except.bind, hwrite]
    rfl

namespace Work

variable {α : Type} {start : Emission} {p : Path}

/-! ## Creating directories -/

theorem outcome_createAll_ok {steps : List Path} {after : FileSystem}
    (h : steps.foldlM (FileSystem.createStep p) start.files = .ok after) :
    (forM steps (createStep p)).outcome start = (.ok (), { start with files := after }) := by
  induction steps generalizing start with
  | nil =>
    obtain rfl := Except.ok.inj h
    rfl
  | cons next rest ih =>
    obtain ⟨files, hstep, hrest⟩ := FileSystem.createAll_cons_ok h
    have hnext : (createStep p next).outcome start = (.ok (), { start with files }) := by
      rw [createStep, outcome_change, hstep]
    rw [List.forM_cons, outcome_bind_ok hnext]
    exact ih hrest

/-- The first directory that is missing is only created where all that follow are missing too, and
then nothing fails. -/
theorem outcome_createAll_error {here : Path} {steps : List Path} {e : FileSystem.Error}
    (hmemory : start.files.medium = .memory) (htree : start.files.IsTree)
    (hchain : (here :: steps).IsChain fun a b => b.parent = a)
    (h : steps.foldlM (FileSystem.createStep p) start.files = .error e) :
    (forM steps (createStep p)).outcome start = (.error (.ofStorage e), start) := by
  induction steps generalizing here with
  | nil => cases h
  | cons next rest ih =>
    obtain ⟨-, hchain⟩ := List.isChain_cons_cons.mp hchain
    have hnext := outcome_change Failure.ofStorage (FileSystem.createStep p · next) start
    rw [List.forM_cons, createStep]
    rw [List.foldlM_cons] at h
    cases hstep : FileSystem.createStep p start.files next with
    | error e' =>
      rw [hstep] at h hnext
      obtain rfl := Except.error.inj h
      exact outcome_bind_error hnext _
    | ok files =>
      rw [hstep] at h hnext
      rw [outcome_bind_ok hnext]
      rcases FileSystem.createStep_ok hstep with ⟨-, rfl⟩ | ⟨hnone, -⟩
      · exact ih hchain h
      · obtain ⟨-, hmedium, hfiles⟩ := FileSystem.isFile_of_createStep_ok hmemory hstep
        have hmissing : ∀ q ∈ rest, files.isFile q = false := by
          intro q hq
          rw [hfiles, FileSystem.isFile_eq_false_iff hmemory]
          exact .inl (htree.missing_of_chain hnone hchain q hq)
        obtain ⟨after, hafter⟩ := (FileSystem.exists_createAll_iff hmedium).mpr hmissing
        exact nomatch hafter.symm.trans h

/-- In a tree in memory the directories on a way are created as if in one step. -/
theorem outcome_createDirectories (hmemory : start.files.medium = .memory)
    (htree : start.files.IsTree) (p : Path) :
    (createDirectories p).outcome start =
      (change Failure.ofStorage (·.createDirectories p)).outcome start := by
  rw [outcome_change]
  cases hcreate : start.files.createDirectories p with
  | ok after => exact outcome_createAll_ok hcreate
  | error e => exact outcome_createAll_error hmemory htree p.isChain_way hcreate

/-! ## Drawing -/

/-- A file that is created and then filled is written as if in one step, if there is nothing between
but finding the text. -/
theorem outcome_create_fill (p : Path) (failure : FileSystem.Error → Failure) {x : Work String}
    {text : String} (hx : ∀ start, x.outcome start = (.ok text, start)) (rest : Work α)
    (start : Emission) :
    (do create p failure; let text ← x; fill p text; rest).outcome start =
      (do change failure (·.writeFile p (.text text)); rest).outcome start := by
  have hcreate := outcome_change failure (·.writeFile p (.text "")) start
  have hwrite := outcome_change failure (·.writeFile p (.text text)) start
  rw [start.files.writeFile_eq_map p (.text "") (.text text)] at hwrite
  rw [create]
  cases hfile : start.files.writeFile p (.text "") with
  | error e =>
    rw [hfile] at hcreate hwrite
    rw [outcome_bind_error hcreate, outcome_bind_error hwrite]
  | ok files =>
    rw [hfile] at hcreate hwrite
    rw [outcome_bind_ok hcreate, outcome_bind_ok (hx _), outcome_bind_ok (outcome_fill ..),
      outcome_bind_ok hwrite]

/-- In a tree in memory a preview is written as if in one step. -/
theorem outcome_preview (hmemory : start.files.medium = .memory) (htree : start.files.IsTree)
    (outDir : Path) (elements : List PreviewElement) :
    (preview outDir elements).outcome start =
      (step fun files =>
        (writePreview files outDir elements).mapError Failure.ofStorage).outcome start := by
  have hdirectories := outcome_createDirectories hmemory htree outDir
  rw [outcome_change] at hdirectories
  rw [outcome_step, preview, writePreview_eq_map hmemory htree]
  cases hcreate : start.files.createDirectories outDir with
  | error e =>
    rw [hcreate] at hdirectories
    rw [outcome_bind_error hdirectories]
    rfl
  | ok opened =>
    rw [hcreate] at hdirectories
    generalize hdata : outDir.child dataFile isPlainName_dataFile = data
    have hfill := outcome_create_fill data Failure.ofStorage
      (outcome_pure (PreviewElement.data elements)) (pure data) ⟨opened, start.shown⟩
    have hwrite := outcome_change Failure.ofStorage
      (·.writeFile data (.text (PreviewElement.data elements))) ⟨opened, start.shown⟩
    rw [← hdata, FileSystem.writeFile_child isPlainName_dataFile hmemory htree hcreate] at hwrite
    rw [pure_bind] at hfill
    rw [outcome_bind_ok hdirectories, hfill, ← hdata, outcome_bind_ok hwrite]
    rfl

end Work

/-- In a tree in memory an analysis is drawn as if in one step. -/
theorem Analysis.outcome_print {start : Emission} (hmemory : start.files.medium = .memory)
    (htree : start.files.IsTree) (a : Analysis) (format : Format) (outDir : Path) :
    (a.print format outDir).outcome start =
      (Work.step fun files =>
        (draw format outDir a.registry files a.trees).mapError Failure.ofStorage).outcome start := by
  cases format with
  | graph =>
    have hpreview := Work.outcome_preview hmemory htree outDir
      (graphOf PreviewElement.shape a.registry a.trees)
    rw [Work.outcome_step] at hpreview ⊢
    rw [print, draw]
    cases hwrite : writePreview start.files outDir
        (graphOf PreviewElement.shape a.registry a.trees) with
    | error e =>
      rw [hwrite] at hpreview
      rw [Work.outcome_bind_error hpreview]
      rfl
    | ok written =>
      rw [hwrite] at hpreview
      rw [Work.outcome_bind_ok hpreview]
      rfl
  | stdout | report | json | dot => rfl

/-- Every format but the preview is a text that does not depend on the files. -/
theorem Analysis.exists_text {format : Format} (h : format ≠ .graph) (a : Analysis)
    (outDir : Path) :
    ∃ text, (∀ files, draw format outDir a.registry files a.trees = .ok (files, text)) ∧
      ∀ start, (a.print format outDir).outcome start = (.ok text, start) := by
  cases format with
  | graph => exact (h rfl).elim
  | stdout | report | json | dot => exact ⟨_, fun _ => rfl, fun _ => rfl⟩

/-- A drawing on the terminal shows nothing when it fails. -/
theorem Analysis.outcome_display (start : Emission) (hmemory : start.files.medium = .memory)
    (htree : start.files.IsTree) (a : Analysis) (format : Format) (outDir : Path) :
    (a.display format outDir).outcome start =
      match draw format outDir a.registry start.files a.trees with
      | .ok (files, text) => (.ok (), ⟨files, start.shown ++ text⟩)
      | .error e => (.error (.ofStorage e), start) := by
  have hprint := a.outcome_print hmemory htree format outDir
  rw [Work.outcome_step] at hprint
  rw [display]
  cases hdraw : draw format outDir a.registry start.files a.trees with
  | error e =>
    rw [hdraw] at hprint
    exact Work.outcome_bind_error hprint _
  | ok drawn =>
    rw [hdraw] at hprint
    rw [Work.outcome_bind_ok hprint, Work.outcome_display]

/-- A text that goes to a file is written as if in one step. -/
theorem Analysis.outcome_save {p : Project} {a : Analysis} {format : Format} {outDir path : Path}
    {output text : String} (hpath : p.locate output = .ok path)
    (htext : ∀ start, (a.print format outDir).outcome start = (.ok text, start))
    (start : Emission) :
    (a.save p format outDir output).outcome start =
      match start.files.writeFile path (.text text) with
      | .ok files => (.ok (), { start with files })
      | .error e => (.error (.ofCreating output e), start) := by
  have hwrite := Work.outcome_change (Failure.ofCreating output) (·.writeFile path (.text text)) start
  rw [save, hpath, Except.mapError, Work.outcome_bind_ok (Work.outcome_ofResult ..),
    Work.outcome_create_fill path _ htext]
  cases hfile : start.files.writeFile path (.text text) with
  | error e =>
    rw [hfile] at hwrite
    exact Work.outcome_bind_error hwrite _
  | ok files =>
    rw [hfile] at hwrite
    rw [Work.outcome_bind_ok hwrite, Work.outcome_say]

/-! ## The target -/

theorem Settings.output?_of_resolve {o : Overrides} {c : Config} {s : Settings}
    (h : resolve o c = .ok s) : s.output? = outputOf? s.format o.output? := by
  rw [resolve] at h
  split at h
  · cases h
  · rw [← Except.ok.inj h]

/-- Whether there is room for what is emitted: a directory for the output file, or a way to the
preview without a file on it. -/
def Project.Admits (p : Project) (s : Settings) : Prop :=
  match s.output? with
  | some output => ∃ path, p.locate output = .ok path ∧ path ≠ Path.root ∧
      p.files.isDirectory path.parent
  | none => s.format = .graph →
      ∃ outDir, p.outDir s = .ok outDir ∧ ∀ q ∈ outDir.way, p.files.isFile q = false

/-- What emitting an analysis of a project leaves where nothing fails. An output file holds what
would be shown without one, and nothing is shown. The data of a preview lie in their directory; all
that is new besides is directories on the way there. In every other case the files stay. -/
def Delivers (p : Project) (a : Analysis) (s : Settings) (left : Emission) : Prop :=
  match s.output? with
  | some output => ∃ path drawing, p.locate output = .ok path ∧
      (emitting p a { s with output? := none }).outcome ⟨p.files, ""⟩ =
        (.ok (), ⟨p.files, drawing⟩) ∧
      left.shown = "" ∧ p.files.ChangesOnly (· = path) left.files ∧
      left.files.held? path = some (.file (.text drawing))
  | none =>
    if s.format = .graph then
      ∃ outDir path, p.outDir s = .ok outDir ∧ path = outDir.child dataFile isPlainName_dataFile ∧
        p.files.ChangesOnly (fun q => q = path ∨
          q ∈ outDir.way ∧ p.files.held? q = none ∧ left.files.held? q = some .directory)
          left.files ∧
        left.files.held? path = some (.file (.text
          (PreviewElement.data (graphOf PreviewElement.shape a.registry a.trees))))
    else left.files = p.files

/-- The work is done and leaves what it is to leave where it is possible, and fails and leaves all
as it was where it is not. -/
def Work.AllOrNothing (x : Work Unit) (start : Emission) (possible : Prop)
    (done : Emission → Prop) : Prop :=
  (possible → ∃ left, x.outcome start = (.ok (), left) ∧ done left) ∧
    (¬possible → ∃ failure, x.outcome start = (.error failure, start))

section

variable {p : Project} {s : Settings} {outDir : Path}

theorem outcome_emitting (a : Analysis) (houtDir : p.outDir s = .ok outDir) (start : Emission) :
    (emitting p a s).outcome start =
      (match s.output? with
        | none => a.display s.format outDir
        | some output => a.save p s.format outDir output).outcome start := by
  rw [emitting, houtDir]
  exact Work.outcome_bind_ok (Work.outcome_ofResult ..) _

/-- The data of a preview are written, and on the way to them directories are created that were not
there. -/
theorem Analysis.preview_delivers (hmemory : p.files.medium = .memory) (htree : p.files.IsTree)
    (a : Analysis) (houtDir : p.outDir s = .ok outDir) (houtput : s.output? = none)
    (hformat : s.format = .graph) :
    (a.display s.format outDir).AllOrNothing ⟨p.files, ""⟩ (p.Admits s) (Delivers p a s) := by
  have hdisplay := a.outcome_display ⟨p.files, ""⟩ hmemory htree s.format outDir
  have hpossible : p.Admits s ↔ ∃ opened, p.files.createDirectories outDir = .ok opened := by
    rw [Project.Admits, houtput, FileSystem.createDirectories,
      FileSystem.exists_createAll_iff hmemory]
    simp [hformat, houtDir]
  rw [hformat, draw, writePreview_eq_map hmemory htree] at hdisplay
  rw [hformat]
  cases hcreate : p.files.createDirectories outDir with
  | error e =>
    rw [hcreate] at hdisplay hpossible
    refine ⟨fun h => ?_, fun _ => ⟨_, hdisplay⟩⟩
    obtain ⟨opened, hopened⟩ := hpossible.mp h
    cases hopened
  | ok opened =>
    rw [hcreate] at hdisplay hpossible
    obtain ⟨hdirectory, hmedium, hheld⟩ := FileSystem.opens_createAll hmemory hcreate
    refine ⟨fun _ => ⟨_, hdisplay, ?_⟩, fun h => (h (hpossible.mpr ⟨opened, rfl⟩)).elim⟩
    rw [Delivers, houtput, if_pos hformat]
    refine ⟨outDir, _, houtDir, rfl, ⟨hmedium, fun q hq => ?_⟩, FileSystem.held?_put_self ..⟩
    obtain ⟨hfile, hway⟩ := not_or.mp hq
    rw [FileSystem.held?_put_of_ne hfile] at hway ⊢
    exact hheld q fun h => hway ⟨h.1, h.2, hdirectory q h.1⟩

/-- Showing a text never fails and leaves the files as they are. -/
theorem Analysis.text_delivers (hmemory : p.files.medium = .memory) (htree : p.files.IsTree)
    (a : Analysis) (outDir : Path) (houtput : s.output? = none) (hformat : s.format ≠ .graph) :
    (a.display s.format outDir).AllOrNothing ⟨p.files, ""⟩ (p.Admits s) (Delivers p a s) := by
  obtain ⟨text, hdraw, -⟩ := a.exists_text hformat outDir
  have hdisplay := a.outcome_display ⟨p.files, ""⟩ hmemory htree s.format outDir
  rw [hdraw] at hdisplay
  rw [Work.AllOrNothing, Project.Admits, houtput]
  refine ⟨fun _ => ⟨_, hdisplay, ?_⟩, fun h => (h fun hgraph => (hformat hgraph).elim).elim⟩
  rw [Delivers, houtput, if_neg hformat]

/-- What is drawn into a file is what would be drawn on the terminal. -/
theorem Analysis.save_delivers {output : String} (hmemory : p.files.medium = .memory)
    (htree : p.files.IsTree) (a : Analysis) (houtDir : p.outDir s = .ok outDir)
    (houtput : s.output? = some output) (hformat : s.format ≠ .graph) :
    (a.save p s.format outDir output).AllOrNothing ⟨p.files, ""⟩ (p.Admits s)
      (Delivers p a s) := by
  obtain ⟨text, hdraw, htext⟩ := a.exists_text hformat outDir
  obtain ⟨path, hpath⟩ := p.exists_locate output
  have hsave := a.outcome_save hpath htext ⟨p.files, ""⟩
  have hpossible : p.Admits s ↔ ∃ files, p.files.writeFile path (.text text) = .ok files := by
    rw [Project.Admits, houtput, FileSystem.exists_writeFile_iff hmemory]
    simp [hpath]
  cases hwrite : p.files.writeFile path (.text text) with
  | error e =>
    rw [hwrite] at hsave hpossible
    refine ⟨fun h => ?_, fun _ => ⟨_, hsave⟩⟩
    obtain ⟨files, hfiles⟩ := hpossible.mp h
    cases hfiles
  | ok files =>
    rw [hwrite] at hsave hpossible
    refine ⟨fun _ => ⟨_, hsave, ?_⟩, fun h => (h (hpossible.mpr ⟨files, rfl⟩)).elim⟩
    have hdisplay := a.outcome_display ⟨p.files, ""⟩ hmemory htree s.format outDir
    simp only [hdraw, String.empty_append] at hdisplay
    have hshown := outcome_emitting (s := { s with output? := none }) a houtDir ⟨p.files, ""⟩
    obtain ⟨-, -, rfl⟩ := FileSystem.writeFile_ok hwrite
    rw [Delivers, houtput]
    exact ⟨path, text, hpath, hshown.trans hdisplay, rfl, p.files.changesOnly_put path _,
      FileSystem.held?_put_self ..⟩

end

/-- Settings of a preview whose directory is missing, and so is the one above. -/
def previewing : Settings where
  componentsDir := "components"
  format := .graph
  output? := none
  outDir := "out/preview"
  port := Settings.defaultPort
  ignore := []

end ComponentGraph
