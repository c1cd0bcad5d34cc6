import ComponentGraph.Attempt
/-!
# Work

Work changes files and shows text on the terminal, step by step. A step happens whole or not at
all. The first failure ends the work, and what was done before it stays done.
-/

namespace ComponentGraph

/-- The files, and what is shown on the terminal. -/
structure Emission where
  files : FileSystem
  shown : String

abbrev Work (α : Type) := ExceptT Failure (StateT Emission Logged) α

namespace Work

variable {α β : Type}

/-- What comes of the work, and what it leaves, also when it fails. -/
def outcome (x : Work α) (start : Emission) : Except Failure α × Emission :=
  (StateT.run (ExceptT.run x) start).value

/-- The work as an attempt at what it leaves. What is left after a failure is forgotten. -/
def attempt (x : Work Unit) (start : Emission) : Attempt Emission :=
  let done := StateT.run (ExceptT.run x) start
  ExceptT.mk ⟨done.value.1.map fun _ => done.value.2, done.log⟩

/-- A value or a failure; nothing is done. -/
def ofResult (x : Except Failure α) : Work α := ExceptT.mk (pure x)

/-- One notice and nothing else. -/
def say (level : Level) (text : String) : Work Unit :=
  ExceptT.lift (StateT.lift (Logged.say level text))

/-- One step on the files. -/
def step (f : FileSystem → Except Failure (FileSystem × α)) : Work α :=
  ExceptT.mk fun start =>
    match f start.files with
    | .ok (files, a) => pure (.ok a, { start with files })
    | .error failure => pure (.error failure, start)

/-- One step on the files that gives nothing else. -/
def change (failure : FileSystem.Error → Failure)
    (f : FileSystem → Except FileSystem.Error FileSystem) : Work Unit :=
  step fun files => ((f files).map (·, ())).mapError failure

/-- Show text behind what is shown already. -/
def display (text : String) : Work Unit :=
  modify fun start => { start with shown := start.shown ++ text }

/-! ## Files -/

/-- Create the directory `next`, on the way to `p`, if it is not there yet. -/
def createStep (p next : Path) : Work Unit :=
  change Failure.ofStorage (FileSystem.createStep p · next)

/-- Create a directory and all that are missing on the way to it, one after another. -/
def createDirectories (p : Path) : Work Unit := forM p.way (createStep p)

/-- Create a file, or empty the present one. -/
def create (p : Path) (failure : FileSystem.Error → Failure) : Work Unit :=
  change failure (·.writeFile p (.text ""))

/-- Fill a file that has been created. -/
def fill (p : Path) (text : String) : Work Unit :=
  modify fun start => { start with files := start.files.put p (.file (.text text)) }

/-! ## What is left -/

@[simp] theorem outcome_pure (a : α) (start : Emission) :
    (pure a : Work α).outcome start = (.ok a, start) := rfl

@[simp] theorem outcome_ofResult (x : Except Failure α) (start : Emission) :
    (ofResult x).outcome start = (x, start) := rfl

@[simp] theorem outcome_say (level : Level) (text : String) (start : Emission) :
    (say level text).outcome start = (.ok (), start) := rfl

@[simp] theorem outcome_display (text : String) (start : Emission) :
    (display text).outcome start = (.ok (), { start with shown := start.shown ++ text }) := rfl

@[simp] theorem outcome_fill (p : Path) (text : String) (start : Emission) :
    (fill p text).outcome start =
      (.ok (), { start with files := start.files.put p (.file (.text text)) }) := rfl

theorem outcome_step (f : FileSystem → Except Failure (FileSystem × α)) (start : Emission) :
    (step f).outcome start =
      match f start.files with
      | .ok (files, a) => (.ok a, { start with files })
      | .error failure => (.error failure, start) := by
  rw [outcome, step, ExceptT.run_mk, StateT.run]
  cases f start.files <;> rfl

theorem outcome_change (failure : FileSystem.Error → Failure)
    (f : FileSystem → Except FileSystem.Error FileSystem) (start : Emission) :
    (change failure f).outcome start =
      match f start.files with
      | .ok files => (.ok (), { start with files })
      | .error e => (.error (failure e), start) := by
  rw [change, outcome_step]
  cases f start.files <;> rfl

theorem outcome_bind_ok {x : Work α} {a : α} {start left : Emission}
    (h : x.outcome start = (.ok a, left)) (f : α → Work β) :
    (x >>= f).outcome start = (f a).outcome left := by
  rw [outcome] at h
  simp only [outcome, ExceptT.run_bind, StateT.run_bind, Logged.value_bind, h]

/-- A failure ends the work and leaves what was there when it arose. -/
theorem outcome_bind_error {x : Work α} {failure : Failure} {start left : Emission}
    (h : x.outcome start = (.error failure, left)) (f : α → Work β) :
    (x >>= f).outcome start = (.error failure, left) := by
  rw [outcome] at h
  simp only [outcome, ExceptT.run_bind, StateT.run_bind, Logged.value_bind, h]
  rfl

end Work

end ComponentGraph
