import ComponentGraph.Failure
import ComponentGraph.Notice
/-!
# Attempts

An attempt says things on its way and ends with a value or a failure. The first failure ends a
sequence of attempts; what was said before it stays.
-/

namespace ComponentGraph

abbrev Attempt (α : Type) := ExceptT Failure Logged α

namespace Attempt

variable {α β : Type}

def result (x : Attempt α) : Except Failure α := (ExceptT.run x).value

def log (x : Attempt α) : List Notice := (ExceptT.run x).log

/-- A value or a fault of the storage, and what was said. -/
def ofStorage (x : Logged (Except FileSystem.Error α)) : Attempt α :=
  ExceptT.mk ⟨x.value.mapError Failure.ofStorage, x.log⟩

/-- A value or a failure, and nothing said. -/
def ofResult (x : Except Failure α) : Attempt α := ExceptT.mk (pure x)

/-- One notice and nothing else. -/
def say (level : Level) (text : String) : Attempt Unit := ExceptT.lift (Logged.say level text)

@[simp] theorem result_pure (a : α) : (pure a : Attempt α).result = .ok a := rfl

@[simp] theorem log_pure (a : α) : (pure a : Attempt α).log = [] := rfl

theorem result_bind_ok {x : Attempt α} {a : α} (h : x.result = .ok a) (f : α → Attempt β) :
    (x >>= f).result = (f a).result := by
  have hx : (ExceptT.run x).value = .ok a := h
  simp only [result, ExceptT.run_bind, Logged.value_bind, hx]

theorem result_bind_error {x : Attempt α} {e : Failure} (h : x.result = .error e)
    (f : α → Attempt β) : (x >>= f).result = .error e := by
  have hx : (ExceptT.run x).value = .error e := h
  simp only [result, ExceptT.run_bind, Logged.value_bind, hx, Logged.value_pure]

/-- The notices of a sequence are those of its parts, up to the first failure. -/
theorem log_bind_ok {x : Attempt α} {a : α} (h : x.result = .ok a) (f : α → Attempt β) :
    (x >>= f).log = x.log ++ (f a).log := by
  have hx : (ExceptT.run x).value = .ok a := h
  simp only [log, ExceptT.run_bind, Logged.log_bind, hx]

theorem log_bind_error {x : Attempt α} {e : Failure} (h : x.result = .error e)
    (f : α → Attempt β) : (x >>= f).log = x.log := by
  have hx : (ExceptT.run x).value = .error e := h
  simp only [log, ExceptT.run_bind, Logged.log_bind, hx, Logged.log_pure, List.append_nil]

end Attempt

end ComponentGraph
