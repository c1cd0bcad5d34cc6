/-!
# Notices

What a run says on the way, in order. `Logged` is a value together with the notices that
led to it; sequencing joins the notices, earlier ones first.
-/

namespace ComponentGraph

inductive Level where
  | error
  | warn
  | info
  | success
  | debug
deriving DecidableEq, Repr

def Level.name : Level → String
  | .error => "error"
  | .warn => "warn"
  | .info => "info"
  | .success => "success"
  | .debug => "debug"

structure Notice where
  level : Level
  text : String
deriving DecidableEq, Repr

/-- A value and what was said while it was found. -/
structure Logged (α : Type) where
  value : α
  log : List Notice := []

namespace Logged

variable {α β : Type}

/-- One notice and nothing else. -/
def say (level : Level) (text : String) : Logged Unit := ⟨(), [⟨level, text⟩]⟩

instance : Monad Logged where
  pure value := ⟨value, []⟩
  bind x f := ⟨(f x.value).value, x.log ++ (f x.value).log⟩

@[simp] theorem value_pure (a : α) : (pure a : Logged α).value = a := rfl

@[simp] theorem log_pure (a : α) : (pure a : Logged α).log = [] := rfl

@[simp] theorem value_bind (x : Logged α) (f : α → Logged β) :
    (x >>= f).value = (f x.value).value := rfl

@[simp] theorem log_bind (x : Logged α) (f : α → Logged β) :
    (x >>= f).log = x.log ++ (f x.value).log := rfl

@[simp] theorem value_map (f : α → β) (x : Logged α) : (f <$> x).value = f x.value := rfl

@[simp] theorem log_map (f : α → β) (x : Logged α) : (f <$> x).log = x.log :=
  List.append_nil x.log

@[simp] theorem log_say (level : Level) (text : String) :
    (say level text).log = [⟨level, text⟩] := rfl

@[ext] theorem ext {x y : Logged α} (hv : x.value = y.value) (hl : x.log = y.log) : x = y := by
  cases x
  cases y
  simp_all

instance : LawfulMonad Logged :=
  LawfulMonad.mk' Logged
    (fun x => Logged.ext rfl (List.append_nil x.log))
    (fun _ _ => Logged.ext rfl rfl)
    (fun _ _ _ => Logged.ext rfl (List.append_assoc _ _ _))

end Logged

end ComponentGraph
