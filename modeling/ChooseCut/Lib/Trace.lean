import ChooseCut.Lib.Fault

/-!
# ChooseCut.Lib.Trace

Runs that leave a record.

A `Trace` is the list of events a run has passed and the way it ended. Unlike a value
in `Except`, a run that stops early keeps the events it had passed, so that a property
of every step of a run can be stated without assuming that the run succeeds.
-/

namespace ChooseCut

/-- The events of a run, and its result. -/
structure Trace (σ α : Type) where
  log : List σ
  res : Except Fault α

namespace Trace

variable {σ α β : Type}

/-- A run without events. -/
def lift (x : Except Fault α) : Trace σ α := ⟨[], x⟩

/-- Pass an event. -/
def tell (s : σ) : Trace σ Unit := ⟨[s], .ok ()⟩

/-- Continue a run where it did not stop. -/
def bind (x : Trace σ α) (f : α → Trace σ β) : Trace σ β :=
  match x.res with
  | .ok a => ⟨x.log ++ (f a).log, (f a).res⟩
  | .error e => ⟨x.log, .error e⟩

instance : Monad (Trace σ) where
  pure a := ⟨[], .ok a⟩
  bind := Trace.bind

@[simp] theorem pure_log (a : α) : (pure a : Trace σ α).log = [] := rfl
@[simp] theorem pure_res (a : α) : (pure a : Trace σ α).res = .ok a := rfl
@[simp] theorem lift_log (x : Except Fault α) : (lift x : Trace σ α).log = [] := rfl
@[simp] theorem lift_res (x : Except Fault α) : (lift x : Trace σ α).res = x := rfl

theorem bind_of_ok {x : Trace σ α} {f : α → Trace σ β} {a : α} (h : x.res = .ok a) :
    x >>= f = ⟨x.log ++ (f a).log, (f a).res⟩ := by
  change Trace.bind x f = _
  rw [Trace.bind, h]

theorem bind_of_error {x : Trace σ α} {f : α → Trace σ β} {e : Fault} (h : x.res = .error e) :
    x >>= f = ⟨x.log, .error e⟩ := by
  change Trace.bind x f = _
  rw [Trace.bind, h]

/-- A run after an event. -/
theorem tell_bind (s : σ) (f : Unit → Trace σ β) :
    tell s >>= f = ⟨s :: (f ()).log, (f ()).res⟩ := rfl

/-- A run after a computation without events. -/
theorem lift_bind_ok {x : Except Fault α} {a : α} (h : x = .ok a) (f : α → Trace σ β) :
    lift x >>= f = f a := by
  subst h
  exact bind_of_ok rfl

theorem lift_bind_error {x : Except Fault α} {e : Fault} (h : x = .error e)
    (f : α → Trace σ β) : lift x >>= f = ⟨[], .error e⟩ := by
  subst h
  exact bind_of_error rfl

end Trace

end ChooseCut
