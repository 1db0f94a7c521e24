import Mathlib.Data.List.Basic

/-!
# ChooseCut.Lib.Fault

How a run of a C program can stop without a result. A function that may stop so
is modelled in `Except Fault`; everything else stays a plain Lean function, and
the absence of a fault is a theorem rather than a convention.
-/

namespace ChooseCut

/-- The ways a modelled run stops early. -/
inductive Fault
  /-- An `assert` of the program does not hold: the process aborts. -/
  | assertion
  /-- A write at or past the end of a buffer. -/
  | overrun
  /-- A read at or past the end of a buffer. -/
  | overread
  /-- A pointer that leaves the allocation it was derived from is followed. -/
  | wild
  /-- The program itself gives up (`exit`). -/
  | exit
  /-- The recursion bound of the model is used up; the program has none. -/
  | fuel
  deriving Repr, DecidableEq

/-- The program's `assert`. -/
def assertThat (c : Prop) [Decidable c] : Except Fault Unit :=
  if c then .ok () else .error .assertion

@[simp] theorem assertThat_eq_ok {c : Prop} [Decidable c] {u : Unit} :
    assertThat c = .ok u ↔ c := by
  unfold assertThat
  split <;> simp [*]

/-- A run that returns ends in `P`, a run that stops early with a fault in `E`. -/
def Ends {α : Type} (P : α → Prop) (E : Fault → Prop) : Except Fault α → Prop
  | .ok a => P a
  | .error e => E e

@[simp] theorem ends_ok {α : Type} {P : α → Prop} {E : Fault → Prop} {a : α} :
    Ends P E (.ok a) ↔ P a := Iff.rfl

@[simp] theorem ends_error {α : Type} {P : α → Prop} {E : Fault → Prop} {e : Fault} :
    Ends P E (.error e) ↔ E e := Iff.rfl

theorem Ends.of_ok {α : Type} {P : α → Prop} {E : Fault → Prop} {x : Except Fault α} {a : α}
    (h : Ends P E x) (hx : x = .ok a) : P a := by
  subst hx
  exact h

theorem Ends.of_error {α : Type} {P : α → Prop} {E : Fault → Prop} {x : Except Fault α} {e : Fault}
    (h : Ends P E x) (hx : x = .error e) : E e := by
  subst hx
  exact h

/-- The fault a run ended with, if any. -/
def faultOf {α : Type} : Except Fault α → Option Fault
  | .ok _ => none
  | .error e => some e

theorem faultOf_eq_some {α : Type} {x : Except Fault α} {e : Fault} :
    faultOf x = some e ↔ x = .error e := by
  cases x <;> simp [faultOf]

/-- Peel one bind of a computation that succeeded. -/
theorem bind_eq_ok {ε α β : Type} {x : Except ε α} {f : α → Except ε β} {b : β} :
    x >>= f = .ok b ↔ ∃ a, x = .ok a ∧ f a = .ok b := by
  cases x with
  | error e => simp [bind, Except.bind]
  | ok a => simp [bind, Except.bind]

/-- Where a computation that failed has failed. -/
theorem bind_eq_error {ε α β : Type} {x : Except ε α} {f : α → Except ε β} {e : ε} :
    x >>= f = .error e ↔ x = .error e ∨ ∃ a, x = .ok a ∧ f a = .error e := by
  cases x with
  | error e' => simp [bind, Except.bind]
  | ok a => simp [bind, Except.bind]

/-- What every step of a loop keeps, the loop keeps. -/
theorem foldlM_inv {α β : Type} {f : β → α → Except Fault β} {P : β → Prop}
    (hf : ∀ b a b', P b → f b a = .ok b' → P b') (l : List α) :
    ∀ {b b' : β}, P b → l.foldlM f b = .ok b' → P b' := by
  induction l with
  | nil =>
      intro b b' hb h
      obtain rfl := Except.ok.inj h
      exact hb
  | cons a l ih =>
      intro b b' hb h
      rw [List.foldlM_cons] at h
      obtain ⟨c, hc, h⟩ := bind_eq_ok.mp h
      exact ih (hf b a c hb hc) h

end ChooseCut
