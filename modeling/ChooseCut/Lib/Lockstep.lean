import ChooseCut.Lib.Fault

/-!
# ChooseCut.Lib.Lockstep

Two runs of one program.

`Lockstep R x y` says that the runs `x` and `y` stop with the same fault or both return,
with results that `R` relates. It composes along `bind` and along loops, so that a
statement about two runs of a program follows its text once, with the relation on the
states as the invariant.
-/

namespace ChooseCut

variable {α β γ δ ι : Type} {R : α → β → Prop} {S : γ → δ → Prop}

/-- The runs stop with the same fault, or return related results. -/
def Lockstep (R : α → β → Prop) : Except Fault α → Except Fault β → Prop
  | .ok a, .ok b => R a b
  | .error e, .error e' => e = e'
  | _, _ => False

namespace Lockstep

theorem ok {a : α} {b : β} (h : R a b) : Lockstep R (.ok a) (.ok b) := h

theorem error (e : Fault) : Lockstep R (.error e) (.error e) := rfl

theorem eq_iff {x y : Except Fault α} : Lockstep Eq x y ↔ x = y := by
  cases x <;> cases y <;> simp [Lockstep]

/-- Where one run returns, so does the other. -/
theorem of_ok {x : Except Fault α} {y : Except Fault β} {a : α} (h : Lockstep R x y)
    (hx : x = .ok a) : ∃ b, y = .ok b ∧ R a b := by
  subst hx
  cases y with
  | error e => exact h.elim
  | ok b => exact ⟨b, rfl, h⟩

/-- Lockstep runs with lockstep continuations. -/
theorem bind {x : Except Fault α} {y : Except Fault β} {f : α → Except Fault γ}
    {g : β → Except Fault δ} (h : Lockstep R x y) (hfg : ∀ a b, R a b → Lockstep S (f a) (g b)) :
    Lockstep S (x >>= f) (y >>= g) := by
  cases x with
  | error e =>
      cases y with
      | error e' => exact h
      | ok b => exact h.elim
  | ok a =>
      cases y with
      | error e' => exact h.elim
      | ok b => exact hfg a b h

/-- Two loops over the same items. -/
theorem foldlM {f : α → ι → Except Fault α} {g : β → ι → Except Fault β} (l : List ι)
    (hstep : ∀ a b i, i ∈ l → R a b → Lockstep R (f a i) (g b i)) :
    ∀ {a : α} {b : β}, R a b → Lockstep R (l.foldlM f a) (l.foldlM g b) := by
  induction l with
  | nil => exact fun h => h
  | cons i l ih =>
      intro a b h
      rw [List.foldlM_cons, List.foldlM_cons]
      exact (hstep a b i List.mem_cons_self h).bind
        (fun a' b' h' => ih (fun a b j hj => hstep a b j (List.mem_cons_of_mem i hj)) h')

end Lockstep

end ChooseCut
