import Mathlib.Data.List.Perm.Basic
import Mathlib.Data.List.Range

/-!
# ChooseCut.Lib.Ledger

The blocks of a C heap: which of them are live, whatever is stored in them.

Blocks are numbered in the order in which they are handed out and never reused, so that a
pointer kept after its block was released is never taken for a new one; 0 is the null
pointer. An access to a block that is not live and a second release are faults of their
own. `Holds` says what is live in terms of what the parts of a program own, up to order:
the rules below move blocks in and out of such a list, and an access needs its block to
be in it.
-/

namespace ChooseCut

/-- How a run over a ledger stops: as the program itself does, or by a bad access. -/
inductive Stop (ε : Type) where
  /-- The program stops for a reason of its own. -/
  | own (e : ε)
  /-- A block is read or written that is not live. -/
  | dangling (b : Nat)
  /-- A block is released that is not live. -/
  | released (b : Nat)
  deriving Repr, DecidableEq

/-- The live blocks and the number of the next one. -/
structure Ledger where
  next : Nat
  live : List Nat
  pos : 0 < next
  nodup : live.Nodup
  bound : ∀ b ∈ live, 0 < b ∧ b < next

namespace Ledger

variable {ε : Type}

/-- No block yet. -/
def empty : Ledger := ⟨1, [], by decide, .nil, by simp⟩

/-- Hand out a block. -/
def alloc (h : Ledger) : Nat × Ledger :=
  (h.next,
    { next := h.next + 1
      live := h.next :: h.live
      pos := Nat.succ_pos _
      nodup := List.nodup_cons.mpr ⟨fun hm => Nat.lt_irrefl _ (h.bound _ hm).2, h.nodup⟩
      bound := by
        intro b hb
        rcases List.mem_cons.mp hb with rfl | hm
        · exact ⟨h.pos, Nat.lt_succ_self _⟩
        · exact ⟨(h.bound b hm).1, Nat.lt_succ_of_lt (h.bound b hm).2⟩ })

/-- Hand out `n` blocks. -/
def allocs : Nat → Ledger → List Nat × Ledger
  | 0, h => ([], h)
  | n + 1, h => (h.alloc.1 :: (allocs n h.alloc.2).1, (allocs n h.alloc.2).2)

/-- Access a block. -/
def use (h : Ledger) (b : Nat) : Except (Stop ε) Unit :=
  if b ∈ h.live then .ok () else .error (.dangling b)

/-- Access some blocks, one after the other. -/
def useAll (h : Ledger) : List Nat → Except (Stop ε) Unit
  | [] => .ok ()
  | b :: bs => do
      h.use b
      h.useAll bs

/-- Release a block. -/
def free (h : Ledger) (b : Nat) : Except (Stop ε) Ledger :=
  if b ∈ h.live then
    .ok { next := h.next
          live := h.live.erase b
          pos := h.pos
          nodup := h.nodup.erase b
          bound := fun c hc => h.bound c (List.mem_of_mem_erase hc) }
  else .error (.released b)

/-- The live blocks are those of `own`. -/
def Holds (h : Ledger) (own : List Nat) : Prop := h.live.Perm own

variable {h : Ledger} {own own' : List Nat} {b : Nat}

theorem Holds.perm (hh : h.Holds own) (hp : own.Perm own') : h.Holds own' := hh.trans hp

theorem Holds.mem_iff (hh : h.Holds own) : b ∈ h.live ↔ b ∈ own := List.Perm.mem_iff hh

theorem Holds.nodup (hh : h.Holds own) : own.Nodup := (List.Perm.nodup_iff hh).mp h.nodup

theorem Holds.alloc (hh : h.Holds own) : h.alloc.2.Holds (h.alloc.1 :: own) := List.Perm.cons _ hh

theorem next_alloc (h : Ledger) : h.alloc.2.next = h.next + 1 := rfl

theorem Holds.allocs (n : Nat) : ∀ {h : Ledger} {own : List Nat}, h.Holds own →
    (h.allocs n).2.Holds ((h.allocs n).1 ++ own) := by
  induction n with
  | zero => exact fun hh => hh
  | succ n ih =>
      intro h own hh
      exact (ih hh.alloc).perm List.perm_middle

theorem length_allocs (n : Nat) : ∀ h : Ledger, (h.allocs n).1.length = n := by
  induction n with
  | zero => exact fun _ => rfl
  | succ n ih => exact fun h => congrArg (· + 1) (ih h.alloc.2)

theorem next_allocs (n : Nat) : ∀ h : Ledger, (h.allocs n).2.next = h.next + n := by
  induction n with
  | zero => exact fun _ => rfl
  | succ n ih =>
      intro h
      exact (ih h.alloc.2).trans (by rw [next_alloc, Nat.add_assoc, Nat.add_comm 1])

theorem Holds.use (hh : h.Holds own) (hb : b ∈ own) : (h.use b : Except (Stop ε) Unit) = .ok () :=
  if_pos (hh.mem_iff.mpr hb)

theorem Holds.useAll (hh : h.Holds own) :
    ∀ bs : List Nat, (∀ b ∈ bs, b ∈ own) → (h.useAll bs : Except (Stop ε) Unit) = .ok () := by
  intro bs
  induction bs with
  | nil => exact fun _ => rfl
  | cons b bs ih =>
      intro hbs
      rw [Ledger.useAll, hh.use (hbs b List.mem_cons_self)]
      exact ih fun c hc => hbs c (List.mem_cons_of_mem b hc)

/-- A block that is owned can be released; the others stay. -/
theorem Holds.free (hh : h.Holds (b :: own)) :
    ∃ h', (h.free b : Except (Stop ε) Ledger) = .ok h' ∧ h'.Holds own ∧ h'.next = h.next := by
  refine ⟨_, if_pos (hh.mem_iff.mpr List.mem_cons_self), ?_, rfl⟩
  have := List.Perm.erase b hh
  rwa [List.erase_cons_head] at this

/-- A pointer to a block that was live once and is not any more. -/
def Dangling (h : Ledger) (b : Nat) : Prop := b < h.next ∧ b ∉ h.live

end Ledger

end ChooseCut
