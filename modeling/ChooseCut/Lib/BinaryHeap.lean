import Mathlib

/-!
# ChooseCut.Lib.BinaryHeap

Binary heaps in an array.

The places of the array are the nodes of a complete binary tree, with the parent of
place `j` at `(j - 1) / 2`. The order comes from a test `less`; `StrictWeak` is what a
comparison of keys gives. In a heap no entry is less than its parent (`IsHeap`), so
nothing is less than the root.

While an entry moves, one place is out of order: an entry on its way up may be less
than its parent (`Rising`), one on its way down may have lesser children (`Sinking`).
For each there is a lemma about one move and one about the end of the way, which is
all that a proof about a sift needs. The size of the array is part of its type, so
that no move has to be shown to keep it.
-/

namespace ChooseCut

variable {α : Type} {n : Nat}

/-- `less` is a strict order in which being incomparable is transitive. -/
structure StrictWeak (less : α → α → Bool) : Prop where
  asymm : ∀ {a b}, less a b = true → less b a = false
  trans : ∀ {a b c}, less b a = false → less c b = false → less c a = false

namespace StrictWeak

variable {less : α → α → Bool}

theorem irrefl (h : StrictWeak less) (a : α) : less a a = false := by
  cases ha : less a a with
  | false => rfl
  | true => exact ha ▸ h.asymm ha

/-- Comparing keys. -/
theorem of_key {β : Type} [LinearOrder β] (key : α → β) :
    StrictWeak (fun a b => decide (key a < key b)) where
  asymm hab := by
    simp only [decide_eq_true_eq, decide_eq_false_iff_not, not_lt] at hab ⊢
    exact le_of_lt hab
  trans hba hcb := by
    simp only [decide_eq_false_iff_not, not_lt] at hba hcb ⊢
    exact le_trans hba hcb

end StrictWeak

/-- No entry is less than its parent. -/
def IsHeap (less : α → α → Bool) (v : Vector α n) : Prop :=
  ∀ (j : Nat) (hj : j < n), 0 < j → less v[j] v[(j - 1) / 2] = false

/-- The entry at `i` moves up: every other entry is in order with its parent, and the
children of `i` are in order with the parent of `i`. -/
structure Rising (less : α → α → Bool) (v : Vector α n) (i : Nat) : Prop where
  edge : ∀ (k : Nat) (hk : k < n), 0 < k → k ≠ i → less v[k] v[(k - 1) / 2] = false
  grand : ∀ (k : Nat) (hk : k < n) (_ : 0 < k) (_ : (k - 1) / 2 = i), 0 < i →
    less v[k] v[(i - 1) / 2] = false

/-- The entry at `i` moves down: every entry but the children of `i` is in order with
its parent, and these are in order with the parent of `i`. -/
structure Sinking (less : α → α → Bool) (v : Vector α n) (i : Nat) : Prop where
  edge : ∀ (k : Nat) (hk : k < n), 0 < k → (k - 1) / 2 ≠ i → less v[k] v[(k - 1) / 2] = false
  grand : ∀ (k : Nat) (hk : k < n) (_ : 0 < k) (_ : (k - 1) / 2 = i), 0 < i →
    less v[k] v[(i - 1) / 2] = false

section Order

variable {less : α → α → Bool}

theorem IsHeap.of_size_zero (v : Vector α 0) : IsHeap less v := fun _ hj => absurd hj (by omega)

/-- Nothing is less than the root. -/
theorem IsHeap.root (ho : StrictWeak less) {v : Vector α n} (h : IsHeap less v) :
    ∀ (j : Nat) (hj : j < n), less v[j] v[0] = false := by
  intro j
  induction j using Nat.strongRecOn with
  | ind j ih =>
    intro hj
    rcases Nat.eq_zero_or_pos j with rfl | hpos
    · exact ho.irrefl _
    · exact ho.trans (ih ((j - 1) / 2) (by omega) (by omega)) (h j hj hpos)

/-- The root is a least element. -/
theorem IsHeap.root_of_mem (ho : StrictWeak less) {v : Vector α n} (h : IsHeap less v)
    (hn : 0 < n) {x : α} (hx : x ∈ v.toList) : less x v[0] = false := by
  obtain ⟨j, hj, rfl⟩ := List.mem_iff_getElem.mp hx
  rw [Vector.getElem_toList]
  exact h.root ho j (by simpa using hj)

/-! ### Up -/

/-- A new last entry. -/
theorem IsHeap.rising_push {v : Vector α n} (h : IsHeap less v) (x : α) :
    Rising less (v.push x) n where
  edge k hk hpos hne := by
    have hkn : k < n := by omega
    rw [Vector.getElem_push, Vector.getElem_push, dif_pos hkn, dif_pos (by omega)]
    exact h k hkn hpos
  grand k hk hpos hpar := absurd hk (by omega)

/-- Exchange with the parent. -/
theorem Rising.move (ho : StrictWeak less) {v : Vector α n} {i : Nat} (h : Rising less v i)
    (hi : i < n) (hpos : 0 < i) (hlt : less v[i] v[(i - 1) / 2] = true) :
    Rising less (v.swap ((i - 1) / 2) i) ((i - 1) / 2) where
  edge k hk hk0 hne := by
    by_cases hki : k = i
    · subst hki
      rw [Vector.getElem_swap_right, Vector.getElem_swap_left]
      exact ho.asymm hlt
    · rw [Vector.getElem_swap_of_ne hne hki]
      by_cases hpar : (k - 1) / 2 = (i - 1) / 2
      · -- a sibling: its old parent is greater than the entry that has come up
        simp only [hpar, Vector.getElem_swap_left]
        have hk' := h.edge k hk hk0 hki
        simp only [hpar] at hk'
        exact ho.trans (ho.asymm hlt) hk'
      · by_cases hch : (k - 1) / 2 = i
        · simp only [hch, Vector.getElem_swap_right]
          exact h.grand k hk hk0 hch hpos
        · rw [Vector.getElem_swap_of_ne hpar hch]
          exact h.edge k hk hk0 hki
  grand k hk hk0 hpar hpos' := by
    have hup := h.edge ((i - 1) / 2) (by omega) hpos' (by omega)
    rw [@Vector.getElem_swap_of_ne _ _ (((i - 1) / 2 - 1) / 2) _ _ _ _ _ _ (by omega) (by omega)]
    by_cases hki : k = i
    · subst hki
      rw [Vector.getElem_swap_right]
      exact hup
    · rw [Vector.getElem_swap_of_ne (by omega) hki]
      have hk' := h.edge k hk hk0 hki
      simp only [hpar] at hk'
      exact ho.trans hup hk'

/-- The way up ends at the root or under an entry that is not greater. -/
theorem Rising.finish {v : Vector α n} {i : Nat} (h : Rising less v i)
    (hstop : ∀ (hi : i < n), 0 < i → less v[i] v[(i - 1) / 2] = false) : IsHeap less v := by
  intro j hj hpos
  by_cases hji : j = i
  · subst hji
    exact hstop hj hpos
  · exact h.edge j hj hpos hji

/-! ### Down -/

/-- The last entry takes the place of the root. -/
theorem IsHeap.sinking_pop {v : Vector α (n + 1)} (h : IsHeap less v) :
    Sinking less (v.swap 0 n).pop 0 where
  edge k hk hpos hne := by
    rw [Vector.getElem_pop, Vector.getElem_pop, Vector.getElem_swap_of_ne (by omega) (by omega),
      Vector.getElem_swap_of_ne hne (by omega)]
    exact h k (by omega) hpos
  grand _ _ _ _ hpos := absurd hpos (by omega)

/-- Exchange with a least child. -/
theorem Sinking.move (ho : StrictWeak less) {v : Vector α n} {i j : Nat} (h : Sinking less v i)
    (hj : j < n) (hj0 : 0 < j) (hpar : (j - 1) / 2 = i)
    (hlt : less v[j] v[i] = true)
    (hmin : ∀ (k : Nat) (hk : k < n), 0 < k → (k - 1) / 2 = i → less v[k] v[j] = false) :
    Sinking less (v.swap i j) j where
  edge k hk hk0 hne := by
    by_cases hki : k = i
    · subst hki
      rw [Vector.getElem_swap_left, Vector.getElem_swap_of_ne (by omega) hne]
      exact h.grand j hj hj0 hpar hk0
    · by_cases hkp : (k - 1) / 2 = i
      · simp only [hkp, Vector.getElem_swap_left]
        by_cases hkj : k = j
        · subst hkj
          rw [Vector.getElem_swap_right]
          exact ho.asymm hlt
        · rw [Vector.getElem_swap_of_ne hki hkj]
          exact hmin k hk hk0 hkp
      · rw [Vector.getElem_swap_of_ne hki (by rintro rfl; exact hkp hpar),
          Vector.getElem_swap_of_ne hkp hne]
        exact h.edge k hk hk0 hkp
  grand k hk hk0 hkp _ := by
    simp only [hpar, Vector.getElem_swap_left]
    rw [Vector.getElem_swap_of_ne (by omega) (by omega)]
    have hk' := h.edge k hk hk0 (by omega)
    simp only [hkp] at hk'
    exact hk'

/-- The way down ends above children that are not less. -/
theorem Sinking.finish {v : Vector α n} {i : Nat} (h : Sinking less v i)
    (hstop : ∀ (k : Nat) (hk : k < n) (_ : 0 < k) (_ : (k - 1) / 2 = i), less v[k] v[i] = false) :
    IsHeap less v := by
  intro j hj hpos
  by_cases hji : (j - 1) / 2 = i
  · subst hji
    exact hstop j hj hpos rfl
  · exact h.edge j hj hpos hji

end Order

/-! ### Contents -/

/-- What is left when the root has been exchanged with the last entry and dropped. -/
theorem root_cons_pop_perm (v : Vector α (n + 1)) :
    (v[0] :: (v.swap 0 n).pop.toList).Perm v.toList := by
  have hne : (v.swap 0 n).toList ≠ [] := by
    rw [ne_eq, ← List.length_eq_zero_iff, Vector.length_toList]
    omega
  have hlast : (v.swap 0 n).toList.getLast hne = v[0] := by
    rw [List.getLast_eq_getElem, Vector.getElem_toList]
    simp only [Vector.length_toList, Nat.add_sub_cancel]
    exact Vector.getElem_swap_right (by omega) (by omega)
  have hsplit := List.dropLast_concat_getLast hne
  rw [hlast] at hsplit
  rw [Vector.toList_pop]
  refine (List.perm_append_singleton v[0] _).symm.trans ?_
  rw [hsplit]
  exact (Vector.swap_perm (by omega) (by omega)).toList

end ChooseCut
