import Mathlib.Data.Nat.Log
import Mathlib.Data.List.Basic
import Mathlib.Algebra.Order.Ring.Nat
import Mathlib.Tactic.Ring

/-!
# ChooseCut.Lib.Dyadic

Aligned power-of-two blocks on the natural numbers.

A block is a pair `(a, k)` standing for `[a, a + 2 ^ k)` with `2 ^ k ∣ a`.
`Tiles l a b` says that the blocks of `l`, in order, tile the half-open interval
`[a, b)`. The greedy exponent `leap` is the largest aligned block that starts at
a given point and fits in a given remaining count; it never falls below a
granularity that divides both (`le_leap`).
-/

namespace ChooseCut

/-! ### Trailing zeros -/

/-- Count of trailing zero bits within a word of `w` bits; `w` for zero. -/
def ctz : Nat → Nat → Nat
  | 0, _ => 0
  | w + 1, n => if n % 2 = 1 then 0 else ctz w (n / 2) + 1

theorem two_pow_ctz_dvd : ∀ (w n : Nat), 2 ^ ctz w n ∣ n
  | 0, n => by simp [ctz]
  | w + 1, n => by
      rw [ctz]
      split
      · simp
      · next h =>
        obtain ⟨m, hm⟩ := two_pow_ctz_dvd w (n / 2)
        refine ⟨m, ?_⟩
        rw [pow_succ, Nat.mul_right_comm, ← hm]
        omega

/-- Every power of two that divides `n`, up to the word width, is counted. -/
theorem le_ctz : ∀ {w n k : Nat}, k ≤ w → 2 ^ k ∣ n → k ≤ ctz w n
  | 0, _, k, hk, _ => by omega
  | w + 1, n, 0, _, _ => Nat.zero_le _
  | w + 1, n, k + 1, hk, ⟨m, hm⟩ => by
      have heven : n = 2 * (2 ^ k * m) := by rw [hm]; ring
      rw [ctz, if_neg (by omega)]
      have : k ≤ ctz w (n / 2) := le_ctz (by omega) ⟨m, by omega⟩
      omega

/-! ### The greedy block -/

/-- Exponent of the largest aligned block at `start` that fits in `left` values. -/
def leap (w left start : Nat) : Nat := min left.log2 (ctz w start)

theorem two_pow_leap_dvd (w left start : Nat) : 2 ^ leap w left start ∣ start :=
  (Nat.pow_dvd_pow 2 (min_le_right _ _)).trans (two_pow_ctz_dvd w start)

theorem two_pow_leap_le {left : Nat} (w start : Nat) (h : left ≠ 0) :
    2 ^ leap w left start ≤ left :=
  (Nat.pow_le_pow_right (by norm_num) (min_le_left _ _)).trans (Nat.log2_self_le h)

/-- A granularity of both the start and the count is one of the block. -/
theorem le_leap {w left start g : Nat} (hw : g ≤ w) (h : left ≠ 0)
    (hs : 2 ^ g ∣ start) (hl : 2 ^ g ∣ left) : g ≤ leap w left start := by
  refine le_min ?_ (le_ctz hw hs)
  exact (Nat.le_log2 h).mpr (Nat.le_of_dvd (Nat.pos_of_ne_zero h) hl)

/-- What is left after the block keeps the granularity. -/
theorem dvd_sub_leap {w left start g : Nat} (hw : g ≤ w) (h : left ≠ 0)
    (hs : 2 ^ g ∣ start) (hl : 2 ^ g ∣ left) :
    2 ^ g ∣ start + 2 ^ leap w left start ∧ 2 ^ g ∣ left - 2 ^ leap w left start := by
  have hb : 2 ^ g ∣ 2 ^ leap w left start := Nat.pow_dvd_pow 2 (le_leap hw h hs hl)
  exact ⟨Nat.dvd_add hs hb, Nat.dvd_sub hl hb⟩

/-! ### Tilings -/

/-- The blocks of the list tile `[a, b)` from left to right. -/
inductive Tiles : List (Nat × Nat) → Nat → Nat → Prop
  | nil (a : Nat) : Tiles [] a a
  | cons {l : List (Nat × Nat)} {a b k : Nat} (hdvd : 2 ^ k ∣ a)
      (htail : Tiles l (a + 2 ^ k) b) : Tiles ((a, k) :: l) a b

namespace Tiles

theorem le {l : List (Nat × Nat)} {a b : Nat} (h : Tiles l a b) : a ≤ b := by
  induction h with
  | nil a => exact Nat.le_refl a
  | cons _ _ ih => omega

/-- Every block of a tiling is aligned and lies inside the tiled interval. -/
theorem mem {l : List (Nat × Nat)} {a b : Nat} (h : Tiles l a b) {p : Nat × Nat}
    (hp : p ∈ l) : 2 ^ p.2 ∣ p.1 ∧ a ≤ p.1 ∧ p.1 + 2 ^ p.2 ≤ b := by
  induction h with
  | nil a => simp at hp
  | cons hdvd htail ih =>
      rcases List.mem_cons.mp hp with rfl | hp
      · exact ⟨hdvd, Nat.le_refl _, htail.le⟩
      · obtain ⟨h1, h2, h3⟩ := ih hp
        exact ⟨h1, by omega, h3⟩

/-- **A point of the interval lies in exactly one block**, other points in none. -/
theorem filter_length {l : List (Nat × Nat)} {a b : Nat} (h : Tiles l a b) (x : Nat) :
    (l.filter (fun p => p.1 ≤ x ∧ x < p.1 + 2 ^ p.2)).length
      = if a ≤ x ∧ x < b then 1 else 0 := by
  induction h with
  | nil a =>
      rw [if_neg (by omega)]
      rfl
  | @cons l a b k hdvd htail ih =>
      have hle := htail.le
      have hpos := Nat.two_pow_pos k
      rw [List.filter_cons]
      by_cases hx : a ≤ x ∧ x < a + 2 ^ k
      · rw [if_pos (by simpa using hx), List.length_cons, ih, if_neg (by omega),
          if_pos (by omega)]
      · rw [if_neg (by simpa using hx), ih]
        by_cases hy : a + 2 ^ k ≤ x ∧ x < b
        · rw [if_pos hy, if_pos (by omega)]
        · rw [if_neg hy, if_neg (by omega)]

end Tiles

/-- An aligned block is a fibre of the shift by its exponent. -/
theorem mem_block_iff {a k x : Nat} (h : 2 ^ k ∣ a) :
    (a ≤ x ∧ x < a + 2 ^ k) ↔ x >>> k = a >>> k := by
  obtain ⟨m, rfl⟩ := h
  have hpos : 0 < 2 ^ k := Nat.two_pow_pos k
  rw [Nat.shiftRight_eq_div_pow, Nat.shiftRight_eq_div_pow, Nat.mul_div_cancel_left m hpos,
    Nat.div_eq_iff hpos, Nat.mul_comm]
  omega

end ChooseCut
