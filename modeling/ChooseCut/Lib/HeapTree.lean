import Mathlib.Data.List.Basic
import Mathlib.Data.List.Nodup
import Mathlib.Data.List.Count
import Mathlib.Algebra.BigOperators.Group.List.Basic
import Mathlib.Algebra.Order.Ring.Nat
import Mathlib.Tactic.Ring

/-!
# ChooseCut.Lib.HeapTree

Complete binary trees numbered level by level from 0, as in a binary heap: the
parent of `i` is `(i - 1) / 2`. With `i + 1` written in binary, the ancestors of
`i` are the shifts of `i + 1` (`mem_ancestors`), so a path of address bits and a
path in the tree are the same thing.

`descRows` lists the proper descendants of a node row by row, `nearestUp` is the
first non-zero value on the way to the root, and `accumulate` is the in-place
ascending pass that turns counts per node into counts per root path.
-/

namespace ChooseCut

/-! ### Ancestors -/

/-- `i` and its ancestors, `i` first; `fuel` bounds the depth. -/
def ancestorsAux : Nat → Nat → List Nat
  | 0, _ => []
  | fuel + 1, i => i :: if i = 0 then [] else ancestorsAux fuel ((i - 1) / 2)

theorem ancestorsAux_succ (fuel i : Nat) :
    ancestorsAux (fuel + 1) i = i :: if i = 0 then [] else ancestorsAux fuel ((i - 1) / 2) := rfl

/-- `i` and its ancestors, `i` first. -/
def ancestors (i : Nat) : List Nat := ancestorsAux (i + 1) i

theorem ancestorsAux_fuel : ∀ {f g i : Nat}, i < f → i < g →
    ancestorsAux f i = ancestorsAux g i
  | 0, _, _, h, _ => by omega
  | _ + 1, 0, _, _, h => by omega
  | f + 1, g + 1, i, hf, hg => by
      rw [ancestorsAux_succ, ancestorsAux_succ]
      split
      · rfl
      · rw [ancestorsAux_fuel (f := f) (g := g) (by omega) (by omega)]

theorem ancestors_zero : ancestors 0 = [0] := rfl

theorem ancestors_pos {i : Nat} (h : 0 < i) : ancestors i = i :: ancestors ((i - 1) / 2) := by
  rw [ancestors, ancestorsAux_succ, if_neg (by omega), ancestors,
    ancestorsAux_fuel (g := (i - 1) / 2 + 1) (by omega) (by omega)]

theorem self_mem_ancestors (i : Nat) : i ∈ ancestors i := by
  rw [ancestors, ancestorsAux_succ]
  exact List.mem_cons_self

/-- The ancestors of `i` are the shifts of `i + 1`. -/
theorem mem_ancestors {a i : Nat} : a ∈ ancestors i ↔ ∃ t, (i + 1) >>> t = a + 1 := by
  induction i using Nat.strong_induction_on with
  | _ i ih =>
    by_cases h0 : i = 0
    · subst h0
      rw [ancestors_zero, List.mem_singleton]
      constructor
      · rintro rfl; exact ⟨0, rfl⟩
      · rintro ⟨t, ht⟩
        have : (0 + 1) >>> t ≤ 1 := by
          rw [Nat.shiftRight_eq_div_pow]; exact Nat.div_le_self _ _
        omega
    · have hpar : (i - 1) / 2 + 1 = (i + 1) / 2 := by omega
      rw [ancestors_pos (by omega), List.mem_cons, ih _ (by omega), hpar]
      constructor
      · rintro (rfl | ⟨t, ht⟩)
        · exact ⟨0, rfl⟩
        · exact ⟨t + 1, by rw [Nat.shiftRight_succ_inside]; exact ht⟩
      · rintro ⟨t, ht⟩
        cases t with
        | zero => exact Or.inl (by simpa using ht.symm)
        | succ t => exact Or.inr ⟨t, by rw [Nat.shiftRight_succ_inside] at ht; exact ht⟩

theorem le_of_mem_ancestors {a i : Nat} (h : a ∈ ancestors i) : a ≤ i := by
  rw [mem_ancestors] at h
  obtain ⟨t, ht⟩ := h
  have : (i + 1) >>> t ≤ i + 1 := by
    rw [Nat.shiftRight_eq_div_pow]; exact Nat.div_le_self _ _
  omega

theorem ancestors_trans {a b i : Nat} (hab : a ∈ ancestors b) (hbi : b ∈ ancestors i) :
    a ∈ ancestors i := by
  rw [mem_ancestors] at hab hbi ⊢
  obtain ⟨t, ht⟩ := hab
  obtain ⟨u, hu⟩ := hbi
  exact ⟨u + t, by rw [Nat.shiftRight_add, hu, ht]⟩

/-- Two ancestors of one node lie on one path. -/
theorem mem_ancestors_of_le {a b i : Nat} (ha : a ∈ ancestors i) (hb : b ∈ ancestors i)
    (h : a ≤ b) : a ∈ ancestors b := by
  rw [mem_ancestors] at ha hb
  obtain ⟨t, ht⟩ := ha
  obtain ⟨u, hu⟩ := hb
  rcases Nat.le_total u t with hle | hle
  · rw [mem_ancestors]
    refine ⟨t - u, ?_⟩
    rw [← hu, ← Nat.shiftRight_add, show u + (t - u) = t by omega, ht]
  · -- the deeper shift of the two cannot be the larger one
    have hbt : (a + 1) >>> (u - t) = b + 1 := by
      rw [← ht, ← Nat.shiftRight_add, show t + (u - t) = u by omega, hu]
    have : (a + 1) >>> (u - t) ≤ a + 1 := by
      rw [Nat.shiftRight_eq_div_pow]; exact Nat.div_le_self _ _
    obtain rfl : a = b := by omega
    exact self_mem_ancestors a

theorem ancestors_nodup (i : Nat) : (ancestors i).Nodup := by
  induction i using Nat.strong_induction_on with
  | _ i ih =>
    by_cases h0 : i = 0
    · subst h0; simp [ancestors_zero]
    · rw [ancestors_pos (by omega), List.nodup_cons]
      refine ⟨fun hmem => ?_, ih _ (by omega)⟩
      have := le_of_mem_ancestors hmem
      omega

/-! ### Descendants, row by row -/

/-- Rows of descendants: the row of `width` nodes from `start`, then the row below
it, until a row starts at or past `bound`. -/
def descRows (bound : Nat) : Nat → Nat → Nat → List Nat
  | 0, _, _ => []
  | fuel + 1, start, width =>
      if start < bound then
        List.range' start width ++ descRows bound fuel (2 * start + 1) (2 * width)
      else []

theorem descRows_succ (bound fuel start width : Nat) :
    descRows bound (fuel + 1) start width
      = if start < bound then
          List.range' start width ++ descRows bound fuel (2 * start + 1) (2 * width)
        else [] := rfl

/-- The row `t` levels below node `idx` starts at `2 ^ t * (idx + 1) - 1`. In a tree
of `h` levels, the rows from there on hold the nodes below `idx` by at least `t`. -/
theorem mem_descRows {h idx i : Nat} : ∀ (fuel t : Nat), h ≤ fuel + t →
    (i ∈ descRows (2 ^ h - 1) fuel (2 ^ t * (idx + 1) - 1) (2 ^ t) ↔
      i < 2 ^ h - 1 ∧ ∃ u, t ≤ u ∧ (i + 1) >>> u = idx + 1)
  | 0, t, hft => by
      change i ∈ [] ↔ _
      simp only [List.not_mem_nil, false_iff, not_and, not_exists]
      intro hi u htu hshift
      have hpow : 2 ^ h ≤ 2 ^ u := Nat.pow_le_pow_right (by norm_num) (by omega)
      rw [Nat.shiftRight_eq_div_pow, Nat.div_eq_of_lt (by omega)] at hshift
      omega
  | fuel + 1, t, hft => by
      have hpos : 0 < 2 ^ t := Nat.two_pow_pos t
      have hmul : 2 ^ t ≤ 2 ^ t * (idx + 1) := Nat.le_mul_of_pos_right _ (by omega)
      have hpow : 2 ^ (t + 1) = 2 * 2 ^ t := by ring
      have hnext : 2 * (2 ^ t * (idx + 1) - 1) + 1 = 2 ^ (t + 1) * (idx + 1) - 1 := by
        rw [hpow, Nat.mul_assoc]; omega
      -- membership in the row itself is the shift by exactly `t`
      have hrow : i ∈ List.range' (2 ^ t * (idx + 1) - 1) (2 ^ t) ↔ (i + 1) >>> t = idx + 1 := by
        rw [List.mem_range'_1, Nat.shiftRight_eq_div_pow, Nat.div_eq_iff hpos,
          Nat.mul_comm (idx + 1)]
        omega
      rw [descRows_succ]
      split
      · next hlt =>
        rw [List.mem_append, hrow, hnext, ← hpow, mem_descRows fuel (t + 1) (by omega)]
        constructor
        · rintro (hi | ⟨hi, u, htu, hu⟩)
          · refine ⟨?_, t, Nat.le_refl t, hi⟩
            -- a row that starts inside the tree ends inside it
            have hth : t ≤ h := by
              by_contra hcon
              have : 2 ^ h ≤ 2 ^ t := Nat.pow_le_pow_right (by norm_num) (by omega)
              omega
            obtain ⟨m, hm⟩ : 2 ^ t ∣ 2 ^ h := Nat.pow_dvd_pow 2 hth
            have hidx : idx + 1 < m := by
              rw [hm] at hlt
              refine Nat.lt_of_mul_lt_mul_left (a := 2 ^ t) ?_
              have : 0 < 2 ^ t * (idx + 1) := Nat.mul_pos hpos (by omega)
              omega
            have hmem := List.mem_range'_1.mp (hrow.mpr hi)
            have hle : 2 ^ t * (idx + 1 + 1) ≤ 2 ^ t * m := Nat.mul_le_mul_left _ (by omega)
            rw [Nat.mul_succ] at hle
            omega
          · exact ⟨hi, u, by omega, hu⟩
        · rintro ⟨hi, u, htu, hu⟩
          rcases Nat.lt_or_ge t u with hlt' | hge
          · exact Or.inr ⟨hi, u, hlt', hu⟩
          · obtain rfl : t = u := by omega
            exact Or.inl hu
      · next hge =>
        simp only [List.not_mem_nil, false_iff, not_and, not_exists]
        intro hi u htu hu
        -- a descendant lies at or past the start of its row
        rw [Nat.shiftRight_eq_div_pow, Nat.div_eq_iff (Nat.two_pow_pos u)] at hu
        have : 2 ^ t * (idx + 1) ≤ 2 ^ u * (idx + 1) :=
          Nat.mul_le_mul_right _ (Nat.pow_le_pow_right (by norm_num) htu)
        rw [Nat.mul_comm (idx + 1)] at hu
        omega

theorem le_of_mem_descRows {bound i : Nat} : ∀ (fuel start width : Nat),
    i ∈ descRows bound fuel start width → start ≤ i
  | 0, _, _, h => absurd h List.not_mem_nil
  | fuel + 1, start, width, h => by
      rw [descRows_succ] at h
      split at h
      · rcases List.mem_append.mp h with h | h
        · exact (List.mem_range'_1.mp h).1
        · have := le_of_mem_descRows fuel _ _ h
          omega
      · simp at h

/-- A row that is no wider than its distance from the root ends before the next
one starts, so no node is listed twice. -/
theorem descRows_nodup {bound : Nat} : ∀ (fuel start width : Nat), width ≤ start + 1 →
    (descRows bound fuel start width).Nodup
  | 0, _, _, _ => List.nodup_nil
  | fuel + 1, start, width, h => by
      rw [descRows_succ]
      split
      · refine List.nodup_append.mpr
          ⟨List.nodup_range', descRows_nodup fuel _ _ (by omega), ?_⟩
        intro a ha b hb
        have h1 := (List.mem_range'_1.mp ha).2
        have h2 := le_of_mem_descRows fuel _ _ hb
        omega
      · exact List.nodup_nil

/-- The proper descendants of `idx` in a tree of `h` levels. -/
def descendants (h idx : Nat) : List Nat := descRows (2 ^ h - 1) h (2 * idx + 1) 2

theorem mem_descendants {h idx i : Nat} :
    i ∈ descendants h idx ↔ i < 2 ^ h - 1 ∧ i ≠ idx ∧ idx ∈ ancestors i := by
  have hm := @mem_descRows h idx i h 1 (by omega)
  rw [show 2 ^ 1 * (idx + 1) - 1 = 2 * idx + 1 by omega, pow_one] at hm
  rw [descendants, hm, mem_ancestors]
  constructor
  · rintro ⟨hi, u, hu, hshift⟩
    refine ⟨hi, ?_, u, hshift⟩
    rintro rfl
    rw [Nat.shiftRight_eq_div_pow, Nat.div_eq_iff (Nat.two_pow_pos u)] at hshift
    have h2 : 2 ^ 1 ≤ 2 ^ u := Nat.pow_le_pow_right (by norm_num) hu
    have h3 : (i + 1) * 2 ^ 1 ≤ (i + 1) * 2 ^ u := Nat.mul_le_mul_left _ h2
    omega
  · rintro ⟨hi, hne, u, hshift⟩
    refine ⟨hi, u, ?_, hshift⟩
    by_contra hu
    obtain rfl : u = 0 := by omega
    exact hne (by simpa using hshift)

theorem descendants_nodup (h idx : Nat) : (descendants h idx).Nodup :=
  descRows_nodup _ _ _ (by omega)

/-! ### Counts along root paths -/

/-- The sum of `c` over `i` and its ancestors. -/
def pathSum (c : Nat → Nat) (i : Nat) : Nat := ((ancestors i).map c).sum

theorem pathSum_zero (c : Nat → Nat) : pathSum c 0 = c 0 := by simp [pathSum, ancestors_zero]

theorem pathSum_pos (c : Nat → Nat) {i : Nat} (h : 0 < i) :
    pathSum c i = c i + pathSum c ((i - 1) / 2) := by
  simp [pathSum, ancestors_pos h]

/-- Counting list entries per node and summing along the path counts the entries
on the path. -/
theorem pathSum_count (l : List Nat) (i : Nat) :
    pathSum (fun a => l.count a) i = l.countP (fun a => a ∈ ancestors i) := by
  unfold pathSum
  have hnd := ancestors_nodup i
  induction l with
  | nil => simp
  | cons x l ih =>
      have hsum : ((ancestors i).map (fun a => (x :: l).count a)).sum
          = ((ancestors i).map (fun a => l.count a)).sum + (ancestors i).count x := by
        clear ih hnd
        induction ancestors i with
        | nil => simp
        | cons b bs ihb =>
            rw [List.map_cons, List.sum_cons, ihb, List.map_cons, List.sum_cons,
              List.count_cons, List.count_cons]
            by_cases hb : x = b
            · subst hb; simp; omega
            · simp [hb, Ne.symm hb]; omega
      rw [hsum, ih, List.countP_cons]
      congr 1
      by_cases hx : x ∈ ancestors i
      · simp [hx, List.count_eq_one_of_mem hnd hx]
      · simp [hx, List.count_eq_zero_of_not_mem hx]

/-- The first non-zero value of `c` above `j`, or 0. -/
def nearestUp (c : Nat → Nat) : Nat → Nat → Nat
  | 0, _ => 0
  | fuel + 1, j =>
      if j = 0 then 0
      else if c ((j - 1) / 2) ≠ 0 then c ((j - 1) / 2)
      else nearestUp c fuel ((j - 1) / 2)

theorem nearestUp_zero_right (c : Nat → Nat) (fuel : Nat) : nearestUp c fuel 0 = 0 := by
  cases fuel <;> rfl

theorem nearestUp_succ (c : Nat → Nat) (fuel : Nat) {j : Nat} (hj : 0 < j) :
    nearestUp c (fuel + 1) j
      = if c ((j - 1) / 2) ≠ 0 then c ((j - 1) / 2) else nearestUp c fuel ((j - 1) / 2) :=
  if_neg (Nat.ne_of_gt hj)

/-- One step of the ascending pass: an occupied node gains its nearest occupied
ancestor. -/
def accumulateStep (c : Nat → Nat) (i : Nat) : Nat → Nat :=
  if c i ≠ 0 then Function.update c i (c i + nearestUp c i i) else c

/-- The ascending pass over the first `n` nodes. -/
def accumulate (c : Nat → Nat) (n : Nat) : Nat → Nat := (List.range n).foldl accumulateStep c

theorem accumulate_succ (c : Nat → Nat) (n : Nat) :
    accumulate c (n + 1) = accumulateStep (accumulate c n) n := by
  simp [accumulate, List.range_succ]

/-- When every occupied node below `n` already holds its path sum, the nearest
occupied ancestor of `j ≤ n` holds the sum over all proper ancestors of `j`. -/
theorem nearestUp_eq {c a : Nat → Nat} {n : Nat}
    (ha : ∀ i < n, a i = if c i = 0 then 0 else pathSum c i) : ∀ (fuel j : Nat), 0 < j →
    j ≤ fuel → j ≤ n → nearestUp a fuel j = pathSum c ((j - 1) / 2)
  | 0, j, hj, hf, _ => by omega
  | fuel + 1, j, hj, hf, hn => by
      have hp := ha ((j - 1) / 2) (by omega)
      rw [nearestUp_succ a fuel hj]
      by_cases hc : c ((j - 1) / 2) = 0
      · rw [if_pos hc] at hp
        rw [if_neg (by simpa using hp)]
        by_cases hz : (j - 1) / 2 = 0
        · rw [hz] at hc ⊢
          rw [pathSum_zero, hc, nearestUp_zero_right]
        · rw [nearestUp_eq ha fuel _ (by omega) (by omega) (by omega),
            pathSum_pos c (i := (j - 1) / 2) (by omega), hc, Nat.zero_add]
      · rw [if_neg hc] at hp
        have hpos : 0 < pathSum c ((j - 1) / 2) := by
          refine Nat.lt_of_lt_of_le (Nat.pos_of_ne_zero hc) ?_
          rcases Nat.eq_zero_or_pos ((j - 1) / 2) with hz | hz
          · rw [hz, pathSum_zero]
          · rw [pathSum_pos c hz]; omega
        rw [if_pos (by omega), hp]

/-- **The in-place pass computes path sums** on the occupied nodes it has reached
and leaves every other node alone. -/
theorem accumulate_eq (c : Nat → Nat) (n i : Nat) :
    accumulate c n i = if i < n then (if c i = 0 then 0 else pathSum c i) else c i := by
  induction n generalizing i with
  | zero => simp [accumulate]
  | succ n ih =>
      have hn : accumulate c n n = c n := by rw [ih, if_neg (by omega)]
      rw [accumulate_succ, accumulateStep, hn]
      by_cases hc : c n = 0
      · rw [if_neg (by simpa using hc), ih]
        by_cases hi : i = n
        · subst hi; simp [hc]
        · rw [if_congr (show i < n ↔ i < n + 1 by omega) rfl rfl]
      · rw [if_pos hc]
        by_cases hi : i = n
        · subst hi
          rw [Function.update_self, if_pos (by omega), if_neg hc]
          rcases Nat.eq_zero_or_pos i with hz | hz
          · subst hz; simp [nearestUp_zero_right, pathSum_zero]
          · rw [nearestUp_eq (c := c) (n := i)
              (fun k hk => by rw [ih, if_pos hk]) i i hz (Nat.le_refl _) (Nat.le_refl _),
              pathSum_pos c hz]
        · rw [Function.update_of_ne hi, ih, if_congr (show i < n ↔ i < n + 1 by omega) rfl rfl]

end ChooseCut
