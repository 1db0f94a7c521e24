import Mathlib.Data.List.Basic
import Mathlib.Tactic.Ring
import ChooseCut.Lib.Dyadic

/-!
# ChooseCut.Lib.Bits

Bitmaps as rank structures: setting and testing bits, population count, the rank
of a position (`popcount(b & ((1 << i) - 1))`), and the loop that peels the set
bits off a word from the lowest up.

Everything reduces to `count p n`, the number of `i < n` with `p i`: rank is
strictly increasing on set bits (`count_lt_count`) and hits every value below the
population count (`exists_count_eq`), so ranked children are in bijection with
set bits.
-/

namespace ChooseCut

/-! ### Counting -/

/-- The number of positions below `n` that satisfy `p`. -/
def count (p : Nat → Bool) (n : Nat) : Nat := (List.range n).countP p

@[simp] theorem count_zero (p : Nat → Bool) : count p 0 = 0 := rfl

theorem count_succ (p : Nat → Bool) (n : Nat) :
    count p (n + 1) = count p n + if p n then 1 else 0 := by
  simp [count, List.range_succ, List.countP_append]

theorem count_mono (p : Nat → Bool) {m n : Nat} (h : m ≤ n) : count p m ≤ count p n := by
  induction n with
  | zero => simp [Nat.le_zero.mp h]
  | succ n ih =>
      rcases Nat.lt_or_ge m (n + 1) with hlt | hge
      · have := ih (by omega)
        rw [count_succ]
        omega
      · rw [show m = n + 1 by omega]

theorem count_lt_count {p : Nat → Bool} {i n : Nat} (hp : p i = true) (h : i < n) :
    count p i < count p n := by
  have h1 : count p (i + 1) = count p i + 1 := by rw [count_succ, if_pos hp]
  have h2 := count_mono p (show i + 1 ≤ n by omega)
  omega

/-- Rank is injective on the positions counted. -/
theorem count_inj {p : Nat → Bool} {i j : Nat} (hi : p i = true) (hj : p j = true)
    (h : count p i = count p j) : i = j := by
  rcases Nat.lt_trichotomy i j with hlt | heq | hgt
  · have := count_lt_count hi hlt; omega
  · exact heq
  · have := count_lt_count hj hgt; omega

/-- Every rank below the total is taken. -/
theorem exists_count_eq {p : Nat → Bool} {n k : Nat} (h : k < count p n) :
    ∃ i < n, p i = true ∧ count p i = k := by
  induction n with
  | zero => simp at h
  | succ n ih =>
      rw [count_succ] at h
      by_cases hk : k < count p n
      · obtain ⟨i, hi, hp⟩ := ih hk
        exact ⟨i, by omega, hp⟩
      · by_cases hp : p n = true
        · rw [if_pos hp] at h
          exact ⟨n, by omega, hp, by omega⟩
        · rw [if_neg hp] at h
          omega

theorem count_congr {p q : Nat → Bool} {n : Nat} (h : ∀ i < n, p i = q i) :
    count p n = count q n := by
  induction n with
  | zero => rfl
  | succ n ih => rw [count_succ, count_succ, ih (fun i hi => h i (by omega)), h n (by omega)]

/-- Counting under a bound is counting up to the bound. -/
theorem count_and_lt (p : Nat → Bool) (n i : Nat) :
    count (fun j => p j && decide (j < i)) n = count p (min n i) := by
  induction n with
  | zero => simp
  | succ n ih =>
      rw [count_succ, ih]
      by_cases h : n < i
      · rw [show min (n + 1) i = min n i + 1 by omega, count_succ, show min n i = n by omega]
        simp [h]
      · rw [show min (n + 1) i = min n i by omega]
        simp [h]

theorem length_filter_range (p : Nat → Bool) (n : Nat) :
    ((List.range n).filter p).length = count p n := by
  rw [count, List.countP_eq_length_filter]

/-! ### Words -/

variable {w : Nat}

/-- `set_bit`. -/
def setBit (b : BitVec w) (pos : Nat) : BitVec w := b ||| (1#w <<< pos)

/-- `(1 << idx) - 1`. -/
def lowMask (w idx : Nat) : BitVec w := (1#w <<< idx) - 1#w

/-- `__builtin_popcount` on a word of `w` bits. -/
def popcount (b : BitVec w) : Nat := count b.getLsbD w

/-- The set bits below `idx`, counted through a mask as the lookups do. -/
def rank (b : BitVec w) (idx : Nat) : Nat := popcount (b &&& lowMask w idx)

theorem getLsbD_setBit (b : BitVec w) {pos : Nat} (h : pos < w) (j : Nat) :
    (setBit b pos).getLsbD j = (b.getLsbD j || decide (pos = j)) := by
  rw [setBit, BitVec.getLsbD_or, ← BitVec.twoPow_eq, BitVec.getLsbD_twoPow]
  simp [h]

/-- Setting the bits of a list of positions, one after the other. -/
theorem getLsbD_foldl_setBit {α : Type} {f : α → Nat} {l : List α} : ∀ {b : BitVec w},
    (∀ x ∈ l, f x < w) → ∀ j, (l.foldl (fun b x => setBit b (f x)) b).getLsbD j
      = (b.getLsbD j || decide (j ∈ l.map f)) := by
  induction l with
  | nil => intro b _ j; simp
  | cons x l ih =>
      intro b h j
      rw [List.foldl_cons, ih (fun y hy => h y (List.mem_cons_of_mem x hy)),
        getLsbD_setBit _ (h x List.mem_cons_self), List.map_cons]
      by_cases hj : j = f x
      · subst hj; simp
      · simp [hj, Ne.symm hj]

theorem lowMask_toNat {idx : Nat} (h : idx < w) : (lowMask w idx).toNat = 2 ^ idx - 1 := by
  have hpow : 2 ^ idx < 2 ^ w := Nat.pow_lt_pow_right (by norm_num) h
  have hpos := Nat.two_pow_pos idx
  have hone : (1#w).toNat = 1 := by
    rw [BitVec.toNat_ofNat, Nat.mod_eq_of_lt]
    omega
  rw [lowMask, ← BitVec.twoPow_eq, BitVec.toNat_sub, BitVec.toNat_twoPow_of_lt h, hone,
    show 2 ^ w - 1 + 2 ^ idx = (2 ^ idx - 1) + 2 ^ w by omega, Nat.add_mod_right,
    Nat.mod_eq_of_lt (by omega)]

theorem getLsbD_lowMask {idx : Nat} (h : idx < w) (j : Nat) :
    (lowMask w idx).getLsbD j = decide (j < idx) := by
  rw [BitVec.getLsbD, lowMask_toNat h, Nat.testBit_two_pow_sub_one]

/-- The masked population count is the rank. -/
theorem rank_eq (b : BitVec w) {idx : Nat} (h : idx < w) : rank b idx = count b.getLsbD idx := by
  unfold rank popcount
  have hcongr : count (b &&& lowMask w idx).getLsbD w
      = count (fun j => b.getLsbD j && decide (j < idx)) w :=
    count_congr (fun j _ => by rw [BitVec.getLsbD_and, getLsbD_lowMask h])
  rw [hcongr, count_and_lt, Nat.min_eq_right (by omega)]

theorem rank_lt_popcount {b : BitVec w} {i : Nat} (hb : b.getLsbD i = true) :
    rank b i < popcount b := by
  have hi : i < w := BitVec.lt_of_getLsbD hb
  rw [rank_eq b hi]
  exact count_lt_count hb hi

theorem rank_inj {b : BitVec w} {i j : Nat} (hi : b.getLsbD i = true)
    (hj : b.getLsbD j = true) (h : rank b i = rank b j) : i = j := by
  rw [rank_eq b (BitVec.lt_of_getLsbD hi), rank_eq b (BitVec.lt_of_getLsbD hj)] at h
  exact count_inj hi hj h

theorem exists_rank_eq {b : BitVec w} {k : Nat} (h : k < popcount b) :
    ∃ i, b.getLsbD i = true ∧ rank b i = k := by
  obtain ⟨i, hi, hb, hk⟩ := exists_count_eq h
  exact ⟨i, hb, by rw [rank_eq b hi, hk]⟩

theorem popcount_zero : popcount (0#w) = 0 := by
  simp [popcount, count]

/-- A narrower count misses the upper bits. -/
theorem popcount_setWidth_le {v : Nat} (h : v ≤ w) (b : BitVec w) :
    popcount (b.setWidth v) ≤ popcount b := by
  have hlow : count (b.setWidth v).getLsbD v = count b.getLsbD v :=
    count_congr (fun j hj => by simp [hj])
  rw [popcount, hlow]
  exact count_mono _ h

/-- Setting a bit adds at most one to the count. -/
theorem popcount_setBit_le (b : BitVec w) (pos : Nat) :
    popcount (setBit b pos) ≤ popcount b + 1 := by
  have hbit : ∀ j < w, (setBit b pos).getLsbD j = (b.getLsbD j || decide (pos = j)) := by
    intro j hj
    by_cases hpos : pos < w
    · exact getLsbD_setBit b hpos j
    · simp [setBit, show j < pos by omega, show pos ≠ j by omega]
  have hcount : ∀ n ≤ w, count (setBit b pos).getLsbD n
      ≤ count b.getLsbD n + if pos < n then 1 else 0 := by
    intro n
    induction n with
    | zero => intro _; simp
    | succ n ih =>
        intro hn
        have hi := ih (by omega)
        rw [count_succ, count_succ, hbit n (by omega)]
        by_cases hp : pos = n
        · subst hp
          simp only [Nat.lt_irrefl, if_false, decide_true, Bool.or_true, if_true,
            Nat.lt_succ_self] at hi ⊢
          omega
        · simp only [hp, decide_false, Bool.or_false]
          split at hi <;> split <;> split <;> omega
  have := hcount w (Nat.le_refl _)
  unfold popcount
  split at this <;> omega

theorem popcount_foldl_setBit_le {α : Type} (f : α → Nat) (l : List α) : ∀ b : BitVec w,
    popcount (l.foldl (fun b x => setBit b (f x)) b) ≤ popcount b + l.length := by
  induction l with
  | nil => intro b; simp
  | cons x l ih =>
      intro b
      have h1 := ih (setBit b (f x))
      have h2 := popcount_setBit_le b (f x)
      rw [List.foldl_cons, List.length_cons]
      omega

/-! ### Setting the bits of a predicate -/

/-- Set bit `i` for every `i < n` that satisfies `p`. -/
def setBits (w : Nat) (p : Nat → Bool) (n : Nat) : BitVec w :=
  (List.range n).foldl (fun b i => if p i then setBit b i else b) 0#w

theorem getLsbD_setBits (p : Nat → Bool) {n : Nat} (h : n ≤ w) (j : Nat) :
    (setBits w p n).getLsbD j = (p j && decide (j < n)) := by
  induction n with
  | zero => simp [setBits]
  | succ n ih =>
      have hstep : setBits w p (n + 1) =
          if p n then setBit (setBits w p n) n else setBits w p n := by
        simp [setBits, List.range_succ]
      rw [hstep]
      by_cases hp : p n = true
      · rw [if_pos hp, getLsbD_setBit _ (by omega), ih (by omega)]
        by_cases hj : n = j
        · subst hj; simp [hp]
        · have : decide (j < n) = decide (j < n + 1) := by
            simp only [decide_eq_decide]; omega
          simp [hj, this]
      · rw [if_neg hp, ih (by omega)]
        by_cases hj : n = j
        · subst hj; simp [hp]
        · have : decide (j < n) = decide (j < n + 1) := by
            simp only [decide_eq_decide]; omega
          rw [this]

theorem popcount_setBits (p : Nat → Bool) {n : Nat} (h : n ≤ w) :
    popcount (setBits w p n) = count p n := by
  have hcongr : count (setBits w p n).getLsbD w = count (fun j => p j && decide (j < n)) w :=
    count_congr (fun j _ => getLsbD_setBits p h j)
  rw [popcount, hcongr, count_and_lt, Nat.min_eq_right h]

/-! ### Peeling set bits -/

theorem ctz_eq_of_testBit : ∀ {w n i : Nat}, i < w → n.testBit i = true →
    (∀ j < i, n.testBit j = false) → ctz w n = i
  | 0, _, _, h, _, _ => by omega
  | w + 1, n, 0, _, h0, _ => by
      have : n % 2 = 1 := by simpa [Nat.testBit_zero] using h0
      rw [ctz, if_pos this]
  | w + 1, n, i + 1, h, hi, hlow => by
      have h0 := hlow 0 (by omega)
      have hodd : ¬ n % 2 = 1 := by simpa [Nat.testBit_zero] using h0
      rw [ctz, if_neg hodd, ctz_eq_of_testBit (i := i) (by omega)]
      · rw [← Nat.testBit_succ]; exact hi
      · intro j hj
        rw [← Nat.testBit_succ]
        exact hlow (j + 1) (by omega)

/-- The loop `while (b ^ mask) { pos = ctz(b ^ mask); …; mask |= 1 << pos; }`, as
the list of positions it visits. -/
def peel (b : BitVec w) : Nat → BitVec w → List Nat
  | 0, _ => []
  | fuel + 1, mask =>
      if b ^^^ mask = 0#w then []
      else
        let pos := ctz w (b ^^^ mask).toNat
        pos :: peel b fuel (setBit mask pos)

/-- The positions of the set bits, lowest first. -/
def bitPositions (b : BitVec w) : List Nat := (List.range w).filter b.getLsbD

/-- One turn visits the lowest bit in which the word and the mask differ. -/
theorem peel_step {b mask : BitVec w} {i : Nat} (fuel : Nat) (hi : i < w)
    (hbit : (b ^^^ mask).getLsbD i = true) (hlow : ∀ j < i, (b ^^^ mask).getLsbD j = false) :
    peel b (fuel + 1) mask = i :: peel b fuel (setBit mask i) := by
  have hne : b ^^^ mask ≠ 0#w := by
    intro h0
    rw [h0] at hbit
    simp at hbit
  have hctz : ctz w (b ^^^ mask).toNat = i := ctz_eq_of_testBit hi hbit hlow
  rw [peel, if_neg hne]
  dsimp only
  rw [hctz]

/-- With the bits below `w - n` already in the mask, the loop visits the set bits
among the last `n` positions. The induction is on `n`; a clear bit costs no fuel. -/
theorem peel_eq (b : BitVec w) : ∀ (n fuel : Nat) (mask : BitVec w), n ≤ w → n ≤ fuel →
    (∀ j < w, mask.getLsbD j = (b.getLsbD j && decide (j < w - n))) →
    peel b fuel mask = ((List.range' (w - n) n).filter b.getLsbD)
  | 0, fuel, mask, _, _, hmask => by
      have heq : b ^^^ mask = 0#w := by
        apply BitVec.eq_of_getLsbD_eq
        intro j hj
        rw [BitVec.getLsbD_xor, hmask j hj]
        simp [hj]
      cases fuel with
      | zero => rfl
      | succ fuel => rw [peel, if_pos heq]; rfl
  | n + 1, fuel, mask, hn, hfuel, hmask => by
      have hi : w - (n + 1) < w := by omega
      have hstep : w - (n + 1) + 1 = w - n := by omega
      rw [List.range'_succ, List.filter_cons, hstep]
      by_cases hb : b.getLsbD (w - (n + 1)) = true
      · -- the lowest bit left is the one at `w - (n + 1)`
        rw [if_pos hb]
        have hxor : ∀ j < w, (b ^^^ mask).getLsbD j = (b.getLsbD j && !decide (j < w - (n + 1))) := by
          intro j hj
          rw [BitVec.getLsbD_xor, hmask j hj]
          cases b.getLsbD j <;> simp
        have hbit : (b ^^^ mask).getLsbD (w - (n + 1)) = true := by
          rw [hxor _ hi, hb]
          simp
        have hlow : ∀ j < w - (n + 1), (b ^^^ mask).getLsbD j = false := by
          intro j hj
          rw [hxor j (by omega)]
          simp [hj]
        cases fuel with
        | zero => omega
        | succ fuel =>
            rw [peel_step fuel hi hbit hlow]
            congr 1
            refine peel_eq b n fuel _ (by omega) (by omega) ?_
            intro j hj
            rw [getLsbD_setBit _ hi, hmask j hj]
            by_cases hj' : w - (n + 1) = j
            · subst hj'
              rw [hb]
              simp
              omega
            · have : decide (j < w - (n + 1)) = decide (j < w - n) := by
                simp only [decide_eq_decide]; omega
              simp [hj', this]
      · rw [if_neg hb]
        refine peel_eq b n fuel mask (by omega) (by omega) ?_
        intro j hj
        rw [hmask j hj]
        by_cases hj' : j = w - (n + 1)
        · subst hj'
          simp [hb]
        · have : decide (j < w - (n + 1)) = decide (j < w - n) := by
            simp only [decide_eq_decide]; omega
          rw [this]

/-- **The peeling loop visits every set bit once, in ascending order.** -/
theorem peel_eq_bitPositions (b : BitVec w) : peel b w 0#w = bitPositions b := by
  rw [peel_eq b w w 0#w (Nat.le_refl _) (Nat.le_refl _) (by simp), bitPositions,
    List.range_eq_range']
  simp

theorem mem_bitPositions {b : BitVec w} {i : Nat} :
    i ∈ bitPositions b ↔ b.getLsbD i = true := by
  simp only [bitPositions, List.mem_filter, List.mem_range, and_iff_right_iff_imp]
  exact BitVec.lt_of_getLsbD

/-- The ranks of the set bits, lowest first, are `0, 1, 2, …`. -/
theorem map_rank_bitPositions (b : BitVec w) :
    (bitPositions b).map (rank b) = List.range (popcount b) := by
  have h : ∀ n ≤ w, ((List.range n).filter b.getLsbD).map (rank b)
      = List.range (count b.getLsbD n) := by
    intro n
    induction n with
    | zero => intro _; rfl
    | succ n ih =>
        intro hn
        rw [List.range_succ, List.filter_append, List.map_append, ih (by omega), count_succ]
        by_cases hb : b.getLsbD n = true
        · simp [hb, List.range_succ, rank_eq b (show n < w by omega)]
        · simp [hb]
  exact h w (Nat.le_refl _)

end ChooseCut
