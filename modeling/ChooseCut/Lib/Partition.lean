import ChooseCut.Lib.Bits

/-!
# ChooseCut.Lib.Partition

A run of positions cut into consecutive intervals, and the bitmap that encodes it.

`Partition iv n` says that the intervals `iv 0, …, iv (n - 1)` are non-empty and
follow each other from 0 on. Every position up to the last end lies in exactly one
of them, and when the last position of every interval but the last is marked, the
number of marks below a position is the number of its interval.
-/

namespace ChooseCut

/-- The first `n` intervals are non-empty and consecutive, from 0 on. -/
structure Partition (iv : Nat → Nat × Nat) (n : Nat) : Prop where
  first : 0 < n → (iv 0).1 = 0
  le : ∀ i < n, (iv i).1 ≤ (iv i).2
  next : ∀ i, i + 1 < n → (iv (i + 1)).1 = (iv i).2 + 1

namespace Partition

variable {iv : Nat → Nat × Nat} {n : Nat}

/-- Intervals are ordered. -/
theorem lt (h : Partition iv n) {i j : Nat} (hij : i < j) (hj : j < n) : (iv i).2 < (iv j).1 := by
  induction j with
  | zero => omega
  | succ j ih =>
      have hnext := h.next j hj
      rcases Nat.lt_or_ge i j with hlt | hge
      · have := ih hlt (by omega)
        have := h.le j (by omega)
        omega
      · rw [show i = j by omega]
        omega

theorem end_le (h : Partition iv n) {i j : Nat} (hij : i ≤ j) (hj : j < n) :
    (iv i).2 ≤ (iv j).2 := by
  rcases Nat.lt_or_ge i j with hlt | hge
  · have := h.lt hlt hj
    have := h.le j hj
    omega
  · rw [show i = j by omega]

/-- Moving the end of an interval leaves every start. -/
theorem fst_update (iv : Nat → Nat × Nat) (i b j : Nat) :
    (Function.update iv i ((iv i).1, b) j).1 = (iv j).1 := by
  by_cases heq : j = i
  · rw [heq, Function.update_self]
  · rw [Function.update_of_ne heq]

/-- The end of the last interval can be moved as long as the interval stays non-empty. -/
theorem moveEnd (h : Partition iv n) {b : Nat} (hb : (iv (n - 1)).1 ≤ b) :
    Partition (Function.update iv (n - 1) ((iv (n - 1)).1, b)) n where
  first := fun hn => by rw [fst_update]; exact h.first hn
  le := by
    intro i hi
    rw [fst_update]
    by_cases heq : i = n - 1
    · rw [heq, Function.update_self]
      exact hb
    · rw [Function.update_of_ne heq]
      exact h.le i hi
  next := by
    intro i hi
    rw [fst_update, Function.update_of_ne (by omega)]
    exact h.next i hi

/-- A position lies in one interval only. -/
theorem unique (h : Partition iv n) {i j s : Nat} (hi : i < n) (hj : j < n)
    (hsi : (iv i).1 ≤ s ∧ s ≤ (iv i).2) (hsj : (iv j).1 ≤ s ∧ s ≤ (iv j).2) : i = j := by
  rcases Nat.lt_trichotomy i j with hlt | heq | hgt
  · have := h.lt hlt hj; omega
  · exact heq
  · have := h.lt hgt hi; omega

/-- Every position up to the last end lies in an interval. -/
theorem exists_index (h : Partition iv n) (hn : 0 < n) {s : Nat} (hs : s ≤ (iv (n - 1)).2) :
    ∃ i < n, (iv i).1 ≤ s ∧ s ≤ (iv i).2 := by
  have hgen : ∀ m, m < n → s ≤ (iv m).2 → ∃ i ≤ m, (iv i).1 ≤ s ∧ s ≤ (iv i).2 := by
    intro m
    induction m with
    | zero =>
        intro _ hle
        refine ⟨0, Nat.le_refl _, ?_, hle⟩
        rw [h.first hn]
        exact Nat.zero_le s
    | succ m ih =>
        intro hm hle
        by_cases hs' : s ≤ (iv m).2
        · obtain ⟨i, hi, hmem⟩ := ih (by omega) hs'
          exact ⟨i, by omega, hmem⟩
        · exact ⟨m + 1, Nat.le_refl _, by rw [h.next m hm]; omega, hle⟩
  obtain ⟨i, hi, hmem⟩ := hgen (n - 1) (by omega) hs
  exact ⟨i, by omega, hmem⟩

/-- The position of the interval of `s` and of the interval of `t` bound the intervals
that meet `[s, t]`. -/
theorem meets_iff (h : Partition iv n) {i c e s t : Nat} (hi : i < n) (hc : c < n) (he : e < n)
    (hs : (iv c).1 ≤ s ∧ s ≤ (iv c).2) (ht : (iv e).1 ≤ t ∧ t ≤ (iv e).2) :
    (c ≤ i ∧ i ≤ e) ↔ s ≤ (iv i).2 ∧ (iv i).1 ≤ t := by
  constructor
  · rintro ⟨hci, hie⟩
    have h1 := h.end_le hci hi
    refine ⟨by omega, ?_⟩
    rcases Nat.lt_or_ge i e with hlt | hge
    · have := h.lt hlt he
      have := h.le i hi
      omega
    · rw [show i = e by omega]
      omega
  · rintro ⟨h1, h2⟩
    constructor
    · by_contra hlt
      have := h.lt (Nat.not_le.mp hlt) hc
      omega
    · by_contra hlt
      have := h.lt (Nat.not_le.mp hlt) hi
      omega

/-- Every interval takes at least one position. -/
theorem le_start (h : Partition iv n) {i : Nat} (hi : i < n) : i ≤ (iv i).1 := by
  induction i with
  | zero => exact Nat.zero_le _
  | succ i ih =>
      have h1 := ih (by omega)
      have h2 := h.le i (by omega)
      rw [h.next i hi]
      omega

/-! ### The separator bitmap -/

/-- The marks: the last position of every interval but the last. -/
def marks (iv : Nat → Nat × Nat) (n : Nat) (p : Nat) : Bool :=
  decide (p ∈ (List.range (n - 1)).map (fun i => (iv i).2))

theorem marks_iff {p : Nat} : marks iv n p = true ↔ ∃ i, i + 1 < n ∧ (iv i).2 = p := by
  simp only [marks, decide_eq_true_eq, List.mem_map, List.mem_range]
  constructor
  · rintro ⟨i, hi, hp⟩
    exact ⟨i, by omega, hp⟩
  · rintro ⟨i, hi, hp⟩
    exact ⟨i, by omega, hp⟩

/-- **Counting marks finds the interval**, and past the end the last one. -/
theorem count_marks (h : Partition iv n) {i s : Nat} (hi : i < n) (hs : (iv i).1 ≤ s)
    (hle : i + 1 < n → s ≤ (iv i).2) : count (marks iv n) s = i := by
  -- inside an interval no further mark is passed
  have hflat : ∀ i, i < n → count (marks iv n) (iv i).1 = i →
      ∀ s, (iv i).1 ≤ s → (i + 1 < n → s ≤ (iv i).2) → count (marks iv n) s = i := by
    intro i hi hstart s
    induction s with
    | zero =>
        intro hs _
        rw [show (iv i).1 = 0 by omega] at hstart
        exact hstart
    | succ s ih =>
        intro hs hle
        rcases Nat.lt_or_ge s (iv i).1 with hlt | hge
        · rw [show s + 1 = (iv i).1 by omega]
          exact hstart
        · have hno : ¬ marks iv n s = true := by
            intro hmark
            obtain ⟨j, hj, hjs⟩ := marks_iff.mp hmark
            rcases Nat.lt_trichotomy j i with hlt | heq | hgt
            · have := h.lt hlt hi
              omega
            · subst heq
              have := hle hj
              omega
            · have := h.lt hgt (by omega)
              have := h.le j (by omega)
              have := hle (by omega)
              omega
          rw [count_succ, ih hge (fun h => by have := hle h; omega), if_neg hno]
          rfl
  have hstart : ∀ i, i < n → count (marks iv n) (iv i).1 = i := by
    intro i
    induction i with
    | zero => intro hn; rw [h.first hn, count_zero]
    | succ i ih =>
        intro hn
        have hi := hflat i (by omega) (ih (by omega)) (iv i).2 (h.le i (by omega))
          (fun _ => Nat.le_refl _)
        rw [h.next i hn, count_succ, hi, if_pos (marks_iff.mpr ⟨i, hn, rfl⟩)]
  exact hflat i hi (hstart i hi) s hs hle

end Partition

/-- The first `n` intervals are a partition of `[0, div - 1]` into consecutive non-empty
intervals. -/
structure Partitions (div : Nat) (iv : Nat → Nat × Nat) (n : Nat) : Prop extends
    Partition iv n where
  exact : ∀ s, s < div ↔ ∃ i < n, (iv i).1 ≤ s ∧ s ≤ (iv i).2

namespace Partitions

variable {iv : Nat → Nat × Nat} {n div : Nat}

/-- Consecutive intervals partition the positions up to the last end. -/
theorem of_last (h : Partition iv n) (hn : 0 < n) (hlast : (iv (n - 1)).2 + 1 = div) :
    Partitions div iv n := by
  refine ⟨h, fun s => ⟨fun hs => h.exists_index hn (by omega), ?_⟩⟩
  rintro ⟨i, hi, hmem⟩
  have := h.end_le (show i ≤ n - 1 by omega) (by omega)
  omega

/-- The last interval ends the whole. -/
theorem last (h : Partitions div iv n) (hn : 0 < n) : (iv (n - 1)).2 + 1 = div := by
  have hle := h.le (n - 1) (by omega)
  have h1 : (iv (n - 1)).2 < div := (h.exact _).mpr ⟨n - 1, by omega, hle, Nat.le_refl _⟩
  have h2 : ¬ (iv (n - 1)).2 + 1 < div := by
    intro hlt
    obtain ⟨i, hi, hmem⟩ := (h.exact _).mp hlt
    have := h.end_le (show i ≤ n - 1 by omega) (by omega)
    omega
  omega

theorem length_le (h : Partitions div iv n) : n ≤ div := by
  rcases Nat.eq_zero_or_pos n with h0 | hn
  · omega
  · have h1 := h.le_start (show n - 1 < n by omega)
    have h2 := h.le (n - 1) (by omega)
    have h3 := h.last hn
    omega

/-- **The marks below a position of the whole count to its interval.** -/
theorem count_marks_iff (h : Partitions div iv n) {s : Nat} (hs : s < div) {i : Nat} (hi : i < n) :
    count (Partition.marks iv n) s = i ↔ (iv i).1 ≤ s ∧ s ≤ (iv i).2 := by
  constructor
  · intro hcount
    obtain ⟨j, hj, h1, h2⟩ := (h.exact s).mp hs
    rw [h.count_marks hj h1 (fun _ => h2)] at hcount
    subst hcount
    exact ⟨h1, h2⟩
  · intro ⟨h1, h2⟩
    exact h.count_marks hi h1 (fun _ => h2)

/-- The marks below a position behind the whole count to the last interval. -/
theorem count_marks_behind (h : Partitions div iv n) {s : Nat} (hs : div ≤ s) :
    count (Partition.marks iv n) s = n - 1 := by
  rcases Nat.eq_zero_or_pos n with h0 | hn
  · subst h0
    simp [Partition.marks, count]
  · have hlast := h.last hn
    have hle := h.le (n - 1) (by omega)
    exact h.count_marks (by omega) (by omega) (fun hlt => by omega)

end Partitions

end ChooseCut
