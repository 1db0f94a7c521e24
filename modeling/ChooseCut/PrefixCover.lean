import Mathlib.Data.List.Chain
import Mathlib.Order.Bounds.Basic
import ChooseCut.Lib.DyadicCover
import ChooseCut.PrefixIter

/-!
# ChooseCut.PrefixCover

The blocks of the prefix iterator, as a run.

`IterRun it bs` says that the calls of `get_next_prefix_iter` from the state `it` on,
until `flag = 0`, pass through the states `bs`. Over a range the run is finite, its
blocks are the greedy tiling of the range, and so there are as few of them as aligned
blocks allow.
-/

namespace ChooseCut

/-- The states from `it` on, up to the one after which `flag` is zero. -/
inductive IterRun : PrefixIter → List PrefixIter → Prop
  | stop {it : PrefixIter} (h : getNextPrefixIter it = none) : IterRun it [it]
  | step {it it' : PrefixIter} {bs : List PrefixIter} (h : getNextPrefixIter it = some it')
      (hrun : IterRun it' bs) : IterRun it (it :: bs)

/-- The block of a state, as a start and an exponent. -/
def PrefixIter.block (it : PrefixIter) : Nat × Nat := (it.start, (it.stop + 1 - it.start).log2)

/-- The state holds a block of its exponent's size, with `_left` values behind it up to
`stop`, and its prefix denotes the block. -/
structure PrefixIter.Sound (it : PrefixIter) (w stop : Nat) : Prop where
  size : it.stop + 1 = it.start + 2 ^ it.block.2
  left : it.stop + 1 + it.left = stop
  prefixRange : prefixToRange (getPrefix it w) w = ⟨it.start, it.stop⟩

section Run

variable {w : Nat}

/-- One step: the block at `start` is the greedy one, and the next state starts behind
it. -/
theorem nextBlock_sound (hw : w ≤ 32) {start last left : Nat} (hne : left ≠ 0)
    (hfit : start + left ≤ 2 ^ w) :
    (nextBlock start last left).block = (start, leap 32 left start) ∧
      (nextBlock start last left).Sound w (start + left) ∧
      getNextPrefixIter (nextBlock start last left) =
        if left - 2 ^ leap 32 left start = 0 then none
        else some (nextBlock (start + 2 ^ leap 32 left start) last
          (left - 2 ^ leap 32 left start)) := by
  have hw32 : 2 ^ w ≤ 2 ^ 32 := Nat.pow_le_pow_right (by decide) hw
  have hle := two_pow_leap_le 32 start hne
  have hpos := Nat.two_pow_pos (leap 32 left start)
  have hk : leap 32 left start ≤ w :=
    (Nat.pow_le_pow_iff_right (by decide)).mp (by omega : 2 ^ leap 32 left start ≤ 2 ^ w)
  rw [nextBlock_eq hne (by omega)]
  generalize leap 32 left start = k at hle hpos hk ⊢
  have hblock : PrefixIter.block ⟨start, start + (2 ^ k - 1), last, left - 2 ^ k⟩
      = (start, k) := by
    simp only [PrefixIter.block, Prod.mk.injEq, true_and]
    rw [show start + (2 ^ k - 1) + 1 - start = 2 ^ k by omega, Nat.log2_two_pow]
  refine ⟨hblock, ⟨?_, ?_, ?_⟩, ?_⟩
  · rw [hblock]
    dsimp only
    omega
  · dsimp only
    omega
  · rw [getPrefix_block hw hk (by omega), prefixToRange]
    dsimp only
    rw [show w - (w - k) = k by omega, Nat.mod_eq_of_lt (by omega)]
  · unfold getNextPrefixIter
    dsimp only
    split
    · rfl
    · rw [show start + (2 ^ k - 1) + 1 = start + 2 ^ k by omega, Nat.mod_eq_of_lt (by omega)]

/-- The run over `left` values from `start` on. Each block takes at least one value, so
the induction is on the count left. -/
theorem exists_iterRun (hw : w ≤ 32) (last : Nat) : ∀ (left start : Nat), left ≠ 0 →
    start + left ≤ 2 ^ w →
    ∃ bs, IterRun (nextBlock start last left) bs ∧
      Tiles (bs.map PrefixIter.block) start (start + left) ∧
      Greedy (bs.map PrefixIter.block) (start + left) ∧
      ∀ it ∈ bs, it.Sound w (start + left) := by
  intro left
  induction left using Nat.strong_induction_on with
  | _ left ih =>
    intro start hne hfit
    have hw32 : 2 ^ w ≤ 2 ^ 32 := Nat.pow_le_pow_right (by decide) hw
    have hle := two_pow_leap_le 32 start hne
    have hpos := Nat.two_pow_pos (leap 32 left start)
    have hdvd := two_pow_leap_dvd 32 left start
    obtain ⟨hblock, hsound, hnext⟩ := @nextBlock_sound w hw start last left hne hfit
    have hmax : ∀ j, 2 ^ j ∣ start → start + 2 ^ j ≤ start + left → j ≤ leap 32 left start :=
      fun j hj hjle => le_leap_of_fits (by omega) hj (by omega)
    by_cases hend : left - 2 ^ leap 32 left start = 0
    · rw [if_pos hend] at hnext
      refine ⟨_, IterRun.stop hnext, ?_, ?_, ?_⟩
      · rw [List.map_singleton, hblock, show left = 2 ^ leap 32 left start by omega]
        rw [show leap 32 (2 ^ leap 32 left start) start = leap 32 left start by
          rw [show 2 ^ leap 32 left start = left by omega]]
        exact Tiles.single hdvd
      · intro p hp
        rw [List.map_singleton, hblock, List.mem_singleton] at hp
        rw [hp]
        exact hmax
      · intro it hit
        rw [List.mem_singleton.mp hit]
        exact hsound
    · rw [if_neg hend] at hnext
      obtain ⟨bs, hrun, htiles, hgreedy, hall⟩ := ih (left - 2 ^ leap 32 left start) (by omega)
        (start + 2 ^ leap 32 left start) hend (by omega)
      rw [show start + 2 ^ leap 32 left start + (left - 2 ^ leap 32 left start) = start + left by
        omega] at htiles hgreedy hall
      refine ⟨_, IterRun.step hnext hrun, ?_, ?_, ?_⟩
      · rw [List.map_cons, hblock]
        exact Tiles.cons hdvd htiles
      · intro p hp
        rw [List.map_cons, hblock, List.mem_cons] at hp
        rcases hp with rfl | hp
        · exact hmax
        · exact hgreedy p hp
      · intro it hit
        rcases List.mem_cons.mp hit with rfl | hit
        · exact hsound
        · exact hall it hit

/-- The run over a range. -/
theorem rangeToPrefixIter_run {r : Range} (hw : w ≤ 32) (hle : r.lo ≤ r.hi) (hlt : r.hi < 2 ^ w) :
    ∃ bs, IterRun (rangeToPrefixIter r) bs ∧
      Tiles (bs.map PrefixIter.block) r.lo (r.hi + 1) ∧
      Greedy (bs.map PrefixIter.block) (r.hi + 1) ∧
      ∀ it ∈ bs, it.Sound w (r.hi + 1) := by
  have h := exists_iterRun hw r.hi (r.hi + 1 - r.lo) r.lo (by omega) (by omega)
  rwa [← rangeToPrefixIter_eq hw hle hlt, show r.lo + (r.hi + 1 - r.lo) = r.hi + 1 by omega] at h

/-- **The iterator walks the range.** The run is finite; its blocks adjoin, are disjoint
and have the range as their union; each is aligned and of power-of-two length, counts what
is left behind it, and is the range of its prefix. -/
theorem iterRun_walks {r : Range} (hw : w ≤ 32) (hle : r.lo ≤ r.hi) (hlt : r.hi < 2 ^ w) :
    ∃ bs, IterRun (rangeToPrefixIter r) bs ∧
      bs.IsChain (fun x y => y.start = x.stop + 1) ∧
      bs.Pairwise (fun x y => x.stop < y.start) ∧
      (∀ v, (∃ it ∈ bs, it.start ≤ v ∧ v ≤ it.stop) ↔ r.Has v) ∧
      ∀ it ∈ bs, (∃ k, it.stop + 1 = it.start + 2 ^ k ∧ 2 ^ k ∣ it.start) ∧
        it.stop + it.left = r.hi ∧
        prefixToRange (getPrefix it w) w = ⟨it.start, it.stop⟩ := by
  obtain ⟨bs, hrun, htiles, -, hsound⟩ := rangeToPrefixIter_run hw hle hlt
  refine ⟨bs, hrun, ?_, ?_, ?_, ?_⟩
  · refine ((List.isChain_map PrefixIter.block).mp htiles.isChain).imp_of_mem_imp ?_
    intro x y hx _ hxy
    rw [(hsound x hx).size]
    exact hxy
  · refine (List.pairwise_map.mp htiles.pairwise).imp_of_mem ?_
    intro x y hx _ hxy
    exact Nat.lt_of_succ_le ((hsound x hx).size.le.trans hxy)
  · intro v
    have hiff : ∀ it ∈ bs, (it.start ≤ v ∧ v ≤ it.stop) ↔
        it.block.1 ≤ v ∧ v < it.block.1 + 2 ^ it.block.2 := by
      intro it hit
      have hsize := (hsound it hit).size
      have hstart : it.block.1 = it.start := rfl
      omega
    have hexact := htiles.covers.exact v
    simp only [List.mem_map, exists_exists_and_eq_and] at hexact
    rw [Range.Has, ← Nat.lt_succ_iff (n := r.hi), ← hexact]
    exact exists_congr (fun it => and_congr_right (hiff it))
  · intro it hit
    have h := hsound it hit
    refine ⟨⟨_, h.size, htiles.covers.aligned _ (List.mem_map_of_mem hit)⟩, ?_, h.prefixRange⟩
    have := h.left
    omega

/-- The full range of 32 bits is one block, and the walk ends there without wrapping. -/
theorem iterRun_walks_full :
    ∃ bs, IterRun (rangeToPrefixIter ⟨0, 2 ^ 32 - 1⟩) bs ∧
      bs.Pairwise (fun x y => x.stop < y.start) ∧
      ∀ v, (∃ it ∈ bs, it.start ≤ v ∧ v ≤ it.stop) ↔ (⟨0, 2 ^ 32 - 1⟩ : Range).Has v := by
  obtain ⟨bs, hrun, -, hdisj, hunion, -⟩ :=
    @iterRun_walks 32 ⟨0, 2 ^ 32 - 1⟩ (by decide) (by decide) (by decide)
  exact ⟨bs, hrun, hdisj, hunion⟩

/-- A greedy tiling of a range is at most `2 * w - 2` blocks long. -/
theorem greedy_length_le {r : Range} {bs : List PrefixIter} (h2 : 2 ≤ w) (hle : r.lo ≤ r.hi)
    (hlt : r.hi < 2 ^ w) (htiles : Tiles (bs.map PrefixIter.block) r.lo (r.hi + 1))
    (hgreedy : Greedy (bs.map PrefixIter.block) (r.hi + 1)) : bs.length ≤ 2 * w - 2 := by
  obtain ⟨l, hl, hlen⟩ := exists_tiles_short w (Nat.dvd_zero (2 ^ w)) (Nat.zero_le r.lo)
    (Nat.lt_succ_of_le hle) (by omega)
  have hshort := htiles.length_le_of_covers hgreedy hl.covers
  rw [List.length_map] at hshort
  omega

/-- The loop stops where the run does. -/
theorem IterRun.length_prefixLoop_le {it : PrefixIter} {bs : List PrefixIter} (h : IterRun it bs) :
    ∀ fuel, (prefixLoop w fuel it).length ≤ bs.length := by
  induction h with
  | stop hnext =>
      intro fuel
      cases fuel with
      | zero => simp [prefixLoop]
      | succ fuel => simp [prefixLoop, hnext]
  | step hnext hrun ih =>
      intro fuel
      cases fuel with
      | zero => simp [prefixLoop]
      | succ fuel => simpa [prefixLoop, hnext] using ih fuel

/-- A range has at most `2 * w - 2` prefixes. -/
theorem prefixes_length_le {r : Range} (h2 : 2 ≤ w) (hw : w ≤ 32) (hle : r.lo ≤ r.hi)
    (hlt : r.hi < 2 ^ w) : (prefixes r w).length ≤ 2 * w - 2 := by
  obtain ⟨bs, hrun, htiles, hgreedy, -⟩ := rangeToPrefixIter_run hw hle hlt
  exact (hrun.length_prefixLoop_le _).trans (greedy_length_le h2 hle hlt htiles hgreedy)

/-- **The expansion is optimal and bounded.** The number of blocks is the least length of a
list of aligned blocks with the range as its union, and at most `2 * w - 2`. -/
theorem iterRun_least {r : Range} (h2 : 2 ≤ w) (hw : w ≤ 32) (hle : r.lo ≤ r.hi)
    (hlt : r.hi < 2 ^ w) :
    ∃ bs, IterRun (rangeToPrefixIter r) bs ∧
      IsLeast {n | ∃ c, Covers c r.lo (r.hi + 1) ∧ c.length = n} bs.length ∧
      bs.length ≤ 2 * w - 2 := by
  obtain ⟨bs, hrun, htiles, hgreedy, -⟩ := rangeToPrefixIter_run hw hle hlt
  have hleast : ∀ c, Covers c r.lo (r.hi + 1) → bs.length ≤ c.length := by
    intro c hc
    have hlen := htiles.length_le_of_covers hgreedy hc
    rwa [List.length_map] at hlen
  refine ⟨bs, hrun, ⟨⟨_, htiles.covers, List.length_map _⟩, ?_⟩, ?_⟩
  · intro n hn
    obtain ⟨c, hc, rfl⟩ := hn
    exact hleast c hc
  · exact greedy_length_le h2 hle hlt htiles hgreedy

/-- The range of the longest expansion in 32 bits. -/
theorem iterRun_least_longest :
    ∃ bs, IterRun (rangeToPrefixIter ⟨1, 2 ^ 32 - 2⟩) bs ∧
      IsLeast {n | ∃ c, Covers c 1 (2 ^ 32 - 2 + 1) ∧ c.length = n} bs.length ∧
      bs.length ≤ 2 * 32 - 2 :=
  @iterRun_least 32 ⟨1, 2 ^ 32 - 2⟩ (by decide) (by decide) (by decide) (by decide)

end Run

end ChooseCut
