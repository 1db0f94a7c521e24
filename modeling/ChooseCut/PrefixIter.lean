import ChooseCut.Lib.Dyadic
import ChooseCut.Rule

/-!
# ChooseCut.PrefixIter

Range to prefix expansion (`rule.c`): the iterator that walks a range from its
low end in maximal aligned blocks, and the prefix each block denotes.

`prefixes r w` collects what the `do … while (flag)` loops of the bitmap cut see.
Its specification is one statement, `prefixes_tiles`: the blocks tile the range.
A range whose two borders are multiples of `2 ^ g` expands into blocks of at
least `2 ^ g` values (`prefixes_granular`).
-/

namespace ChooseCut

/-- `prefix_iter_t`; `stop` and `last` are the fields `end` and `_end`. -/
structure PrefixIter where
  start : Nat
  stop : Nat
  last : Nat
  left : Nat
  deriving Repr, DecidableEq

/-- `prefix_t`: the address bits and the length. -/
structure Pfx where
  bits : Nat
  len : Nat
  deriving Repr, DecidableEq

/-- The step both iterator functions share: one block at `start`, with `left`
values to go. `__builtin_ctz(0)` is 32, as `tzcnt` gives. -/
def nextBlock (start last left : Nat) : PrefixIter :=
  if start &&& 1 = 1 then
    { start := start, stop := start, last := last, left := left - 1 }
  else
    let offset := 2 ^ min left.log2 (ctz 32 start)
    { start := start
      stop := (start + (offset - 1) % 2 ^ 32) % 2 ^ 32
      last := last
      left := left - offset }

/-- `range_to_prefix_iter`. -/
def rangeToPrefixIter (r : Range) : PrefixIter :=
  nextBlock r.lo r.hi ((r.hi + 2 ^ 64 - r.lo + 1) % 2 ^ 64)

/-- `get_next_prefix_iter`; `none` is `flag = 0`. -/
def getNextPrefixIter (curr : PrefixIter) : Option PrefixIter :=
  if curr.left = 0 then none
  else some (nextBlock ((curr.stop + 1) % 2 ^ 32) curr.last curr.left)

/-- `get_prefix`. -/
def getPrefix (it : PrefixIter) (bits : Nat) : Pfx :=
  let offset := (it.stop + 2 ^ 32 - it.start) % 2 ^ 32
  if offset = 0 then { bits := it.start, len := bits }
  else { bits := it.start, len := bits - ctz 64 (offset + 1) }

/-- `prefix_to_range`. -/
def prefixToRange (p : Pfx) (bits : Nat) : Range :=
  { lo := p.bits, hi := (p.bits + (2 ^ (bits - p.len) - 1)) % 2 ^ 32 }

/-- The loop body's view of the iteration, from one block on. -/
def prefixLoop (bits : Nat) : Nat → PrefixIter → List Pfx
  | 0, _ => []
  | fuel + 1, it =>
      getPrefix it bits ::
        match getNextPrefixIter it with
        | none => []
        | some it' => prefixLoop bits fuel it'

/-- All prefixes of a range, in the order of the iterator. Every block consumes at
least one value, so the count of the values left bounds the iterations. -/
def prefixes (r : Range) (bits : Nat) : List Pfx :=
  prefixLoop bits ((rangeToPrefixIter r).left + 1) (rangeToPrefixIter r)

/-! ### One block -/

theorem ctz_two_pow : ∀ {k w : Nat}, k < w → ctz w (2 ^ k) = k
  | 0, w + 1, _ => by simp [ctz]
  | k + 1, w + 1, h => by
      have h2 : 2 ^ (k + 1) = 2 * 2 ^ k := by ring
      rw [ctz, if_neg (by omega), h2, Nat.mul_div_cancel_left _ (by norm_num),
        ctz_two_pow (by omega)]

theorem leap_odd {start left : Nat} (h : start % 2 = 1) : leap 32 left start = 0 := by
  simp [leap, ctz, h]

/-- As long as the values do not leave the 32-bit space, the step is the greedy
block: the odd case is the block of size one. -/
theorem nextBlock_eq {start last left : Nat} (hleft : left ≠ 0)
    (hfit : start + left ≤ 2 ^ 32) :
    nextBlock start last left =
      { start := start, stop := start + (2 ^ leap 32 left start - 1), last := last,
        left := left - 2 ^ leap 32 left start } := by
  have hle : 2 ^ leap 32 left start ≤ left := two_pow_leap_le 32 start hleft
  have hpos := Nat.two_pow_pos (leap 32 left start)
  unfold nextBlock
  rw [Nat.and_one_is_mod]
  split
  · next hodd => simp [leap_odd hodd]
  · have hmin : min left.log2 (ctz 32 start) = leap 32 left start := rfl
    dsimp only
    rw [hmin, Nat.mod_eq_of_lt (a := 2 ^ leap 32 left start - 1) (by omega),
      Nat.mod_eq_of_lt (by omega)]

theorem getPrefix_block {start last left k w : Nat} (hw : w ≤ 32) (hk : k ≤ w)
    (hfit : start + 2 ^ k ≤ 2 ^ 32) :
    getPrefix { start := start, stop := start + (2 ^ k - 1), last := last, left := left } w =
      { bits := start, len := w - k } := by
  have hpos := Nat.two_pow_pos k
  have hoff : (start + (2 ^ k - 1) + 2 ^ 32 - start) % 2 ^ 32 = 2 ^ k - 1 := by
    rw [show start + (2 ^ k - 1) + 2 ^ 32 - start = (2 ^ k - 1) + 2 ^ 32 by omega,
      Nat.add_mod_right, Nat.mod_eq_of_lt (by omega)]
  unfold getPrefix
  dsimp only
  rw [hoff]
  split
  · next h0 =>
    have hk0 : k = 0 := by
      by_contra hne
      have : 2 ^ 1 ≤ 2 ^ k := Nat.pow_le_pow_right (by norm_num) (by omega)
      omega
    simp [hk0]
  · rw [show 2 ^ k - 1 + 1 = 2 ^ k by omega, ctz_two_pow (by omega)]

/-! ### The whole expansion -/

/-- The block a prefix denotes in a space of `w` bits. -/
def Pfx.block (w : Nat) (p : Pfx) : Nat × Nat := (p.bits, w - p.len)

/-- The loop from a greedy block on: the block itself, then the rest of the range.
`left` decreases by a positive block size at every turn, which carries the
induction on the fuel. -/
theorem prefixLoop_spec {w : Nat} (hw : w ≤ 32) : ∀ (fuel start last left : Nat),
    left ≠ 0 → start + left ≤ 2 ^ w → left < fuel + 2 ^ leap 32 left start →
    Tiles ((prefixLoop w fuel (nextBlock start last left)).map (Pfx.block w)) start (start + left) ∧
      (∀ p ∈ prefixLoop w fuel (nextBlock start last left), p.len ≤ w) ∧
      ∀ g ≤ w, 2 ^ g ∣ start → 2 ^ g ∣ left →
        ∀ p ∈ prefixLoop w fuel (nextBlock start last left), g ≤ w - p.len
  | 0, start, _, left, hne, _, hfuel => by
      have := two_pow_leap_le 32 start hne
      omega
  | fuel + 1, start, last, left, hne, hfit, hfuel => by
      have hw32 : 2 ^ w ≤ 2 ^ 32 := Nat.pow_le_pow_right (by norm_num) hw
      have hle : 2 ^ leap 32 left start ≤ left := two_pow_leap_le 32 start hne
      have hpos := Nat.two_pow_pos (leap 32 left start)
      have hk : leap 32 left start ≤ w :=
        (Nat.pow_le_pow_iff_right (by norm_num)).mp (by omega : 2 ^ leap 32 left start ≤ 2 ^ w)
      rw [nextBlock_eq hne (by omega), prefixLoop, getPrefix_block hw hk (by omega)]
      have hblock : Pfx.block w ⟨start, w - leap 32 left start⟩ = (start, leap 32 left start) := by
        simp only [Pfx.block]
        congr 1
        omega
      have hhead : ∀ g ≤ w, 2 ^ g ∣ start → 2 ^ g ∣ left → g ≤ w - (w - leap 32 left start) := by
        intro g hg hs hl
        have := le_leap (w := 32) (by omega) hne hs hl
        omega
      unfold getNextPrefixIter
      dsimp only
      by_cases hend : left - 2 ^ leap 32 left start = 0
      · have hlast : left = 2 ^ leap 32 left start := by omega
        rw [if_pos hend]
        refine ⟨?_, ?_, ?_⟩
        · rw [List.map_cons, hblock, List.map_nil]
          refine Tiles.cons (two_pow_leap_dvd _ _ _) ?_
          rw [← hlast]
          exact Tiles.nil _
        · intro p hp
          obtain rfl := List.mem_singleton.mp hp
          exact Nat.sub_le _ _
        · intro g hg hs hl p hp
          obtain rfl := List.mem_singleton.mp hp
          exact hhead g hg hs hl
      · rw [if_neg hend, show start + (2 ^ leap 32 left start - 1) + 1
          = start + 2 ^ leap 32 left start by omega, Nat.mod_eq_of_lt (by omega)]
        dsimp only
        have hnext := Nat.two_pow_pos
          (leap 32 (left - 2 ^ leap 32 left start) (start + 2 ^ leap 32 left start))
        obtain ⟨htiles, hlen, hgran⟩ := prefixLoop_spec hw fuel (start + 2 ^ leap 32 left start) last
          (left - 2 ^ leap 32 left start) hend (by omega)
          (by omega)
        refine ⟨?_, ?_, ?_⟩
        · rw [List.map_cons, hblock]
          refine Tiles.cons (two_pow_leap_dvd _ _ _) ?_
          rwa [show start + 2 ^ leap 32 left start + (left - 2 ^ leap 32 left start)
            = start + left by omega] at htiles
        · intro p hp
          rcases List.mem_cons.mp hp with rfl | hp
          · exact Nat.sub_le _ _
          · exact hlen p hp
        · intro g hg hs hl p hp
          rcases List.mem_cons.mp hp with rfl | hp
          · exact hhead g hg hs hl
          · obtain ⟨hs', hl'⟩ := dvd_sub_leap (w := 32) (by omega) hne hs hl
            exact hgran g hg hs' hl' p hp

section Expansion

variable {r : Range} {w : Nat}

/-- The count of a non-empty range does not wrap. -/
theorem rangeToPrefixIter_eq (hw : w ≤ 32) (hle : r.lo ≤ r.hi) (hlt : r.hi < 2 ^ w) :
    rangeToPrefixIter r = nextBlock r.lo r.hi (r.hi + 1 - r.lo) := by
  have hw32 : 2 ^ w ≤ 2 ^ 32 := Nat.pow_le_pow_right (by norm_num) hw
  unfold rangeToPrefixIter
  rw [show r.hi + 2 ^ 64 - r.lo + 1 = (r.hi + 1 - r.lo) + 2 ^ 64 by omega, Nat.add_mod_right,
    Nat.mod_eq_of_lt (by omega)]

/-- `prefixes` is the loop from the first block with enough fuel. -/
theorem prefixes_loop (hw : w ≤ 32) (hle : r.lo ≤ r.hi) (hlt : r.hi < 2 ^ w) :
    ∃ fuel, r.hi + 1 - r.lo < fuel + 2 ^ leap 32 (r.hi + 1 - r.lo) r.lo ∧
      prefixes r w = prefixLoop w fuel (nextBlock r.lo r.hi (r.hi + 1 - r.lo)) := by
  have hw32 : 2 ^ w ≤ 2 ^ 32 := Nat.pow_le_pow_right (by norm_num) hw
  have hne : r.hi + 1 - r.lo ≠ 0 := by omega
  have hle' := two_pow_leap_le 32 r.lo hne
  refine ⟨r.hi + 1 - r.lo - 2 ^ leap 32 (r.hi + 1 - r.lo) r.lo + 1, by omega, ?_⟩
  unfold prefixes
  rw [rangeToPrefixIter_eq hw hle hlt]
  conv_lhs => rw [nextBlock_eq hne (by omega)]
  rw [nextBlock_eq hne (by omega)]

/-- **The expansion tiles the range.** -/
theorem prefixes_tiles (hw : w ≤ 32) (hle : r.lo ≤ r.hi) (hlt : r.hi < 2 ^ w) :
    Tiles ((prefixes r w).map (Pfx.block w)) r.lo (r.hi + 1) := by
  obtain ⟨fuel, hfuel, heq⟩ := prefixes_loop hw hle hlt
  have h := (prefixLoop_spec hw fuel r.lo r.hi (r.hi + 1 - r.lo) (by omega) (by omega) hfuel).1
  rwa [← heq, show r.lo + (r.hi + 1 - r.lo) = r.hi + 1 by omega] at h

theorem prefixes_len_le (hw : w ≤ 32) (hle : r.lo ≤ r.hi) (hlt : r.hi < 2 ^ w) {p : Pfx}
    (hp : p ∈ prefixes r w) : p.len ≤ w := by
  obtain ⟨fuel, hfuel, heq⟩ := prefixes_loop hw hle hlt
  rw [heq] at hp
  exact (prefixLoop_spec hw fuel r.lo r.hi (r.hi + 1 - r.lo) (by omega) (by omega) hfuel).2.1 p hp

/-- Blocks of a range with granular borders are at least that coarse. -/
theorem prefixes_granular (hw : w ≤ 32) (hle : r.lo ≤ r.hi) (hlt : r.hi < 2 ^ w) {g : Nat}
    (hg : g ≤ w) (hlo : 2 ^ g ∣ r.lo) (hhi : 2 ^ g ∣ r.hi + 1) {p : Pfx}
    (hp : p ∈ prefixes r w) : g ≤ w - p.len := by
  obtain ⟨fuel, hfuel, heq⟩ := prefixes_loop hw hle hlt
  rw [heq] at hp
  exact (prefixLoop_spec hw fuel r.lo r.hi (r.hi + 1 - r.lo) (by omega) (by omega) hfuel).2.2
    g hg hlo (Nat.dvd_sub hhi hlo) p hp

/-- A prefix of the expansion is an aligned block inside the range. -/
theorem prefixes_mem (hw : w ≤ 32) (hle : r.lo ≤ r.hi) (hlt : r.hi < 2 ^ w) {p : Pfx}
    (hp : p ∈ prefixes r w) :
    2 ^ (w - p.len) ∣ p.bits ∧ r.lo ≤ p.bits ∧ p.bits + 2 ^ (w - p.len) ≤ r.hi + 1 :=
  (prefixes_tiles hw hle hlt).mem (List.mem_map_of_mem hp)

/-- The prefix denotes the block that contains `k`. -/
def Pfx.Has (w : Nat) (p : Pfx) (k : Nat) : Prop :=
  p.bits ≤ k ∧ k < p.bits + 2 ^ (w - p.len)

instance (w : Nat) (p : Pfx) (k : Nat) : Decidable (p.Has w k) :=
  inferInstanceAs (Decidable (_ ∧ _))

/-- A key in the range lies in exactly one of its prefixes, any other key in none. -/
theorem prefixes_filter_length (hw : w ≤ 32) (hle : r.lo ≤ r.hi) (hlt : r.hi < 2 ^ w)
    (k : Nat) :
    ((prefixes r w).filter (fun p => p.Has w k)).length = if r.Has k then 1 else 0 := by
  have h := (prefixes_tiles hw hle hlt).filter_length k
  rw [List.filter_map, List.length_map] at h
  have hiff : (r.lo ≤ k ∧ k < r.hi + 1) ↔ r.Has k := by
    unfold Range.Has
    omega
  rw [if_congr hiff rfl rfl] at h
  exact h

theorem prefixes_ne_nil (hw : w ≤ 32) (hle : r.lo ≤ r.hi) (hlt : r.hi < 2 ^ w) :
    prefixes r w ≠ [] := by
  intro h
  have := prefixes_filter_length hw hle hlt r.lo
  rw [h, if_pos ⟨Nat.le_refl _, hle⟩] at this
  simp at this

end Expansion

end ChooseCut
