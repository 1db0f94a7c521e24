import ChooseCut.Lib.Bits
import ChooseCut.Lib.HeapTree
import ChooseCut.Rule

/-!
# ChooseCut.MbNode

The multi-bit node of a bitmap cut (`mb_node.h`, `mb_node.c`): its two presence
bitmaps, the tables built by `fast_lookup_init`, and the longest-prefix lookup
`tree_function` in both builds.

Internal bit `2 ^ j - 1 + b` stands for the prefix `b` of length `j < 6`. These
are heap positions, so the prefixes of a stride `s` are the proper ancestors of
node `63 + s`; `lookupRow_fst` shows the table row to be this path, and
`treeFunction_spec` that the highest set bit on it is what the lookup returns.
-/

namespace ChooseCut

/-- `struct mb_node`; `childPtr` is the offset of `child_ptr` in the child array. -/
structure MbNode where
  external : BitVec 64
  internal : BitVec 64
  childPtr : Nat
  deriving Repr, DecidableEq

/-- `count_inl_bitmap`. -/
def countInlBitmap (bit cidr : Nat) : Nat := 2 ^ cidr + bit - 1

/-- The inner loop of `fast_lookup_init`, `j` counting down from `n - 1`: the bit
position set in the table row and the value stored for it in `pos2cidr`. -/
def lookupRow : Nat → Nat → List (Nat × Nat)
  | _, 0 => []
  | s, j + 1 => (countInlBitmap s j, j + 1) :: lookupRow (s >>> 1) j

/-- The table `fct`. -/
def fct (i : Nat) : BitVec 64 :=
  (lookupRow i stride).foldl (fun b e => setBit b e.1) 0#64

/-- The table `pos2cidr`. -/
def pos2cidr : Nat → Nat :=
  (List.range (2 ^ (stride - 1))).foldl
    (fun t i => (lookupRow i stride).foldl (fun t e => Function.update t e.1 e.2) t) (fun _ => 0)

/-- `__builtin_clzll` of a non-zero word. -/
def clzll (b : BitVec 64) : Nat := 63 - b.toNat.log2

/-- `tree_function`, table-driven: the position and what is stored in `*cidr`;
`none` is `-1`. -/
def treeFunction (bitmap : BitVec 64) (s : Nat) : Option (Nat × Nat) :=
  let ret := fct (s >>> 1) &&& bitmap
  if ret = 0#64 then none
  else
    let pos := 2 ^ stride - 1 - clzll ret
    some (pos, pos2cidr pos)

/-- The loop of the other build: prefix lengths `n - 1` down to 0. -/
def treeFunctionLoop (bitmap : BitVec 64) : Nat → Nat → Option (Nat × Nat)
  | _, 0 => none
  | s, i + 1 =>
      let s' := s >>> 1
      let pos := countInlBitmap s' i
      if bitmap.getLsbD pos then some (pos, i) else treeFunctionLoop bitmap s' i

/-- `tree_function` of the other build, which probes one prefix length after the other. -/
def treeFunctionProbe (bitmap : BitVec 64) (s : Nat) : Option (Nat × Nat) :=
  if bitmap = 0#64 then none else treeFunctionLoop bitmap s stride

/-! ### The table rows are root paths -/

theorem lookupRow_fst : ∀ {n s : Nat}, s < 2 ^ n →
    (lookupRow s (n + 1)).map Prod.fst = ancestors (2 ^ n - 1 + s)
  | 0, s, h => by
      obtain rfl : s = 0 := by simpa using h
      rfl
  | n + 1, s, h => by
      have hpow : 2 ^ (n + 1) = 2 * 2 ^ n := by ring
      have hpos := Nat.two_pow_pos n
      have hhalf : s >>> 1 = s / 2 := by rw [Nat.shiftRight_eq_div_pow, pow_one]
      rw [lookupRow, List.map_cons, hhalf, lookupRow_fst (n := n) (by omega),
        ancestors_pos (i := 2 ^ (n + 1) - 1 + s) (by omega), countInlBitmap]
      congr 1
      · dsimp only; omega
      · congr 1; omega

/-- A row of the table holds exactly the prefixes of the stride. -/
theorem getLsbD_fct {s : Nat} (h : s < 2 ^ 5) (j : Nat) :
    (fct s).getLsbD j = decide (j ∈ ancestors (31 + s)) := by
  have hrow := lookupRow_fst (n := 5) h
  have hlt : ∀ e ∈ lookupRow s stride, e.1 < 64 := by
    intro e he
    have hmem : e.1 ∈ ancestors (2 ^ 5 - 1 + s) := by
      rw [← hrow]; exact List.mem_map_of_mem he
    have := le_of_mem_ancestors hmem
    omega
  have hgen := getLsbD_foldl_setBit (b := 0#64) hlt j
  rw [fct, hgen, show stride = 5 + 1 from rfl, hrow]
  simp

/-! ### The highest set bit -/

theorem getLsbD_log2 {b : BitVec 64} (h : b ≠ 0#64) : b.getLsbD b.toNat.log2 = true := by
  have : b.toNat ≠ 0 := fun h0 => h (BitVec.eq_of_toNat_eq (by simpa using h0))
  exact Nat.testBit_log2 this

theorem le_log2_of_getLsbD {b : BitVec 64} {i : Nat} (h : b.getLsbD i = true) :
    i ≤ b.toNat.log2 := by
  have hne : b.toNat ≠ 0 := by
    intro h0
    rw [BitVec.getLsbD, h0] at h
    simp at h
  refine (Nat.le_log2 hne).mpr ?_
  exact Nat.ge_two_pow_of_testBit h

/-- The position `tree_function` computes from the leading zeros. -/
theorem pos_eq_log2 {b : BitVec 64} (h : b ≠ 0#64) :
    2 ^ stride - 1 - clzll b = b.toNat.log2 := by
  have hlt : b.toNat.log2 < 64 := BitVec.lt_of_getLsbD (getLsbD_log2 h)
  unfold clzll
  rw [show 2 ^ stride - 1 = 63 from rfl]
  omega

theorem ancestors_tail {s : Nat} : ancestors (63 + s) = (63 + s) :: ancestors (31 + s >>> 1) := by
  rw [ancestors_pos (by omega), Nat.shiftRight_eq_div_pow, pow_one]
  congr 2
  omega

/-- **Longest-prefix match.** The lookup finds the deepest proper ancestor of
`63 + s` whose bit is set, and nothing iff there is none. -/
theorem treeFunction_spec (b : BitVec 64) {s : Nat} (h : s < 64) :
    match treeFunction b s with
    | none => ∀ i ∈ ancestors (31 + s >>> 1), b.getLsbD i = false
    | some (pos, _) => pos ∈ ancestors (31 + s >>> 1) ∧ b.getLsbD pos = true ∧
        ∀ i ∈ ancestors (31 + s >>> 1), b.getLsbD i = true → i ≤ pos := by
  have hs : s >>> 1 < 2 ^ 5 := by
    rw [Nat.shiftRight_eq_div_pow, pow_one]; omega
  have hbit : ∀ i, (fct (s >>> 1) &&& b).getLsbD i
      = (decide (i ∈ ancestors (31 + s >>> 1)) && b.getLsbD i) := by
    intro i
    rw [BitVec.getLsbD_and, getLsbD_fct hs]
  unfold treeFunction
  dsimp only
  by_cases h0 : fct (s >>> 1) &&& b = 0#64
  · rw [if_pos h0]
    intro i hi
    have := hbit i
    rw [h0] at this
    simpa [hi] using this.symm
  · rw [if_neg h0, pos_eq_log2 h0]
    have htop := getLsbD_log2 h0
    rw [hbit] at htop
    simp only [Bool.and_eq_true, decide_eq_true_eq] at htop
    refine ⟨htop.1, htop.2, ?_⟩
    intro i hi hb
    apply le_log2_of_getLsbD
    rw [hbit]
    simp [hi, hb]

/-! ### Prefixes of a stride -/

/-- The internal bit of the prefix of length `j` of the stride `s`. -/
def prefixPos (s j : Nat) : Nat := countInlBitmap (s >>> (stride - j)) j

/-- A table row: the prefixes of all lengths, longest first, each with its length plus
one. -/
theorem mem_lookupRow {n : Nat} : ∀ {s : Nat} {e : Nat × Nat}, e ∈ lookupRow s (n + 1) ↔
    ∃ j ≤ n, e = (countInlBitmap (s >>> (n - j)) j, j + 1) := by
  induction n with
  | zero =>
      intro s e
      simp [lookupRow]
  | succ n ih =>
      intro s e
      rw [lookupRow, List.mem_cons, ih]
      constructor
      · rintro (rfl | ⟨j, hj, rfl⟩)
        · exact ⟨n + 1, Nat.le_refl _, by simp⟩
        · exact ⟨j, by omega, by rw [← Nat.shiftRight_add, show 1 + (n - j) = n + 1 - j by omega]⟩
      · rintro ⟨j, hj, rfl⟩
        rcases Nat.lt_or_ge j (n + 1) with hlt | hge
        · exact Or.inr ⟨j, by omega,
            by rw [← Nat.shiftRight_add, show 1 + (n - j) = n + 1 - j by omega]⟩
        · obtain rfl : j = n + 1 := by omega
          exact Or.inl (by simp)

/-- The path the table row stands for consists of the prefixes of the stride. -/
theorem mem_path_iff {s i : Nat} (h : s < 64) :
    i ∈ ancestors (31 + s >>> 1) ↔ ∃ j < stride, i = prefixPos s j := by
  have hs : s >>> 1 < 2 ^ 5 := by
    rw [Nat.shiftRight_eq_div_pow, pow_one]; omega
  have hrow := lookupRow_fst (n := 5) hs
  rw [show 2 ^ 5 - 1 = 31 from rfl] at hrow
  rw [← hrow, List.mem_map]
  constructor
  · rintro ⟨e, he, rfl⟩
    obtain ⟨j, hj, rfl⟩ := mem_lookupRow.mp he
    exact ⟨j, Nat.lt_succ_of_le hj,
      by rw [prefixPos, ← Nat.shiftRight_add, show 1 + (5 - j) = stride - j by
        simp only [stride]; omega]⟩
  · rintro ⟨j, hj, rfl⟩
    have hj : j ≤ 5 := Nat.le_of_lt_succ hj
    refine ⟨(prefixPos s j, j + 1), mem_lookupRow.mpr ⟨j, hj, ?_⟩, rfl⟩
    rw [prefixPos, ← Nat.shiftRight_add, show 1 + (5 - j) = stride - j by
      simp only [stride]; omega]

/-- The positions of the prefixes of length `j` lie between two powers of two. -/
theorem prefixPos_bracket {s j : Nat} (h : s < 64) (hj : j < stride) :
    2 ^ j ≤ prefixPos s j + 1 ∧ prefixPos s j + 1 < 2 ^ (j + 1) := by
  have hbits : s >>> (stride - j) < 2 ^ j := by
    rw [Nat.shiftRight_eq_div_pow, Nat.div_lt_iff_lt_mul (Nat.two_pow_pos _), ← pow_add,
      Nat.add_sub_cancel' (Nat.le_of_lt hj)]
    exact h
  have hpos := Nat.two_pow_pos j
  rw [pow_succ, prefixPos, countInlBitmap]
  generalize s >>> (stride - j) = bits at hbits ⊢
  omega

/-- Longer prefixes have higher bits. -/
theorem prefixPos_lt {s j k : Nat} (h : s < 64) (hk : k < stride) (hjk : j < k) :
    prefixPos s j < prefixPos s k := by
  have h1 := (prefixPos_bracket h (Nat.lt_trans hjk hk)).2
  have h2 := (prefixPos_bracket h hk).1
  have h3 : 2 ^ (j + 1) ≤ 2 ^ k := Nat.pow_le_pow_right (by decide) hjk
  omega

theorem prefixPos_le_iff {s j k : Nat} (h : s < 64) (hj : j < stride) (hk : k < stride) :
    prefixPos s j ≤ prefixPos s k ↔ j ≤ k := by
  constructor
  · intro hle
    by_contra hlt
    have := prefixPos_lt h hj (Nat.not_le.mp hlt)
    omega
  · intro hle
    rcases Nat.lt_or_ge j k with hlt | hge
    · exact Nat.le_of_lt (prefixPos_lt h hk hlt)
    · rw [Nat.le_antisymm hle hge]

/-- `j` is the greatest length at which the stride has a prefix in the bitmap. -/
structure LongestAt (b : BitVec 64) (s j : Nat) : Prop where
  lt : j < stride
  bit : b.getLsbD (prefixPos s j) = true
  longest : ∀ k < stride, b.getLsbD (prefixPos s k) = true → k ≤ j

/-- Some prefix is in the bitmap iff there is a longest one. -/
theorem exists_longestAt {b : BitVec 64} {s j : Nat} (hj : j < stride)
    (hb : b.getLsbD (prefixPos s j) = true) : ∃ k, LongestAt b s k := by
  -- induction on the number of lengths above `j`
  induction hn : stride - j using Nat.strong_induction_on generalizing j with
  | _ n ih =>
      by_cases h : ∃ k, k < stride ∧ b.getLsbD (prefixPos s k) = true ∧ j < k
      · obtain ⟨k, hk, hbk, hjk⟩ := h
        exact ih (stride - k) (by omega) hk hbk rfl
      · refine ⟨j, hj, hb, fun k hk hbk => ?_⟩
        by_contra hlt
        exact h ⟨k, hk, hbk, Nat.not_le.mp hlt⟩

/-- What the table-driven lookup finds, in terms of prefixes. -/
theorem treeFunction_fst {b : BitVec 64} {s j : Nat} (h : s < 64) (hj : LongestAt b s j) :
    (treeFunction b s).map Prod.fst = some (prefixPos s j) := by
  have hspec := treeFunction_spec b h
  have hmem := (mem_path_iff h).mpr ⟨j, hj.lt, rfl⟩
  cases ht : treeFunction b s with
  | none =>
      rw [ht] at hspec
      have := hspec _ hmem
      rw [hj.bit] at this
      cases this
  | some q =>
      rw [ht] at hspec
      obtain ⟨hpath, hbit, hmax⟩ := hspec
      obtain ⟨k, hk, hpos⟩ := (mem_path_iff h).mp hpath
      rw [hpos] at hbit
      have h1 : k ≤ j := hj.longest k hk hbit
      have h2 : prefixPos s j ≤ q.1 := hmax _ hmem hj.bit
      rw [hpos, prefixPos_le_iff h hj.lt hk] at h2
      rw [Option.map_some, hpos, Nat.le_antisymm h1 h2]

/-- The length stored is the table's for the position returned. -/
theorem treeFunction_snd {b : BitVec 64} {s : Nat} {q : Nat × Nat} (h : treeFunction b s = some q) :
    q = (q.1, pos2cidr q.1) := by
  unfold treeFunction at h
  dsimp only at h
  split at h
  · cases h
  · rw [← Option.some.inj h]

theorem treeFunction_eq_none {b : BitVec 64} {s : Nat} (h : s < 64) :
    treeFunction b s = none ↔ ∀ j < stride, b.getLsbD (prefixPos s j) = false := by
  constructor
  · intro ht j hj
    have hspec := treeFunction_spec b h
    rw [ht] at hspec
    exact hspec _ ((mem_path_iff h).mpr ⟨j, hj, rfl⟩)
  · intro hno
    have hspec := treeFunction_spec b h
    cases ht : treeFunction b s with
    | none => rfl
    | some q =>
        rw [ht] at hspec
        obtain ⟨hpath, hbit, -⟩ := hspec
        obtain ⟨k, hk, hpos⟩ := (mem_path_iff h).mp hpath
        rw [hpos, hno k hk] at hbit
        cases hbit

/-- **The table-driven lookup is longest-prefix match.** For the greatest length at which
the stride has a prefix in the bitmap it returns the bit of that prefix, and it returns
-1 iff no prefix of the stride is in the bitmap. -/
theorem treeFunction_longest (b : BitVec 64) {s : Nat} (h : s < 64) :
    (∀ j, LongestAt b s j →
      (treeFunction b s).map Prod.fst = some (countInlBitmap (s >>> (6 - j)) j)) ∧
    (treeFunction b s = none ↔ ∀ j ≤ 5, b.getLsbD (countInlBitmap (s >>> (6 - j)) j) = false) :=
  ⟨fun _ hj => treeFunction_fst h hj,
    (treeFunction_eq_none h).trans
      ⟨fun hno j hj => hno j (Nat.lt_succ_of_le hj), fun hno j hj => hno j (Nat.le_of_lt_succ hj)⟩⟩

/-- The stride 44 has its prefixes of length 0 and 2 in this bitmap, and the longer one is
found. -/
theorem treeFunction_longest_44 :
    LongestAt 0x21#64 44 2 ∧ (treeFunction 0x21#64 44).map Prod.fst = some 5 := by
  have hj : LongestAt 0x21#64 44 2 := ⟨by decide, by decide, by decide⟩
  exact ⟨hj, (treeFunction_longest 0x21#64 (by decide)).1 2 hj⟩

/-! ### The two builds -/

/-- The table of lengths holds every length plus one. -/
theorem pos2cidr_eq : ∀ pos < 63, pos2cidr pos = (pos + 1).log2 + 1 := by
  decide +kernel

theorem pos2cidr_prefixPos {s j : Nat} (h : s < 64) (hj : j < stride) :
    pos2cidr (prefixPos s j) = j + 1 := by
  obtain ⟨h1, h2⟩ := prefixPos_bracket h hj
  have hlt : 2 ^ (j + 1) ≤ 2 ^ stride := Nat.pow_le_pow_right (by decide) hj
  have hpow : 2 ^ stride = 64 := rfl
  rw [pos2cidr_eq _ (by omega), (Nat.log2_eq_iff (Nat.succ_ne_zero _)).mpr ⟨h1, h2⟩]

/-- One round of the probing loop. -/
theorem treeFunctionLoop_succ (b : BitVec 64) (s : Nat) {n : Nat} (hn : n < stride) :
    treeFunctionLoop b (s >>> (stride - (n + 1))) (n + 1)
      = if b.getLsbD (prefixPos s n) then some (prefixPos s n, n)
        else treeFunctionLoop b (s >>> (stride - n)) n := by
  have hshift : s >>> (stride - (n + 1)) >>> 1 = s >>> (stride - n) := by
    rw [← Nat.shiftRight_add, show stride - (n + 1) + 1 = stride - n by omega]
  rw [treeFunctionLoop, hshift]
  rfl

/-- With `n` lengths left to probe, the loop stops at the longest prefix below `n`. -/
theorem treeFunctionLoop_longest {b : BitVec 64} {s j : Nat} (hj : LongestAt b s j) :
    ∀ n ≤ stride, j < n →
      treeFunctionLoop b (s >>> (stride - n)) n = some (prefixPos s j, j) := by
  intro n
  induction n with
  | zero => intro _ hlt; omega
  | succ n ih =>
      intro hn hlt
      rw [treeFunctionLoop_succ b s hn]
      rcases Nat.lt_or_ge j n with hjn | hjn
      · have hclear : ¬ b.getLsbD (prefixPos s n) = true := by
          intro hbit
          have := hj.longest n hn hbit
          omega
        rw [if_neg hclear, ih (Nat.le_of_lt hn) hjn]
      · obtain rfl : j = n := by omega
        rw [if_pos hj.bit]

theorem treeFunctionLoop_none {b : BitVec 64} {s : Nat}
    (hno : ∀ j < stride, b.getLsbD (prefixPos s j) = false) :
    ∀ n ≤ stride, treeFunctionLoop b (s >>> (stride - n)) n = none := by
  intro n
  induction n with
  | zero => intro _; rfl
  | succ n ih =>
      intro hn
      rw [treeFunctionLoop_succ b s hn, hno n hn, ih (Nat.le_of_lt hn)]
      rfl

/-- The probing build finds the longest prefix as well, and stores its length. -/
theorem treeFunctionProbe_longest {b : BitVec 64} {s j : Nat} (hj : LongestAt b s j) :
    treeFunctionProbe b s = some (prefixPos s j, j) := by
  have hne : b ≠ 0#64 := by
    rintro rfl
    have := hj.bit
    simp at this
  have hloop := treeFunctionLoop_longest hj stride (Nat.le_refl _) hj.lt
  rw [Nat.sub_self, Nat.shiftRight_zero] at hloop
  rw [treeFunctionProbe, if_neg hne, hloop]

theorem treeFunctionProbe_none {b : BitVec 64} {s : Nat}
    (hno : ∀ j < stride, b.getLsbD (prefixPos s j) = false) : treeFunctionProbe b s = none := by
  have hloop := treeFunctionLoop_none hno stride (Nat.le_refl _)
  rw [Nat.sub_self, Nat.shiftRight_zero] at hloop
  rw [treeFunctionProbe, hloop, ite_self]

/-- The type of `tree_function`: a position and the length stored, or -1. -/
abbrev TreeFunction := BitVec 64 → Nat → Option (Nat × Nat)

/-- A `tree_function` that finds the deepest child on the path of the key. Nothing is
asked of the length it stores. -/
def FindsDeepest (tf : TreeFunction) : Prop :=
  ∀ (b : BitVec 64) (s : Nat), s < 64 →
    match tf b s with
    | none => ∀ i ∈ ancestors (31 + s >>> 1), b.getLsbD i = false
    | some (pos, _) => pos ∈ ancestors (31 + s >>> 1) ∧ b.getLsbD pos = true ∧
        ∀ i ∈ ancestors (31 + s >>> 1), b.getLsbD i = true → i ≤ pos

theorem treeFunction_findsDeepest : FindsDeepest treeFunction := fun b _ hs => treeFunction_spec b hs

theorem treeFunctionProbe_findsDeepest : FindsDeepest treeFunctionProbe := by
  intro b s hs
  by_cases hex : ∃ j < stride, b.getLsbD (prefixPos s j) = true
  · obtain ⟨j, hj, hbit⟩ := hex
    obtain ⟨k, hk⟩ := exists_longestAt hj hbit
    rw [treeFunctionProbe_longest hk]
    refine ⟨(mem_path_iff hs).mpr ⟨k, hk.lt, rfl⟩, hk.bit, fun i hi hset => ?_⟩
    obtain ⟨l, hl, rfl⟩ := (mem_path_iff hs).mp hi
    exact (prefixPos_le_iff hs hl hk.lt).mpr (hk.longest l hl hset)
  · have hno : ∀ j < stride, b.getLsbD (prefixPos s j) = false := by
      intro j hj
      by_contra hbit
      exact hex ⟨j, hj, by simpa using hbit⟩
    rw [treeFunctionProbe_none hno]
    intro i hi
    obtain ⟨l, hl, rfl⟩ := (mem_path_iff hs).mp hi
    exact hno l hl

/-- **The two builds.** They return the same position, and where there is one the table
stores one more than the length the probing build stores; so they agree if and only if no
prefix of the stride is in the bitmap. -/
theorem treeFunction_builds (b : BitVec 64) {s : Nat} (h : s < 64) :
    treeFunction b s = (treeFunctionProbe b s).map (fun q => (q.1, q.2 + 1)) ∧
      (treeFunction b s = treeFunctionProbe b s ↔
        ∀ j < stride, b.getLsbD (countInlBitmap (s >>> (stride - j)) j) = false) := by
  by_cases hex : ∃ j < stride, b.getLsbD (prefixPos s j) = true
  · obtain ⟨j, hj, hbit⟩ := hex
    obtain ⟨k, hk⟩ := exists_longestAt hj hbit
    have hprobe := treeFunctionProbe_longest hk
    have htable : treeFunction b s = some (prefixPos s k, k + 1) := by
      obtain ⟨q, hq, hpos⟩ := Option.map_eq_some_iff.mp (treeFunction_fst h hk)
      rw [hq, ← pos2cidr_prefixPos h hk.lt, ← hpos]
      congr 1
      exact treeFunction_snd hq
    rw [hprobe, htable]
    refine ⟨rfl, ?_⟩
    simp only [Option.some.injEq, Prod.mk.injEq, true_and, Nat.succ_ne_self, false_iff]
    intro hno
    have := hno j hj
    rw [← prefixPos, hbit] at this
    cases this
  · have hno : ∀ j < stride, b.getLsbD (prefixPos s j) = false := by
      intro j hj
      by_contra hbit
      exact hex ⟨j, hj, by simpa using hbit⟩
    rw [treeFunctionProbe_none hno, (treeFunction_eq_none h).mpr hno]
    exact ⟨rfl, fun _ => hno, fun _ => rfl⟩

/-- With no internal child both builds return -1. -/
theorem treeFunction_builds_empty :
    treeFunction 0#64 44 = none ∧ treeFunctionProbe 0#64 44 = none := by
  have h := (treeFunction_builds 0#64 (show 44 < 64 by decide)).2.mpr (by decide)
  exact ⟨h.trans (by decide), by decide⟩

/-- **The stored lengths differ.** With the whole dimension as the only prefix, the table
says that one bit of the key is consumed, and the loop that none is. -/
theorem treeFunction_whole :
    treeFunction 1#64 0 = some (0, 1) ∧ treeFunctionProbe 1#64 0 = some (0, 0) := by
  decide

end ChooseCut
