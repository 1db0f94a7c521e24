import ChooseCut.CutHi
import ChooseCut.Lib.Partition

/-!
# ChooseCut.CutHiSweep

What the sweep of `hi_get_me_1d` computes.

Segment `k` covers the values from `edge k` up to `edge (k + 1)`. Two neighbouring
segments see the same ranges exactly when none ends in the first and none starts in
the second (`Quiet`), and the sweep merges them exactly then. `Segmented` describes
the children after a number of segments, and every segment extends the description
by one.
-/

namespace ChooseCut

/-- Where segment `k` begins. -/
def edge (low0 seg k : Nat) : Nat := low0 + k * seg

theorem edge_succ (low0 seg k : Nat) : edge low0 seg (k + 1) = edge low0 seg k + seg := by
  simp only [edge, Nat.succ_mul, Nat.add_assoc]

@[simp] theorem edge_zero (low0 seg : Nat) : edge low0 seg 0 = low0 := by simp [edge]

theorem edge_mono {low0 seg j k : Nat} (h : j ≤ k) : edge low0 seg j ≤ edge low0 seg k :=
  Nat.add_le_add_left (Nat.mul_le_mul_right seg h) low0

section Segments

variable {us : List Range1d} {low0 seg : Nat}

/-- The weight of the ranges that meet segment `k`. -/
def segWeight (us : List Range1d) (low0 seg k : Nat) : Nat :=
  weightWhere (fun lo hi => lo < edge low0 seg (k + 1) ∧ edge low0 seg k ≤ hi) us

/-- No range ends in segment `j` and none starts in the next one. -/
def Quiet (us : List Range1d) (low0 seg j : Nat) : Prop :=
  ∀ x ∈ us, ¬ (edge low0 seg (j + 1) ≤ x.low ∧ x.low < edge low0 seg (j + 2)) ∧
    ¬ (edge low0 seg j ≤ x.high ∧ x.high < edge low0 seg (j + 1))

/-- The children after `k` segments: consecutive runs of segments that together cover
the first `k`, merged where it is quiet and only there, with the weight seen by their
first segment. -/
structure Segmented (us : List Range1d) (low0 seg k : Nat) (hist : RuleHist)
    (nodeR : Nat → Nat × Nat) : Prop where
  zero_iff : hist.childs = 0 ↔ k = 0
  first : 0 < hist.childs → (nodeR 0).1 = 0
  le : ∀ i < hist.childs, (nodeR i).1 ≤ (nodeR i).2
  next : ∀ i, i + 1 < hist.childs → (nodeR (i + 1)).1 = (nodeR i).2 + 1
  last : 0 < hist.childs → (nodeR (hist.childs - 1)).2 + 1 = k
  count : ∀ i < hist.childs, hist.childRulecount i = segWeight us low0 seg (nodeR i).1
  merged : ∀ i < hist.childs, ∀ j, (nodeR i).1 ≤ j → j < (nodeR i).2 → Quiet us low0 seg j
  border : ∀ i, i + 1 < hist.childs → ¬ Quiet us low0 seg (nodeR i).2
  beyond : ∀ i, hist.childs ≤ i → hist.childRulecount i = 0
  rules : hist.rules = ((List.range hist.childs).map hist.childRulecount).sum

theorem Segmented.init : Segmented us low0 seg 0 RuleHist.zero (fun _ => (0, 0)) where
  zero_iff := ⟨fun _ => rfl, fun _ => rfl⟩
  first := fun _ => rfl
  le := fun _ _ => Nat.le_refl _
  next := fun _ hi => absurd hi (Nat.not_lt_zero _)
  last := fun h => absurd h (Nat.not_lt_zero _)
  count := fun _ hi => absurd hi (Nat.not_lt_zero _)
  merged := fun _ hi => absurd hi (Nat.not_lt_zero _)
  border := fun _ hi => absurd hi (Nat.not_lt_zero _)
  beyond := fun _ _ => rfl
  rules := rfl

/-- A segment that opens a child. -/
theorem Segmented.open {k : Nat} (st : HiSweep) (h : Segmented us low0 seg k st.hist st.nodeR)
    (hnew : k ≠ 0 → ¬ Quiet us low0 seg (k - 1)) :
    Segmented us low0 seg (k + 1) (st.record true (segWeight us low0 seg k)).hist
      (st.record true (segWeight us low0 seg k)).nodeR := by
  have hstart : (if st.hist.childs = 0 then 0 else (st.nodeR (st.hist.childs - 1)).2 + 1) = k := by
    split
    · next h0 => exact (h.zero_iff.mp h0).symm
    · next h0 => exact h.last (by omega)
  unfold HiSweep.record
  rw [if_pos rfl, hstart]
  refine ⟨?_, ?_, ?_, ?_, ?_, ?_, ?_, ?_, ?_, ?_⟩ <;> dsimp only
  · omega
  · intro _
    by_cases h0 : st.hist.childs = 0
    · rw [h0, Function.update_self]
      exact h.zero_iff.mp h0
    · rw [Function.update_of_ne (by omega)]
      exact h.first (by omega)
  · intro i hi
    by_cases heq : i = st.hist.childs
    · rw [heq, Function.update_self]
    · rw [Function.update_of_ne heq]
      exact h.le i (by omega)
  · intro i hi
    rw [Function.update_of_ne (by omega : i ≠ st.hist.childs)]
    by_cases heq : i + 1 = st.hist.childs
    · rw [heq, Function.update_self]
      have hl := h.last (by omega)
      rw [show st.hist.childs - 1 = i by omega] at hl
      exact hl.symm
    · rw [Function.update_of_ne heq]
      exact h.next i (by omega)
  · intro _
    rw [Nat.add_sub_cancel, Function.update_self]
  · intro i hi
    by_cases heq : i = st.hist.childs
    · rw [heq, Function.update_self, Function.update_self]
    · rw [Function.update_of_ne heq, Function.update_of_ne heq]
      exact h.count i (by omega)
  · intro i hi j hj1 hj2
    by_cases heq : i = st.hist.childs
    · rw [heq, Function.update_self] at hj1 hj2
      dsimp only at hj1 hj2
      omega
    · rw [Function.update_of_ne heq] at hj1 hj2
      exact h.merged i (by omega) j hj1 hj2
  · intro i hi
    rw [Function.update_of_ne (by omega : i ≠ st.hist.childs)]
    by_cases heq : i + 1 = st.hist.childs
    · have hl := h.last (by omega)
      rw [show st.hist.childs - 1 = i by omega] at hl
      rw [show (st.nodeR i).2 = k - 1 by omega]
      exact hnew (by omega)
    · exact h.border i (by omega)
  · intro i hi
    rw [Function.update_of_ne (by omega)]
    exact h.beyond i (by omega)
  · rw [List.range_succ, List.map_append, List.sum_append, h.rules]
    congr 1
    · congr 1
      apply List.map_congr_left
      intro i hi
      rw [List.mem_range] at hi
      rw [Function.update_of_ne (by omega)]
    · simp

/-- A segment merged into the child before it. -/
theorem Segmented.widen {k : Nat} (st : HiSweep) {rules : Nat}
    (h : Segmented us low0 seg k st.hist st.nodeR) (hk : k ≠ 0)
    (hquiet : Quiet us low0 seg (k - 1)) :
    Segmented us low0 seg (k + 1) (st.record false rules).hist (st.record false rules).nodeR := by
  have hpos : 0 < st.hist.childs := Nat.pos_of_ne_zero (fun h0 => hk (h.zero_iff.mp h0))
  have hlast := h.last hpos
  unfold HiSweep.record
  rw [if_neg (by simp)]
  refine ⟨?_, ?_, ?_, ?_, ?_, ?_, ?_, ?_, h.beyond, h.rules⟩ <;> dsimp only
  · omega
  · intro _
    rw [Partition.fst_update]
    exact h.first hpos
  · intro i hi
    rw [Partition.fst_update]
    by_cases heq : i = st.hist.childs - 1
    · rw [heq, Function.update_self]
      exact Nat.le_succ_of_le (h.le _ (by omega))
    · rw [Function.update_of_ne heq]
      exact h.le i hi
  · intro i hi
    rw [Partition.fst_update, Function.update_of_ne (by omega)]
    exact h.next i hi
  · intro _
    rw [Function.update_self]
    dsimp only
    omega
  · intro i hi
    rw [Partition.fst_update]
    exact h.count i hi
  · intro i hi j hj1 hj2
    rw [Partition.fst_update] at hj1
    by_cases heq : i = st.hist.childs - 1
    · rw [heq, Function.update_self] at hj2
      dsimp only at hj2
      by_cases hj : j = k - 1
      · rw [hj]
        exact hquiet
      · rw [heq] at hj1
        exact h.merged _ (by omega) j hj1 (by omega)
    · rw [Function.update_of_ne heq] at hj2
      exact h.merged i hi j hj1 hj2
  · intro i hi
    rw [Function.update_of_ne (by omega)]
    exact h.border i hi

/-! ### One segment -/

theorem not_isEmpty_iff {α : Type} {l : List α} : (!l.isEmpty) = true ↔ ∃ x, x ∈ l := by
  cases l with
  | nil => simp
  | cons x l => simp

/-- The state of the sweep after `k` segments. -/
structure HiInv (us : List Range1d) (low0 seg k : Nat) (st : HiSweep) : Prop where
  seen : ∃ seen, us = seen ++ st.rest ∧ Open Range1d.high seen (edge low0 seg k) st.heap ∧
    ∀ x ∈ seen, x.low < edge low0 seg k ∨ x.low = low0
  rest_ge : ∀ x ∈ st.rest, edge low0 seg k ≤ x.low
  curr : st.curr = edge low0 seg (k + 1)
  ends : st.prevNewEnds = true ↔
    k = 0 ∨ ∃ x ∈ us, edge low0 seg (k - 1) ≤ x.high ∧ x.high < edge low0 seg k
  segmented : Segmented us low0 seg k st.hist st.nodeR

/-- The ranges a segment takes in. -/
def HiSweep.started (st : HiSweep) : List Range1d := st.rest.takeWhile (fun r => r.low < st.curr)

/-- The ranges it leaves for later. -/
def HiSweep.later (st : HiSweep) : List Range1d := st.rest.dropWhile (fun r => r.low < st.curr)

/-- The heap with what the segment takes in. -/
def HiSweep.filled (st : HiSweep) : List Range1d :=
  st.started.foldl (fun h r => enqueue Range1d.high r h) st.heap

/-- Recording a child leaves the sweep itself alone. -/
theorem HiSweep.record_frame (st : HiSweep) (b : Bool) (r : Nat) :
    (st.record b r).rest = st.rest ∧ (st.record b r).heap = st.heap ∧
      (st.record b r).curr = st.curr ∧ (st.record b r).prevNewEnds = st.prevNewEnds := by
  unfold HiSweep.record
  dsimp only
  split <;> exact ⟨rfl, rfl, rfl, rfl⟩

/-- The state inside segment `k`, when everything that starts in it has been taken in and
nothing has been dropped. -/
structure MidSegment (us : List Range1d) (low0 seg k : Nat) (st : HiSweep) (seen : List Range1d) :
    Prop where
  split : us = seen ++ st.later
  opened : Open Range1d.high seen (edge low0 seg k) st.filled
  low_lt : ∀ x ∈ seen, x.low < edge low0 seg (k + 1)
  low_ge : ∀ x ∈ st.later, edge low0 seg (k + 1) ≤ x.low

section Step

variable {k : Nat} {st : HiSweep} {seen : List Range1d}

theorem HiInv.rest_ordered (h : HiInv us low0 seg k st)
    (hsorted : us.Pairwise (fun a b => rangeCompare a b = .lt)) : Ordered Range1d.low st.rest := by
  obtain ⟨seen, hus, -, -⟩ := h.seen
  rw [hus] at hsorted
  refine (List.pairwise_append.mp hsorted).2.1.imp ?_
  intro a b hab
  rw [rangeCompare_lt] at hab
  omega

/-- A segment takes in what starts before its end. -/
theorem HiInv.mem_started (h : HiInv us low0 seg k st)
    (hsorted : us.Pairwise (fun a b => rangeCompare a b = .lt)) {x : Range1d} :
    x ∈ st.started ↔ x ∈ st.rest ∧ x.low < edge low0 seg (k + 1) := by
  rw [HiSweep.started, (h.rest_ordered hsorted).takeWhile_lt, List.mem_filter, decide_eq_true_eq,
    h.curr]

/-- Taking in, the first half of a segment. -/
theorem HiInv.midSegment (h : HiInv us low0 seg k st) (hseg : 0 < seg)
    (hfit : ∀ x ∈ us, x.low ≤ x.high)
    (hsorted : us.Pairwise (fun a b => rangeCompare a b = .lt)) :
    ∃ seen, MidSegment us low0 seg k st seen := by
  obtain ⟨seen, hus, hopen, hseen⟩ := h.seen
  refine ⟨seen ++ st.started, ?_, hopen.pushAll ?_, ?_, ?_⟩
  · rw [HiSweep.started, HiSweep.later, List.append_assoc, List.takeWhile_append_dropWhile, ← hus]
  · intro x hx
    have hxr := ((h.mem_started hsorted).mp hx).1
    exact (h.rest_ge x hxr).trans (hfit x (by rw [hus]; exact List.mem_append_right _ hxr))
  · intro x hx
    rcases List.mem_append.mp hx with hx | hx
    · have hedge := edge_succ low0 seg k
      have hlow0 : low0 ≤ edge low0 seg k := Nat.le_add_right _ _
      rcases hseen x hx with hlt | heq <;> omega
    · exact ((h.mem_started hsorted).mp hx).2
  · intro x hx
    rw [HiSweep.later, (h.rest_ordered hsorted).dropWhile_lt, List.mem_filter, decide_eq_true_eq,
      h.curr] at hx
    exact hx.2

/-- The weight counted in the segment. -/
theorem MidSegment.weight (h : MidSegment us low0 seg k st seen) :
    ((st.filled.takeWhile (fun r => r.high < st.curr)).map Range1d.weight).sum
        + ((st.filled.dropWhile (fun r => r.high < st.curr)).map Range1d.weight).sum
      = segWeight us low0 seg k := by
  rw [← List.sum_append, ← List.map_append, List.takeWhile_append_dropWhile,
    h.opened.weight Range1d.weight]
  unfold segWeight weightWhere
  rw [h.split, weightOf_append, weightOf_eq_zero (l := st.later) (fun x hx hlt =>
    absurd hlt.1 (Nat.not_lt.mpr (h.low_ge x hx))), Nat.add_zero]
  exact weightOf_congr (fun x hx => ⟨fun hx' => ⟨h.low_lt x hx, hx'⟩, fun hx' => hx'.2⟩)

/-- A range ends in the segment iff something leaves the heap. -/
theorem MidSegment.ends (h : MidSegment us low0 seg k st seen) (hcurr : st.curr = edge low0 seg (k + 1))
    (hfit : ∀ x ∈ us, x.low ≤ x.high) :
    (!(st.filled.takeWhile (fun r => r.high < st.curr)).isEmpty) = true ↔
      ∃ x ∈ us, edge low0 seg k ≤ x.high ∧ x.high < edge low0 seg (k + 1) := by
  have hmem : ∀ x, x ∈ st.filled.takeWhile (fun r => r.high < st.curr) ↔
      x ∈ seen ∧ edge low0 seg k ≤ x.high ∧ x.high < edge low0 seg (k + 1) := by
    intro x
    rw [h.opened.ordered.takeWhile_lt, List.mem_filter, h.opened.mem_iff, decide_eq_true_eq, hcurr,
      and_assoc]
  rw [not_isEmpty_iff]
  constructor
  · intro ⟨x, hx⟩
    obtain ⟨hxs, hends⟩ := (hmem x).mp hx
    exact ⟨x, by rw [h.split]; exact List.mem_append_left _ hxs, hends⟩
  · intro ⟨x, hx, hge, hlt⟩
    have hfx := hfit x hx
    rw [h.split] at hx
    rcases List.mem_append.mp hx with hx | hx
    · exact ⟨x, (hmem x).mpr ⟨hx, hge, hlt⟩⟩
    · have := h.low_ge x hx
      omega

/-- A child opens iff the border before the segment is not quiet. -/
theorem HiInv.opens_iff (h : HiInv us low0 seg k st) (hseg : 0 < seg)
    (hsorted : us.Pairwise (fun a b => rangeCompare a b = .lt)) :
    (!st.started.isEmpty || st.prevNewEnds) = true ↔ k = 0 ∨ ¬ Quiet us low0 seg (k - 1) := by
  obtain ⟨seen, hus, -, hseen⟩ := h.seen
  rw [Bool.or_eq_true, h.ends, not_isEmpty_iff]
  by_cases hk : k = 0
  · simp [hk]
  have hk1 : k - 1 + 1 = k := by omega
  have hk2 : k - 1 + 2 = k + 1 := by omega
  unfold Quiet
  rw [hk1, hk2]
  push Not
  constructor
  · rintro (⟨x, hx⟩ | hx)
    · obtain ⟨hx, hlt⟩ := (h.mem_started hsorted).mp hx
      refine Or.inr ⟨x, by rw [hus]; exact List.mem_append_right _ hx, fun hn => ?_⟩
      exact absurd hlt (Nat.not_lt.mpr (hn (h.rest_ge x hx)))
    · obtain ⟨x, hx, h1, h2⟩ := hx.resolve_left hk
      exact Or.inr ⟨x, hx, fun _ => ⟨h1, h2⟩⟩
  · rintro (h0 | ⟨x, hx, himp⟩)
    · exact absurd h0 hk
    by_cases hlow : edge low0 seg k ≤ x.low ∧ x.low < edge low0 seg (k + 1)
    · refine Or.inl ⟨x, (h.mem_started hsorted).mpr ⟨?_, hlow.2⟩⟩
      rw [hus] at hx
      rcases List.mem_append.mp hx with hx | hx
      · -- the ranges seen before start in front of the segment
        have hpos : edge low0 seg (0 + 1) ≤ edge low0 seg k := edge_mono (by omega)
        rw [edge_succ, edge_zero] at hpos
        rcases hseen x hx with h1 | h1 <;> omega
      · exact hx
    · exact Or.inr (Or.inr ⟨x, hx, himp (fun h1 => Nat.not_lt.mp (fun h2 => hlow ⟨h1, h2⟩))⟩)

/-- **One segment** keeps the description of the sweep. -/
theorem HiInv.segment (h : HiInv us low0 seg k st) (hseg : 0 < seg)
    (hfit : ∀ x ∈ us, x.low ≤ x.high)
    (hsorted : us.Pairwise (fun a b => rangeCompare a b = .lt)) :
    HiInv us low0 seg (k + 1) (st.segment seg) := by
  obtain ⟨seen, hmid⟩ := h.midSegment hseg hfit hsorted
  have hstep : st.segment seg = HiSweep.record
      { st with
        rest := st.later
        heap := st.filled.dropWhile (fun r => r.high < st.curr)
        curr := st.curr + seg
        prevNewEnds := !(st.filled.takeWhile (fun r => r.high < st.curr)).isEmpty }
      (!st.started.isEmpty || st.prevNewEnds) (segWeight us low0 seg k) := by
    rw [← hmid.weight]
    rfl
  rw [hstep]
  obtain ⟨hrest, hheap, hcurr, hends⟩ := HiSweep.record_frame
    { st with
      rest := st.later
      heap := st.filled.dropWhile (fun r => r.high < st.curr)
      curr := st.curr + seg
      prevNewEnds := !(st.filled.takeWhile (fun r => r.high < st.curr)).isEmpty }
    (!st.started.isEmpty || st.prevNewEnds) (segWeight us low0 seg k)
  refine ⟨⟨seen, ?_, ?_, fun x hx => Or.inl (hmid.low_lt x hx)⟩, ?_, ?_, ?_, ?_⟩
  · rw [hrest]
    exact hmid.split
  · rw [hheap, ← h.curr]
    exact hmid.opened.advance (h.curr ▸ edge_mono (Nat.le_succ k))
  · rw [hrest]
    exact hmid.low_ge
  · rw [hcurr, edge_succ low0 seg (k + 1), ← h.curr]
  · rw [hends, Nat.add_sub_cancel, hmid.ends h.curr hfit]
    exact ⟨Or.inr, fun hx => hx.resolve_left (Nat.succ_ne_zero k)⟩
  · cases hb : !st.started.isEmpty || st.prevNewEnds with
    | true =>
        refine Segmented.open { st with
          rest := _, heap := _, curr := _, prevNewEnds := _ } h.segmented ?_
        exact fun hk => ((h.opens_iff hseg hsorted).mp hb).resolve_left hk
    | false =>
        have hnot := mt (h.opens_iff hseg hsorted).mpr (by rw [hb]; simp)
        push Not at hnot
        exact Segmented.widen { st with
          rest := _, heap := _, curr := _, prevNewEnds := _ } h.segmented hnot.1 hnot.2

end Step

/-- **The whole sweep** passes exactly the segments of the hull. -/
theorem HiSweep.run_spec {high : Nat} (hseg : 0 < seg) (hfit : ∀ x ∈ us, x.low ≤ x.high)
    (hsorted : us.Pairwise (fun a b => rangeCompare a b = .lt))
    (htop : ∃ x ∈ us, x.high = high) (hlow0 : low0 ≤ high) :
    ∀ (fuel k : Nat) {st : HiSweep}, k + fuel = (high - low0) / seg + 1 →
      HiInv us low0 seg k st → HiInv us low0 seg ((high - low0) / seg + 1) (st.run seg fuel) := by
  intro fuel
  induction fuel with
  | zero =>
      intro k st hk h
      rw [← hk]
      exact h
  | succ fuel ih =>
      intro k st hk h
      rw [HiSweep.run, if_neg]
      · exact ih (k + 1) (by omega) (h.segment hseg hfit hsorted)
      · -- the range that ends last has not been dropped yet
        rintro ⟨hrest, hheap⟩
        obtain ⟨x, hx, hxh⟩ := htop
        obtain ⟨seen, hus, hopen, -⟩ := h.seen
        have hle : k * seg ≤ high - low0 :=
          (Nat.le_div_iff_mul_le hseg).mp (by omega : k ≤ (high - low0) / seg)
        rw [hus, hrest, List.append_nil] at hx
        have hmem := hopen.mem_iff.mpr ⟨hx, (by unfold edge; omega : edge low0 seg k ≤ x.high)⟩
        rw [hheap] at hmem
        exact absurd hmem List.not_mem_nil

/-- The state before the first segment. -/
theorem HiInv.init {u : Range1d} {us : List Range1d} (seg : Nat)
    (hfit : ∀ x ∈ u :: us, x.low ≤ x.high)
    (hsorted : (u :: us).Pairwise (fun a b => rangeCompare a b = .lt)) :
    HiInv (u :: us) u.low seg 0
      { rest := us, heap := [u], curr := u.low + seg, prevNewEnds := true, hist := RuleHist.zero,
        nodeR := fun _ => (0, 0) } := by
  refine ⟨⟨[u], rfl, ⟨List.pairwise_singleton _ _, ?_⟩, ?_⟩, ?_, ?_, ?_, Segmented.init⟩
  · rw [List.filter_cons_of_pos (by simpa using hfit u List.mem_cons_self)]
    rfl
  · intro x hx
    obtain rfl := List.mem_singleton.mp hx
    exact Or.inr rfl
  · intro x hx
    rw [edge_zero]
    have := List.rel_of_pairwise_cons hsorted hx
    rw [rangeCompare_lt] at this
    omega
  · rw [edge_succ, edge_zero]
  · simp

/-- **`hi_get_me_1d`**: the children partition the segments of the hull, and the last one
is extended to the last division. -/
theorem hiGetMe1d_spec {u : Range1d} {us : List Range1d} {high seg : Nat} (div : Nat)
    (hseg : 0 < seg) (hfit : ∀ x ∈ u :: us, x.low ≤ x.high)
    (hsorted : (u :: us).Pairwise (fun a b => rangeCompare a b = .lt))
    (htop : ∃ x ∈ u :: us, x.high = high) (hhigh : u.low ≤ high) :
    ∃ nodeR, Segmented (u :: us) u.low seg ((high - u.low) / seg + 1)
        (hiGetMe1d u us high seg div).1 nodeR ∧
      (hiGetMe1d u us high seg div).2 =
        Function.update nodeR ((hiGetMe1d u us high seg div).1.childs - 1)
          ((nodeR ((hiGetMe1d u us high seg div).1.childs - 1)).1, div - 1) := by
  have hrun := HiSweep.run_spec hseg hfit hsorted htop hhigh ((high - u.low) / seg + 1) 0
    (Nat.zero_add _) (HiInv.init seg hfit hsorted)
  exact ⟨_, hrun.segmented, rfl⟩

end Segments

end ChooseCut
