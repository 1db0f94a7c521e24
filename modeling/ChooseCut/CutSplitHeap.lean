import ChooseCut.CutSplit
import ChooseCut.Heap
import ChooseCut.Lib.Lockstep

/-!
# ChooseCut.CutSplitHeap

`split_match_expect_1d` on the heap the program uses.

`Sweep` keeps the open ranges in an ordered queue, of which the program's heap is an
implementation: between two equal ends the heap has an order of its own, and
`heap_push`, `heap_peek` and `heap_pop` may be called on an empty heap only by mistake.
Here the sweep is written over the heap itself, which is not created by the sweep but
handed in and back. The two run in step (`HeapSweep.Sim`): the sweep looks at the top
only through its end, pops all ranges with one end before it goes on, and sums over the
slots without regard to their order.
-/

namespace ChooseCut

variable {K : Type} [CostArith K]

/-- `aux_heap_less`. -/
def auxHeapLess (a b : Range1d) : Bool := decide (a.high < b.high)

/-- A heap of ranges between two sweeps. -/
structure Heap.Idle (h : Heap Range1d) : Prop where
  valid : h.Valid
  less : h.less = auxHeapLess
  empty : h.len = 0

theorem Heap.Idle.holds {h : Heap Range1d} (hi : h.Idle) : h.Holds Range1d.high [] :=
  .of_empty hi.valid hi.less hi.empty

theorem Heap.Holds.idle {h : Heap Range1d} (hh : h.Holds Range1d.high []) : h.Idle :=
  ⟨hh.valid, hh.less, hh.len_eq⟩

/-- The heap `split_aux_init` and `hi_init` allocate. -/
theorem heapInit_idle : (heapInit auxHeapLess).Idle :=
  ⟨heapInit_valid (.of_key Range1d.high), rfl, rfl⟩

/-! ### The sweep -/

/-- The variables of `split_match_expect_1d` that live across its loops. -/
structure HeapSweep (K : Type) where
  h : Heap Range1d
  left : Nat
  s : Nat
  high : Nat
  best : Best K

/-- Weigh a split behind position `pos`. -/
def HeapSweep.evaluate (num : Nat) (st : HeapSweep K) (pos : Nat) : HeapSweep K :=
  let dup := (st.h.data.toList.map Range1d.weight).sum
  let right := num - st.left
  { st with
    best := findMinMeDo st.best (splitMatchExpectHeuristic (st.left + dup) right) pos
      (st.left + dup) right }

/-- Pop every range that ends at `e`. -/
def HeapSweep.popEnd (st : HeapSweep K) (e : Nat) : Except Fault (HeapSweep K) := do
  let q ← popWhile (fun x => x.high = e) st.h
  .ok { st with
        high := if st.high < e then e else st.high
        left := st.left + (q.1.map Range1d.weight).sum
        h := q.2 }

/-- The inner `while`. -/
def HeapSweep.drain (num low : Nat) : Nat → HeapSweep K → Except Fault (HeapSweep K)
  | 0, st => .ok st
  | fuel + 1, st =>
      if st.h.len = 0 then .ok st
      else do
        let top ← heapPeek st.h
        if top.high < low then do
          let st' ← st.popEnd top.high
          HeapSweep.drain num low fuel (st'.evaluate num top.high)
        else .ok st

/-- Body of the main loop. -/
def HeapSweep.next (num : Nat) (st : HeapSweep K) (r : Range1d) : Except Fault (HeapSweep K) := do
  let st ← st.drain num r.low st.h.len
  if r.low = st.s then .ok { st with h := heapPush st.h r }
  else
    let st := st.evaluate num (r.low - 1)
    .ok { st with s := r.low, h := heapPush st.h r }

/-- The loop `while(h->len > 1)`. -/
def HeapSweep.flush (num : Nat) : Nat → HeapSweep K → Except Fault (HeapSweep K)
  | 0, st => .ok st
  | fuel + 1, st =>
      if 1 < st.h.len then do
        let top ← heapPeek st.h
        let st' ← st.popEnd top.high
        HeapSweep.flush num fuel (if st'.h.len ≠ 0 then st'.evaluate num top.high else st')
      else .ok st

/-- The last range leaves the heap. -/
def HeapSweep.finish (st : HeapSweep K) : Except Fault (HeapSweep K) :=
  if st.h.len ≠ 0 then do
    let top ← heapPeek st.h
    let q ← heapPop st.h
    .ok { st with high := if st.high < top.high then top.high else st.high, h := q.2 }
  else .ok st

/-- The sweep over the ranges `u :: us`, on the heap `h`. -/
def splitSweepOn (h : Heap Range1d) (num w0 w1 : Nat) (u : Range1d) (us : List Range1d) :
    Except Fault (HeapSweep K) := do
  let st ← us.foldlM (HeapSweep.next num)
    { h := heapPush h u, left := 0, s := u.low, high := u.high,
      best := ⟨CostArith.ofNat num, u.low, w0, w1⟩ }
  let st ← HeapSweep.flush num st.h.len st
  st.finish

/-- `split_match_expect_1d`, with the heap it is given and leaves. -/
def splitMatchExpect1dOn (h : Heap Range1d) (rangesCap : Nat) (n : SNode) (rs : RuleSet) (d : Dim) :
    Except Fault ((K × SNode) × Heap Range1d) :=
  if rangesCap < rs.num then .error .overrun
  else
    match sweepRanges rs.items d with
    | u :: v :: us => do
        let st : HeapSweep K ← splitSweepOn h rs.num n.r0.weight n.r1.weight u (v :: us)
        assertThat (st.h.len = 0)
        .ok ((st.best.minMe,
          { n with
            r0 := ⟨u.low, st.best.split, st.best.weight0⟩
            r1 := ⟨st.best.split + 1, st.high, st.best.weight1⟩ }), st.h)
    | _ => .ok ((CostArith.ofNat rs.num, n), h)

/-! ### In step with the queue -/

/-- The heap holds what the queue holds, and the other variables are the same. -/
structure HeapSweep.Sim (c : HeapSweep K) (st : Sweep K) : Prop where
  holds : c.h.Holds Range1d.high st.heap
  left : c.left = st.left
  s : c.s = st.s
  high : c.high = st.high
  best : c.best = st.best

namespace HeapSweep.Sim

variable {c : HeapSweep K} {st : Sweep K}

theorem evaluate (h : c.Sim st) (num pos : Nat) : (c.evaluate num pos).Sim (st.evaluate num pos) := by
  refine ⟨h.holds, h.left, h.s, h.high, ?_⟩
  unfold HeapSweep.evaluate Sweep.evaluate
  dsimp only
  rw [h.holds.sum_eq, h.left, h.best]

omit [CostArith K] in
theorem push (h : c.Sim st) (s : Nat) (r : Range1d) :
    HeapSweep.Sim { c with s := s, h := heapPush c.h r }
      { st with s := s, heap := enqueue Range1d.high r st.heap } :=
  ⟨h.holds.push r, h.left, rfl, h.high, h.best⟩

omit [CostArith K] in
/-- The heap pops the ranges the queue drops, in an order of its own. -/
theorem popEnd (h : c.Sim st) {e : Nat} (hge : ∀ x ∈ st.heap, e ≤ x.high) :
    ∃ c', c.popEnd e = .ok c' ∧ c'.Sim (st.popEnd e) := by
  obtain ⟨out, h', hpop, hout, hholds⟩ := h.holds.popWhile_eq hge
  refine ⟨{ c with
      high := if c.high < e then e else c.high
      left := c.left + (out.map Range1d.weight).sum
      h := h' }, by rw [HeapSweep.popEnd, hpop]; rfl, hholds, ?_, h.s, ?_, h.best⟩
  · unfold Sweep.popEnd
    dsimp only
    rw [h.left, (hout.map Range1d.weight).sum_eq]
  · unfold Sweep.popEnd
    dsimp only
    rw [h.high]

omit [CostArith K] in
/-- The end at the top is the queue's first end, and everything with that end is
popped. -/
theorem popTop (h : c.Sim st) {top : Range1d} {tl : List Range1d} (hheap : st.heap = top :: tl) :
    ∃ x c', heapPeek c.h = .ok x ∧ x.high = top.high ∧ c.popEnd top.high = .ok c' ∧
      c'.Sim (st.popEnd top.high) := by
  have hholds := h.holds
  rw [hheap] at hholds
  obtain ⟨x, hpeek, hx⟩ := hholds.peek
  have hge : ∀ y ∈ st.heap, top.high ≤ y.high := by
    rw [hheap]
    exact fun y hy => hholds.ordered.head_le hy
  obtain ⟨c', hpop, hsim⟩ := h.popEnd hge
  exact ⟨x, c', hpeek, hx, hpop, hsim⟩

theorem drain (num low : Nat) : ∀ (fuel : Nat) {c : HeapSweep K} {st : Sweep K}, c.Sim st →
    ∃ c', c.drain num low fuel = .ok c' ∧ c'.Sim (st.drain num low fuel) := by
  intro fuel
  induction fuel with
  | zero => exact fun h => ⟨_, rfl, h⟩
  | succ fuel ih =>
      intro c st h
      have hlen := h.holds.len_eq
      rw [HeapSweep.drain, Sweep.drain]
      cases hheap : st.heap with
      | nil =>
          rw [hheap, List.length_nil] at hlen
          exact ⟨c, by rw [if_pos hlen], h⟩
      | cons top tl =>
          rw [hheap, List.length_cons] at hlen
          obtain ⟨x, c', hpeek, hx, hpop, hsim⟩ := h.popTop hheap
          rw [if_neg (by omega), hpeek]
          simp only [bind, Except.bind, hx]
          by_cases hlt : top.high < low
          · simp only [if_pos hlt, hpop]
            exact ih (hsim.evaluate num top.high)
          · simp only [if_neg hlt]
            exact ⟨c, rfl, h⟩

theorem next (num : Nat) (h : c.Sim st) (r : Range1d) :
    ∃ c', c.next num r = .ok c' ∧ c'.Sim (st.next num r) := by
  obtain ⟨c', hdrain, hsim⟩ := h.drain num r.low c.h.len
  rw [HeapSweep.next, hdrain, Sweep.next]
  rw [h.holds.len_eq] at hsim
  simp only [bind, Except.bind, hsim.s]
  split
  · exact ⟨_, rfl, hsim.s ▸ hsim.push c'.s r⟩
  · exact ⟨_, rfl, (hsim.evaluate num (r.low - 1)).push r.low r⟩

theorem foldlM_next (num : Nat) (us : List Range1d) : ∀ {c : HeapSweep K} {st : Sweep K}, c.Sim st →
    ∃ c', us.foldlM (HeapSweep.next num) c = .ok c' ∧ c'.Sim (us.foldl (Sweep.next num) st) := by
  induction us with
  | nil => exact fun h => ⟨_, rfl, h⟩
  | cons r us ih =>
      intro c st h
      obtain ⟨c', hnext, hsim⟩ := h.next num r
      rw [List.foldlM_cons, hnext]
      exact ih hsim

/-- The flush leaves at most one range. -/
theorem flush (num : Nat) : ∀ (fuel : Nat) {c : HeapSweep K} {st : Sweep K}, c.Sim st →
    st.heap.length ≤ fuel →
    ∃ c', c.flush num fuel = .ok c' ∧ c'.Sim (st.flush num fuel) ∧
      (st.flush num fuel).heap.length ≤ 1 := by
  intro fuel
  induction fuel with
  | zero => exact fun h hlen => ⟨_, rfl, h, by rw [Sweep.flush]; omega⟩
  | succ fuel ih =>
      intro c st h hfuel
      have hlen := h.holds.len_eq
      rw [HeapSweep.flush, Sweep.flush]
      match hheap : st.heap with
      | [] =>
          rw [hheap] at hlen
          exact ⟨c, by rw [if_neg (by simp [hlen])], h, by simp [hheap]⟩
      | [top] =>
          rw [hheap] at hlen
          exact ⟨c, by rw [if_neg (by simp [hlen])], h, by simp [hheap]⟩
      | top :: y :: tl =>
          rw [hheap] at hlen hfuel
          obtain ⟨x, c', hpeek, hx, hpop, hsim⟩ := h.popTop hheap
          have hshort : (st.popEnd top.high).heap.length ≤ fuel := by
            unfold Sweep.popEnd
            dsimp only
            rw [hheap, List.dropWhile_cons, if_pos (by simp)]
            exact ((List.dropWhile_sublist _).length_le).trans (by simpa using hfuel)
          have hne : c'.h.len ≠ 0 ↔ (st.popEnd top.high).heap ≠ [] := by
            rw [hsim.holds.len_eq, ne_eq, List.length_eq_zero_iff]
          rw [if_pos (by simp [hlen]), hpeek]
          simp only [bind, Except.bind, hpop, hx]
          by_cases hempty : (st.popEnd top.high).heap ≠ []
          · rw [if_pos (hne.mpr hempty), if_pos hempty]
            exact ih (hsim.evaluate num top.high) hshort
          · rw [if_neg (mt hne.mp hempty), if_neg hempty]
            exact ih hsim hshort

omit [CostArith K] in
theorem finish (h : c.Sim st) (hlen : st.heap.length ≤ 1) :
    ∃ c', c.finish = .ok c' ∧ c'.Sim st.finish ∧ st.finish.heap = [] := by
  have hholds := h.holds
  have hlen' := hholds.len_eq
  rw [HeapSweep.finish, Sweep.finish]
  match hheap : st.heap with
  | [] =>
      rw [hheap] at hlen'
      exact ⟨c, by rw [if_neg (by simp [hlen'])], h, hheap⟩
  | [top] =>
      rw [hheap] at hlen' hholds
      obtain ⟨x, hpeek, hx⟩ := hholds.peek
      obtain ⟨h', hpop, hnil⟩ := hholds.pop_last
      rw [if_pos (by simp [hlen']), hpeek]
      simp only [bind, Except.bind, hpop, hx]
      exact ⟨_, rfl, ⟨hnil, h.left, h.s, by rw [h.high], h.best⟩, trivial⟩
  | top :: y :: tl =>
      rw [hheap] at hlen
      simp at hlen

end HeapSweep.Sim

/-- The whole sweep, from an empty heap to an empty heap. -/
theorem splitSweepOn_sim {h : Heap Range1d} (hi : h.Idle) (num w0 w1 : Nat) (u : Range1d)
    (us : List Range1d) :
    ∃ c : HeapSweep K, splitSweepOn h num w0 w1 u us = .ok c ∧ c.Sim (splitSweep num w0 w1 u us) ∧
      (splitSweep num w0 w1 u us : Sweep K).heap = [] := by
  have hinit : HeapSweep.Sim (K := K)
      { h := heapPush h u, left := 0, s := u.low, high := u.high,
        best := ⟨CostArith.ofNat num, u.low, w0, w1⟩ }
      { heap := [u], left := 0, s := u.low, high := u.high,
        best := ⟨CostArith.ofNat num, u.low, w0, w1⟩ } :=
    ⟨hi.holds.push u, rfl, rfl, rfl, rfl⟩
  obtain ⟨c₁, hfold, hsim₁⟩ := hinit.foldlM_next num us
  obtain ⟨c₂, hflush, hsim₂, hlen⟩ := hsim₁.flush num _ (Nat.le_refl _)
  obtain ⟨c₃, hfinish, hsim₃, hnil⟩ := hsim₂.finish hlen
  refine ⟨c₃, ?_, hsim₃, hnil⟩
  rw [splitSweepOn, hfold]
  simp only [bind, Except.bind, hsim₁.holds.len_eq, hflush, hfinish]

/-- One call on an idle heap returns what the queue computes, and leaves the heap idle. -/
theorem splitMatchExpect1dOn_lockstep {h : Heap Range1d} (hi : h.Idle) (rangesCap : Nat) (n : SNode)
    (rs : RuleSet) (d : Dim) :
    Lockstep (fun p q => p.1 = q ∧ p.2.Idle) (splitMatchExpect1dOn (K := K) h rangesCap n rs d)
      (splitMatchExpect1d rangesCap n rs d) := by
  rw [splitMatchExpect1dOn, splitMatchExpect1d]
  by_cases hcap : rangesCap < rs.num
  · rw [if_pos hcap, if_pos hcap]
    exact .error _
  rw [if_neg hcap, if_neg hcap]
  match sweepRanges rs.items d with
  | [] => exact .ok ⟨rfl, hi⟩
  | [_] => exact .ok ⟨rfl, hi⟩
  | u :: v :: us =>
      obtain ⟨c, hrun, hsim, hnil⟩ := splitSweepOn_sim (K := K) hi rs.num n.r0.weight n.r1.weight u
        (v :: us)
      have hholds := hsim.holds
      rw [hnil] at hholds
      have hc : assertThat (c.h.len = 0) = .ok () := by simpa using hholds.len_eq
      have hs : assertThat ((splitSweep rs.num n.r0.weight n.r1.weight u (v :: us) : Sweep K).heap
          = []) = .ok () := by simpa using hnil
      simp only [hrun, bind, Except.bind, hc, hs]
      exact .ok ⟨by rw [hsim.best, hsim.high], hholds.idle⟩

/-! ### The heap over a whole build -/

/-- A call of `split_match_expect_1d`. -/
structure SplitCall where
  n : SNode
  rs : RuleSet
  dim : Dim

/-- Calls made one after the other on one heap. -/
def splitCallsOn (K : Type) [CostArith K] (rangesCap : Nat) :
    Heap Range1d → List SplitCall → Except Fault (List (K × SNode) × Heap Range1d)
  | h, [] => .ok ([], h)
  | h, c :: calls => do
      let p ← splitMatchExpect1dOn h rangesCap c.n c.rs c.dim
      let q ← splitCallsOn K rangesCap p.2 calls
      .ok (p.1 :: q.1, q.2)

theorem splitCallsOn_lockstep (rangesCap : Nat) (calls : List SplitCall) :
    ∀ {h : Heap Range1d}, h.Idle →
      Lockstep (fun p q => p.1 = q ∧ p.2.Idle) (splitCallsOn K rangesCap h calls)
        (calls.mapM (fun c => splitMatchExpect1d (K := K) rangesCap c.n c.rs c.dim)) := by
  induction calls with
  | nil => exact fun hi => .ok ⟨rfl, hi⟩
  | cons c calls ih =>
      intro h hi
      rw [splitCallsOn, List.mapM_cons]
      refine (splitMatchExpect1dOn_lockstep hi rangesCap c.n c.rs c.dim).bind ?_
      rintro p q ⟨rfl, hidle⟩
      refine (ih hidle).bind ?_
      rintro ps qs ⟨rfl, hidle⟩
      exact .ok ⟨rfl, hidle⟩

/-- **The split sweep on the program's heap.** Whatever calls of `split_match_expect_1d` a
build makes on the one heap `split_aux_init` allocates, each returns what the ordered
queue computes, no call reads an empty heap, and every call leaves the heap empty for the
next one. -/
theorem splitCallsOn_init (K : Type) [CostArith K] (rangesCap : Nat) (calls : List SplitCall) :
    Lockstep (fun p q => p.1 = q ∧ p.2.Idle)
      (splitCallsOn K rangesCap (heapInit auxHeapLess) calls)
      (calls.mapM (fun c => splitMatchExpect1d (K := K) rangesCap c.n c.rs c.dim)) :=
  splitCallsOn_lockstep rangesCap calls heapInit_idle

end ChooseCut
