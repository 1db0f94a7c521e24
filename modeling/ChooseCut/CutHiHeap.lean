import ChooseCut.CutHiSound
import ChooseCut.CutSplitHeap
import Mathlib.Data.List.TakeWhile

/-!
# ChooseCut.CutHiHeap

`hi_get_me_1d` on the heap the program uses.

`HiSweep.segment` handles a segment at a time: it takes in every range that starts
before the end of the segment and then drops those that end in it. The loop of the
program does one of the two in each pass: it pushes one range and starts over, or it
closes the segment. Here the passes are written out, over the heap that
`hi_get_rule_hist` hands to every granularity it tries. A run of passes that push and
the pass that closes are one segment (`HiLoop.takeIn`, `HiLoop.Sim.close`), and the
number of ranges and segments bounds the passes.
-/

namespace ChooseCut

variable {K : Type} [CostArith K]

/-! ### The loop -/

/-- The variables of `hi_get_me_1d` that live across its loop. -/
structure HiLoop where
  rest : List Range1d
  h : Heap Range1d
  curr : Nat
  newStart : Bool
  prevNewEnds : Bool
  hist : RuleHist
  nodeR : Nat → Nat × Nat

/-- A segment opens a child or widens the last one. -/
def HiLoop.record (st : HiLoop) (newChild : Bool) (rules : Nat) : HiLoop :=
  let childs := st.hist.childs
  if newChild then
    let start := if childs = 0 then 0 else (st.nodeR (childs - 1)).2 + 1
    { st with
      hist := { childRulecount := Function.update st.hist.childRulecount childs rules
                childs := childs + 1
                rules := st.hist.rules + rules }
      nodeR := Function.update st.nodeR childs (start, start) }
  else
    let last := st.nodeR (childs - 1)
    { st with nodeR := Function.update st.nodeR (childs - 1) (last.1, last.2 + 1) }

/-- A pass that closes the segment: pop what ends in it, count what was open, record. -/
def HiLoop.close (seg : Nat) (st : HiLoop) : Except Fault HiLoop := do
  let q ← popWhile (fun r => r.high < st.curr) st.h
  let rules := (q.1.map Range1d.weight).sum + (q.2.data.toList.map Range1d.weight).sum
  .ok (HiLoop.record
    { st with
      h := q.2
      curr := st.curr + seg
      newStart := false
      prevNewEnds := !q.1.isEmpty }
    (if st.newStart then true else st.prevNewEnds) rules)

/-- One pass of the loop. -/
def HiLoop.pass (seg : Nat) (st : HiLoop) : Except Fault HiLoop :=
  match st.rest with
  | r :: rest =>
      if r.low < st.curr then .ok { st with rest := rest, h := heapPush st.h r, newStart := true }
      else st.close seg
  | [] => st.close seg

/-- The loop, in at most `fuel` tests of its condition. -/
def HiLoop.loop (seg : Nat) : Nat → HiLoop → Except Fault HiLoop
  | 0, _ => .error .fuel
  | fuel + 1, st =>
      if st.rest = [] ∧ st.h.len = 0 then .ok st
      else do
        let st' ← st.pass seg
        HiLoop.loop seg fuel st'

/-- `hi_get_me_1d`, with the heap it is given and leaves. -/
def hiGetMe1dOn (h : Heap Range1d) (u : Range1d) (us : List Range1d) (high seg div : Nat) :
    Except Fault ((RuleHist × (Nat → Nat × Nat)) × Heap Range1d) := do
  let st ← HiLoop.loop seg (us.length + ((high - u.low) / seg + 1) + 1)
    { rest := us, h := heapPush h u, curr := u.low + seg, newStart := false, prevNewEnds := true,
      hist := RuleHist.zero, nodeR := fun _ => (0, 0) }
  let last := st.hist.childs - 1
  .ok ((st.hist, Function.update st.nodeR last ((st.nodeR last).1, div - 1)), st.h)

/-- The `do`-loop of `hi_get_rule_hist`, with the heap. -/
def hiDoubleOn (num : Nat) (u : Range1d) (us : List Range1d) (high : Nat) :
    Nat → Heap Range1d → Nat → Nat → RuleHist × (Nat → Nat × Nat) → K →
      Except Fault ((K × HiEntry) × Heap Range1d)
  | fuel, h, div, shift, q, ratio =>
      let stored : HiEntry := ⟨q.1, shift, u.low, q.2⟩
      let len := high - u.low + 1
      let div' := div * 2
      let shift' := hiShift len div'
      if 64 < div' ∨ len < div' ∨ shift' = shift then .ok ((getMatchExpect q.1, stored), h)
      else
        match fuel with
        | 0 => .ok ((getMatchExpect q.1, stored), h)
        | fuel + 1 => do
            let p ← hiGetMe1dOn h u us high (2 ^ shift') div'
            let ratio' := calcMeRatio num q.1.rules (getMatchExpect p.1.1 : K)
            if CostArith.lt ratio ratio' then hiDoubleOn num u us high fuel p.2 div' shift' p.1 ratio'
            else .ok ((getMatchExpect q.1, stored), p.2)

/-- `hi_get_rule_hist`, with the heap it is given and leaves. -/
def hiGetRuleHistOn (K : Type) [CostArith K] (h : Heap Range1d) (rangesCap : Nat) (e : HiEntry)
    (rs : RuleSet) (d : Dim) : Except Fault ((K × HiEntry) × Heap Range1d) :=
  if rangesCap < rs.num then .error .overrun
  else
    match sweepRanges rs.items d with
    | [] => .error .overread
    | u :: us =>
        let high := us.foldl (fun h r => if h < r.high then r.high else h) u.high
        let len := high - u.low + 1
        if len < 4 then .ok ((CostArith.ofNat rs.num, e), h)
        else do
          let shift := hiShift len 4
          let p ← hiGetMe1dOn h u us high (2 ^ shift) 4
          hiDoubleOn rs.num u us high 4 p.2 4 shift p.1
            (calcMeRatio rs.num e.hist.rules (getMatchExpect p.1.1 : K))

/-! ### Passes and segments -/

/-- Passes that push. -/
theorem HiLoop.takeIn (seg fuel : Nat) (l : List Range1d) : ∀ {c : HiLoop} {rest : List Range1d},
    c.rest = l ++ rest → (∀ x ∈ l, x.low < c.curr) →
    c.loop seg (l.length + fuel) = HiLoop.loop seg fuel
      { c with rest := rest, h := l.foldl heapPush c.h, newStart := c.newStart || !l.isEmpty } := by
  induction l with
  | nil =>
      intro c rest hrest _
      obtain rfl : c.rest = rest := hrest
      simp
  | cons r l ih =>
      intro c rest hrest hlow
      have hpass : c.pass seg
          = .ok { c with rest := l ++ rest, h := heapPush c.h r, newStart := true } := by
        rw [HiLoop.pass, hrest]
        exact if_pos (hlow r List.mem_cons_self)
      have hgo : ¬ (c.rest = [] ∧ c.h.len = 0) := by
        rw [hrest]
        simp
      rw [List.length_cons, Nat.add_right_comm, HiLoop.loop, if_neg hgo, hpass]
      refine (ih (c := { c with rest := l ++ rest, h := heapPush c.h r, newStart := true }) rfl
        (fun x hx => hlow x (List.mem_cons_of_mem r hx))).trans ?_
      simp

/-- Between two segments the loop and the sweep are in the same state. -/
structure HiLoop.Sim (c : HiLoop) (st : HiSweep) : Prop where
  rest : c.rest = st.rest
  holds : c.h.Holds Range1d.high st.heap
  curr : c.curr = st.curr
  newStart : c.newStart = false
  prevNewEnds : c.prevNewEnds = st.prevNewEnds
  hist : c.hist = st.hist
  nodeR : c.nodeR = st.nodeR

/-- Recording is the same on both. -/
theorem HiLoop.Sim.record {c : HiLoop} {st : HiSweep} (h : c.Sim st) (b : Bool) (rules : Nat) :
    (c.record b rules).Sim (st.record b rules) := by
  obtain ⟨rest, heap, curr, newStart, prevNewEnds, hist, nodeR⟩ := c
  obtain ⟨rfl, hholds, rfl, rfl, rfl, rfl, rfl⟩ := h
  cases b <;> exact ⟨rfl, hholds, rfl, rfl, rfl, rfl, rfl⟩

/-- The pass behind the pushes closes the segment. -/
theorem HiLoop.Sim.close {c : HiLoop} {st : HiSweep} (h : c.Sim st) (seg : Nat) :
    ∃ c', HiLoop.pass seg
        { c with
          rest := st.later
          h := st.started.foldl heapPush c.h
          newStart := c.newStart || !st.started.isEmpty } = .ok c' ∧
      c'.Sim (st.segment seg) := by
  have hfilled := h.holds.pushAll st.started
  obtain ⟨out, h', hpop, hout, hleft⟩ := hfilled.popWhile_of (t := st.curr)
    (p := fun r => decide (r.high < c.curr)) (fun x _ => by rw [h.curr])
  have hempty : out.isEmpty
      = (st.filled.takeWhile (fun r => r.high < st.curr)).isEmpty := by
    rw [Bool.eq_iff_iff, List.isEmpty_iff_length_eq_zero, List.isEmpty_iff_length_eq_zero,
      hout.length_eq]
    rfl
  have hpass : HiLoop.pass seg
        { c with
          rest := st.later
          h := st.started.foldl heapPush c.h
          newStart := c.newStart || !st.started.isEmpty }
      = HiLoop.close seg
        { c with
          rest := st.later
          h := st.started.foldl heapPush c.h
          newStart := c.newStart || !st.started.isEmpty } := by
    unfold HiLoop.pass
    cases hlater : st.later with
    | nil => rfl
    | cons r rest =>
        have hr := List.head?_dropWhile_not (fun r : Range1d => decide (r.low < st.curr)) st.rest
        rw [show st.rest.dropWhile (fun r => decide (r.low < st.curr)) = r :: rest from hlater] at hr
        dsimp only
        rw [if_neg]
        rw [h.curr]
        simpa using hr
  have hsim : HiLoop.Sim
      { c with
        rest := st.later
        h := h'
        curr := c.curr + seg
        newStart := false
        prevNewEnds := !out.isEmpty }
      { st with
        rest := st.later
        heap := st.filled.dropWhile (fun r => r.high < st.curr)
        curr := st.curr + seg
        prevNewEnds := !(st.filled.takeWhile (fun r => r.high < st.curr)).isEmpty } :=
    ⟨rfl, hleft, by rw [h.curr], rfl, by rw [hempty], h.hist, h.nodeR⟩
  have hchild : (if c.newStart || !st.started.isEmpty then true else c.prevNewEnds)
      = (!st.started.isEmpty || st.prevNewEnds) := by
    rw [h.newStart, h.prevNewEnds, Bool.false_or]
    cases !st.started.isEmpty <;> rfl
  rw [hpass, HiLoop.close]
  simp only [hpop, bind, Except.bind]
  rw [hchild, (hout.map Range1d.weight).sum_eq, hleft.sum_eq]
  exact ⟨_, rfl, hsim.record _ _⟩

/-- What a segment takes in comes on top of what was open. -/
theorem HiSweep.length_filled (st : HiSweep) :
    st.filled.length = st.started.length + st.heap.length := by
  have hfold : ∀ (l q : List Range1d), (l.foldl (fun h r => enqueue Range1d.high r h) q).length
      = l.length + q.length := by
    intro l
    induction l with
    | nil => simp
    | cons r l ih =>
        intro q
        rw [List.foldl_cons, ih, (enqueue_perm Range1d.high r q).length_eq, List.length_cons,
          List.length_cons]
        omega
  exact hfold st.started st.heap

/-- **The loop follows the sweep.** If the sweep has taken in and dropped everything after
`n` segments, the loop ends in the same state. -/
theorem HiLoop.Sim.loop (seg : Nat) : ∀ (n fuel : Nat) {c : HiLoop} {st : HiSweep}, c.Sim st →
    (st.run seg n).rest = [] → (st.run seg n).heap = [] → st.rest.length + n < fuel →
    ∃ c', c.loop seg fuel = .ok c' ∧ c'.Sim (st.run seg n) := by
  intro n
  induction n with
  | zero =>
      intro fuel c st h hrest hheap hfuel
      obtain ⟨fuel, rfl⟩ := Nat.exists_eq_add_of_lt hfuel
      rw [HiSweep.run] at hrest hheap ⊢
      refine ⟨c, ?_, h⟩
      rw [HiLoop.loop, if_pos ⟨h.rest.trans hrest, by rw [h.holds.len_eq, hheap]; rfl⟩]
  | succ n ih =>
      intro fuel c st h hrest hheap hfuel
      rw [HiSweep.run] at hrest hheap ⊢
      by_cases hdone : st.rest = [] ∧ st.heap = []
      · obtain ⟨fuel, rfl⟩ := Nat.exists_eq_add_of_lt hfuel
        rw [if_pos hdone]
        refine ⟨c, ?_, h⟩
        rw [HiLoop.loop, if_pos ⟨h.rest.trans hdone.1, by rw [h.holds.len_eq, hdone.2]; rfl⟩]
      · rw [if_neg hdone] at hrest hheap ⊢
        have hsplit : st.rest = st.started ++ st.later := (List.takeWhile_append_dropWhile).symm
        have hlow : ∀ x ∈ st.started, x.low < c.curr := by
          intro x hx
          rw [h.curr]
          simpa using List.mem_takeWhile_imp hx
        have hlater : (st.segment seg).rest = st.later := (HiSweep.record_frame _ _ _).1
        have hlength : st.rest.length = st.started.length + st.later.length := by
          rw [hsplit, List.length_append]
        obtain ⟨fuel, rfl⟩ : ∃ f, fuel = st.started.length + (f + 1) :=
          ⟨fuel - st.started.length - 1, by omega⟩
        obtain ⟨c', hpass, hsim⟩ := h.close seg
        -- something is open or still to come, so the loop goes on behind the pushes
        have hgo : ¬ (st.later = [] ∧ (st.started.foldl heapPush c.h).len = 0) := by
          rintro ⟨hl, hf⟩
          have hlen : (st.started.foldl heapPush c.h).len = st.filled.length :=
            (h.holds.pushAll st.started).len_eq
          rw [hlen, st.length_filled] at hf
          have hs : st.started = [] := List.length_eq_zero_iff.mp (by omega)
          exact hdone ⟨by rw [hsplit, hs, hl]; rfl, List.length_eq_zero_iff.mp (by omega)⟩
        rw [HiLoop.takeIn seg (fuel + 1) st.started (h.rest.trans hsplit) hlow, HiLoop.loop,
          if_neg hgo, hpass]
        exact ih fuel hsim hrest hheap (by rw [hlater]; omega)

/-! ### The calls -/

section Calls

variable {rs : List Rule} {d : Dim} {u : Range1d} {us : List Range1d}

/-- Behind the last segment of the hull nothing is open and nothing is to come. -/
theorem hiSweep_done (hne : rs ≠ []) (hfit : ∀ r ∈ rs, r.Fits) (hsw : sweepRanges rs d = u :: us)
    (seg : Nat) (hseg : 0 < seg) :
    (HiSweep.run seg ((hullHi rs d - u.low) / seg + 1)
        { rest := us, heap := [u], curr := u.low + seg, prevNewEnds := true,
          hist := RuleHist.zero, nodeR := fun _ => (0, 0) }).rest = [] ∧
      (HiSweep.run seg ((hullHi rs d - u.low) / seg + 1)
        { rest := us, heap := [u], curr := u.low + seg, prevNewEnds := true,
          hist := RuleHist.zero, nodeR := fun _ => (0, 0) }).heap = [] := by
  have hmem : ∀ x ∈ u :: us, x ∈ sweepRanges rs d := fun x hx => by rw [hsw]; exact hx
  have hle : ∀ x ∈ u :: us, x.low ≤ x.high := fun x hx => sweepRange_le hne hfit (hmem x hx)
  have hmax : ∀ x ∈ u :: us, x.high ≤ hullHi rs d := fun x hx => sweepRange_le_hullHi hne (hmem x hx)
  have hsorted := (sweepRanges_grouped (d := d) hne).sorted
  rw [hsw] at hsorted
  have htop : ∃ x ∈ u :: us, x.high = hullHi rs d := by
    obtain ⟨r, hr, hhi⟩ := exists_hullHi (d := d) hne
    obtain ⟨x, hx, -, hxh⟩ := exists_sweepRange (d := d) hr
    exact ⟨x, hsw ▸ hx, hxh.trans hhi⟩
  have hu := hle u List.mem_cons_self
  have hu' := hmax u List.mem_cons_self
  have hinv := HiSweep.run_spec hseg hle hsorted htop (by omega) ((hullHi rs d - u.low) / seg + 1) 0
    (Nat.zero_add _) (HiInv.init seg hle hsorted)
  have hend : hullHi rs d < edge u.low seg ((hullHi rs d - u.low) / seg + 1) := by
    have := Nat.lt_mul_div_succ (hullHi rs d - u.low) hseg
    unfold edge
    rw [Nat.mul_comm]
    omega
  obtain ⟨seen, hus, hopen, -⟩ := hinv.seen
  constructor
  · apply List.eq_nil_iff_forall_not_mem.mpr
    intro x hx
    have hxm : x ∈ u :: us := by rw [hus]; exact List.mem_append_right _ hx
    have := hinv.rest_ge x hx
    have := hle x hxm
    have := hmax x hxm
    omega
  · apply List.eq_nil_iff_forall_not_mem.mpr
    intro x hx
    obtain ⟨hxs, hge⟩ := hopen.mem_iff.mp hx
    have := hmax x (by rw [hus]; exact List.mem_append_left _ hxs)
    omega

/-- One granularity on an idle heap. -/
theorem hiGetMe1dOn_spec {h : Heap Range1d} (hi : h.Idle) (hne : rs ≠ []) (hfit : ∀ r ∈ rs, r.Fits)
    (hsw : sweepRanges rs d = u :: us) (seg div : Nat) (hseg : 0 < seg) :
    ∃ h', hiGetMe1dOn h u us (hullHi rs d) seg div
        = .ok (hiGetMe1d u us (hullHi rs d) seg div, h') ∧ h'.Idle := by
  obtain ⟨hrest, hheap⟩ := hiSweep_done hne hfit hsw seg hseg
  have hinit : HiLoop.Sim
      { rest := us, h := heapPush h u, curr := u.low + seg, newStart := false, prevNewEnds := true,
        hist := RuleHist.zero, nodeR := fun _ => (0, 0) }
      { rest := us, heap := [u], curr := u.low + seg, prevNewEnds := true, hist := RuleHist.zero,
        nodeR := fun _ => (0, 0) } :=
    ⟨rfl, hi.holds.push u, rfl, rfl, rfl, rfl, rfl⟩
  obtain ⟨c, hloop, hsim⟩ := hinit.loop seg _ (us.length + ((hullHi rs d - u.low) / seg + 1) + 1)
    hrest hheap (Nat.lt_succ_self _)
  have hholds := hsim.holds
  rw [hheap] at hholds
  refine ⟨c.h, ?_, hholds.idle⟩
  rw [hiGetMe1dOn, hloop, hiGetMe1d]
  simp only [bind, Except.bind, hsim.hist, hsim.nodeR]

/-- The loop over the granularities. -/
theorem hiDoubleOn_spec (hne : rs ≠ []) (hfit : ∀ r ∈ rs, r.Fits)
    (hsw : sweepRanges rs d = u :: us) (num : Nat) : ∀ (fuel : Nat) {h : Heap Range1d}, h.Idle →
    ∀ (div shift : Nat) (q : RuleHist × (Nat → Nat × Nat)) (ratio : K),
      ∃ h', hiDoubleOn num u us (hullHi rs d) fuel h div shift q ratio
          = .ok (hiDouble num u us (hullHi rs d) fuel div shift q ratio, h') ∧ h'.Idle := by
  intro fuel
  induction fuel with
  | zero =>
      intro h hi div shift q ratio
      refine ⟨h, ?_, hi⟩
      rw [hiDoubleOn, hiDouble]
      split <;> rfl
  | succ fuel ih =>
      intro h hi div shift q ratio
      rw [hiDoubleOn, hiDouble]
      dsimp only
      split
      · exact ⟨h, rfl, hi⟩
      · obtain ⟨h₁, hrun, hi₁⟩ := hiGetMe1dOn_spec hi hne hfit hsw
          (2 ^ hiShift (hullHi rs d - u.low + 1) (div * 2)) (div * 2) (Nat.two_pow_pos _)
        rw [hrun]
        simp only [bind, Except.bind]
        split
        · exact ih hi₁ _ _ _ _
        · exact ⟨h₁, rfl, hi₁⟩

end Calls

/-- One call on an idle heap returns what the queue computes, and leaves the heap idle. -/
theorem hiGetRuleHistOn_lockstep {h : Heap Range1d} (hi : h.Idle) (rangesCap : Nat) (e : HiEntry)
    {rs : RuleSet} (hfit : ∀ r ∈ rs.items, r.Fits) (hne : rs.items ≠ []) (d : Dim) :
    Lockstep (fun p q => p.1 = q ∧ p.2.Idle) (hiGetRuleHistOn K h rangesCap e rs d)
      (hiGetRuleHist K rangesCap e rs d) := by
  rw [hiGetRuleHistOn, hiGetRuleHist]
  by_cases hcap : rangesCap < rs.num
  · rw [if_pos hcap, if_pos hcap]
    exact .error _
  rw [if_neg hcap, if_neg hcap]
  cases hsw : sweepRanges rs.items d with
  | nil => exact .error _
  | cons u us =>
      dsimp only
      rw [bound_high hne hsw]
      by_cases hlen : hullHi rs.items d - u.low + 1 < 4
      · rw [if_pos hlen, if_pos hlen]
        exact .ok ⟨rfl, hi⟩
      · rw [if_neg hlen, if_neg hlen]
        obtain ⟨h₁, hrun, hi₁⟩ := hiGetMe1dOn_spec hi hne hfit hsw
          (2 ^ hiShift (hullHi rs.items d - u.low + 1) 4) 4 (Nat.two_pow_pos _)
        rw [hrun]
        simp only [bind, Except.bind]
        obtain ⟨h₂, hdouble, hi₂⟩ := hiDoubleOn_spec (K := K) hne hfit hsw rs.num 4 hi₁ 4
          (hiShift (hullHi rs.items d - u.low + 1) 4) _ _
        rw [hdouble]
        exact .ok ⟨rfl, hi₂⟩

/-! ### The heap over a whole build -/

/-- A call of `hi_get_rule_hist`. -/
structure HiCall where
  entry : HiEntry
  rs : RuleSet
  dim : Dim

/-- Calls made one after the other on one heap. -/
def hiCallsOn (K : Type) [CostArith K] (rangesCap : Nat) :
    Heap Range1d → List HiCall → Except Fault (List (K × HiEntry) × Heap Range1d)
  | h, [] => .ok ([], h)
  | h, c :: calls => do
      let p ← hiGetRuleHistOn K h rangesCap c.entry c.rs c.dim
      let q ← hiCallsOn K rangesCap p.2 calls
      .ok (p.1 :: q.1, q.2)

theorem hiCallsOn_lockstep (rangesCap : Nat) (calls : List HiCall) :
    (∀ c ∈ calls, c.rs.items ≠ [] ∧ ∀ r ∈ c.rs.items, r.Fits) → ∀ {h : Heap Range1d}, h.Idle →
      Lockstep (fun p q => p.1 = q ∧ p.2.Idle) (hiCallsOn K rangesCap h calls)
        (calls.mapM (fun c => hiGetRuleHist K rangesCap c.entry c.rs c.dim)) := by
  induction calls with
  | nil => exact fun _ _ hi => .ok ⟨rfl, hi⟩
  | cons c calls ih =>
      intro hrs h hi
      obtain ⟨hne, hfit⟩ := hrs c List.mem_cons_self
      rw [hiCallsOn, List.mapM_cons]
      refine (hiGetRuleHistOn_lockstep hi rangesCap c.entry hfit hne c.dim).bind ?_
      rintro p q ⟨rfl, hidle⟩
      refine (ih (fun c hc => hrs c (List.mem_cons_of_mem _ hc)) hidle).bind ?_
      rintro ps qs ⟨rfl, hidle⟩
      exact .ok ⟨rfl, hidle⟩

/-- **The hi sweep on the program's heap.** Whatever calls of `hi_get_rule_hist` a build
makes on the one heap `hi_init` allocates, each returns what the ordered queue
computes segment by segment, its loops end, no call reads an empty heap, and every call
leaves the heap empty for the next one. -/
theorem hiCallsOn_init (K : Type) [CostArith K] (rangesCap : Nat) {calls : List HiCall}
    (hrs : ∀ c ∈ calls, c.rs.items ≠ [] ∧ ∀ r ∈ c.rs.items, r.Fits) :
    Lockstep (fun p q => p.1 = q ∧ p.2.Idle) (hiCallsOn K rangesCap (heapInit auxHeapLess) calls)
      (calls.mapM (fun c => hiGetRuleHist K rangesCap c.entry c.rs c.dim)) :=
  hiCallsOn_lockstep rangesCap calls hrs heapInit_idle

/-- Two rules with a common hull, swept twice on one heap. -/
def hiCallPair : HiCall :=
  ⟨⟨RuleHist.zero, 0, 0, fun _ => (0, 0)⟩,
    Buffer.ofList [⟨0, fun _ => ⟨0, 7⟩⟩, ⟨1, fun _ => ⟨2, 3⟩⟩], 0⟩

/-- Both calls return, and the heap is empty afterwards. -/
theorem hiCallsOn_init_pair :
    ∃ p, hiCallsOn ℚ 2 (heapInit auxHeapLess) [hiCallPair, hiCallPair] = .ok p ∧ p.2.Idle := by
  have hrs : ∀ c ∈ [hiCallPair, hiCallPair], c.rs.items ≠ [] ∧ ∀ r ∈ c.rs.items, r.Fits := by
    decide
  have hstep := hiCallsOn_init ℚ 2 hrs
  obtain ⟨hne, hfit⟩ := hrs hiCallPair List.mem_cons_self
  obtain ⟨q, hq⟩ : ∃ q, hiGetRuleHist ℚ 2 hiCallPair.entry hiCallPair.rs hiCallPair.dim = .ok q :=
    hiGetRuleHist_total hiCallPair.entry (by decide) hne hfit
  rw [List.mapM_cons, List.mapM_cons, hq] at hstep
  cases hrun : hiCallsOn ℚ 2 (heapInit auxHeapLess) [hiCallPair, hiCallPair] with
  | error e =>
      rw [hrun] at hstep
      exact hstep.elim
  | ok p =>
      rw [hrun] at hstep
      exact ⟨p, rfl, hstep.2⟩

end ChooseCut
