import ChooseCut.CutSplit

/-!
# ChooseCut.CutSplitSweep

What the sweep of `split_match_expect_1d` computes.

The sweep weighs a split only at positions where something changes: behind the
last value before a range starts, and behind the value where one ends. At each of
them the two numbers it weighs are the number of ranges that start at or before
the position and the number that end behind it (`startedBy`, `endsAfter`), which
is what the cut itself will count. The run is described by the list of positions
weighed, so that the stored result is a fold of `find_min_me_do` over them.
-/

namespace ChooseCut

variable {K : Type} [CostArith K]

/-- The weight of the ranges that reach to the left of a split behind `p`. -/
def startedBy (all : List Range1d) (p : Nat) : Nat := weightWhere (fun lo _ => lo ≤ p) all

/-- The weight of the ranges that reach to the right. -/
def endsAfter (all : List Range1d) (p : Nat) : Nat := weightWhere (fun _ hi => p < hi) all

/-- A split behind `p` leaves ranges on both sides, and some range ends or starts
exactly there. -/
structure Separates (all : List Range1d) (p : Nat) : Prop where
  left : ∃ x ∈ all, x.low ≤ p
  right : ∃ x ∈ all, p < x.high
  border : ∃ x ∈ all, x.high = p ∨ x.low = p + 1

/-- Weigh the split behind `p`. -/
def Best.visit (all : List Range1d) (b : Best K) (p : Nat) : Best K :=
  findMinMeDo b (splitMatchExpectHeuristic (startedBy all p) (endsAfter all p)) p
    (startedBy all p) (endsAfter all p)

/-- The open ranges, the ended weight and the greatest end seen, when the sweep has
taken in `seen` and dropped what ended before `τ`. -/
structure SweepInv (all seen : List Range1d) (τ : Nat) (st : Sweep K) : Prop where
  openAt : Open Range1d.high seen τ st.heap
  left : st.left = weightWhere (fun _ hi => hi < τ) seen
  low_le : ∀ x ∈ seen, x.low ≤ τ
  high_mem : ∃ x ∈ all, x.high = st.high
  le_high : ∀ x ∈ seen, x.high < τ → x.high ≤ st.high

/-- The positions weighed so far: each separates the ranges, and none at which a
seen range starts or has ended is missing. -/
structure Visited (all seen : List Range1d) (low0 τ : Nat) (b0 b : Best K) (ps : List Nat) :
    Prop where
  best : b = ps.foldl (Best.visit all) b0
  separates : ∀ p ∈ ps, Separates all p
  ends : ∀ x ∈ seen, x.high < τ → x.high ∈ ps
  starts : ∀ x ∈ seen, x.low ≠ low0 → x.low - 1 ∈ ps

section Step

variable {all seen rest : List Range1d} {low0 τ num : Nat} {b0 : Best K} {st : Sweep K}
  {ps : List Nat}

/-- The two weights the sweep computes at a position are the numbers of ranges on
the two sides. -/
theorem evaluate_best (hall : all = seen ++ rest) (hfit : ∀ x ∈ all, x.low ≤ x.high)
    (hnum : num = (all.map Range1d.weight).sum) {p : Nat} (h : SweepInv all seen (p + 1) st)
    (hseen : ∀ x ∈ seen, x.low ≤ p) (hrest : ∀ x ∈ rest, p < x.low) :
    (st.evaluate num p).best = st.best.visit all p := by
  have hleft : st.left + (st.heap.map Range1d.weight).sum = startedBy all p := by
    have h1 := weightOf_split (w := Range1d.weight) (p := fun _ => True)
      (fun x : Range1d => x.high < p + 1) seen
    have h2 := h.openAt.weight Range1d.weight
    have h3 : startedBy all p = weightOf Range1d.weight (fun _ => True) seen := by
      unfold startedBy weightWhere
      rw [hall, weightOf_append,
        weightOf_congr (q := fun _ => True) (fun x hx => iff_true_intro (hseen x hx)),
        weightOf_eq_zero (l := rest) (fun x hx => Nat.not_le.mpr (hrest x hx)), Nat.add_zero]
    rw [h3, h1, h2, h.left]
    unfold weightWhere
    congr 1
    · exact weightOf_congr (fun x _ => ⟨fun hx => ⟨trivial, hx⟩, fun hx => hx.2⟩)
    · exact weightOf_congr (fun x _ => by simp only [true_and]; omega)
  have hright : num - st.left = endsAfter all p := by
    have h1 := weightOf_split (w := Range1d.weight) (p := fun _ => True)
      (fun x : Range1d => x.high < p + 1) all
    rw [weightOf_true, ← hnum] at h1
    have h2 : weightOf Range1d.weight (fun x : Range1d => True ∧ x.high < p + 1) all = st.left := by
      rw [h.left, hall, weightOf_append]
      rw [weightOf_eq_zero (l := rest) (fun x hx hlt => by
        have := hrest x hx
        have := hfit x (by rw [hall]; exact List.mem_append_right _ hx)
        omega), Nat.add_zero]
      exact weightOf_congr (fun x _ => ⟨fun hx => hx.2, fun hx => ⟨trivial, hx⟩⟩)
    have h3 : weightOf Range1d.weight (fun x : Range1d => True ∧ ¬ x.high < p + 1) all
        = endsAfter all p :=
      weightOf_congr (fun x _ => by simp only [true_and]; omega)
    omega
  unfold Sweep.evaluate Best.visit
  dsimp only
  rw [hleft, hright]

/-- Weighing changes nothing but the best split. -/
theorem SweepInv.evaluate (h : SweepInv all seen τ st) (num p : Nat) :
    SweepInv all seen τ (st.evaluate num p) :=
  ⟨h.openAt, h.left, h.low_le, h.high_mem, h.le_high⟩

omit [CostArith K] in
/-- The top of the heap ends first. -/
theorem SweepInv.top_le (h : SweepInv all seen τ st) {top x : Range1d} {tl : List Range1d}
    (hheap : st.heap = top :: tl) (hx : x ∈ st.heap) : top.high ≤ x.high := by
  have hord := h.openAt.ordered
  rw [hheap] at hord hx
  exact hord.head_le hx

omit [CostArith K] in
/-- The top leaves the heap. -/
theorem length_popEnd_le {top : Range1d} {tl : List Range1d} (hheap : st.heap = top :: tl) :
    (st.popEnd top.high).heap.length ≤ tl.length := by
  unfold Sweep.popEnd
  dsimp only
  rw [hheap, List.dropWhile_cons, if_pos (by simp)]
  exact (List.dropWhile_sublist _).length_le

omit [CostArith K] in
/-- The ranges at the earliest end leave the heap. -/
theorem SweepInv.popEnd (h : SweepInv all seen τ st) (hsub : ∀ x ∈ seen, x ∈ all)
    {top : Range1d} {tl : List Range1d} (hheap : st.heap = top :: tl) :
    SweepInv all seen (top.high + 1) (st.popEnd top.high) := by
  have hτ : τ ≤ top.high := (h.openAt.mem_iff.mp (by rw [hheap]; simp)).2
  have htop : top ∈ seen := (h.openAt.mem_iff.mp (by rw [hheap]; simp)).1
  have hmin : ∀ x ∈ st.heap, top.high ≤ x.high := fun x hx => h.top_le hheap hx
  obtain ⟨htake, hdrop⟩ := takeWhile_eq_lt Range1d.high hmin
  refine ⟨?_, ?_, ?_, ?_, ?_⟩
  · unfold Sweep.popEnd
    dsimp only
    rw [hdrop]
    exact h.openAt.advance (by omega)
  · unfold Sweep.popEnd
    dsimp only
    rw [htake, h.openAt.weight_ended, h.left]
    have hsplit := weightOf_split (w := Range1d.weight)
      (p := fun x : Range1d => x.high < top.high + 1) (fun x => x.high < τ) seen
    unfold weightWhere
    rw [hsplit]
    congr 1
    · exact weightOf_congr (fun x _ => by omega)
    · exact weightOf_congr (fun x _ => by omega)
  · exact fun x hx => by have := h.low_le x hx; omega
  · unfold Sweep.popEnd
    dsimp only
    split
    · exact ⟨top, hsub top htop, rfl⟩
    · exact h.high_mem
  · intro x hx hlt
    unfold Sweep.popEnd
    dsimp only
    by_cases hx' : x.high < τ
    · have := h.le_high x hx hx'
      split <;> omega
    · split <;> omega

omit [CostArith K] in
/-- Nothing ends before `t`, so the time may be set to `t`. -/
theorem SweepInv.later (h : SweepInv all seen τ st) {t : Nat} (ht : τ ≤ t)
    (hheap : ∀ x ∈ st.heap, t ≤ x.high) : SweepInv all seen t st := by
  have hnone : ∀ x ∈ seen, (x.high < τ ↔ x.high < t) := by
    intro x hx
    refine ⟨fun hlt => by omega, fun hlt => ?_⟩
    by_contra hge
    have := hheap x (h.openAt.mem_iff.mpr ⟨hx, by omega⟩)
    omega
  refine ⟨⟨h.openAt.ordered, ?_⟩, ?_, ?_, h.high_mem, ?_⟩
  · refine h.openAt.perm.trans (List.Perm.of_eq (List.filter_congr ?_))
    intro x hx
    have := hnone x hx
    exact decide_eq_decide.mpr (by omega)
  · rw [h.left]
    exact weightOf_congr hnone
  · exact fun x hx => by have := h.low_le x hx; omega
  · exact fun x hx hlt => h.le_high x hx ((hnone x hx).mpr hlt)

theorem Visited.later (h : Visited all seen low0 τ b0 st.best ps) (hinv : SweepInv all seen τ st)
    {t : Nat} (hheap : ∀ x ∈ st.heap, t ≤ x.high) :
    Visited all seen low0 t b0 st.best ps := by
  refine ⟨h.best, h.separates, fun x hx hlt => h.ends x hx ?_, h.starts⟩
  by_contra hge
  have := hheap x (hinv.openAt.mem_iff.mpr ⟨hx, by omega⟩)
  omega

/-- One more position is weighed, and with it the ends before `t` are all weighed. -/
theorem Visited.visit {b : Best K} {p t : Nat} (h : Visited all seen low0 τ b0 b ps)
    (hp : Separates all p) (hends : ∀ x ∈ seen, x.high < t → x.high ∈ ps ++ [p]) :
    Visited all seen low0 t b0 (b.visit all p) (ps ++ [p]) where
  best := by
    rw [List.foldl_append, ← h.best]
    rfl
  separates := by
    intro q hq
    rcases List.mem_append.mp hq with hq | hq
    · exact h.separates q hq
    · rw [List.mem_singleton.mp hq]
      exact hp
  ends := hends
  starts := fun x hx hne => List.mem_append_left _ (h.starts x hx hne)

/-- A split is weighed behind the end that has just been dropped. -/
theorem Visited.popEnd_evaluate (hv : Visited all seen low0 τ b0 st.best ps)
    (h : SweepInv all seen τ st) (hall : all = seen ++ rest) (hfit : ∀ x ∈ all, x.low ≤ x.high)
    (hnum : num = (all.map Range1d.weight).sum)
    {top : Range1d} {tl : List Range1d} (hheap : st.heap = top :: tl)
    (hrest : ∀ x ∈ rest, top.high < x.low)
    (hmore : rest ≠ [] ∨ (st.popEnd top.high).heap ≠ []) :
    Visited all seen low0 (top.high + 1) b0
      ((st.popEnd top.high).evaluate num top.high).best (ps ++ [top.high]) := by
  have hsub : ∀ x ∈ seen, x ∈ all := fun x hx => hall ▸ List.mem_append_left _ hx
  obtain ⟨htop, hτ⟩ := h.openAt.mem_iff.mp (show top ∈ st.heap by rw [hheap]; simp)
  have hpop := h.popEnd hsub hheap
  have hbest := evaluate_best hall hfit hnum hpop
    (fun x hx => by have := h.low_le x hx; omega) hrest
  rw [hbest]
  refine hv.visit ?_ ?_
  · refine ⟨⟨top, hsub top htop, hfit top (hsub top htop)⟩, ?_, ⟨top, hsub top htop, Or.inl rfl⟩⟩
    rcases hmore with hne | hne
    · obtain ⟨x, hx⟩ := List.exists_mem_of_ne_nil rest hne
      have hxa : x ∈ all := hall ▸ List.mem_append_right _ hx
      have := hrest x hx
      have := hfit x hxa
      exact ⟨x, hxa, by omega⟩
    · obtain ⟨x, hx⟩ := List.exists_mem_of_ne_nil _ hne
      obtain ⟨hxs, hlt⟩ := hpop.openAt.mem_iff.mp hx
      exact ⟨x, hsub x hxs, hlt⟩
  · intro x hx hlt
    rw [List.mem_append, List.mem_singleton]
    by_cases hx' : x.high < τ
    · exact Or.inl (hv.ends x hx hx')
    · -- an open range that has ended by now ends exactly here
      right
      have := h.top_le hheap (h.openAt.mem_iff.mpr ⟨hx, by omega⟩)
      exact (by omega : x.high = top.high)

/-- The inner loop handles every end before `low`. -/
theorem Sweep.drain_spec {low : Nat} (hall : all = seen ++ rest)
    (hfit : ∀ x ∈ all, x.low ≤ x.high) (hnum : num = (all.map Range1d.weight).sum)
    (hne : rest ≠ []) (hrest : ∀ x ∈ rest, low ≤ x.low) :
    ∀ (fuel : Nat) {τ : Nat} {st : Sweep K} {ps : List Nat}, st.heap.length ≤ fuel → τ ≤ low →
      SweepInv all seen τ st → Visited all seen low0 τ b0 st.best ps →
      SweepInv all seen low (st.drain num low fuel) ∧ (st.drain num low fuel).s = st.s ∧
        ∃ ps', Visited all seen low0 low b0 (st.drain num low fuel).best ps' := by
  intro fuel
  induction fuel with
  | zero =>
      intro τ st ps hlen hτ h hv
      have hnil : st.heap = [] := List.length_eq_zero_iff.mp (by omega)
      have hheap : ∀ x ∈ st.heap, low ≤ x.high := by rw [hnil]; simp
      exact ⟨h.later hτ hheap, rfl, ps, hv.later h hheap⟩
  | succ fuel ih =>
      intro τ st ps hlen hτ h hv
      rw [Sweep.drain]
      cases hheap : st.heap with
      | nil =>
          have hge : ∀ x ∈ st.heap, low ≤ x.high := by rw [hheap]; simp
          exact ⟨h.later hτ hge, rfl, ps, hv.later h hge⟩
      | cons top tl =>
          dsimp only
          split
          · next hlt =>
            have hsub : ∀ x ∈ seen, x ∈ all := fun x hx => hall ▸ List.mem_append_left _ hx
            have hpop := (h.popEnd hsub hheap).evaluate num top.high
            have hvis := hv.popEnd_evaluate h hall hfit hnum hheap
              (fun x hx => by have := hrest x hx; omega) (Or.inl hne)
            refine ih ?_ (by omega) hpop hvis
            rw [hheap, List.length_cons] at hlen
            exact Nat.le_trans (length_popEnd_le hheap) (by omega)
          · next hge =>
            have hall' : ∀ x ∈ st.heap, low ≤ x.high := by
              intro x hx
              have := h.top_le hheap hx
              omega
            exact ⟨h.later hτ hall', rfl, ps, hv.later h hall'⟩

omit [CostArith K] in
/-- A range that starts now enters the heap. -/
theorem SweepInv.push {r : Range1d} (h : SweepInv all seen r.low st) (hr : r.low ≤ r.high)
    (s : Nat) : SweepInv all (seen ++ [r]) r.low
      { st with s := s, heap := enqueue Range1d.high r st.heap } := by
  refine ⟨h.openAt.push hr, ?_, ?_, h.high_mem, ?_⟩
  · unfold weightWhere
    rw [weightOf_append, weightOf_eq_zero (l := [r]), Nat.add_zero]
    · exact h.left
    · intro x hx
      obtain rfl := List.mem_singleton.mp hx
      omega
  · intro x hx
    rcases List.mem_append.mp hx with hx | hx
    · exact h.low_le x hx
    · obtain rfl := List.mem_singleton.mp hx
      exact Nat.le_refl _
  · intro x hx hlt
    rcases List.mem_append.mp hx with hx | hx
    · exact h.le_high x hx hlt
    · obtain rfl := List.mem_singleton.mp hx
      omega

/-- Positions that cover the start of `r` cover everything seen. -/
theorem Visited.push {r : Range1d} {b : Best K} (h : Visited all seen low0 r.low b0 b ps)
    (hr : r.low ≤ r.high) (hstart : r.low ≠ low0 → r.low - 1 ∈ ps) :
    Visited all (seen ++ [r]) low0 r.low b0 b ps := by
  refine ⟨h.best, h.separates, ?_, ?_⟩
  · intro x hx hlt
    rcases List.mem_append.mp hx with hx | hx
    · exact h.ends x hx hlt
    · obtain rfl := List.mem_singleton.mp hx
      omega
  · intro x hx hne
    rcases List.mem_append.mp hx with hx | hx
    · exact h.starts x hx hne
    · obtain rfl := List.mem_singleton.mp hx
      exact hstart hne

/-- One round of the main loop takes in the next range. -/
theorem Sweep.next_spec {r : Range1d} {more : List Range1d} (hall : all = seen ++ r :: more)
    (hfit : ∀ x ∈ all, x.low ≤ x.high) (hnum : num = (all.map Range1d.weight).sum)
    (hsorted : all.Pairwise (fun a b => rangeCompare a b = .lt))
    (h : SweepInv all seen st.s st) (hs : ∃ x ∈ seen, x.low = st.s)
    (hv : Visited all seen low0 st.s b0 st.best ps) :
    SweepInv all (seen ++ [r]) (st.next num r).s (st.next num r) ∧
      (∃ x ∈ seen ++ [r], x.low = (st.next num r).s) ∧
      ∃ ps', Visited all (seen ++ [r]) low0 (st.next num r).s b0 (st.next num r).best ps' := by
  have hra : r ∈ all := by rw [hall]; simp
  have hrfit := hfit r hra
  have hsr : st.s ≤ r.low := by
    obtain ⟨x, hx, hxs⟩ := hs
    rw [hall, List.pairwise_append] at hsorted
    have := hsorted.2.2 x hx r List.mem_cons_self
    rw [rangeCompare_lt] at this
    omega
  have hmore : ∀ x ∈ r :: more, r.low ≤ x.low := by
    intro x hx
    rcases List.mem_cons.mp hx with rfl | hx
    · exact Nat.le_refl _
    · rw [hall, List.pairwise_append] at hsorted
      have := List.rel_of_pairwise_cons hsorted.2.1 hx
      rw [rangeCompare_lt] at this
      omega
  obtain ⟨hinv, hseq, ps1, hvis⟩ := Sweep.drain_spec hall hfit hnum (List.cons_ne_nil r more)
    hmore st.heap.length (Nat.le_refl _) hsr h hv
  unfold Sweep.next
  dsimp only
  by_cases heq : r.low = (st.drain num r.low st.heap.length).s
  · rw [if_pos heq]
    dsimp only
    rw [← heq]
    refine ⟨hinv.push hrfit _, ⟨r, by simp, rfl⟩, ps1, hvis.push hrfit ?_⟩
    intro hne
    obtain ⟨x, hx, hxs⟩ := hs
    have hxr : x.low = r.low := by rw [hxs, heq, hseq]
    rw [← hxr] at hne ⊢
    exact hvis.starts x hx hne
  · rw [if_neg heq]
    dsimp only
    have hlt : st.s < r.low := by rw [hseq] at heq; omega
    have hpred : r.low - 1 + 1 = r.low := by omega
    have hlow : ∀ x ∈ seen, x.low ≤ r.low - 1 := fun x hx => by
      have := h.low_le x hx; omega
    have hbest : ((st.drain num r.low st.heap.length).evaluate num (r.low - 1)).best = _ :=
      evaluate_best hall hfit hnum (by rw [hpred]; exact hinv) hlow
        (fun x hx => by have := hmore x hx; omega)
    have hsep : Separates all (r.low - 1) := by
      obtain ⟨x, hx, hxs⟩ := hs
      exact ⟨⟨x, hall ▸ List.mem_append_left _ hx, by omega⟩, ⟨r, hra, by omega⟩,
        ⟨r, hra, Or.inr (by omega)⟩⟩
    refine ⟨(hinv.evaluate num (r.low - 1)).push hrfit _, ⟨r, by simp, rfl⟩, ps1 ++ [r.low - 1], ?_⟩
    rw [hbest]
    refine (hvis.visit hsep ?_).push hrfit ?_
    · exact fun x hx hlt => List.mem_append_left _ (hvis.ends x hx hlt)
    · exact fun _ => List.mem_append_right _ (List.mem_singleton.mpr rfl)

end Step

/-! ### The whole sweep -/

/-- What the sweep leaves: an empty heap, the greatest end, and the fold over all
positions worth weighing. -/
structure Swept (all : List Range1d) (low0 : Nat) (b0 : Best K) (st : Sweep K) (ps : List Nat) :
    Prop where
  empty : st.heap = []
  high_mem : ∃ x ∈ all, x.high = st.high
  le_high : ∀ x ∈ all, x.high ≤ st.high
  best : st.best = ps.foldl (Best.visit all) b0
  separates : ∀ p ∈ ps, Separates all p
  ends : ∀ x ∈ all, x.high < st.high → x.high ∈ ps
  starts : ∀ x ∈ all, x.low ≠ low0 → x.low - 1 ∈ ps

section Run

variable {all : List Range1d} {low0 num : Nat} {b0 : Best K}

/-- When at most one end is left open, the last step finds the greatest end. -/
theorem Sweep.finish_spec {τ : Nat} {st : Sweep K} {ps : List Nat}
    (h : SweepInv all all τ st) (hv : Visited all all low0 τ b0 st.best ps)
    (hlen : st.heap.length ≤ 1) : Swept all low0 b0 st.finish ps := by
  have hopen : ∀ x ∈ all, x.high < τ ∨ x ∈ st.heap := by
    intro x hx
    by_cases hlt : x.high < τ
    · exact Or.inl hlt
    · exact Or.inr (h.openAt.mem_iff.mpr ⟨hx, by omega⟩)
  unfold Sweep.finish
  cases hheap : st.heap with
  | nil =>
      have hall : ∀ x ∈ all, x.high < τ := by
        intro x hx
        rcases hopen x hx with hlt | hmem
        · exact hlt
        · rw [hheap] at hmem
          exact absurd hmem List.not_mem_nil
      exact ⟨hheap, h.high_mem, fun x hx => h.le_high x hx (hall x hx), hv.best, hv.separates,
        fun x hx _ => hv.ends x hx (hall x hx), hv.starts⟩
  | cons top tl =>
      rw [hheap, List.length_cons] at hlen
      obtain rfl : tl = [] := List.length_eq_zero_iff.mp (by omega)
      rw [hheap] at hopen
      simp only [List.mem_singleton] at hopen
      obtain ⟨htop, hτ⟩ := h.openAt.mem_iff.mp (show top ∈ st.heap by rw [hheap]; simp)
      dsimp only
      have hle : ∀ x ∈ all, x.high ≤ if st.high < top.high then top.high else st.high := by
        intro x hx
        rcases hopen x hx with hlt | rfl
        · have := h.le_high x hx hlt
          split <;> omega
        · split <;> omega
      refine ⟨rfl, ?_, hle, hv.best, hv.separates, ?_, hv.starts⟩
      · split
        · exact ⟨top, htop, rfl⟩
        · exact h.high_mem
      · intro x hx hlt
        rcases hopen x hx with hx' | rfl
        · exact hv.ends x hx hx'
        · -- the last open range ends last
          exfalso
          obtain ⟨y, hy, hyh⟩ := h.high_mem
          dsimp only at hlt
          split at hlt
          · omega
          · rcases hopen y hy with hy' | rfl <;> omega

/-- When dropping the earliest end empties the heap, everything still open ended there,
at the greatest end. -/
theorem Swept.of_popEnd {τ : Nat} {st : Sweep K} {ps : List Nat} {top : Range1d}
    {tl : List Range1d} (h : SweepInv all all τ st) (hv : Visited all all low0 τ b0 st.best ps)
    (hheap : st.heap = top :: tl) (hnil : (st.popEnd top.high).heap = []) :
    Swept all low0 b0 (st.popEnd top.high) ps := by
  have hpop := h.popEnd (fun _ hx => hx) hheap
  have hended : ∀ y ∈ all, y.high < top.high + 1 := by
    intro y hy
    by_contra hge
    have := hpop.openAt.mem_iff.mpr ⟨hy, Nat.not_lt.mp hge⟩
    rw [hnil] at this
    exact absurd this List.not_mem_nil
  refine ⟨hnil, hpop.high_mem, fun y hy => hpop.le_high y hy (hended y hy),
    hv.best, hv.separates, ?_, hv.starts⟩
  intro y hy hlt
  apply hv.ends y hy
  by_contra hge
  have htopy := h.top_le hheap (h.openAt.mem_iff.mpr ⟨hy, by omega⟩)
  obtain ⟨z, hz, hzh⟩ := hpop.high_mem
  have := hended z hz
  omega

theorem Sweep.flush_spec (hfit : ∀ x ∈ all, x.low ≤ x.high)
    (hnum : num = (all.map Range1d.weight).sum) :
    ∀ (fuel : Nat) {τ : Nat} {st : Sweep K} {ps : List Nat}, st.heap.length ≤ fuel →
      SweepInv all all τ st → Visited all all low0 τ b0 st.best ps →
      ∃ ps', Swept all low0 b0 (st.flush num fuel).finish ps' := by
  have hall : all = all ++ [] := (List.append_nil all).symm
  intro fuel
  induction fuel with
  | zero =>
      intro τ st ps hlen h hv
      exact ⟨ps, Sweep.finish_spec h hv (Nat.le_succ_of_le hlen)⟩
  | succ fuel ih =>
      intro τ st ps hlen h hv
      rw [Sweep.flush]
      split
      · next top x tl hheap =>
        dsimp only
        have hshort : (st.popEnd top.high).heap.length ≤ fuel := by
          rw [hheap, List.length_cons] at hlen
          exact Nat.le_trans (length_popEnd_le hheap) (by omega)
        by_cases hne : (st.popEnd top.high).heap ≠ []
        · rw [if_pos hne]
          have hpop := h.popEnd (fun _ hx => hx) hheap
          exact ih hshort (hpop.evaluate num top.high)
            (hv.popEnd_evaluate h hall hfit hnum hheap (by simp) (Or.inr hne))
        · rw [if_neg hne]
          push Not at hne
          have hflush : (st.popEnd top.high).flush num fuel = st.popEnd top.high := by
            cases fuel with
            | zero => rfl
            | succ fuel => rw [Sweep.flush, hne]
          have hfinish : (st.popEnd top.high).finish = st.popEnd top.high := by
            rw [Sweep.finish, hne]
          rw [hflush, hfinish]
          exact ⟨ps, Swept.of_popEnd h hv hheap hne⟩
      · next hshort =>
        refine ⟨ps, Sweep.finish_spec h hv ?_⟩
        cases hheap : st.heap with
        | nil => simp
        | cons a tl =>
            cases tl with
            | nil => simp
            | cons b tl => exact absurd hheap (hshort a b tl)

/-- **The sweep**: over strictly increasing ranges it ends with an empty heap, knows
the greatest end, and has weighed every position where a range starts or ends. -/
theorem splitSweep_spec {u : Range1d} {us : List Range1d} (w0 w1 : Nat)
    (hfit : ∀ x ∈ u :: us, x.low ≤ x.high)
    (hnum : num = ((u :: us).map Range1d.weight).sum)
    (hsorted : (u :: us).Pairwise (fun a b => rangeCompare a b = .lt)) :
    ∃ ps, Swept (K := K) (u :: us) u.low ⟨CostArith.ofNat num, u.low, w0, w1⟩
      (splitSweep num w0 w1 u us) ps := by
  -- the main loop has taken in `u :: seen`
  have hloop : ∀ (seen rest : List Range1d), us = seen ++ rest →
      ∀ {st : Sweep K}, st = seen.foldl (Sweep.next num)
        { heap := [u], left := 0, s := u.low, high := u.high,
          best := ⟨CostArith.ofNat num, u.low, w0, w1⟩ } →
      SweepInv (u :: us) (u :: seen) st.s st ∧ (∃ x ∈ u :: seen, x.low = st.s) ∧
        ∃ ps, Visited (u :: us) (u :: seen) u.low st.s ⟨CostArith.ofNat num, u.low, w0, w1⟩
          st.best ps := by
    intro seen
    induction seen using List.reverseRecOn with
    | nil =>
        intro rest hus st hst
        subst hst
        dsimp only [List.foldl_nil]
        have hufit := hfit u List.mem_cons_self
        refine ⟨⟨⟨List.pairwise_singleton _ _, ?_⟩, ?_, ?_, ⟨u, List.mem_cons_self, rfl⟩, ?_⟩,
          ⟨u, List.mem_cons_self, rfl⟩, [], ⟨rfl, by simp, ?_, ?_⟩⟩
        · rw [List.filter_cons_of_pos (by simpa using hufit)]
          rfl
        · unfold weightWhere
          rw [weightOf_eq_zero]
          intro x hx
          obtain rfl := List.mem_singleton.mp hx
          omega
        · intro x hx
          obtain rfl := List.mem_singleton.mp hx
          exact Nat.le_refl _
        · intro x hx hlt
          obtain rfl := List.mem_singleton.mp hx
          omega
        · intro x hx hlt
          obtain rfl := List.mem_singleton.mp hx
          omega
        · intro x hx hne
          obtain rfl := List.mem_singleton.mp hx
          exact absurd rfl hne
    | append_singleton seen r ih =>
        intro rest hus st hst
        rw [List.foldl_append] at hst
        obtain ⟨hinv, hs, ps, hv⟩ := ih (r :: rest) (by rw [hus]; simp) rfl
        rw [hst]
        have := Sweep.next_spec
          (by rw [hus]; simp : u :: us = (u :: seen) ++ r :: rest) hfit hnum hsorted hinv hs hv
        rw [List.cons_append] at this
        exact this
  obtain ⟨hinv, -, ps, hv⟩ := hloop us [] (by simp) rfl
  exact Sweep.flush_spec hfit hnum _ (Nat.le_refl _) hinv hv

end Run

end ChooseCut
