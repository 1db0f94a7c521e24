import ChooseCut.Clip
import ChooseCut.CutSplitSweep

/-!
# ChooseCut.CutSplitSound

The split cut does what its scratch tree predicts.

`IsSplit` says what a scratch node computed from a rule list looks like, and
`STreeFor` what the two-level tree looks like. A tree with this property makes
`split_cut` succeed, with children that are clipped copies of the rules and hold
exactly the predicted numbers, and makes `split_search` select the child that has
the hits of the node. `split_match_expect` establishes the property in every
dimension where two rules differ, whatever the scratch area held before.
-/

namespace ChooseCut

variable {K : Type} [CostArith K]

/-! ### One split -/

/-- The two ranges and weights of a split computed from `rs` in dimension `d`. -/
structure IsSplit (rs : List Rule) (d : Dim) (r0 r1 : Range1d) : Prop where
  low : r0.low = hullLo rs d
  high : r1.high = hullHi rs d
  next : r1.low = r0.high + 1
  ge : hullLo rs d ≤ r0.high
  lt : r0.high < hullHi rs d
  weight0 : r0.weight = rs.countP (fun r => (r.range d).lo ≤ r0.high)
  weight1 : r1.weight = rs.countP (fun r => r0.high < (r.range d).hi)
  border : ∃ r ∈ rs, (r.range d).hi = r0.high ∨ (r.range d).lo = r0.high + 1

/-- The interval of a scratch range. -/
def Range1d.range (x : Range1d) : Range := ⟨x.low, x.high⟩

theorem trimTo_eq (x : Range1d) (d : Dim) (r : Rule) :
    trimTo x d r = if (r.range d).Meets x.range then some (r.clip d x.range) else none := by
  have hmeet : (r.range d).Meets x.range ↔
      ¬ ((r.range d).hi < x.low ∨ x.high < (r.range d).lo) := by
    unfold Range.Meets Range1d.range
    dsimp only
    omega
  have hlo : (if (r.range d).lo < x.low then x.low else (r.range d).lo)
      = max (r.range d).lo x.low := by split <;> omega
  have hhi : (if x.high < (r.range d).hi then x.high else (r.range d).hi)
      = min (r.range d).hi x.high := by split <;> omega
  rw [trimTo, hlo, hhi]
  by_cases h : (r.range d).Meets x.range
  · rw [if_pos h, if_pos (hmeet.mp h)]
    rfl
  · rw [if_neg h, if_neg (fun hn => h (hmeet.mpr hn))]

/-- Appending a trimmed rule appends the part of `clipTo` it stands for. -/
theorem pushTrimmed_eq {b : RuleSet} (hb : b.num ≤ b.cap) (x : Range1d) (d : Dim) (r : Rule) :
    pushTrimmed b (trimTo x d r) =
      if b.num + (clipTo x.range d [r]).length ≤ b.cap
      then .ok (b.extend (clipTo x.range d [r])) else .error .assertion := by
  rw [trimTo_eq, clipTo_cons]
  by_cases h : (r.range d).Meets x.range
  · rw [if_pos h, if_pos h]
    have hiff : b.num < b.cap ↔
        b.num + ([r.clip d x.range] ++ clipTo x.range d []).length ≤ b.cap := Iff.rfl
    by_cases hlt : b.num < b.cap
    · rw [if_pos (hiff.mp hlt)]
      exact if_pos hlt
    · rw [if_neg (fun h => hlt (hiff.mpr h))]
      exact if_neg hlt
  · rw [if_neg h, if_neg h]
    simp [pushTrimmed, clipTo, hb]

/-- **`_split_cut_1d`** appends the clipped rules to the two sides, or trips the
capacity check. -/
theorem splitCut1dInto_eq {d : Dim} {x y : Range1d} (rs : List Rule) :
    ∀ {lrs rrs : RuleSet}, lrs.num ≤ lrs.cap → rrs.num ≤ rrs.cap →
      rs.foldlM (splitCutRule d x y) (lrs, rrs)
        = if lrs.num + (clipTo x.range d rs).length ≤ lrs.cap ∧
            rrs.num + (clipTo y.range d rs).length ≤ rrs.cap
          then .ok (lrs.extend (clipTo x.range d rs), rrs.extend (clipTo y.range d rs))
          else .error .assertion := by
  induction rs with
  | nil =>
      intro lrs rrs hl hr
      simp [clipTo, hl, hr, pure, Except.pure]
  | cons r rs ih =>
      intro lrs rrs hl hr
      have hx : clipTo x.range d (r :: rs) = clipTo x.range d [r] ++ clipTo x.range d rs := by
        rw [clipTo_cons, clipTo_cons]; simp [clipTo]
      have hy : clipTo y.range d (r :: rs) = clipTo y.range d [r] ++ clipTo y.range d rs := by
        rw [clipTo_cons, clipTo_cons]; simp [clipTo]
      rw [List.foldlM_cons, splitCutRule, pushTrimmed_eq hl, pushTrimmed_eq hr, hx, hy,
        List.length_append, List.length_append]
      by_cases h1 : lrs.num + (clipTo x.range d [r]).length ≤ lrs.cap
      · by_cases h2 : rrs.num + (clipTo y.range d [r]).length ≤ rrs.cap
        · rw [if_pos h1, if_pos h2]
          have := @ih (lrs.extend (clipTo x.range d [r]))
            (rrs.extend (clipTo y.range d [r])) h1 h2
          simp only [bind, Except.bind] at this ⊢
          rw [this]
          simp only [Buffer.extend_num, Buffer.extend_cap, Buffer.extend_extend, Nat.add_assoc]
        · rw [if_pos h1, if_neg h2, if_neg (by omega)]
          rfl
      · have hbad : ¬ (lrs.num + ((clipTo x.range d [r]).length + (clipTo x.range d rs).length)
              ≤ lrs.cap ∧
            rrs.num + ((clipTo y.range d [r]).length + (clipTo y.range d rs).length)
              ≤ rrs.cap) := by omega
        rw [if_neg h1, if_neg hbad]
        rfl

section Split

variable {rs : List Rule} {d : Dim} {r0 r1 : Range1d}

/-- A rule meets the left side iff it starts there, and the right side iff it ends
there. -/
theorem IsSplit.meets (h : IsSplit rs d r0 r1) {r : Rule} (hr : r ∈ rs)
    (hfit : (r.range d).lo ≤ (r.range d).hi) :
    ((r.range d).Meets r0.range ↔ (r.range d).lo ≤ r0.high) ∧
      ((r.range d).Meets r1.range ↔ r0.high < (r.range d).hi) := by
  have hlo := hullLo_le (d := d) hr
  have hhi := le_hullHi (d := d) hr
  have := h.low
  have := h.high
  have := h.next
  unfold Range.Meets Range1d.range
  dsimp only
  constructor <;> omega

theorem IsSplit.length_left (h : IsSplit rs d r0 r1) (hfit : ∀ r ∈ rs, r.Fits) :
    (clipTo r0.range d rs).length = r0.weight := by
  rw [length_clipTo, h.weight0]
  apply List.countP_congr
  intro r hr
  simpa using (h.meets hr (hfit r hr d).1).1

theorem IsSplit.length_right (h : IsSplit rs d r0 r1) (hfit : ∀ r ∈ rs, r.Fits) :
    (clipTo r1.range d rs).length = r1.weight := by
  rw [length_clipTo, h.weight1]
  apply List.countP_congr
  intro r hr
  simpa using (h.meets hr (hfit r hr d).1).2

theorem IsSplit.ne_nil (h : IsSplit rs d r0 r1) : rs ≠ [] := by
  obtain ⟨r, hr, -⟩ := h.border
  exact List.ne_nil_of_mem hr

theorem IsSplit.weight0_pos (h : IsSplit rs d r0 r1) : 0 < r0.weight := by
  obtain ⟨r, hr, hlo⟩ := exists_hullLo (d := d) h.ne_nil
  rw [h.weight0, List.countP_pos_iff]
  exact ⟨r, hr, by have := h.ge; simp only [decide_eq_true_eq]; omega⟩

theorem IsSplit.weight1_pos (h : IsSplit rs d r0 r1) : 0 < r1.weight := by
  obtain ⟨r, hr, hhi⟩ := exists_hullHi (d := d) h.ne_nil
  rw [h.weight1, List.countP_pos_iff]
  exact ⟨r, hr, by have := h.lt; simp only [decide_eq_true_eq]; omega⟩

theorem IsSplit.weight_le (h : IsSplit rs d r0 r1) :
    r0.weight ≤ rs.length ∧ r1.weight ≤ rs.length := by
  rw [h.weight0, h.weight1]
  exact ⟨List.countP_le_length, List.countP_le_length⟩

/-- One side misses a rule. -/
theorem IsSplit.weight_lt (h : IsSplit rs d r0 r1) :
    r0.weight < rs.length ∨ r1.weight < rs.length := by
  obtain ⟨r, hr, hb⟩ := h.border
  rcases hb with hb | hb
  · right
    rw [h.weight1]
    refine Nat.lt_of_le_of_ne List.countP_le_length (fun heq => ?_)
    have := List.countP_eq_length.mp heq r hr
    simp only [decide_eq_true_eq] at this
    omega
  · left
    rw [h.weight0]
    refine Nat.lt_of_le_of_ne List.countP_le_length (fun heq => ?_)
    have := List.countP_eq_length.mp heq r hr
    simp only [decide_eq_true_eq] at this
    omega

theorem IsSplit.left_le (h : IsSplit rs d r0 r1) : r0.range.lo ≤ r0.range.hi := by
  have := h.ge
  rw [← h.low] at this
  exact this

theorem IsSplit.right_le (h : IsSplit rs d r0 r1) : r1.range.lo ≤ r1.range.hi := by
  have := h.lt
  rw [← h.high] at this
  have := h.next
  unfold Range1d.range
  dsimp only
  omega

/-- Below the split point a flow sees on the left what it saw before. -/
theorem IsSplit.hits_left (h : IsSplit rs d r0 r1) {f : Flow} (hf : ¬ r0.high < f.key d) :
    hits (clipTo r0.range d rs) f = hits rs f := by
  by_cases hlo : r0.low ≤ f.key d
  · exact hits_clipTo ⟨hlo, Nat.not_lt.mp hf⟩
  · have hnil : hits rs f = [] := by
      rw [hits_eq_nil]
      intro r hr hm
      have := hullLo_le (d := d) hr
      have := (hm d).1
      have := h.low
      omega
    rw [hnil, hits_clipTo_nil hnil]

theorem IsSplit.hits_right (h : IsSplit rs d r0 r1) {f : Flow} (hf : r0.high < f.key d) :
    hits (clipTo r1.range d rs) f = hits rs f := by
  by_cases hhi : f.key d ≤ r1.high
  · refine hits_clipTo ⟨?_, hhi⟩
    have := h.next
    unfold Range1d.range
    dsimp only
    omega
  · have hnil : hits rs f = [] := by
      rw [hits_eq_nil]
      intro r hr hm
      have := le_hullHi (d := d) hr
      have := (hm d).2
      have := h.high
      omega
    rw [hnil, hits_clipTo_nil hnil]

end Split

/-! ### The sweep finds a split -/

section Sweep

variable {rs : RuleSet} {d : Dim}

/-- The number of rules that reach to the left of a split behind `p`. -/
def leftOf (rs : List Rule) (d : Dim) (p : Nat) : Nat := rs.countP (fun r => (r.range d).lo ≤ p)

/-- The number of rules that reach to the right. -/
def rightOf (rs : List Rule) (d : Dim) (p : Nat) : Nat := rs.countP (fun r => p < (r.range d).hi)

/-- Weigh the split of the rules behind `p`. -/
def Best.weigh (rs : List Rule) (d : Dim) (b : Best K) (p : Nat) : Best K :=
  findMinMeDo b (splitMatchExpectHeuristic (leftOf rs d p) (rightOf rs d p)) p
    (leftOf rs d p) (rightOf rs d p)

/-- The positions a sweep weighs: each of them splits the rules, and the ends and starts
inside the hull are among them. -/
structure Weighed (rs : List Rule) (d : Dim) (ps : List Nat) : Prop where
  ne_nil : ps ≠ []
  split : ∀ p ∈ ps, IsSplit rs d ⟨hullLo rs d, p, leftOf rs d p⟩
    ⟨p + 1, hullHi rs d, rightOf rs d p⟩
  ends : ∀ r ∈ rs, (r.range d).hi ≠ hullHi rs d → (r.range d).hi ∈ ps
  starts : ∀ r ∈ rs, (r.range d).lo ≠ hullLo rs d → (r.range d).lo - 1 ∈ ps

/-- Folding `find_min_me_do` from the rule count over positions that all improve on it
ends at one of them. -/
theorem foldl_weigh_mem {l : List Rule} {num : Nat} {ps : List Nat} (b0 : Best K)
    (hne : ps ≠ []) (hb0 : b0.minMe = CostArith.ofNat num)
    (himp : ∀ p ∈ ps, CostArith.lt
      (splitMatchExpectHeuristic (leftOf l d p) (rightOf l d p) : K) (CostArith.ofNat num)) :
    ∃ p ∈ ps, ps.foldl (Best.weigh l d) b0 =
      ⟨splitMatchExpectHeuristic (leftOf l d p) (rightOf l d p), p, leftOf l d p,
        rightOf l d p⟩ := by
  induction ps using List.reverseRecOn with
  | nil => exact absurd rfl hne
  | append_singleton ps p ih =>
      rw [List.foldl_append, List.foldl_cons, List.foldl_nil]
      unfold Best.weigh findMinMeDo
      split
      · exact ⟨p, by simp, rfl⟩
      · next hnot =>
        cases hps : ps with
        | nil =>
            rw [hps] at hnot
            rw [List.foldl_nil, hb0] at hnot
            exact absurd (himp p (by simp)) hnot
        | cons q qs =>
            obtain ⟨p', hp', heq⟩ := ih (by rw [hps]; simp)
              (fun x hx => himp x (List.mem_append_left _ hx))
            rw [← hps]
            exact ⟨p', List.mem_append_left _ hp', heq⟩

/-- A dimension in which all rules agree is left alone. -/
theorem splitMatchExpect1d_same {cap : Nat} (n : SNode) (hcap : rs.num ≤ cap)
    (hne : rs.items ≠ []) (hsame : SameRange rs.items d) :
    splitMatchExpect1d (K := K) cap n rs d = .ok (CostArith.ofNat rs.num, n) := by
  obtain ⟨u, hu⟩ := List.length_eq_one_iff.mp ((sweepRanges_length_eq_one hne).mpr hsame)
  rw [splitMatchExpect1d, if_neg (by omega), hu]

/-- The weights the sweep compares count rules. -/
theorem visit_sweepRanges {l : List Rule} (hne : l ≠ []) :
    (Best.visit (sweepRanges l d) : Best K → Nat → Best K) = Best.weigh l d := by
  have hleft : startedBy (sweepRanges l d) = leftOf l d := by
    funext p
    rw [startedBy]
    exact sweepRanges_weight hne _
  have hright : endsAfter (sweepRanges l d) = rightOf l d := by
    funext p
    rw [endsAfter]
    exact sweepRanges_weight hne _
  funext b p
  rw [Best.visit, Best.weigh, hleft, hright]

/-- The greatest end the sweep finds is the top of the hull. -/
theorem Swept.high_eq {l : List Rule} {low0 : Nat} {b0 : Best K} {st : Sweep K} {ps : List Nat}
    (h : Swept (sweepRanges l d) low0 b0 st ps) (hne : l ≠ []) : st.high = hullHi l d := by
  obtain ⟨x, hx, hxh⟩ := h.high_mem
  obtain ⟨s, hs, hsh⟩ := exists_hullHi (d := d) hne
  obtain ⟨y, hy, -, hyh⟩ := exists_sweepRange (d := d) hs
  have h1 := sweepRange_le_hullHi hne hx
  have h2 := h.le_high y hy
  omega

/-- The positions of a sweep over the distinct ranges are splits of the rules. -/
theorem Swept.weighed {l : List Rule} {b0 : Best K} {st : Sweep K} {ps : List Nat}
    (h : Swept (sweepRanges l d) (hullLo l d) b0 st ps) (hne : l ≠ []) (hps : ps ≠ []) :
    Weighed l d ps := by
  have htop := h.high_eq hne
  refine ⟨hps, ?_, ?_, ?_⟩
  · intro p hp
    obtain ⟨⟨x, hx, hxl⟩, ⟨y, hy, hyh⟩, ⟨z, hz, hzb⟩⟩ := h.separates p hp
    obtain ⟨r, hr, hrz⟩ := mem_sweepRanges hne hz
    have h1 := hullLo_le_sweepRange hne hx
    have h2 := h.le_high y hy
    rw [htop] at h2
    exact
      { low := rfl
        high := rfl
        next := rfl
        ge := h1.trans hxl
        lt := hyh.trans_le h2
        weight0 := rfl
        weight1 := rfl
        border := ⟨r, hr, by rw [hrz]; exact hzb⟩ }
  · intro r hr hne'
    obtain ⟨x, hx, -, hxh⟩ := exists_sweepRange (d := d) hr
    rw [← hxh]
    exact h.ends x hx (by have := h.le_high x hx; omega)
  · intro r hr hne'
    obtain ⟨x, hx, hxl, -⟩ := exists_sweepRange (d := d) hr
    rw [← hxl]
    exact h.starts x hx (by rw [hxl]; exact hne')

/-- **`split_match_expect_1d`** where two rules differ: the sweep weighs the splits at the
starts and ends of the rules and stores the best of them. -/
theorem splitMatchExpect1d_weighed {cap : Nat} (n : SNode) (hcap : rs.num ≤ cap)
    (hnum : rs.num = rs.items.length) (hfit : ∀ r ∈ rs.items, r.Fits)
    (hdiff : ¬ SameRange rs.items d) :
    ∃ (ps : List Nat) (b : Best K), Weighed rs.items d ps ∧
      b = ps.foldl (Best.weigh rs.items d)
        ⟨CostArith.ofNat rs.num, hullLo rs.items d, n.r0.weight, n.r1.weight⟩ ∧
      splitMatchExpect1d (K := K) cap n rs d = .ok (b.minMe,
        { n with
          r0 := ⟨hullLo rs.items d, b.split, b.weight0⟩
          r1 := ⟨b.split + 1, hullHi rs.items d, b.weight1⟩ }) := by
  have hne : rs.items ≠ [] := by
    intro hnil
    exact hdiff (by rw [hnil]; intro r hr; cases hr)
  have hgrp := sweepRanges_grouped (d := d) hne
  have hlen : (sweepRanges rs.items d).length ≠ 1 :=
    fun h => hdiff ((sweepRanges_length_eq_one hne).mp h)
  cases hsw : sweepRanges rs.items d with
  | nil => exact absurd hsw (sweepRanges_ne_nil hne)
  | cons u us =>
    cases us with
    | nil => rw [hsw] at hlen; exact absurd rfl hlen
    | cons v us =>
      rw [hsw] at hgrp
      have hlow : u.low = hullLo rs.items d := sweepRanges_head hne hsw
      have hfit' : ∀ x ∈ u :: v :: us, x.low ≤ x.high :=
        fun x hx => sweepRange_le (d := d) hne hfit (by rw [hsw]; exact hx)
      have hsum : rs.num = ((u :: v :: us).map Range1d.weight).sum := by
        rw [← hsw, sum_sweepRanges hne, hnum]
      obtain ⟨ps, hswept⟩ := splitSweep_spec (K := K) n.r0.weight n.r1.weight
        hfit' hsum hgrp.sorted
      -- two different ranges start apart or end apart
      have hps : ps ≠ [] := by
        have huv := List.rel_of_pairwise_cons hgrp.sorted (List.mem_cons_self (a := v) (l := us))
        rw [rangeCompare_lt] at huv
        rcases huv with hlow | ⟨-, hhigh⟩
        · exact List.ne_nil_of_mem (hswept.starts v (by simp) (by omega))
        · exact List.ne_nil_of_mem (hswept.ends u (by simp)
            (by have := hswept.le_high v (by simp); omega))
      rw [← hsw, hlow] at hswept
      refine ⟨ps, (splitSweep rs.num n.r0.weight n.r1.weight u (v :: us)).best,
        hswept.weighed hne hps, ?_, ?_⟩
      · rw [hswept.best, visit_sweepRanges hne]
      · rw [splitMatchExpect1d, if_neg (Nat.not_lt.mpr hcap), hsw]
        dsimp only
        rw [assertThat, if_pos hswept.empty, hlow, hswept.high_eq hne]
        rfl

/-- Every position weighed costs less than the rule count. -/
theorem Weighed.improves {l : List Rule} {ps : List Nat} (h : Weighed l d ps) :
    ∀ p ∈ ps, CostArith.lt (splitMatchExpectHeuristic (leftOf l d p) (rightOf l d p) : K)
      (CostArith.ofNat l.length) := by
  intro p hp
  have hs := h.split p hp
  have hle := hs.weight_le
  exact CostArith.mean_lt _ _ _ hs.weight0_pos hs.weight1_pos hle.1 hle.2 hs.weight_lt

/-- In such a dimension it stores a split of the rules and returns its cost. -/
theorem splitMatchExpect1d_spec {cap : Nat} (n : SNode) (hcap : rs.num ≤ cap)
    (hnum : rs.num = rs.items.length) (hfit : ∀ r ∈ rs.items, r.Fits)
    (hdiff : ¬ SameRange rs.items d) :
    ∃ r0 r1, splitMatchExpect1d (K := K) cap n rs d
        = .ok (splitMatchExpectHeuristic r0.weight r1.weight, { n with r0 := r0, r1 := r1 }) ∧
      IsSplit rs.items d r0 r1 := by
  obtain ⟨ps, b, hps, hb, hrun⟩ := splitMatchExpect1d_weighed (K := K) n hcap hnum hfit hdiff
  obtain ⟨p, hp, hbest⟩ := foldl_weigh_mem
    (⟨CostArith.ofNat rs.num, hullLo rs.items d, n.r0.weight, n.r1.weight⟩ : Best K)
    hps.ne_nil rfl (by rw [hnum]; exact hps.improves)
  rw [← hb] at hbest
  rw [hbest] at hrun
  exact ⟨_, _, hrun, hps.split p hp⟩

end Sweep

/-! ### Halves -/

/-- `k` is one side of a split of `rs` in dimension `d`. -/
def HalfOf (rs : List Rule) (d : Dim) (k : List Rule) : Prop :=
  ∃ r0 r1, IsSplit rs d r0 r1 ∧ (k = clipTo r0.range d rs ∨ k = clipTo r1.range d rs)

section Half

variable {rs k : List Rule} {d : Dim}

theorem HalfOf.wf (h : HalfOf rs d k) (hwf : RulesWF rs) : RulesWF k := by
  obtain ⟨r0, r1, hs, rfl | rfl⟩ := h
  · exact clipTo_wf hwf hs.left_le
  · exact clipTo_wf hwf hs.right_le

theorem HalfOf.length_le (h : HalfOf rs d k) : k.length ≤ rs.length := by
  obtain ⟨r0, r1, -, rfl | rfl⟩ := h <;> exact length_clipTo_le

theorem HalfOf.ne_nil (h : HalfOf rs d k) (hfit : ∀ r ∈ rs, r.Fits) : k ≠ [] := by
  obtain ⟨r0, r1, hs, rfl | rfl⟩ := h
  · intro hnil
    have := hs.length_left hfit
    rw [hnil, List.length_nil] at this
    have := hs.weight0_pos
    omega
  · intro hnil
    have := hs.length_right hfit
    rw [hnil, List.length_nil] at this
    have := hs.weight1_pos
    omega

end Half

/-! ### The two-level tree -/

/-- The scratch tree was computed from `rs`: a split in `d`, and on each enabled side
a split of that side. -/
structure STreeFor (rs : List Rule) (d : Dim) (t : STree) : Prop where
  root : IsSplit rs d t.root.r0 t.root.r1
  left : t.left.enabled = true →
    IsSplit (clipTo t.root.r0.range d rs) t.left.dim t.left.r0 t.left.r1
  right : t.right.enabled = true →
    IsSplit (clipTo t.root.r1.range d rs) t.right.dim t.right.r0 t.right.r1

/-- The rules of one side's children. -/
def sideKids (n : SNode) (l : List Rule) : List (List Rule) :=
  if n.enabled then [clipTo n.r0.range n.dim l, clipTo n.r1.range n.dim l] else [l]

/-- The rules of the children, in array order. -/
def splitKids (rs : List Rule) (d : Dim) (t : STree) : List (List Rule) :=
  sideKids t.left (clipTo t.root.r0.range d rs) ++ sideKids t.right (clipTo t.root.r1.range d rs)

section Tree

variable {rs : RuleSet} {d : Dim} {t : STree}

/-- `split_cut_1d` on a split of the rules: the two sides, or a side that does not fit its
buffer. -/
theorem splitCut1d_eq {cap : Nat} {n : SNode} (h : IsSplit rs.items d n.r0 n.r1)
    (hfit : ∀ r ∈ rs.items, r.Fits) :
    splitCut1d cap n rs d =
      if n.r0.weight ≤ cap ∧ n.r1.weight ≤ cap then .ok
        ((Buffer.alloc cap).extend (clipTo n.r0.range d rs.items),
          (Buffer.alloc cap).extend (clipTo n.r1.range d rs.items))
      else .error .assertion := by
  have hl := h.length_left hfit
  have hr := h.length_right hfit
  rw [splitCut1d, splitCut1dInto, splitCut1dInto_eq _ (Nat.zero_le _) (Nat.zero_le _)]
  simp only [Buffer.alloc_num, Buffer.alloc_cap, Nat.zero_add, hl, hr]
  split
  · simp [bind, Except.bind, assertThat, hl, hr]
  · rfl

/-- The children of one side, exactly full. -/
theorem splitSide_eq {n : SNode} {b : RuleSet} (hb : b.num = b.items.length)
    (h : n.enabled = true → IsSplit b.items n.dim n.r0 n.r1) (hfit : ∀ r ∈ b.items, r.Fits) :
    splitSide n b = .ok ((sideKids n b.items).map Buffer.ofList) := by
  unfold splitSide sideKids
  by_cases he : n.enabled = true
  · have hs := h he
    have hl := hs.length_left hfit
    have hr := hs.length_right hfit
    rw [if_pos he, if_pos he, splitCut1dInto,
      splitCut1dInto_eq _ (Nat.zero_le _) (Nat.zero_le _),
      if_pos (by simp only [Buffer.alloc_num, Buffer.alloc_cap]; omega)]
    simp [bind, Except.bind, Buffer.ofList, Buffer.alloc, Buffer.extend, hl, hr]
  · rw [if_neg he, if_neg he]
    cases b with
    | mk num cap items =>
        simp only at hb
        simp [Buffer.ofList, hb]

/-- **A split cut with the node's own tree** has children that hold exactly the predicted
rules; it fails only when a side does not fit the scratch buffers. -/
theorem splitCut_eq {cap : Nat} (h : STreeFor rs.items d t) (hfit : ∀ r ∈ rs.items, r.Fits) :
    splitCut cap t rs d =
      if t.root.r0.weight ≤ cap ∧ t.root.r1.weight ≤ cap then
        .ok (splitFill t, (splitKids rs.items d t).map Buffer.ofList)
      else .error .assertion := by
  have hfl : ∀ r ∈ clipTo t.root.r0.range d rs.items, r.Fits := by
    intro q hq
    obtain ⟨r, hr, hm, rfl⟩ := mem_clipTo hq
    exact clip_fits (hfit r hr) h.root.left_le hm
  have hfr : ∀ r ∈ clipTo t.root.r1.range d rs.items, r.Fits := by
    intro q hq
    obtain ⟨r, hr, hm, rfl⟩ := mem_clipTo hq
    exact clip_fits (hfit r hr) h.root.right_le hm
  rw [splitCut, splitCut1d_eq h.root hfit]
  split
  · have hl := splitSide_eq (n := t.left)
      (b := (Buffer.alloc cap).extend (clipTo t.root.r0.range d rs.items))
      (by simp) (by simpa using h.left) (by simpa using hfl)
    have hr := splitSide_eq (n := t.right)
      (b := (Buffer.alloc cap).extend (clipTo t.root.r1.range d rs.items))
      (by simp) (by simpa using h.right) (by simpa using hfr)
    simp only [bind, Except.bind]
    rw [hl, hr]
    simp [splitKids]
  · rfl

/-- Every child is a half of the node or a half of a half. -/
theorem mem_splitKids {l k : List Rule} (h : STreeFor l d t) (hk : k ∈ splitKids l d t) :
    ∃ k1, HalfOf l d k1 ∧ (k = k1 ∨ ∃ e, HalfOf k1 e k) := by
  have hside : ∀ (n : SNode) (k1 : List Rule), HalfOf l d k1 →
      (n.enabled = true → IsSplit k1 n.dim n.r0 n.r1) → k ∈ sideKids n k1 →
      ∃ k1, HalfOf l d k1 ∧ (k = k1 ∨ ∃ e, HalfOf k1 e k) := by
    intro n k1 hk1 hn hmem
    unfold sideKids at hmem
    by_cases he : n.enabled = true
    · rw [if_pos he] at hmem
      simp only [List.mem_cons, List.not_mem_nil, or_false] at hmem
      exact ⟨k1, hk1, Or.inr ⟨n.dim, n.r0, n.r1, hn he, hmem⟩⟩
    · rw [if_neg he, List.mem_singleton] at hmem
      exact ⟨k1, hk1, Or.inl hmem⟩
  rcases List.mem_append.mp hk with hk | hk
  · exact hside t.left _ ⟨_, _, h.root, Or.inl rfl⟩ h.left hk
  · exact hside t.right _ ⟨_, _, h.root, Or.inr rfl⟩ h.right hk

/-- Which child of its side a flow belongs to. -/
def sideIdx (n : SNode) (f : Flow) : Nat :=
  if n.enabled = true ∧ n.r0.high < f.key n.dim then 1 else 0

/-- The slot `split_search` computes from the shape bits counts the children before. -/
theorem splitSearch_eq (t : STree) (d : Dim) (f : Flow) :
    splitSearch (splitFill t) d f =
      if t.root.r0.high < f.key d then (if t.left.enabled then 2 else 1) + sideIdx t.right f
      else sideIdx t.left f := by
  have hslot : ∀ idx < 4, splitNext (splitFill t) idx =
      if idx = 0 then 0 else if idx = 1 then 1
      else (if t.left.enabled then 2 else 1) + (idx - 2) := by
    intro idx hidx
    unfold splitNext splitFill
    dsimp only
    cases t.left.enabled <;> cases t.right.enabled <;> revert idx <;> decide
  unfold splitSearch splitIdx sideIdx
  by_cases hroot : t.root.r0.high < f.key d
  · have hroot' : (splitFill t).rootSplit < f.key d := hroot
    rw [if_pos hroot, if_pos hroot']
    cases hr : t.right.enabled
    · have hdim : (splitFill t).dimRight = none := by simp [splitFill, hr]
      rw [hdim, hslot 2 (by decide)]
      simp
    · have hdim : (splitFill t).dimRight = some t.right.dim := by simp [splitFill, hr]
      have hval : (splitFill t).rightSplit = t.right.r0.high := by simp [splitFill, hr]
      rw [hdim, hval]
      by_cases hkey : t.right.r0.high < f.key t.right.dim
      · simp [hkey, hslot 3 (by decide)]
      · simp [hkey, hslot 2 (by decide)]
  · have hroot' : ¬ (splitFill t).rootSplit < f.key d := hroot
    rw [if_neg hroot, if_neg hroot']
    cases hl : t.left.enabled
    · have hdim : (splitFill t).dimLeft = none := by simp [splitFill, hl]
      rw [hdim, hslot 0 (by decide)]
      simp
    · have hdim : (splitFill t).dimLeft = some t.left.dim := by simp [splitFill, hl]
      have hval : (splitFill t).leftSplit = t.left.r0.high := by simp [splitFill, hl]
      rw [hdim, hval]
      by_cases hkey : t.left.r0.high < f.key t.left.dim
      · simp [hkey, hslot 1 (by decide)]
      · simp [hkey, hslot 0 (by decide)]

theorem length_sideKids (n : SNode) (l : List Rule) :
    (sideKids n l).length = if n.enabled then 2 else 1 := by
  unfold sideKids
  split <;> rfl

/-- The child of its side has the hits of the side. -/
theorem sideKids_spec {n : SNode} {l : List Rule}
    (h : n.enabled = true → IsSplit l n.dim n.r0 n.r1) (f : Flow) :
    ∃ k, (sideKids n l)[sideIdx n f]? = some k ∧ hits k f = hits l f := by
  unfold sideKids sideIdx
  cases he : n.enabled
  · exact ⟨l, by simp, rfl⟩
  · by_cases hkey : n.r0.high < f.key n.dim
    · exact ⟨_, by simp [hkey], (h he).hits_right hkey⟩
    · exact ⟨_, by simp [hkey], (h he).hits_left hkey⟩

/-- **The lookup of a split node** reaches a child with the hits of the node, for every
flow. -/
theorem splitSearch_spec {l : List Rule} (h : STreeFor l d t) (f : Flow) :
    ∃ k, (splitKids l d t)[splitSearch (splitFill t) d f]? = some k ∧ hits k f = hits l f := by
  rw [splitSearch_eq, splitKids]
  by_cases hroot : t.root.r0.high < f.key d
  · obtain ⟨k, hk, hhits⟩ := sideKids_spec h.right f
    refine ⟨k, ?_, hhits.trans (h.root.hits_right hroot)⟩
    rw [if_pos hroot, List.getElem?_append_right (by rw [length_sideKids]; omega),
      length_sideKids, Nat.add_sub_cancel_left]
    exact hk
  · obtain ⟨k, hk, hhits⟩ := sideKids_spec h.left f
    refine ⟨k, ?_, hhits.trans (h.root.hits_left hroot)⟩
    rw [if_neg hroot, List.getElem?_append_left]
    · exact hk
    · rw [length_sideKids]
      unfold sideIdx
      split <;> split <;> simp_all

end Tree

/-! ### Computing the tree -/

section Expect

variable {rs : RuleSet} {d : Dim}

/-- One dimension, whatever it looks like: no fault, and either the rule count with the
node untouched or a split of the rules. -/
theorem splitMatchExpect1d_cases {cap : Nat} (n : SNode) (hcap : rs.num ≤ cap)
    (hnum : rs.num = rs.items.length) (hne : rs.items ≠ []) (hfit : ∀ r ∈ rs.items, r.Fits) :
    (SameRange rs.items d ∧
      splitMatchExpect1d (K := K) cap n rs d = .ok (CostArith.ofNat rs.num, n)) ∨
    ∃ r0 r1, splitMatchExpect1d (K := K) cap n rs d
        = .ok (splitMatchExpectHeuristic r0.weight r1.weight, { n with r0 := r0, r1 := r1 }) ∧
      IsSplit rs.items d r0 r1 := by
  by_cases hsame : SameRange rs.items d
  · exact Or.inl ⟨hsame, splitMatchExpect1d_same n hcap hne hsame⟩
  · exact Or.inr (splitMatchExpect1d_spec n hcap hnum hfit hsame)

/-- What `split_match_build_childs` has found after the dimensions tried: no gain, or a
split of the rules in the dimension remembered. -/
def BestDim.Good (rs : RuleSet) (b : BestDim K) : Prop :=
  b.mec = CostArith.ofNat rs.num ∨ IsSplit rs.items b.minDim b.r0 b.r1

theorem buildStep_spec {cap : Nat} (hcap : rs.num ≤ cap) (hnum : rs.num = rs.items.length)
    (hne : rs.items ≠ []) (hfit : ∀ r ∈ rs.items, r.Fits) (n : SNode) (o : Option (BestDim K))
    (ho : ∀ b ∈ o, b.Good rs) (i : Dim) :
    ∃ n1 o1, buildStep (K := K) cap rs (n, o) i = .ok (n1, o1) ∧ (∀ b ∈ o1, b.Good rs) ∧
      o1.isSome := by
  obtain ⟨me, n1, hme, hgood⟩ : ∃ me n1, splitMatchExpect1d (K := K) cap n rs i = .ok (me, n1) ∧
      BestDim.Good rs ⟨me, i, n1.r0, n1.r1⟩ := by
    rcases splitMatchExpect1d_cases (K := K) (d := i) n hcap hnum hne hfit with
      ⟨-, h⟩ | ⟨r0, r1, h, hs⟩
    · exact ⟨_, _, h, Or.inl rfl⟩
    · exact ⟨_, _, h, Or.inr hs⟩
  rw [buildStep, hme]
  simp only [bind, Except.bind]
  cases o with
  | none =>
      refine ⟨_, _, rfl, ?_, rfl⟩
      rintro b hb
      obtain rfl := Option.some.inj hb
      exact hgood
  | some b0 =>
      refine ⟨_, _, rfl, ?_, by split <;> rfl⟩
      intro b hb
      by_cases hlt : CostArith.lt me b0.mec = true
      · rw [if_pos hlt] at hb
        obtain rfl := Option.some.inj hb
        exact hgood
      · rw [if_neg hlt] at hb
        exact ho b hb

theorem buildLoop_spec {cap : Nat} (hcap : rs.num ≤ cap) (hnum : rs.num = rs.items.length)
    (hne : rs.items ≠ []) (hfit : ∀ r ∈ rs.items, r.Fits) (ds : List Dim) :
    ∀ (n : SNode) (o : Option (BestDim K)), (∀ b ∈ o, b.Good rs) →
      ∃ n' o', ds.foldlM (buildStep (K := K) cap rs) (n, o) = .ok (n', o') ∧
        (∀ b ∈ o', b.Good rs) ∧ (o.isSome ∨ ds ≠ [] → o'.isSome) := by
  induction ds with
  | nil => exact fun n o ho => ⟨n, o, rfl, ho, fun h => h.resolve_right (not_not.mpr rfl)⟩
  | cons i ds ih =>
      intro n o ho
      obtain ⟨n1, o1, hstep, ho1, hsome⟩ := buildStep_spec hcap hnum hne hfit n o ho i
      obtain ⟨n', o', hrest, hgood, hsome'⟩ := ih n1 o1 ho1
      refine ⟨n', o', ?_, hgood, fun _ => hsome' (Or.inl hsome)⟩
      rw [List.foldlM_cons, hstep]
      exact hrest

/-- **`split_match_build_childs`** never fails, and an enabled side carries a split of
its rules. -/
theorem splitMatchBuildChilds_spec {cap : Nat} (n : SNode) (hcap : rs.num ≤ cap)
    (hnum : rs.num = rs.items.length) (hne : rs.items ≠ []) (hfit : ∀ r ∈ rs.items, r.Fits) :
    ∃ n', splitMatchBuildChilds K cap n rs = .ok n' ∧
      (n'.enabled = true → IsSplit rs.items n'.dim n'.r0 n'.r1) := by
  unfold splitMatchBuildChilds
  by_cases hsmall : rs.num ≤ bucketSize
  · exact ⟨_, if_pos hsmall, fun h => absurd h (by simp)⟩
  · rw [if_neg hsmall]
    -- the first dimension is tried unconditionally, so something is remembered
    obtain ⟨n1, o1, h1, hgood, hsome⟩ := buildLoop_spec (K := K) hcap hnum hne hfit (List.finRange 5)
      { n with enabled := true } none (by simp)
    rw [h1]
    simp only [bind, Except.bind]
    cases o1 with
    | none => exact absurd (hsome (Or.inr (by decide))) (by simp)
    | some b =>
        refine ⟨_, rfl, ?_⟩
        intro hen
        rcases hgood b rfl with hmec | hs
        · dsimp only at hen
          rw [hmec, doubleEquals_self] at hen
          exact absurd hen (by simp)
        · exact hs

/-- **`split_match_expect`** computes the node's own tree in every dimension where two
rules differ, whatever the scratch area held; it fails only when a side does not fit the
scratch buffers. -/
theorem splitMatchExpectTree_spec {aux : SplitAux} (hranges : rs.num ≤ aux.rangesCap)
    (hnum : rs.num = rs.items.length) (hfit : ∀ r ∈ rs.items, r.Fits)
    (hdiff : ¬ SameRange rs.items d) :
    (aux.rulesCap < rs.num ∧ splitMatchExpectTree K aux rs d = .error .assertion) ∨
    ∃ me t, splitMatchExpectTree K aux rs d = .ok (me, t) ∧ STreeFor rs.items d t ∧
      (me = splitMatchExpectHeuristic t.root.r0.weight t.root.r1.weight ∧
          (doubleEquals me (CostArith.ofNat rs.num) = true ∨
            (t.root.r0.weight ≤ bucketSize ∧ t.root.r1.weight ≤ bucketSize)) ∨
        me = splitMatchExpectSubtree t ∧
          t.root.r0.weight ≤ aux.rulesCap ∧ t.root.r1.weight ≤ aux.rulesCap) := by
  obtain ⟨r0, r1, hexp, hsplit⟩ := splitMatchExpect1d_spec (K := K) (d := d)
    { (aux.strees d).root with dim := d, enabled := true } hranges hnum hfit hdiff
  unfold splitMatchExpectTree
  simp only [hexp, bind, Except.bind]
  by_cases heq : doubleEquals (splitMatchExpectHeuristic r0.weight r1.weight : K)
      (CostArith.ofNat rs.num) = true
  · rw [if_pos heq]
    exact Or.inr ⟨_, _, rfl, ⟨hsplit, by simp, by simp⟩, Or.inl ⟨rfl, Or.inl heq⟩⟩
  · rw [if_neg heq]
    by_cases hsmall : r0.weight ≤ bucketSize ∧ r1.weight ≤ bucketSize
    · rw [if_pos hsmall]
      exact Or.inr ⟨_, _, rfl, ⟨hsplit, by simp, by simp⟩, Or.inl ⟨rfl, Or.inr hsmall⟩⟩
    · rw [if_neg hsmall]
      have hle := hsplit.weight_le
      have hll := hsplit.length_left hfit
      have hlr := hsplit.length_right hfit
      rw [splitCut1d_eq (n := { (aux.strees d).root with dim := d, enabled := true, r0 := r0, r1 := r1 })
        hsplit hfit]
      dsimp only
      by_cases hroom : r0.weight ≤ aux.rulesCap ∧ r1.weight ≤ aux.rulesCap
      swap
      · rw [if_neg hroom]
        exact Or.inl ⟨by omega, rfl⟩
      rw [if_pos hroom]
      have hside : ∀ (x : Range1d) (n : SNode), (clipTo x.range d rs.items).length = x.weight →
          HalfOf rs.items d (clipTo x.range d rs.items) → x.range.lo ≤ x.range.hi →
          x.weight ≤ rs.items.length →
          ∃ n', splitMatchBuildChilds K aux.rangesCap n
              ((Buffer.alloc aux.rulesCap).extend (clipTo x.range d rs.items)) = .ok n' ∧
            (n'.enabled = true → IsSplit (clipTo x.range d rs.items) n'.dim n'.r0 n'.r1) := by
        intro x n hlen hhalf hx hxle
        have hb : ((Buffer.alloc aux.rulesCap : RuleSet).extend (clipTo x.range d rs.items)).items
            = clipTo x.range d rs.items := by simp
        obtain ⟨n', h1, h2⟩ := @splitMatchBuildChilds_spec K _
          ((Buffer.alloc aux.rulesCap).extend (clipTo x.range d rs.items)) aux.rangesCap n
          (by simp only [Buffer.extend_num, Buffer.alloc_num]; omega) (by simp)
          (by rw [hb]; exact hhalf.ne_nil hfit)
          (by
            rw [hb]
            intro q hq
            obtain ⟨r, hr, hm, rfl⟩ := mem_clipTo hq
            exact clip_fits (hfit r hr) hx hm)
        rw [hb] at h2
        exact ⟨n', h1, h2⟩
      obtain ⟨nl, hnl, hsl⟩ := hside r0 (aux.strees d).left hll ⟨_, _, hsplit, Or.inl rfl⟩
        hsplit.left_le hle.1
      obtain ⟨nr, hnr, hsr⟩ := hside r1 (aux.strees d).right hlr ⟨_, _, hsplit, Or.inr rfl⟩
        hsplit.right_le hle.2
      dsimp only
      rw [hnl, hnr]
      exact Or.inr ⟨_, _, rfl, ⟨hsplit, hsl, hsr⟩, Or.inr ⟨rfl, hroom⟩⟩

/-- In a dimension where all rules agree, the tree keeps its old ranges and weights. -/
theorem splitMatchExpectTree_same {aux : SplitAux} (hranges : rs.num ≤ aux.rangesCap)
    (hne : rs.items ≠ []) (hsame : SameRange rs.items d) :
    splitMatchExpectTree K aux rs d = .ok (CostArith.ofNat rs.num,
      ⟨{ (aux.strees d).root with dim := d, enabled := false },
        { (aux.strees d).left with enabled := false },
        { (aux.strees d).right with enabled := false }⟩) := by
  unfold splitMatchExpectTree
  dsimp only
  rw [splitMatchExpect1d_same _ hranges hne hsame]
  simp [bind, Except.bind, doubleEquals_self]

/-- Too many rules for the scratch ranges: the sweep writes past them. -/
theorem splitMatchExpectTree_overrun {aux : SplitAux} (h : aux.rangesCap < rs.num) :
    splitMatchExpectTree K aux rs d = .error .overrun := by
  unfold splitMatchExpectTree splitMatchExpect1d
  dsimp only
  rw [if_pos h]
  rfl

/-- A call that returns had room for the ranges. -/
theorem splitMatchExpectTree_room {aux : SplitAux} {q : K × STree}
    (h : splitMatchExpectTree K aux rs d = .ok q) : rs.num ≤ aux.rangesCap := by
  by_contra hlt
  rw [splitMatchExpectTree_overrun (Nat.not_le.mp hlt)] at h
  cases h

end Expect

end ChooseCut
