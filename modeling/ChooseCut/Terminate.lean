import Mathlib.Algebra.BigOperators.Fin
import Mathlib.Algebra.Order.BigOperators.Group.Finset
import ChooseCut.Dispatch
import ChooseCut.Granular

/-!
# ChooseCut.Terminate

The build comes to an end.

No single quantity decreases along a path: a child can hold as many rules as its parent,
a bitmap cut can hold more, and it makes ranges longer again. What decreases is the pair
of the bitmap cuts still possible and the lengths of the hulls. A bitmap cut is selected
only for a gain, which it cannot have in a dimension that all rules cover, so every
dimension takes a bounded number of them. A split cut shortens the hull of its dimension,
and so does a hi cut with more than one child; a hi cut with one child has neither a gain
nor children that fit.

All this needs a gain to exist: two rules of a node that differ. Redundancy removal sees
to that at every node but the root, and the root is the one node where no bitmap cut has
been spent.
-/

namespace ChooseCut

/-! ### Cuts without gain -/

/-- With a single child, `get_match_expect` adds one term. -/
theorem getMatchExpect_term {K : Type} [CostArith K] {hist : RuleHist}
    (hzero : hist.childRulecount 0 ≠ 0) (hrest : ∀ i, i ≠ 0 → hist.childRulecount i = 0) :
    (getMatchExpect hist : K) = CostArith.add (CostArith.ofNat 0)
      (CostArith.div (CostArith.sqI (hist.childRulecount 0)) (CostArith.ofNat hist.rules)) := by
  have hskip : ∀ (l : List Nat) (a : K), (∀ i ∈ l, i ≠ 0) →
      l.foldl (fun ret i =>
        if hist.childRulecount i ≠ 0 then
          CostArith.add ret
            (CostArith.div (CostArith.sqI (hist.childRulecount i)) (CostArith.ofNat hist.rules))
        else ret) a = a := by
    intro l
    induction l with
    | nil => intro a _; rfl
    | cons i l ih =>
        intro a hl
        rw [List.foldl_cons, if_neg (by simpa using hrest i (hl i List.mem_cons_self))]
        exact ih a (fun j hj => hl j (List.mem_cons_of_mem i hj))
  unfold getMatchExpect
  rw [show childCount = 126 + 1 from rfl, List.range_succ_eq_map, List.foldl_cons, if_pos hzero]
  exact hskip _ _ (by simp)

/-- A histogram with a single child costs what the child holds. -/
theorem getMatchExpect_single {hist : RuleHist} {n : Nat} (hn : 0 < n)
    (hzero : hist.childRulecount 0 = n) (hrest : ∀ i, i ≠ 0 → hist.childRulecount i = 0)
    (hrules : hist.rules = n) : (getMatchExpect hist : ℚ) = n := by
  have hne : (n : ℚ) ≠ 0 := by exact_mod_cast hn.ne'
  rw [getMatchExpect_term (by omega) hrest, hzero, hrules]
  show ((0 : Nat) : ℚ) + (n : ℚ) * n / n = n
  rw [Nat.cast_zero, zero_add, mul_div_assoc, div_self hne, mul_one]

/-- The whole of a dimension is one prefix, of length zero, and belongs to the root of
the internal tree. -/
theorem prefixes_whole (d : Dim) :
    (prefixes ⟨0, 2 ^ dimBits d - 1⟩ (dimBits d)).map (prefixIdx d) = [0] := by
  revert d
  decide

section Gain

variable {rs : List Rule} {d : Dim}

/-- In a dimension that every rule covers, all prefixes belong to the root. -/
theorem prefixIdxs_whole (hall : ∀ r ∈ rs, r.range d = ⟨0, 2 ^ dimBits d - 1⟩) :
    prefixIdxs rs d = List.replicate rs.length 0 := by
  unfold prefixIdxs
  induction rs with
  | nil => rfl
  | cons r rs ih =>
      rw [List.flatMap_cons, hall r List.mem_cons_self, prefixes_whole,
        ih (fun r hr => hall r (List.mem_cons_of_mem _ hr))]
      rfl

/-- The histogram of such a dimension has a single child, with all rules. -/
theorem getRuleHist_whole (hfit : ∀ r ∈ rs, r.Fits) (hne : rs ≠ [])
    (hall : ∀ r ∈ rs, r.range d = ⟨0, 2 ^ dimBits d - 1⟩) :
    (getRuleHist rs d).childRulecount 0 = rs.length ∧
      (∀ i, i ≠ 0 → (getRuleHist rs d).childRulecount i = 0) ∧
      (getRuleHist rs d).rules = rs.length := by
  have hidx := prefixIdxs_whole hall
  have hpos := List.length_pos_of_ne_nil hne
  have hcount : (prefixIdxs rs d).count 0 = rs.length := by rw [hidx, List.count_replicate_self]
  have hother : ∀ i, i ≠ 0 → (prefixIdxs rs d).count i = 0 := fun i hi => by
    rw [hidx, List.count_eq_zero_of_not_mem]
    exact fun hmem => hi (List.eq_of_mem_replicate hmem)
  refine ⟨?_, fun i hi => ?_, ?_⟩
  · rw [getRuleHist_count hfit, hidx, if_pos (List.mem_replicate.mpr ⟨by omega, rfl⟩),
      List.countP_replicate, if_pos (by simpa using self_mem_ancestors 0)]
  · rw [getRuleHist_count hfit, if_neg]
    rw [hidx]
    exact fun hmem => hi (List.eq_of_mem_replicate hmem)
  · rw [getRuleHist, histLoop_eq]
    dsimp only
    rw [show childCount = 126 + 1 from rfl, List.range_succ_eq_map, List.map_cons, List.sum_cons,
      List.map_map, List.sum_eq_zero]
    · rw [countPrefixes_eq, if_neg (by omega), pathSum_zero, countPrefixes_eq, hcount, add_zero]
    · intro x hx
      obtain ⟨i, -, rfl⟩ := List.mem_map.mp hx
      simp [countPrefixes_eq, hother (i + 1) (Nat.succ_ne_zero i)]

/-- A bitmap cut has no gain in a dimension that every rule covers. -/
theorem evenMatchExpect_whole (hfit : ∀ r ∈ rs, r.Fits) (hne : rs ≠ [])
    (hall : ∀ r ∈ rs, r.range d = ⟨0, 2 ^ dimBits d - 1⟩) :
    (evenMatchExpect rs d : ℚ) = rs.length := by
  obtain ⟨hzero, hrest, hrules⟩ := getRuleHist_whole hfit hne hall
  exact getMatchExpect_single (List.length_pos_of_ne_nil hne) hzero hrest hrules

/-- A hi cut with a single child hands it every rule. -/
theorem HiFor.single {e : HiEntry} (h : HiFor rs d e) (hfit : ∀ r ∈ rs, r.Fits)
    (hone : e.hist.childs = 1) : e.hist.childRulecount 0 = rs.length := by
  rw [h.count 0 h.pos, length_clipTo, List.countP_eq_length]
  intro r hr
  have hcover := h.cover
  rw [hone] at hcover
  have hmeet := (h.meets_iff hr (hfit r hr d).1 0).mpr
    ⟨Nat.le_trans (e.seg_mono (Nat.le_trans (hfit r hr d).1 (le_hullHi hr))) hcover,
      by rw [h.part.first h.pos]; exact Nat.zero_le _⟩
  simpa using hmeet

theorem HiFor.single_cost {e : HiEntry} (h : HiFor rs d e) (hfit : ∀ r ∈ rs, r.Fits)
    (hne : rs ≠ []) (hone : e.hist.childs = 1) : (getMatchExpect e.hist : ℚ) = rs.length := by
  have hzero := h.single hfit hone
  refine getMatchExpect_single (List.length_pos_of_ne_nil hne) hzero (fun i hi => ?_) ?_
  · exact h.beyond i (by omega)
  · rw [h.rules, hone]
    simp [hzero]

end Gain

/-! ### Hulls -/

/-- The total length of the hulls. -/
def hullSum (rs : List Rule) : Nat := ∑ d, hullLen rs d

section Hull

variable {rs ks : List Rule} {d : Dim}

/-- The hull of a list lies where its ranges lie. -/
theorem hullLen_le {lo hi : Nat} (hne : ks ≠ [])
    (hin : ∀ q ∈ ks, lo ≤ (q.range d).lo ∧ (q.range d).hi ≤ hi) :
    hullLen ks d ≤ hi - lo + 1 := by
  obtain ⟨q, hq, hlo⟩ := exists_hullLo (d := d) hne
  obtain ⟨q', hq', hhi⟩ := exists_hullHi (d := d) hne
  have h1 := (hin q hq).1
  have h2 := (hin q' hq').2
  unfold hullLen
  omega

theorem hullLen_mono (hne : ks ≠ []) (hsub : ∀ q ∈ ks, q ∈ rs) : hullLen ks d ≤ hullLen rs d :=
  hullLen_le hne (fun q hq => ⟨hullLo_le (hsub q hq), le_hullHi (hsub q hq)⟩)

theorem hullSum_mono (hne : ks ≠ []) (hsub : ∀ q ∈ ks, q ∈ rs) : hullSum ks ≤ hullSum rs :=
  Finset.sum_le_sum (fun _ _ => hullLen_mono hne hsub)

/-- **Clipping to an interval that misses an end of the hull shortens it.** -/
theorem hullSum_clipTo {x : Range} (hfit : ∀ r ∈ rs, r.Fits) (hx : x.lo ≤ x.hi)
    (hne : clipTo x d rs ≠ []) (hend : hullLo rs d < x.lo ∨ x.hi < hullHi rs d) :
    hullSum (clipTo x d rs) < hullSum rs := by
  have hle : ∀ e, hullLen (clipTo x d rs) e ≤ hullLen rs e := by
    intro e
    refine hullLen_le hne (fun q hq => ?_)
    obtain ⟨r, hr, -, rfl⟩ := mem_clipTo hq
    have h1 := hullLo_le (d := e) hr
    have h2 := le_hullHi (d := e) hr
    by_cases he : e = d
    · subst he
      rw [Rule.clip_range_same]
      exact ⟨Nat.le_trans h1 (Nat.le_max_left _ _), Nat.le_trans (Nat.min_le_left _ _) h2⟩
    · rw [Rule.clip_range_of_ne r he]
      exact ⟨h1, h2⟩
  refine Finset.sum_lt_sum (fun e _ => hle e) ⟨d, Finset.mem_univ d, ?_⟩
  have hlo := hullLo_clipTo hne
  have hhi := hullHi_clipTo hne
  -- a rule of the clipped list keeps the two ends in order
  obtain ⟨q, hq⟩ := List.exists_mem_of_ne_nil _ hne
  obtain ⟨r, hr, hm, rfl⟩ := mem_clipTo hq
  have h1 := (clip_fits (hfit r hr) hx hm d).1
  have h2 := hullLo_le (d := d) hq
  have h3 := le_hullHi (d := d) hq
  unfold hullLen
  omega

theorem HalfOf.hullSum_lt {k : List Rule} (h : HalfOf rs d k) (hfit : ∀ r ∈ rs, r.Fits) :
    hullSum k < hullSum rs := by
  have hne := h.ne_nil hfit
  obtain ⟨r0, r1, hs, rfl | rfl⟩ := h
  · exact hullSum_clipTo hfit hs.left_le hne (Or.inr hs.lt)
  · refine hullSum_clipTo hfit hs.right_le hne (Or.inl ?_)
    have := hs.next
    have := hs.ge
    change hullLo rs d < r1.low
    omega

/-- A child of a split cut is a half, or a half of a half. -/
theorem STreeFor.hullSum_lt {t : STree} {k : List Rule} (h : STreeFor rs d t) (hwf : RulesWF rs)
    (hk : k ∈ splitKids rs d t) : hullSum k < hullSum rs := by
  have hfit : ∀ r ∈ rs, r.Fits := fun r hr => (hwf r hr).fits
  obtain ⟨k1, hk1, rfl | ⟨e, hk2⟩⟩ := mem_splitKids h hk
  · exact hk1.hullSum_lt hfit
  · exact Nat.lt_trans (hk2.hullSum_lt (fun r hr => (hk1.wf hwf r hr).fits))
      (hk1.hullSum_lt hfit)

/-- With two children or more, every interval of a hi cut misses an end of the hull. -/
theorem HiFor.hullSum_lt {e : HiEntry} (h : HiFor rs d e) (hfit : ∀ r ∈ rs, r.Fits)
    (htwo : 1 < e.hist.childs) {i : Nat} (hi : i < e.hist.childs)
    (hne : clipTo (hiInterval e i) d rs ≠ []) :
    hullSum (clipTo (hiInterval e i) d rs) < hullSum rs := by
  refine hullSum_clipTo hfit (h.interval_le hi) hne ?_
  cases i with
  | succ i =>
      left
      have hpos : 0 < (e.nodeR (i + 1)).1 := by
        rw [h.part.next i hi]
        exact Nat.succ_pos _
      rw [← h.start_eq]
      change e.start < e.start + (e.nodeR (i + 1)).1 * 2 ^ e.shift
      have := Nat.mul_pos hpos (Nat.two_pow_pos e.shift)
      omega
  | zero =>
      right
      have hrs : rs ≠ [] := by
        rintro rfl
        exact hne rfl
      have hge : e.start ≤ hullHi rs d := by
        obtain ⟨r, hr, hhi⟩ := exists_hullHi (d := d) hrs
        have := h.start_le hr
        have := (hfit r hr d).1
        omega
      have hin := h.inHull 1 htwo
      rw [h.part.next 0 htwo] at hin
      have hedge := (le_seg_iff hge).mp hin
      have hpos : 0 < ((e.nodeR 0).2 + 1) * 2 ^ e.shift :=
        Nat.mul_pos (Nat.succ_pos _) (Nat.two_pow_pos _)
      unfold edge at hedge
      unfold hiInterval
      dsimp only
      omega

/-- No hull is longer than its dimension. -/
theorem hullSum_le (hfit : ∀ r ∈ rs, r.Fits) : hullSum rs ≤ ∑ d, 2 ^ dimBits d := by
  refine Finset.sum_le_sum (fun d _ => ?_)
  have hpos := Nat.two_pow_pos (dimBits d)
  by_cases hne : rs = []
  · subst hne
    exact hpos
  · have : hullLen rs d ≤ 2 ^ dimBits d - 1 - 0 + 1 := hullLen_le hne
      (fun q hq => ⟨Nat.zero_le _, by have := (hfit q hq d).2; omega⟩)
    omega

end Hull

/-! ### One cut -/

/-- The bitmap cuts still possible. -/
def cutsLeft (m : Dim → Nat) : Nat := ∑ d, ((dimBits d + stride - 1) / stride - m d)

/-- The measure of a node: the bitmap cuts left, then the lengths of the hulls. -/
def cutMeasure (m : Dim → Nat) (rs : List Rule) : Nat :=
  cutsLeft m * (∑ d, 2 ^ dimBits d + 1) + hullSum rs

/-- A node with more than a bucket of rules: nothing has been spent yet, or redundant
rules have been removed. -/
structure Stage (m : Dim → Nat) (rs : RuleSet) : Prop where
  sane : Sane rs
  granular : GranularAt m rs.items
  start : (∀ d, m d = 0) ∨ Irredundant rs.items

theorem cutsLeft_bump {m : Dim → Nat} {d : Dim} (h : m d < (dimBits d + stride - 1) / stride) :
    cutsLeft (bump m .bitmap d) < cutsLeft m := by
  unfold cutsLeft bump
  rw [if_pos rfl]
  refine Finset.sum_lt_sum (fun e _ => ?_) ⟨d, Finset.mem_univ d, ?_⟩
  · by_cases he : e = d
    · subst he
      rw [Function.update_self]
      omega
    · rw [Function.update_of_ne he]
  · rw [Function.update_self]
    omega

section Step

variable {aux aux' : CutAux} {m : Dim → Nat} {rs : RuleSet} {t : CutType} {d : Dim}

/-- A cut that spends no bitmap cut decreases the measure by a shorter hull. -/
theorem cutMeasure_lt_of_hullSum {l k ks : List Rule} (ht : t ≠ .bitmap) (hne : ks ≠ [])
    (hsub : ∀ q ∈ ks, q ∈ k) (hshort : hullSum k < hullSum l) :
    cutMeasure (bump m t d) ks < cutMeasure m l := by
  have hmono := hullSum_mono hne hsub
  unfold cutMeasure bump
  rw [if_neg ht]
  omega

/-- Two rules that no redundancy removal would merge differ somewhere. -/
theorem Irredundant.exists_differ {l : List Rule} (h : Irredundant l) (hlen : 1 < l.length) :
    ∃ d, ¬ SameRange l d := by
  by_contra hall
  push Not at hall
  match l, h, hlen, hall with
  | a :: b :: l, h, _, hall =>
      refine List.rel_of_pairwise_cons h (List.mem_cons_self (a := b)) (fun d => ?_)
      rw [hall d a (by simp) b (by simp)]
      exact ⟨Nat.le_refl _, Nat.le_refl _⟩

/-- A bitmap cut is selected only for a gain, once a gain exists. -/
theorem Selected.bitmap_gain (h : Selected ℚ aux rs aux' .bitmap d) (hs : Sane rs)
    (hne : rs.items ≠ []) {e : Dim} (he : ¬ SameRange rs.items e) :
    CostArith.lt (costOf ℚ aux rs .bitmap d) (CostArith.ofNat rs.num) = true := by
  have htype := h.type_eq
  rcases chooseByMemory_spec (fun t => quantOf aux' t (bestOf (costOf ℚ aux rs t)).2)
    (chooseByExpect rs.num (fun t => (bestOf (costOf ℚ aux rs t)).1)) with hm | hm
  · rw [← htype] at hm
    rcases chooseByExpect_spec rs.num (fun t => (bestOf (costOf ℚ aux rs t)).1) with hx | ⟨-, hx⟩
    · rw [← hm, bestOf_fst, ← h.dim_eq] at hx
      exact hx
    · have hlt := h.split_lt hs hne he
      rw [hx .split] at hlt
      exact Bool.noConfusion hlt
  · rw [← htype] at hm
    exact absurd hm (Nat.lt_irrefl _)

/-- **A bitmap cut is selected only while the dimension has key bits left.** -/
theorem Stage.bitmap_left (hst : Stage m rs) (hbig : bucketSize < rs.num)
    (h : Selected ℚ aux rs aux' .bitmap d) : m d < (dimBits d + stride - 1) / stride := by
  rcases hst.start with h0 | hirr
  · have := stride_lt_dimBits d
    rw [h0 d]
    simp only [stride] at this ⊢
    omega
  · by_contra hge
    have hs := hst.sane
    have hne := hs.ne_nil hbig
    obtain ⟨e, he⟩ := hirr.exists_differ (by
      have := hs.num_eq
      simp only [bucketSize] at hbig
      omega)
    have hgain := h.bitmap_gain hs hne he
    have hwhole := evenMatchExpect_whole hs.fits hne (fun r hr =>
      hst.granular.covers hs.fits (d := d) (by simp only [stride] at hge ⊢; omega) hr)
    have hcost : costOf ℚ aux rs .bitmap d = rs.num := by
      rw [hs.num_eq, ← hwhole]
      exact costOf_eq (by rw [matchExpect])
    rw [hcost] at hgain
    exact absurd (of_decide_eq_true hgain) (lt_irrefl _)

/-- **A hi cut is selected only with two children or more.** -/
theorem Selected.hi_two (h : Selected ℚ aux rs aux' .hi d) (hs : Sane rs)
    (hbig : bucketSize < rs.num) (hlen : 4 ≤ hullLen rs.items d) :
    HiFor rs.items d (aux'.hi.entries d) ∧ 1 < (aux'.hi.entries d).hist.childs := by
  have hne := hs.ne_nil hbig
  obtain ⟨aux1, hme, hsame⟩ := h.entry .hi d
  obtain ⟨hcost, hfor⟩ := hiGetRuleHist_ok (matchExpect_hi hme) hne hs.fits hlen
  rw [show aux1.hi.entries d = aux'.hi.entries d from hsame] at hcost hfor
  refine ⟨hfor, ?_⟩
  by_contra hle
  have hone : (aux'.hi.entries d).hist.childs = 1 := by
    have := hfor.pos
    omega
  rcases h.reason (by decide) with hgain | hfits
  · rw [hcost, hfor.single_cost hs.fits hne hone, hs.num_eq] at hgain
    exact absurd (of_decide_eq_true hgain) (lt_irrefl _)
  · rw [allFitsBs, RuleHist.fitsBs_iff] at hfits
    have := hfits 0 (by decide)
    rw [hfor.single hs.fits hone, ← hs.num_eq] at this
    omega

/-- The rules `remove_redund` leaves. -/
theorem removeRedund_items {l : List Rule} (hwf : RulesWF l) :
    (removeRedund (Buffer.ofList l)).items = clean [] l := by
  by_cases hne : l = []
  · subst hne
    rw [removeRedund_nil rfl]
    rfl
  · rw [removeRedund_eq hne (fun r hr => Nat.ne_of_lt (hwf r hr).pri_lt)]
    rfl

/-- The stage of a nested call: one more cut has been spent. -/
theorem Stage.child {w : NodeWord} {ks : List RuleSet} {k : RuleSet} (hst : Stage m rs)
    (hbig : bucketSize < rs.num) (hown : OwnScratch ℚ aux' rs t d)
    (hcut : cutInto aux' rs t d = .ok (w, ks)) (hk : k ∈ ks)
    (hchild : bucketSize < (removeRedund k).num) : Stage (bump m t d) (removeRedund k) := by
  have hs := hst.sane
  obtain ⟨kids, rfl, hto, hwt⟩ := cutInto_ok (hown.entryFor hs (hs.ne_nil hbig)) hs.fits hcut
  obtain ⟨l, hl, rfl⟩ := List.mem_map.mp hk
  have hlwf := hto.wf hs.wf l hl
  have hitems := removeRedund_items hlwf
  refine ⟨removeRedund_sane_of_big hlwf hchild, ?_, Or.inr (hitems ▸ clean_irredundant)⟩
  rw [← hwt, hitems]
  exact (hto.granular hs.wf hst.granular l hl).sublist (fun q hq => clean_sublist.subset hq)

/-- **One nested call decreases the measure.** -/
theorem Stage.step {w : NodeWord} {ks : List RuleSet} {k : RuleSet} (hst : Stage m rs)
    (hbig : bucketSize < rs.num) (hsel : selectCut ℚ aux rs = .ok (aux', t, d))
    (hown : OwnScratch ℚ aux' rs t d) (hcut : cutInto aux' rs t d = .ok (w, ks)) (hk : k ∈ ks)
    (hchild : bucketSize < (removeRedund k).num) :
    ∃ m', Stage m' (removeRedund k) ∧
      cutMeasure m' (removeRedund k).items < cutMeasure m rs.items := by
  have hs := hst.sane
  have hsel := selectCut_ok hsel
  have hstage := hst.child hbig hown hcut hk hchild
  have hsane := hstage.sane
  have hne := hsane.ne_nil hchild
  obtain ⟨kids, rfl, hto, hwt⟩ := cutInto_ok (hown.entryFor hs (hs.ne_nil hbig)) hs.fits hcut
  obtain ⟨l, hl, rfl⟩ := List.mem_map.mp hk
  have hsub : ∀ q ∈ (removeRedund (Buffer.ofList l)).items, q ∈ l := by
    rw [removeRedund_items (hto.wf hs.wf l hl)]
    exact fun q hq => clean_sublist.subset hq
  refine ⟨bump m t d, hstage, ?_⟩
  -- a bitmap cut spends one of the cuts left; any other cut shortens a hull
  cases t with
  | bitmap =>
      have hless := cutsLeft_bump (hst.bitmap_left hbig hsel)
      have hbound := hullSum_le hsane.fits
      have hmul := Nat.mul_le_mul_right (∑ d, 2 ^ dimBits d + 1) (Nat.succ_le_of_lt hless)
      rw [Nat.succ_mul] at hmul
      unfold cutMeasure
      omega
  | split =>
      have hshort : hullSum l < hullSum rs.items := by
        cases hto with
        | split htree => exact htree.hullSum_lt hs.wf hl
        | bitmap => cases hwt
        | hi _ => cases hwt
      exact cutMeasure_lt_of_hullSum (by decide) hne hsub hshort
  | hi =>
      obtain ⟨hfor, htwo⟩ := hsel.hi_two hs hbig hown.1
      have hkids : (hiKids rs.items d (aux'.hi.entries d)).map Buffer.ofList
          = kids.map Buffer.ofList := by
        simp only [cutInto, hiCut_eq hfor hs.fits, bind, Except.bind, Except.ok.injEq,
          Prod.mk.injEq] at hcut
        exact hcut.2
      have hmem : Buffer.ofList l ∈ (hiKids rs.items d (aux'.hi.entries d)).map Buffer.ofList :=
        hkids ▸ hk
      obtain ⟨l', hl', heq⟩ := List.mem_map.mp hmem
      obtain rfl : l' = l := congrArg Buffer.items heq
      obtain ⟨i, hi, rfl⟩ := mem_hiKids hl'
      have hcne : clipTo (hiInterval (aux'.hi.entries d) i) d rs.items ≠ [] := by
        intro hnil
        obtain ⟨q, hq⟩ := List.exists_mem_of_ne_nil _ hne
        have := hsub q hq
        rw [hnil] at this
        exact absurd this List.not_mem_nil
      exact cutMeasure_lt_of_hullSum (by decide) hne hsub (hfor.hullSum_lt hs.fits htwo hi hcne)

end Step

/-! ### Room for a split -/

/-- A split is worth a third of a rule at least. -/
theorem mean_sq_gap {n l r : Nat} (hl : 0 < l) (hr : 0 < r) (hln : l ≤ n) (hrn : r ≤ n)
    (h : l < n ∨ r < n) :
    (r : ℚ) * r / ((r + l : Nat) : ℚ) + (l : ℚ) * l / ((r + l : Nat) : ℚ) + 1 / 3 ≤ n := by
  have hsum : (0 : ℚ) < ((r + l : Nat) : ℚ) := by exact_mod_cast Nat.add_pos_left hr l
  -- a side that misses a rule pays for itself, and for a side that misses none
  have hpay : ∀ x < n, x * x + x ≤ n * x := by
    intro x hx
    nlinarith
  have hfull : ∀ x, 0 < x → x < n → 3 * (x * x) + (n + x) ≤ 3 * (n * x) := by
    intro x hx hxn
    obtain ⟨k, rfl⟩ := Nat.exists_eq_add_of_lt hxn
    nlinarith [Nat.mul_le_mul_right k hx]
  have hnat : 3 * (r * r + l * l) + (r + l) ≤ 3 * (n * (r + l)) := by
    rcases Nat.lt_or_eq_of_le hln with hl' | rfl
    · rcases Nat.lt_or_eq_of_le hrn with hr' | rfl
      · linarith [hpay l hl', hpay r hr']
      · linarith [hfull l hl hl']
    · linarith [hfull r hr (h.resolve_left (lt_irrefl _))]
  have hcast : 3 * ((r : ℚ) * r + l * l) + ((r + l : Nat) : ℚ) ≤ 3 * (n * ((r + l : Nat) : ℚ)) := by
    exact_mod_cast hnat
  rw [← add_div, ← le_sub_iff_add_le, div_le_iff₀ hsum]
  linarith

/-- Exactly, the cost of a split is never taken for the rule count. -/
theorem IsSplit.not_doubleEquals {rs : List Rule} {d : Dim} {r0 r1 : Range1d}
    (h : IsSplit rs d r0 r1) :
    doubleEquals (splitMatchExpectHeuristic r0.weight r1.weight : ℚ)
      (CostArith.ofNat rs.length) = false := by
  have hle := h.weight_le
  have hgap := mean_sq_gap h.weight0_pos h.weight1_pos hle.1 hle.2 h.weight_lt
  have hme : (splitMatchExpectHeuristic r0.weight r1.weight : ℚ) + 1 / 3 ≤ rs.length := hgap
  have hlow : (splitMatchExpectHeuristic r0.weight r1.weight : ℚ) ≤ rs.length := by linarith
  have hfar : ¬ ((rs.length : ℚ) - splitMatchExpectHeuristic r0.weight r1.weight < 1 / 10000) := by
    linarith
  have hle' : CostArith.le (splitMatchExpectHeuristic r0.weight r1.weight : ℚ)
      (CostArith.ofNat rs.length) = true := decide_eq_true hlow
  rw [doubleEquals, if_pos hle']
  exact decide_eq_false hfar

/-- The scratch buffers that were large enough to compute a split are large enough to
make it. -/
theorem Selected.split_room {aux aux' : CutAux} {rs : RuleSet} {d : Dim}
    (h : Selected ℚ aux rs aux' .split d) (hs : Sane rs) (hdiff : ¬ SameRange rs.items d)
    (hcap : bucketSize ≤ aux.split.rulesCap) :
    (aux'.split.strees d).root.r0.weight ≤ aux'.split.rulesCap ∧
      (aux'.split.strees d).root.r1.weight ≤ aux'.split.rulesCap := by
  obtain ⟨aux1, hme, hsame⟩ := h.entry .split d
  obtain ⟨hroom, htree⟩ := matchExpect_split hme
  rw [(show aux1.split.strees d = aux'.split.strees d from hsame)] at htree
  rw [h.caps.splitRules]
  rcases splitMatchExpectTree_spec (K := ℚ) hroom hs.num_eq hs.fits hdiff with
    ⟨-, herr⟩ | ⟨me, tree, hok, hfor, hcost⟩
  · rw [herr] at htree
    cases htree
  · rw [hok] at htree
    simp only [Except.ok.injEq, Prod.mk.injEq] at htree
    rw [← htree.2]
    rcases hcost with ⟨rfl, heq | hsmall⟩ | ⟨-, hfits⟩
    · rw [hs.num_eq, hfor.root.not_doubleEquals] at heq
      exact Bool.noConfusion heq
    · omega
    · exact hfits

/-! ### Whole runs -/

/-- `cut_node` on `rs` calls `cut_node` on `rs'`: the rules of one of the children, after
redundancy removal. -/
def NestedCall (rs rs' : RuleSet) : Prop :=
  bucketSize < rs.num ∧ ∃ aux aux' t d w ks, selectCut ℚ aux rs = .ok (aux', t, d) ∧
    OwnScratch ℚ aux' rs t d ∧ cutInto aux' rs t d = .ok (w, ks) ∧ ∃ k ∈ ks, rs' = removeRedund k

/-- The selection at this call succeeds, and the dispatch reads scratch data computed from
the node's own rules. -/
def Call.Dispatches (K : Type) [CostArith K] (c : Call) : Prop :=
  bucketSize < c.rs.num →
    ∃ aux t d, selectCut K c.aux c.rs = .ok (aux, t, d) ∧ OwnScratch K aux c.rs t d

/-- Along a chain of nested calls the measure bounds the length. -/
theorem Stage.no_chain : ∀ (n : Nat) {m : Dim → Nat} {chain : Nat → RuleSet}, Stage m (chain 0) →
    cutMeasure m (chain 0).items ≤ n → ¬ ∀ i, NestedCall (chain i) (chain (i + 1)) := by
  intro n
  induction n with
  | zero =>
      intro m chain hst hle hchain
      obtain ⟨hbig, aux, aux', t, d, w, ks, hsel, hown, hcut, k, hk, hnext⟩ := hchain 0
      have hchild := (hchain 1).1
      rw [hnext] at hchild
      obtain ⟨m', -, hlt⟩ := hst.step hbig hsel hown hcut hk hchild
      omega
  | succ n ih =>
      intro m chain hst hle hchain
      obtain ⟨hbig, aux, aux', t, d, w, ks, hsel, hown, hcut, k, hk, hnext⟩ := hchain 0
      have hchild := (hchain 1).1
      rw [hnext] at hchild
      obtain ⟨m', hst', hlt⟩ := hst.step hbig hsel hown hcut hk hchild
      rw [← hnext] at hst' hlt
      exact @ih m' (fun i => chain (i + 1)) hst'
        (Nat.le_of_lt_succ (Nat.lt_of_lt_of_le hlt hle)) (fun i => hchain (i + 1))

/-- No measure is zero: a node can always still be made a leaf. -/
theorem cutMeasure_pos (m : Dim → Nat) (rs : List Rule) : 0 < cutMeasure m rs := by
  have h : hullLen rs 0 ≤ hullSum rs :=
    Finset.single_le_sum (fun d _ => Nat.zero_le _) (Finset.mem_univ 0)
  unfold cutMeasure
  unfold hullLen at h
  omega

/-- The rule for runs, with the measure as the recursion depth still needed. -/
theorem terminate_rule : RunRule ℚ (fun aux => bucketSize ≤ aux.split.rulesCap)
    (fun n rs => 0 < n ∧ (bucketSize < rs.num → ∃ m, Stage m rs ∧ cutMeasure m rs.items < n))
    (Call.Dispatches ℚ) (fun _ tree => ∀ l ∈ tree.leaves, l.num ≤ bucketSize)
    (fun _ => False) :=
  { fuel := fun _ h => absurd h.1 (Nat.lt_irrefl 0)
    leaf := fun _ _ _ _ _ hsmall l hl => by
      rw [CTree.leaves, List.mem_singleton] at hl
      exact hl ▸ hsmall
    select_error := by
      intro n c e _ _ hQ hbig hsel
      obtain ⟨aux, t, d, hok, -⟩ := hQ hbig
      rw [hok] at hsel
      cases hsel
    cut_error := by
      intro n c aux t d e hcap hI hQ hbig hsel hcut
      obtain ⟨m, hst, -⟩ := hI.2 hbig
      obtain ⟨aux', t', d', hok, hown⟩ := hQ hbig
      rw [hok] at hsel
      obtain ⟨rfl, rfl, rfl⟩ := by simpa using hsel
      have hs := hst.sane
      obtain ⟨w, ks, hok'⟩ := cutInto_of_room (hown.entryFor hs (hs.ne_nil hbig)) hs (by
        rintro rfl
        exact (selectCut_ok hok).split_room hs hown.1 hcap)
      rw [hok'] at hcut
      cases hcut
    node := by
      intro n c aux t d w ks hcap hI hQ hbig hsel hcut
      obtain ⟨m, hst, hlt⟩ := hI.2 hbig
      obtain ⟨aux', t', d', hok, hown⟩ := hQ hbig
      rw [hok] at hsel
      obtain ⟨rfl, rfl, rfl⟩ := by simpa using hsel
      have hpos := cutMeasure_pos m c.rs.items
      refine ⟨?_, (cutInto_kids hst.sane hbig hown hcut).1, fun k hk => ⟨by omega, ?_⟩, ?_⟩
      · rw [(selectCut_ok hok).caps.splitRules]
        exact hcap
      · intro hchild
        obtain ⟨m', hst', hlt'⟩ := hst.step hbig hok hown hcut hk hchild
        exact ⟨m', hst', by omega⟩
      · intro childs hlen hch l hl
        rw [CTree.leaves, mem_leavesOf] at hl
        obtain ⟨ch, hmem, hl⟩ := hl
        obtain ⟨s, hs, rfl⟩ := List.mem_iff_getElem.mp hmem
        exact hch s _ _ (List.getElem?_eq_getElem (hlen ▸ hs)) (List.getElem?_eq_getElem hs) l hl }

/-- **The build terminates.** With exact costs and every dispatch on scratch data computed
from the node itself there is no infinite chain of nested calls of `cut_node`, and with
enough recursion depth, the same for every content of the scratch area, `cut` returns a
tree whose leaves hold at most a bucket of rules. -/
theorem cut_terminates {rs : List Rule} (hwf : RulesWF rs) :
    (¬ ∃ chain : Nat → RuleSet, chain 0 = Buffer.ofList rs ∧
        ∀ i, NestedCall (chain i) (chain (i + 1))) ∧
      ∃ depth, ∀ fuel, depth ≤ fuel → ∀ aux,
        (∀ c ∈ (cut ℚ fuel aux rs).log, c.Dispatches ℚ) →
        ∃ tree aux', (cut ℚ fuel aux rs).res = .ok (tree, aux') ∧
          ∀ l ∈ tree.leaves, l.num ≤ bucketSize := by
  have hst : Stage (fun _ => 0) (Buffer.ofList rs) :=
    ⟨⟨rfl, hwf⟩, .zero _, Or.inl (fun _ => rfl)⟩
  refine ⟨?_, cutMeasure (fun _ => 0) rs + 1, fun fuel hfuel aux hsteps => ?_⟩
  · rintro ⟨chain, h0, hchain⟩
    rw [← h0] at hst
    exact hst.no_chain _ (Nat.le_refl _) hchain
  · unfold cut at hsteps ⊢
    by_cases hsmall : rs.length ≤ bucketSize
    · obtain ⟨n, rfl⟩ : ∃ n, fuel = n + 1 := ⟨fuel - 1, by omega⟩
      rw [cutNode_leaf hsmall]
      refine ⟨_, _, rfl, fun l hl => ?_⟩
      rw [CTree.leaves, List.mem_singleton] at hl
      exact hl ▸ hsmall
    · have hcap : bucketSize ≤ (auxInit aux rs.length).split.rulesCap := by
        change bucketSize ≤ rs.length
        omega
      have hend := (terminate_rule.cutNode fuel _ (Buffer.ofList rs) hcap
        ⟨by omega, fun _ => ⟨_, hst, by simp only [Buffer.ofList_items]; omega⟩⟩ hsteps).2
      cases hres : (cutNode ℚ fuel (auxInit aux rs.length) (Buffer.ofList rs)).res with
      | error e => exact absurd (hend.of_error hres) id
      | ok p => exact ⟨p.1, p.2, rfl, (hend.of_ok hres).1⟩

theorem Call.dispatches_of_check {K : Type} [CostArith K] {c : Call}
    (h : c.filledCheck K = true) : c.Dispatches K := by
  intro hbig
  cases hsel : selectCut K c.aux c.rs with
  | error e =>
      rw [Call.filledCheck, hsel] at h
      exact absurd (of_decide_eq_true h) (by omega)
  | ok s => exact ⟨s.1, s.2.1, s.2.2, rfl, (Call.filled_of_check h).own hbig _ _ _ hsel⟩

/-- The two groups of rules: the theorem's bound applies, and the run meets its condition. -/
theorem cut_terminates_pairRules :
    RulesWF pairRules ∧ (∀ c ∈ (cut ℚ 2 .zero pairRules).log, c.Dispatches ℚ) ∧
      ∃ depth, ∀ fuel, depth ≤ fuel → ∀ aux,
        (∀ c ∈ (cut ℚ fuel aux pairRules).log, c.Dispatches ℚ) →
        ∃ tree aux', (cut ℚ fuel aux pairRules).res = .ok (tree, aux') ∧
          ∀ l ∈ tree.leaves, l.num ≤ bucketSize := by
  obtain ⟨-, -, -, -, hlog⟩ := pairRules_tree
  exact ⟨pairRules_wf, fun c hc => Call.dispatches_of_check (hlog c hc),
    (cut_terminates pairRules_wf).2⟩

end ChooseCut
