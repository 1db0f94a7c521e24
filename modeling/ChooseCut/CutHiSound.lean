import ChooseCut.Clip
import ChooseCut.CutHiSweep
import ChooseCut.Lib.Partition

/-!
# ChooseCut.CutHiSound

The hi cut does what its scratch entry predicts.

`HiFor` says what an entry computed from a rule list looks like: consecutive runs of
segments that cover the hull, with the number of rules that meet each run. Such an
entry makes `hi_cut` succeed with children that are clipped copies of the rules, and
makes `hi_search` select a child that has the hits of the node. `hi_get_rule_hist`
establishes it whenever the hull has at least four values, at whatever granularity
the doubling loop stops.
-/

namespace ChooseCut

/-! ### Entries computed from a rule list -/

/-- The segment of a value. -/
def HiEntry.seg (e : HiEntry) (v : Nat) : Nat := (v - e.start) >>> e.shift

/-- The values that child `i` stands for. -/
def hiInterval (e : HiEntry) (i : Nat) : Range :=
  ⟨e.start + (e.nodeR i).1 * 2 ^ e.shift, e.start + ((e.nodeR i).2 + 1) * 2 ^ e.shift - 1⟩

/-- No rule ends in segment `j` and none starts in the next one. -/
def HiEntry.QuietAt (e : HiEntry) (rs : List Rule) (d : Dim) (j : Nat) : Prop :=
  ∀ r ∈ rs, e.seg (r.range d).lo ≠ j + 1 ∧ e.seg (r.range d).hi ≠ j

/-- The entry was computed from `rs` in dimension `d`. -/
structure HiFor (rs : List Rule) (d : Dim) (e : HiEntry) : Prop where
  start_eq : e.start = hullLo rs d
  part : Partition e.nodeR e.hist.childs
  pos : 0 < e.hist.childs
  bound : (e.nodeR (e.hist.childs - 1)).2 < 64
  cover : e.seg (hullHi rs d) ≤ (e.nodeR (e.hist.childs - 1)).2
  inHull : ∀ i < e.hist.childs, (e.nodeR i).1 ≤ e.seg (hullHi rs d)
  count : ∀ i < e.hist.childs, e.hist.childRulecount i = (clipTo (hiInterval e i) d rs).length
  merged : ∀ i < e.hist.childs, ∀ j, (e.nodeR i).1 ≤ j → j < (e.nodeR i).2 →
    j < e.seg (hullHi rs d) → e.QuietAt rs d j
  border : ∀ i, i + 1 < e.hist.childs → ¬ e.QuietAt rs d (e.nodeR i).2
  beyond : ∀ i, e.hist.childs ≤ i → e.hist.childRulecount i = 0
  rules : e.hist.rules = ((List.range e.hist.childs).map e.hist.childRulecount).sum

theorem seg_eq_iff {low0 shift v j : Nat} (h : low0 ≤ v) :
    (v - low0) >>> shift = j ↔
      edge low0 (2 ^ shift) j ≤ v ∧ v < edge low0 (2 ^ shift) (j + 1) := by
  have hpos := Nat.two_pow_pos shift
  rw [Nat.shiftRight_eq_div_pow, edge_succ, edge, Nat.div_eq_iff hpos]
  omega

theorem le_seg_iff {low0 shift v j : Nat} (h : low0 ≤ v) :
    j ≤ (v - low0) >>> shift ↔ edge low0 (2 ^ shift) j ≤ v := by
  rw [Nat.shiftRight_eq_div_pow, edge, Nat.le_div_iff_mul_le (Nat.two_pow_pos shift)]
  omega

theorem seg_le_iff {low0 shift v j : Nat} (h : low0 ≤ v) :
    (v - low0) >>> shift ≤ j ↔ v < edge low0 (2 ^ shift) (j + 1) := by
  have : j + 1 ≤ (v - low0) >>> shift ↔ edge low0 (2 ^ shift) (j + 1) ≤ v := le_seg_iff h
  omega

/-! ### Granularities -/

theorem le_two_pow_roundupLog2 (n : Nat) : n ≤ 2 ^ roundupLog2 n := by
  unfold roundupLog2
  dsimp only
  rw [Nat.add_sub_cancel]
  split
  · next heq => omega
  · exact Nat.le_of_lt Nat.lt_log2_self

/-- The segments of the size chosen for `div` divisions are at most `div`. -/
theorem hiShift_spec (len div : Nat) (hdiv : 0 < div) (hlen : 0 < len) :
    (len - 1) >>> hiShift len div < div := by
  have hceil : len ≤ div * ((len + div - 1) / div) := by
    have := Nat.lt_mul_div_succ (len + div - 1) hdiv
    rw [Nat.mul_add, Nat.mul_one] at this
    omega
  have hle := Nat.mul_le_mul_left div (le_two_pow_roundupLog2 ((len + div - 1) / div))
  rw [Nat.shiftRight_eq_div_pow, Nat.div_lt_iff_lt_mul (Nat.two_pow_pos _)]
  unfold hiShift
  omega

section Entry

variable {rs : List Rule} {d : Dim}

/-- A rule meets a run of segments iff it meets the first of them, when no rule starts
in the later ones. -/
theorem meets_run_iff {a b : Nat} (low0 seg lo hi : Nat) (hab : a ≤ b)
    (hno : ∀ j, a ≤ j → j < b → ¬ (edge low0 seg (j + 1) ≤ lo ∧ lo < edge low0 seg (j + 2))) :
    (lo < edge low0 seg (b + 1) ∧ edge low0 seg a ≤ hi) ↔
      (lo < edge low0 seg (a + 1) ∧ edge low0 seg a ≤ hi) := by
  constructor
  · rintro ⟨hlt, hge⟩
    refine ⟨?_, hge⟩
    induction b with
    | zero => rw [show a = 0 by omega]; exact hlt
    | succ b ih =>
        rcases Nat.lt_or_ge a (b + 1) with hlt' | hge'
        · by_cases hb : lo < edge low0 seg (b + 1)
          · exact ih (by omega) (fun j h1 h2 => hno j h1 (by omega)) hb
          · exact absurd ⟨Nat.not_lt.mp hb, hlt⟩ (hno b (by omega) (Nat.lt_succ_self b))
        · rw [show a = b + 1 by omega]; exact hlt
  · rintro ⟨hlt, hge⟩
    exact ⟨Nat.lt_of_lt_of_le hlt (edge_mono (by omega)), hge⟩

section Granularity

variable {u : Range1d} {us : List Range1d} {shift : Nat} (hsw : sweepRanges rs d = u :: us)

include hsw

/-- Every rule is one of the ranges swept over. -/
theorem exists_swept {r : Rule} (hr : r ∈ rs) :
    ∃ x ∈ u :: us, x.low = (r.range d).lo ∧ x.high = (r.range d).hi := by
  have := exists_sweepRange (d := d) hr
  rwa [hsw] at this

theorem swept_low_le {r : Rule} (hr : r ∈ rs) : u.low ≤ (r.range d).lo := by
  rw [sweepRanges_head (List.ne_nil_of_mem hr) hsw]
  exact hullLo_le hr

/-- A border is quiet for the ranges iff it is quiet for the rules. -/
theorem quiet_iff {e : HiEntry} (hfit : ∀ r ∈ rs, r.Fits) (hne : rs ≠ []) (hstart : e.start = u.low)
    (j : Nat) : Quiet (u :: us) u.low (2 ^ e.shift) j ↔ e.QuietAt rs d j := by
  have hseg : ∀ r ∈ rs, (e.seg (r.range d).lo ≠ j + 1 ∧ e.seg (r.range d).hi ≠ j) ↔
      ¬ (edge u.low (2 ^ e.shift) (j + 1) ≤ (r.range d).lo ∧
          (r.range d).lo < edge u.low (2 ^ e.shift) (j + 2)) ∧
        ¬ (edge u.low (2 ^ e.shift) j ≤ (r.range d).hi ∧
          (r.range d).hi < edge u.low (2 ^ e.shift) (j + 1)) := by
    intro r hr
    have hlo := swept_low_le hsw hr
    unfold HiEntry.seg
    rw [hstart, Ne, Ne, seg_eq_iff hlo, seg_eq_iff (hlo.trans (hfit r hr d).1)]
  constructor
  · intro h r hr
    obtain ⟨x, hx, hxl, hxh⟩ := exists_swept hsw hr
    rw [hseg r hr, ← hxl, ← hxh]
    exact h x hx
  · intro h x hx
    obtain ⟨r, hr, hrx⟩ := mem_sweepRanges hne (show x ∈ sweepRanges rs d by rw [hsw]; exact hx)
    have hquiet := (hseg r hr).mp (h r hr)
    rwa [hrx] at hquiet

/-- The weight the first segment of a run sees is the number of rules that meet the run,
also when the run is extended behind the hull. -/
theorem segWeight_run {a b c : Nat} (hfit : ∀ r ∈ rs, r.Fits) (hne : rs ≠ []) (hab : a ≤ b)
    (hquiet : ∀ j, a ≤ j → j < b → Quiet (u :: us) u.low (2 ^ shift) j) (hbc : b ≤ c)
    (hend : b = c ∨ (hullHi rs d - u.low) >>> shift ≤ b) :
    segWeight (u :: us) u.low (2 ^ shift) a =
      (clipTo ⟨edge u.low (2 ^ shift) a, edge u.low (2 ^ shift) (c + 1) - 1⟩ d rs).length := by
  rw [segWeight, ← hsw, sweepRanges_weight hne, length_clipTo]
  apply List.countP_congr
  intro r hr
  rw [decide_eq_true_eq, decide_eq_true_eq]
  have hrun := meets_run_iff u.low (2 ^ shift) (r.range d).lo (r.range d).hi hab (fun j h1 h2 => by
    obtain ⟨x, hx, hxl, -⟩ := exists_swept hsw hr
    rw [← hxl]
    exact (hquiet j h1 h2 x hx).1)
  have hpos : 0 < edge u.low (2 ^ shift) (c + 1) := by
    have := Nat.two_pow_pos shift
    rw [edge_succ]
    omega
  -- behind the hull no rule starts
  have hstart : (r.range d).lo < edge u.low (2 ^ shift) (c + 1) →
      (r.range d).lo < edge u.low (2 ^ shift) (b + 1) := by
    intro hlt
    rcases hend with rfl | hend
    · exact hlt
    · rw [← seg_le_iff (swept_low_le hsw hr)]
      refine Nat.le_trans ?_ hend
      rw [Nat.shiftRight_eq_div_pow, Nat.shiftRight_eq_div_pow]
      have := le_hullHi (d := d) hr
      have := (hfit r hr d).1
      exact Nat.div_le_div_right (by omega)
  have hmono : edge u.low (2 ^ shift) (b + 1) ≤ edge u.low (2 ^ shift) (c + 1) :=
    edge_mono (by omega)
  rw [← hrun]
  unfold Range.Meets
  dsimp only
  constructor
  · intro ⟨hlt, hge⟩
    exact ⟨hge, by omega⟩
  · intro ⟨hge, hlt⟩
    exact ⟨hstart (by omega), hge⟩

end Granularity

/-- A granularity with at most `div ≤ 64` segments in the hull yields an entry of the
rules. -/
theorem hiGetMe1d_for {u : Range1d} {us : List Range1d} {shift div : Nat}
    (hne : rs ≠ []) (hfit : ∀ r ∈ rs, r.Fits) (hsw : sweepRanges rs d = u :: us)
    (hdiv : (hullHi rs d - u.low) >>> shift < div) (h64 : div ≤ 64) :
    HiFor rs d ⟨(hiGetMe1d u us (hullHi rs d) (2 ^ shift) div).1, shift, u.low,
      (hiGetMe1d u us (hullHi rs d) (2 ^ shift) div).2⟩ := by
  have hsorted := (sweepRanges_grouped (d := d) hne).sorted
  rw [hsw] at hsorted
  have hfit' : ∀ x ∈ u :: us, x.low ≤ x.high :=
    fun x hx => sweepRange_le (d := d) hne hfit (by rw [hsw]; exact hx)
  obtain ⟨r, hr, hhi⟩ := exists_hullHi (d := d) hne
  obtain ⟨x, hx, -, hxh⟩ := exists_swept hsw hr
  have hbase : u.low ≤ hullHi rs d := hhi ▸ (swept_low_le hsw hr).trans (hfit r hr d).1
  obtain ⟨nodeR, hs, hnode⟩ := hiGetMe1d_spec div (Nat.two_pow_pos shift) hfit' hsorted
    ⟨x, hx, hxh.trans hhi⟩ hbase
  rw [← Nat.shiftRight_eq_div_pow] at hs
  rw [hnode]
  generalize (hiGetMe1d u us (hullHi rs d) (2 ^ shift) div).1 = hist at hs ⊢
  have hpos : 0 < hist.childs :=
    Nat.pos_of_ne_zero (fun h0 => Nat.succ_ne_zero _ (hs.zero_iff.mp h0))
  have hlast := hs.last hpos
  have hpart : Partition nodeR hist.childs := ⟨hs.first, hs.le, hs.next⟩
  have hle := hs.le (hist.childs - 1) (by omega)
  -- every child starts inside the hull
  have hin : ∀ i < hist.childs, (nodeR i).1 ≤ (hullHi rs d - u.low) >>> shift := by
    intro i hi
    have h1 := hs.le i hi
    have h2 := hpart.end_le (show i ≤ hist.childs - 1 by omega) (by omega)
    omega
  have hquiet := fun j => quiet_iff hsw hfit hne (e := ⟨hist, shift, u.low,
    Function.update nodeR (hist.childs - 1) ((nodeR (hist.childs - 1)).1, div - 1)⟩) rfl j
  refine
    { start_eq := sweepRanges_head hne hsw
      part := hpart.moveEnd (by omega)
      pos := hpos
      bound := by dsimp only; rw [Function.update_self]; dsimp only; omega
      cover := by dsimp only [HiEntry.seg]; rw [Function.update_self]; dsimp only; omega
      inHull := fun i hi => by
        dsimp only [HiEntry.seg] at hi ⊢
        rw [Partition.fst_update]
        exact hin i hi
      count := ?_
      merged := ?_
      border := ?_
      beyond := hs.beyond
      rules := hs.rules }
  · intro i hi
    dsimp only at hi
    unfold hiInterval
    dsimp only
    rw [hs.count i hi, Partition.fst_update]
    by_cases heq : i = hist.childs - 1
    · -- the last child is extended to the last division
      subst heq
      rw [Function.update_self]
      exact segWeight_run hsw hfit hne hle (hs.merged _ hi) (c := div - 1) (by omega)
        (Or.inr (by omega))
    · rw [Function.update_of_ne heq]
      exact segWeight_run hsw hfit hne (hs.le i hi) (hs.merged i hi) (Nat.le_refl _) (Or.inl rfl)
  · intro i hi j h1 h2 h3
    dsimp only [HiEntry.seg] at hi h1 h2 h3
    rw [Partition.fst_update] at h1
    rw [← hquiet]
    by_cases heq : i = hist.childs - 1
    · rw [heq] at h1
      exact hs.merged _ (by omega) j h1 (by omega)
    · rw [Function.update_of_ne heq] at h2
      exact hs.merged i hi j h1 h2
  · intro i hi
    dsimp only at hi ⊢
    rw [Function.update_of_ne (by omega), ← hquiet]
    exact hs.border i hi

/-! ### The entry stored -/

/-- The number of values in the hull of the rules. -/
def hullLen (rs : List Rule) (d : Dim) : Nat := hullHi rs d - hullLo rs d + 1

/-- The histogram and the segments of the children at `div` divisions of the hull. -/
def hiAt (rs : List Rule) (d : Dim) (u : Range1d) (us : List Range1d) (div : Nat) :
    RuleHist × (Nat → Nat × Nat) :=
  hiGetMe1d u us (hullHi rs d) (2 ^ hiShift (hullLen rs d) div) div

/-- The entry stored for `div` divisions of the hull. -/
def hiEntryAt (rs : List Rule) (d : Dim) (u : Range1d) (us : List Range1d) (div : Nat) : HiEntry :=
  ⟨(hiAt rs d u us div).1, hiShift (hullLen rs d) div, u.low, (hiAt rs d u us div).2⟩

/-- The numbers of divisions that are tried. -/
def hiDivs : List Nat := [4, 8, 16, 32, 64]

theorem hiDivs_bounds : ∀ div ∈ hiDivs, 0 < div ∧ div ≤ 64 := by decide

/-- **An entry at one of the granularities is an entry of the rules**, and its last child
ends with the last division. -/
theorem hiEntryAt_for {u : Range1d} {us : List Range1d} {div : Nat} (hdiv : div ∈ hiDivs)
    (hne : rs ≠ []) (hfit : ∀ r ∈ rs, r.Fits) (hsw : sweepRanges rs d = u :: us) :
    HiFor rs d (hiEntryAt rs d u us div) ∧
      Partitions div (hiEntryAt rs d u us div).nodeR (hiEntryAt rs d u us div).hist.childs ∧
      (hiEntryAt rs d u us div).seg (hullHi rs d) < div := by
  obtain ⟨hpos, h64⟩ := hiDivs_bounds div hdiv
  have hlow := sweepRanges_head hne hsw
  have hseg : (hullHi rs d - u.low) >>> hiShift (hullLen rs d) div < div := by
    have := hiShift_spec (hullLen rs d) div hpos (Nat.succ_pos _)
    rwa [show hullLen rs d - 1 = hullHi rs d - u.low by rw [hlow]; rfl] at this
  have hfor : HiFor rs d (hiEntryAt rs d u us div) := hiGetMe1d_for hne hfit hsw hseg h64
  refine ⟨hfor, .of_last hfor.part hfor.pos ?_, hseg⟩
  simp only [hiEntryAt, hiAt, hiGetMe1d, Function.update_self]
  exact Nat.sub_add_cancel hpos

variable {K : Type} [CostArith K]

/-- One round of the doubling loop: the granularity stays, or the next one is stored and
the loop goes on. -/
theorem hiDouble_cases (num : Nat) (u : Range1d) (us : List Range1d) (high fuel div shift : Nat)
    (q : RuleHist × (Nat → Nat × Nat)) (ratio : K) :
    hiDouble num u us high fuel div shift q ratio = (getMatchExpect q.1, ⟨q.1, shift, u.low, q.2⟩) ∨
      ∃ fuel' ratio', fuel = fuel' + 1 ∧ div * 2 ≤ 64 ∧
        hiDouble num u us high fuel div shift q ratio =
          hiDouble num u us high fuel' (div * 2) (hiShift (high - u.low + 1) (div * 2))
            (hiGetMe1d u us high (2 ^ hiShift (high - u.low + 1) (div * 2)) (div * 2)) ratio' := by
  by_cases hstop : 64 < div * 2 ∨ high - u.low + 1 < div * 2 ∨
      hiShift (high - u.low + 1) (div * 2) = shift
  · left
    cases fuel <;> exact if_pos hstop
  · cases fuel with
    | zero => exact Or.inl (if_neg hstop)
    | succ fuel =>
        have hstep : hiDouble num u us high (fuel + 1) div shift q ratio = _ := if_neg hstop
        by_cases hlt : CostArith.lt ratio (calcMeRatio num q.1.rules (getMatchExpect
            (hiGetMe1d u us high (2 ^ hiShift (high - u.low + 1) (div * 2)) (div * 2)).1 : K)) = true
        · exact Or.inr ⟨fuel, _, rfl, by omega, hstep.trans (if_pos hlt)⟩
        · exact Or.inl (hstep.trans (if_neg hlt))

/-- The doubling loop stores one of the five granularities and returns the cost of exactly
the entry stored. -/
theorem hiDouble_stored (num : Nat) {u : Range1d} (us : List Range1d)
    (hlow : u.low = hullLo rs d) :
    ∀ (fuel div : Nat) (ratio : K), div ∈ hiDivs →
      ∃ div' ∈ hiDivs, hiDouble num u us (hullHi rs d) fuel div (hiShift (hullLen rs d) div)
        (hiAt rs d u us div) ratio
          = (getMatchExpect (hiEntryAt rs d u us div').hist, hiEntryAt rs d u us div') := by
  intro fuel
  induction fuel with
  | zero =>
      intro div ratio hdiv
      rcases hiDouble_cases num u us (hullHi rs d) 0 div (hiShift (hullLen rs d) div)
        (hiAt rs d u us div) ratio with heq | ⟨_, _, h0, -⟩
      · exact ⟨div, hdiv, heq⟩
      · exact absurd h0 (Nat.succ_ne_zero _).symm
  | succ fuel ih =>
      intro div ratio hdiv
      rcases hiDouble_cases num u us (hullHi rs d) (fuel + 1) div (hiShift (hullLen rs d) div)
        (hiAt rs d u us div) ratio with heq | ⟨fuel', ratio', hf, h64, heq⟩
      · exact ⟨div, hdiv, heq⟩
      · obtain rfl : fuel = fuel' := Nat.succ.inj hf
        have hnext : ∀ div ∈ hiDivs, div * 2 ≤ 64 → div * 2 ∈ hiDivs := by decide
        obtain ⟨div', hdiv', hrest⟩ := ih (div * 2) ratio' (hnext div hdiv h64)
        rw [hlow] at heq
        exact ⟨div', hdiv', heq.trans hrest⟩

theorem foldl_high {us : List Range1d} : ∀ {h : Nat},
    h ≤ us.foldl (fun h r => if h < r.high then r.high else h) h ∧
      (∀ x ∈ us, x.high ≤ us.foldl (fun h r => if h < r.high then r.high else h) h) ∧
      (us.foldl (fun h r => if h < r.high then r.high else h) h = h ∨
        ∃ x ∈ us, x.high = us.foldl (fun h r => if h < r.high then r.high else h) h) := by
  induction us with
  | nil => intro h; exact ⟨Nat.le_refl _, by simp, Or.inl rfl⟩
  | cons x us ih =>
      intro h
      rw [List.foldl_cons]
      obtain ⟨h1, h2, h3⟩ := ih (h := if h < x.high then x.high else h)
      refine ⟨?_, ?_, ?_⟩
      · exact Nat.le_trans (by split <;> omega) h1
      · intro y hy
        rcases List.mem_cons.mp hy with rfl | hy
        · exact Nat.le_trans (by split <;> omega) h1
        · exact h2 y hy
      · rcases h3 with h3 | ⟨y, hy, h3⟩
        · by_cases hlt : h < x.high
          · rw [if_pos hlt] at h3 ⊢
            exact Or.inr ⟨x, List.mem_cons_self, h3.symm⟩
          · rw [if_neg hlt] at h3 ⊢
            exact Or.inl h3
        · exact Or.inr ⟨y, List.mem_cons_of_mem x hy, h3⟩

/-- The bound the code computes is the end of the hull. -/
theorem bound_high {u : Range1d} {us : List Range1d} (hne : rs ≠ [])
    (hsw : sweepRanges rs d = u :: us) :
    us.foldl (fun h r => if h < r.high then r.high else h) u.high = hullHi rs d := by
  obtain ⟨h1, h2, h3⟩ := @foldl_high us u.high
  generalize us.foldl (fun h r => if h < r.high then r.high else h) u.high = top at h1 h2 h3
  apply Nat.le_antisymm
  · have hmem : ∃ x ∈ u :: us, x.high = top := by
      rcases h3 with h3 | ⟨x, hx, h3⟩
      · exact ⟨u, List.mem_cons_self, h3.symm⟩
      · exact ⟨x, List.mem_cons_of_mem u hx, h3⟩
    obtain ⟨x, hx, rfl⟩ := hmem
    exact sweepRange_le_hullHi hne (by rw [hsw]; exact hx)
  · obtain ⟨r, hr, hhi⟩ := exists_hullHi (d := d) hne
    obtain ⟨x, hx, -, hxh⟩ := exists_sweepRange (d := d) hr
    rw [hsw] at hx
    rcases List.mem_cons.mp hx with rfl | hx
    · omega
    · have := h2 x hx
      omega

end Entry

section RuleHist

variable {K : Type} [CostArith K] {rs : RuleSet} {d : Dim} {cap : Nat}

/-- A hull of less than four values: the entry stays as it was. -/
theorem hiGetRuleHist_short (e : HiEntry) (hcap : rs.num ≤ cap) (hne : rs.items ≠ [])
    (hlen : hullLen rs.items d < 4) :
    hiGetRuleHist K cap e rs d = .ok (CostArith.ofNat rs.num, e) := by
  rw [hiGetRuleHist, if_neg (by omega)]
  cases hsw : sweepRanges rs.items d with
  | nil => exact absurd hsw (sweepRanges_ne_nil hne)
  | cons u us =>
      dsimp only
      rw [bound_high hne hsw, sweepRanges_head hne hsw]
      exact if_pos hlen

/-- The computation on a hull of at least four values. -/
theorem hiGetRuleHist_long (e : HiEntry) (hcap : rs.num ≤ cap) (hne : rs.items ≠ [])
    (hlen : 4 ≤ hullLen rs.items d) :
    ∃ u us, sweepRanges rs.items d = u :: us ∧ u.low = hullLo rs.items d ∧
      hiGetRuleHist K cap e rs d = .ok (hiDouble rs.num u us (hullHi rs.items d) 4 4
        (hiShift (hullLen rs.items d) 4)
        (hiGetMe1d u us (hullHi rs.items d) (2 ^ hiShift (hullLen rs.items d) 4) 4)
        (calcMeRatio rs.num e.hist.rules (getMatchExpect
          (hiGetMe1d u us (hullHi rs.items d) (2 ^ hiShift (hullLen rs.items d) 4) 4).1 : K))) := by
  cases hsw : sweepRanges rs.items d with
  | nil => exact absurd hsw (sweepRanges_ne_nil hne)
  | cons u us =>
      have hlow := sweepRanges_head hne hsw
      refine ⟨u, us, rfl, hlow, ?_⟩
      rw [hiGetRuleHist, if_neg (by omega), hsw]
      dsimp only
      rw [bound_high hne hsw, hlow]
      exact if_neg (by unfold hullLen at hlen; omega)

/-- What `hi_get_rule_hist` stores on a hull of at least four values, whatever was there
before: the entry at one of the granularities, and it returns its cost. -/
theorem hiGetRuleHist_stored (e : HiEntry) (hcap : rs.num ≤ cap) (hne : rs.items ≠ [])
    (hlen : 4 ≤ hullLen rs.items d) :
    ∃ u us, sweepRanges rs.items d = u :: us ∧ ∃ div ∈ hiDivs, hiGetRuleHist K cap e rs d
      = .ok (getMatchExpect (hiEntryAt rs.items d u us div).hist, hiEntryAt rs.items d u us div) := by
  obtain ⟨u, us, hsw, hlow, heq⟩ := hiGetRuleHist_long (K := K) e hcap hne hlen
  obtain ⟨div, hdiv, hstored⟩ := hiDouble_stored (K := K) rs.num us hlow 4 4
    (calcMeRatio rs.num e.hist.rules (getMatchExpect (hiAt rs.items d u us 4).1 : K)) (by decide)
  exact ⟨u, us, hsw, div, hdiv, by rw [heq, ← hstored]; rfl⟩

/-- **`hi_get_rule_hist`** on a hull of at least four values stores an entry of the rules,
whatever was there before, and returns its cost. -/
theorem hiGetRuleHist_spec (e : HiEntry) (hcap : rs.num ≤ cap) (hne : rs.items ≠ [])
    (hfit : ∀ r ∈ rs.items, r.Fits) (hlen : 4 ≤ hullLen rs.items d) :
    ∃ e', hiGetRuleHist K cap e rs d = .ok (getMatchExpect e'.hist, e') ∧
      HiFor rs.items d e' := by
  obtain ⟨u, us, hsw, div, hdiv, hok⟩ := hiGetRuleHist_stored (K := K) e hcap hne hlen
  exact ⟨_, hok, (hiEntryAt_for hdiv hne hfit hsw).1⟩

theorem hiGetRuleHist_overrun (e : HiEntry) (h : cap < rs.num) :
    hiGetRuleHist K cap e rs d = .error .overrun := by
  rw [hiGetRuleHist, if_pos h]

/-- A call that returns had room for the ranges. -/
theorem hiGetRuleHist_room {e : HiEntry} {q : K × HiEntry}
    (h : hiGetRuleHist K cap e rs d = .ok q) : rs.num ≤ cap := by
  by_contra hlt
  rw [hiGetRuleHist_overrun e (Nat.not_le.mp hlt)] at h
  cases h

/-- What a call that returns has stored, on a hull of at least four values: the entry of one
granularity, whose cost it returns. -/
theorem hiGetRuleHist_entry {e e' : HiEntry} {me : K}
    (h : hiGetRuleHist K cap e rs d = .ok (me, e')) (hne : rs.items ≠ [])
    (hlen : 4 ≤ hullLen rs.items d) :
    ∃ u us, sweepRanges rs.items d = u :: us ∧ ∃ div ∈ hiDivs,
      me = getMatchExpect e'.hist ∧ e' = hiEntryAt rs.items d u us div := by
  obtain ⟨u, us, hsw, div, hdiv, hok⟩ :=
    hiGetRuleHist_stored (K := K) e (hiGetRuleHist_room h) hne hlen
  rw [hok] at h
  obtain ⟨rfl, rfl⟩ := Prod.mk.inj (Except.ok.inj h)
  exact ⟨u, us, hsw, div, hdiv, rfl, rfl⟩

/-- The entry stored is one of the rules. -/
theorem hiGetRuleHist_ok {e e' : HiEntry} {me : K} (h : hiGetRuleHist K cap e rs d = .ok (me, e'))
    (hne : rs.items ≠ []) (hfit : ∀ r ∈ rs.items, r.Fits) (hlen : 4 ≤ hullLen rs.items d) :
    me = getMatchExpect e'.hist ∧ HiFor rs.items d e' := by
  obtain ⟨u, us, hsw, div, hdiv, hme, rfl⟩ := hiGetRuleHist_entry h hne hlen
  exact ⟨hme, (hiEntryAt_for hdiv hne hfit hsw).1⟩

/-- With room a call returns. -/
theorem hiGetRuleHist_total (e : HiEntry) (hcap : rs.num ≤ cap) (hne : rs.items ≠ [])
    (hfit : ∀ r ∈ rs.items, r.Fits) : ∃ q, hiGetRuleHist K cap e rs d = .ok q := by
  by_cases hlen : hullLen rs.items d < 4
  · exact ⟨_, hiGetRuleHist_short e hcap hne hlen⟩
  · obtain ⟨e', hok, -⟩ := hiGetRuleHist_spec (K := K) e hcap hne hfit (Nat.not_lt.mp hlen)
    exact ⟨_, hok⟩

end RuleHist

end ChooseCut
