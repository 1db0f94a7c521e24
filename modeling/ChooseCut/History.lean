import ChooseCut.SplitHistory
import ChooseCut.Terminate

/-!
# ChooseCut.History

What a node takes from the nodes cut before it.

The scratch area is shared by the whole build, and some of it is read before it is
written. `hi_get_rule_hist` feeds the duplicated-rule count it finds into its first
ratio, which decides whether four segments are enough, and leaves the entry alone when
the hull is shorter than four values. The second pass of `cut_node` looks at the old
split tree when all rules agree. This module says for two contents of the scratch area
exactly when they make a difference.
-/

namespace ChooseCut

/-! ### The first doubling -/

theorem roundupLog2_le_iff {m k : Nat} (hm : m ≠ 0) : roundupLog2 m ≤ k ↔ m ≤ 2 ^ k := by
  have hlow := Nat.log2_self_le hm
  have hhigh : m < 2 ^ (m.log2 + 1) := Nat.lt_log2_self
  unfold roundupLog2
  dsimp only
  rw [Nat.add_sub_cancel]
  split
  · next heq =>
    rw [← Nat.pow_le_pow_iff_right (show 1 < 2 by decide), ← heq]
  · next hne =>
    constructor
    · intro hk
      exact hhigh.le.trans (Nat.pow_le_pow_right (by decide) hk)
    · intro hk
      have hlt : 2 ^ m.log2 < 2 ^ k := lt_of_lt_of_le (lt_of_le_of_ne hlow (Ne.symm hne)) hk
      exact (Nat.pow_lt_pow_iff_right (by decide)).mp hlt

/-- Twice as many segments are not larger. -/
theorem hiShift_double {len div : Nat} (hlen : 0 < len) (hdiv : 0 < div) :
    hiShift len (div * 2) ≤ hiShift len div := by
  have hpos : ∀ k, 0 < k → (len + k - 1) / k ≠ 0 := by
    intro k hk
    exact Nat.ne_of_gt (Nat.div_pos (by omega) hk)
  have hceil : (len + div * 2 - 1) / (div * 2) ≤ (len + div - 1) / div := by
    have hle : len + div - 1 < div * ((len + div - 1) / div + 1) := Nat.lt_mul_div_succ _ hdiv
    rw [← Nat.lt_succ_iff, Nat.div_lt_iff_lt_mul (by omega)]
    generalize (len + div - 1) / div = c at hle ⊢
    rw [Nat.mul_succ] at hle
    have hc : div * c ≤ c * (div * 2) := by nlinarith
    rw [Nat.succ_mul]
    omega
  unfold hiShift
  rw [roundupLog2_le_iff (hpos _ (by omega))]
  exact hceil.trans ((roundupLog2_le_iff (hpos _ hdiv)).mp (Nat.le_refl _))

section Doubling

variable {K : Type} [CostArith K]

/-- The doubling loop only makes segments smaller. -/
theorem hiDouble_shift_le (num : Nat) (u : Range1d) (us : List Range1d) (high : Nat) :
    ∀ (fuel div : Nat) (q : RuleHist × (Nat → Nat × Nat)) (ratio : K), 0 < div →
      (hiDouble num u us high fuel div (hiShift (high - u.low + 1) div) q ratio).2.shift
        ≤ hiShift (high - u.low + 1) div := by
  intro fuel
  induction fuel with
  | zero =>
      intro div q ratio hdiv
      unfold hiDouble
      dsimp only
      split <;> exact Nat.le_refl _
  | succ fuel ih =>
      intro div q ratio hdiv
      unfold hiDouble
      dsimp only
      split
      · exact Nat.le_refl _
      split
      · exact (ih (div * 2) _ _ (by omega)).trans (hiShift_double (Nat.succ_pos _) hdiv)
      · exact Nat.le_refl _

/-- The first test of the doubling loop, on a stored count of `dupRules`: are eight
segments tried and found better than four? -/
def hiGoesOn (K : Type) [CostArith K] (rs : RuleSet) (d : Dim) (dupRules : Nat) : Bool :=
  match sweepRanges rs.items d with
  | [] => false
  | u :: us =>
      let four := (hiAt rs.items d u us 4).1
      let eight := (hiAt rs.items d u us 8).1
      decide (8 ≤ hullLen rs.items d ∧
          hiShift (hullLen rs.items d) 8 ≠ hiShift (hullLen rs.items d) 4) &&
        CostArith.lt (calcMeRatio rs.num dupRules (getMatchExpect four : K))
          (calcMeRatio rs.num four.rules (getMatchExpect eight : K))

variable {rs : RuleSet} {d : Dim} {cap : Nat}

/-- On a hull of four values or more, the result depends on the old entry through the first
test only, and shows its outcome. -/
theorem hiGetRuleHist_cases (hcap : rs.num ≤ cap) (hne : rs.items ≠ [])
    (hlen : 4 ≤ hullLen rs.items d) :
    ∃ stop go : K × HiEntry, go.2.shift ≠ stop.2.shift ∧
      ∀ e : HiEntry, hiGetRuleHist K cap e rs d
        = .ok (if hiGoesOn K rs d e.hist.rules then go else stop) := by
  obtain ⟨u, us, hsw, hlow, -⟩ := hiGetRuleHist_long (K := K)
    ⟨RuleHist.zero, 0, 0, fun _ => (0, 0)⟩ hcap hne hlen
  have hlong : ∀ e : HiEntry, hiGetRuleHist K cap e rs d = .ok (hiDouble rs.num u us
      (hullHi rs.items d) 4 4 (hiShift (hullLen rs.items d) 4) (hiAt rs.items d u us 4)
      (calcMeRatio rs.num e.hist.rules (getMatchExpect (hiAt rs.items d u us 4).1 : K))) := by
    intro e
    obtain ⟨u', us', hsw', -, heq⟩ := hiGetRuleHist_long (K := K) e hcap hne hlen
    rw [hsw] at hsw'
    obtain ⟨rfl, rfl⟩ := List.cons.inj hsw'
    exact heq
  have hhull : hullHi rs.items d - u.low + 1 = hullLen rs.items d := by
    rw [hlow]
    rfl
  have htest : ∀ e : HiEntry, hiGoesOn K rs d e.hist.rules =
      (decide (8 ≤ hullLen rs.items d ∧
          hiShift (hullLen rs.items d) 8 ≠ hiShift (hullLen rs.items d) 4) &&
        CostArith.lt
          (calcMeRatio rs.num e.hist.rules (getMatchExpect (hiAt rs.items d u us 4).1 : K))
          (calcMeRatio rs.num (hiAt rs.items d u us 4).1.rules
            (getMatchExpect (hiAt rs.items d u us 8).1 : K))) := by
    intro e
    rw [hiGoesOn, hsw]
  by_cases hstop : hullLen rs.items d < 8 ∨
      hiShift (hullLen rs.items d) 8 = hiShift (hullLen rs.items d) 4
  · -- eight segments are never tried
    refine ⟨(getMatchExpect (hiAt rs.items d u us 4).1,
        ⟨(hiAt rs.items d u us 4).1, hiShift (hullLen rs.items d) 4, u.low,
          (hiAt rs.items d u us 4).2⟩),
      (CostArith.ofNat 0, ⟨RuleHist.zero, hiShift (hullLen rs.items d) 4 + 1, 0, fun _ => (0, 0)⟩),
      Nat.succ_ne_self _, fun e => ?_⟩
    rw [htest e, decide_eq_false (by omega), Bool.false_and, if_neg Bool.false_ne_true, hlong e]
    unfold hiDouble
    dsimp only
    rw [hhull, if_pos (Or.inr hstop)]
  · refine ⟨(getMatchExpect (hiAt rs.items d u us 4).1,
        ⟨(hiAt rs.items d u us 4).1, hiShift (hullLen rs.items d) 4, u.low,
          (hiAt rs.items d u us 4).2⟩),
      hiDouble rs.num u us (hullHi rs.items d) 3 8 (hiShift (hullLen rs.items d) 8)
        (hiAt rs.items d u us 8)
        (calcMeRatio rs.num (hiAt rs.items d u us 4).1.rules
          (getMatchExpect (hiAt rs.items d u us 8).1)), ?_, fun e => ?_⟩
    · have hle := hiDouble_shift_le (K := K) rs.num u us (hullHi rs.items d) 3 8
        (hiAt rs.items d u us 8)
        (calcMeRatio rs.num (hiAt rs.items d u us 4).1.rules
          (getMatchExpect (hiAt rs.items d u us 8).1)) (by decide)
      have hdouble : hiShift (hullLen rs.items d) 8 ≤ hiShift (hullLen rs.items d) 4 :=
        @hiShift_double _ 4 (by omega) (by decide)
      rw [hhull] at hle
      dsimp only
      omega
    · rw [htest e, decide_eq_true (by omega), Bool.true_and, hlong e]
      conv_lhs => unfold hiDouble
      dsimp only
      rw [hhull, show 4 * 2 = 8 from rfl, if_neg (by omega)]
      rfl

/-- The two contents of an entry make no difference to `hi_get_rule_hist`: there is no room
for the rules, or no rule; or the hull is short and the entries are the same; or the first
test has the same outcome. -/
def HiStable (K : Type) [CostArith K] (cap : Nat) (rs : RuleSet) (d : Dim) (e e' : HiEntry) : Prop :=
  cap < rs.num ∨ rs.items = [] ∨
    if hullLen rs.items d < 4 then e = e'
    else hiGoesOn K rs d e.hist.rules = hiGoesOn K rs d e'.hist.rules

/-- **When two scratch entries make no difference.** -/
theorem hiGetRuleHist_eq_iff {e e' : HiEntry} :
    hiGetRuleHist K cap e rs d = hiGetRuleHist K cap e' rs d ↔ HiStable K cap rs d e e' := by
  unfold HiStable
  by_cases hcap : cap < rs.num
  · rw [hiGetRuleHist_overrun e hcap, hiGetRuleHist_overrun e' hcap]
    exact iff_of_true rfl (Or.inl hcap)
  by_cases hne : rs.items = []
  · refine iff_of_true ?_ (Or.inr (Or.inl hne))
    rw [hiGetRuleHist, hiGetRuleHist, if_neg hcap, if_neg hcap, hne]
    rfl
  rw [or_iff_right hcap, or_iff_right hne]
  have hroom := Nat.not_lt.mp hcap
  by_cases hlen : hullLen rs.items d < 4
  · rw [if_pos hlen, hiGetRuleHist_short e hroom hne hlen, hiGetRuleHist_short e' hroom hne hlen]
    simp
  · rw [if_neg hlen]
    obtain ⟨stop, go, hdiff, hrun⟩ := hiGetRuleHist_cases (K := K) hroom hne (Nat.not_lt.mp hlen)
    have hne' : go ≠ stop := fun h => hdiff (by rw [h])
    rw [hrun e, hrun e']
    cases hiGoesOn K rs d e.hist.rules <;> cases hiGoesOn K rs d e'.hist.rules <;>
      simp [hne', hne'.symm]

end Doubling

/-! ### The fifteen costs -/

section Costs

variable {K : Type} [CostArith K] {rs : RuleSet} {t : CutType} {d : Dim} {a b a' b' : CutAux}

/-- Two scratch areas with the same room, on which `hi_get_rule_hist` does the same. -/
structure AuxAlike (K : Type) [CostArith K] (rs : RuleSet) (a b : CutAux) : Prop where
  caps : SameCaps a b
  hi : ∀ d, hiGetRuleHist K a.hi.rangesCap (a.hi.entries d) rs d
    = hiGetRuleHist K b.hi.rangesCap (b.hi.entries d) rs d

/-- A call of `match_expect` returns the same cost on both, and leaves them alike. -/
theorem matchExpect_lockstep (hs : Sane rs) (h : AuxAlike K rs a b) (t : CutType) (d : Dim) :
    Lockstep (fun p q : K × CutAux => p.1 = q.1 ∧ AuxAlike K rs p.2 q.2)
      (matchExpect K t a rs d) (matchExpect K t b rs d) := by
  cases t with
  | bitmap =>
      exact Lockstep.ok ⟨rfl, ⟨h.caps.splitRanges, h.caps.splitRules, h.caps.hiRanges⟩, h.hi⟩
  | split =>
      unfold matchExpect splitMatchExpect
      dsimp only
      refine ((splitMatchExpectTree_lockstep h.caps.splitRanges h.caps.splitRules hs.num_eq
        hs.fits).bind (S := fun p q : K × SplitAux => p.1 = q.1 ∧
          p.2.rangesCap = a.split.rangesCap ∧ p.2.rulesCap = a.split.rulesCap ∧
          q.2.rangesCap = b.split.rangesCap ∧ q.2.rulesCap = b.split.rulesCap)
        (fun p q hpq => Lockstep.ok ⟨hpq.1, rfl, rfl, rfl, rfl⟩)).bind (fun p q hpq => ?_)
      obtain ⟨hcost, hp1, hp2, hq1, hq2⟩ := hpq
      refine Lockstep.ok ⟨hcost, ⟨?_, ?_, h.caps.hiRanges⟩, h.hi⟩
      · exact hq1.trans (h.caps.splitRanges.trans hp1.symm)
      · exact hq2.trans (h.caps.splitRules.trans hp2.symm)
  | hi =>
      unfold matchExpect hiMatchExpect
      dsimp only
      refine ((Lockstep.eq_iff.mpr (h.hi d)).bind (S := fun p q : K × HiAux => p.1 = q.1 ∧
          ∃ e, p.2 = { a.hi with entries := Function.update a.hi.entries d e } ∧
            q.2 = { b.hi with entries := Function.update b.hi.entries d e })
        (fun p q hpq => Lockstep.ok ⟨by rw [hpq], p.2, rfl, by rw [hpq]⟩)).bind (fun p q hpq => ?_)
      obtain ⟨hcost, e, hp, hq⟩ := hpq
      refine Lockstep.ok ⟨hcost, ⟨h.caps.splitRanges, h.caps.splitRules, ?_⟩, fun i => ?_⟩
      · dsimp only
        rw [hp, hq]
        exact h.caps.hiRanges
      · dsimp only
        rw [hp, hq]
        by_cases hi : i = d
        · subst hi
          dsimp only
          rw [Function.update_self, Function.update_self, h.caps.hiRanges]
        · dsimp only
          rw [Function.update_of_ne hi, Function.update_of_ne hi]
          exact h.hi i

/-- The scans take the same steps. -/
theorem bestDim_lockstep (hs : Sane rs) (h : AuxAlike K rs a b) (t : CutType) :
    Lockstep (fun p q : CutAux × K × Dim => p.2 = q.2 ∧ AuxAlike K rs p.1 q.1)
      (bestDim K t a rs) (bestDim K t b rs) := by
  unfold bestDim
  refine (matchExpect_lockstep hs h t 0).bind (fun p q hpq => ?_)
  refine Lockstep.foldlM [1, 2, 3, 4] ?_ ⟨by rw [hpq.1], hpq.2⟩
  intro x y i _ hxy
  unfold tryDim
  refine (matchExpect_lockstep hs hxy.2 t i).bind (fun p q hpq => ?_)
  refine Lockstep.ok ⟨?_, hpq.2⟩
  dsimp only
  rw [hpq.1, hxy.1]

/-- The best dimensions and their costs are the same. -/
theorem bestDims_lockstep (hs : Sane rs) (h : AuxAlike K rs a b) :
    Lockstep (fun p q : CutAux × (CutType → K × Dim) => p.2 = q.2) (bestDims K a rs)
      (bestDims K b rs) := by
  unfold bestDims
  refine (bestDim_lockstep hs h .bitmap).bind (fun p q hpq => ?_)
  refine (bestDim_lockstep hs hpq.2 .split).bind (fun p' q' hpq' => ?_)
  refine (bestDim_lockstep hs hpq'.2 .hi).bind (fun p'' q'' hpq'' => ?_)
  refine Lockstep.ok ?_
  funext t
  cases t with
  | bitmap => exact hpq.1
  | split => exact hpq'.1
  | hi => exact hpq''.1

/-- What the costs leave in the two scratch areas: the same histograms and hi entries, and
for split the old trees, switched off, or trees that are alike. -/
structure StoredAlike (rs : RuleSet) (a b a' b' : CutAux) : Prop where
  caps : SameCaps a' b'
  hist : ∀ d, a'.hist d = b'.hist d
  hi : ∀ d, a'.hi.entries d = b'.hi.entries d
  trees : ∀ d, if SameRange rs.items d then
      a'.split.strees d = (a.split.strees d).off d ∧ b'.split.strees d = (b.split.strees d).off d
    else (a'.split.strees d).Alike (b'.split.strees d)

/-- Where the costs are computed, they are the same and leave the same behind. -/
theorem bestDims_stored (hs : Sane rs) (h : AuxAlike K rs a b) {p q : CutAux × (CutType → K × Dim)}
    (hp : bestDims K a rs = .ok p) (hq : bestDims K b rs = .ok q) :
    StoredAlike rs a b p.1 q.1 := by
  obtain ⟨hcp, hep, -⟩ := bestDims_ok hp
  obtain ⟨hcq, heq, -⟩ := bestDims_ok hq
  refine ⟨(hcp.symm.trans h.caps).trans hcq, fun d => ?_, fun d => ?_, fun d => ?_⟩
  · obtain ⟨aux1, hme, hsame⟩ := hep .bitmap d
    obtain ⟨aux2, hme', hsame'⟩ := heq .bitmap d
    rw [matchExpect_bitmap hme hsame, matchExpect_bitmap hme' hsame']
  · obtain ⟨aux1, hme, hsame⟩ := hep .hi d
    obtain ⟨aux2, hme', hsame'⟩ := heq .hi d
    have hstore := matchExpect_hi hme
    rw [h.hi d, matchExpect_hi hme'] at hstore
    rw [← (show _ = p.1.hi.entries d from hsame), ← (show _ = q.1.hi.entries d from hsame')]
    exact (Prod.mk.inj (Except.ok.inj hstore)).2.symm
  · obtain ⟨aux1, hme, hsame⟩ := hep .split d
    obtain ⟨aux2, hme', hsame'⟩ := heq .split d
    have hlock := splitMatchExpectTree_lockstep (K := K) (d := d) h.caps.splitRanges
      h.caps.splitRules hs.num_eq hs.fits
    rw [(matchExpect_split hme).2, (matchExpect_split hme').2] at hlock
    rw [← (show _ = p.1.split.strees d from hsame), ← (show _ = q.1.split.strees d from hsame')]
    exact hlock.2

end Costs

end ChooseCut
