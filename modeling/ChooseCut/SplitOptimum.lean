import ChooseCut.Terminate

/-!
# ChooseCut.SplitOptimum

How good the split is that the sweep of `split_match_expect_1d` finds.

The sweep weighs only the positions where a range starts or ends. A position between
them has a neighbour to its left that leaves fewer rules on the left and as many on the
right, and one to its right the other way round; the cost is not monotone, but taking
rules from the fuller side never raises it, so one of the two neighbours is as good.
What is found is therefore the best of all positions, and it is better than no split by
a third of a rule, far more than the tolerance of `double_equals`.

The results are about the code's own arithmetic up to rounding: squares are taken in
32 bits, which up to 65535 rules is enough.
-/

namespace ChooseCut

/-! ### The cost of a split -/

/-- Costs as exact rationals, with the squares of `unsigned int` taken modulo `2 ^ 32`. -/
@[reducible] def wordCost : CostArith ℚ :=
  { exactCost with
    sqU := fun n => ((n * n % 2 ^ 32 : Nat) : ℚ)
    mean_lt := by
      intro n l r hl hr hln hrn h
      have hle : ∀ x : Nat, ((x * x % 2 ^ 32 : Nat) : ℚ) / ((r + l : Nat) : ℚ)
          ≤ (x : ℚ) * x / ((r + l : Nat) : ℚ) := by
        intro x
        have hmod : ((x * x % 2 ^ 32 : Nat) : ℚ) ≤ (x : ℚ) * x := by
          exact_mod_cast Nat.mod_le (x * x) (2 ^ 32)
        exact div_le_div_of_nonneg_right hmod (Nat.cast_nonneg _)
      exact decide_eq_true
        ((add_le_add (hle r) (hle l)).trans_lt (mean_sq_lt hl hr hln hrn h)) }

/-- The match expectation of a split with `l` and `r` rules on its sides. -/
def splitCost (l r : Nat) : ℚ := ((l : ℚ) ^ 2 + (r : ℚ) ^ 2) / (l + r)

theorem splitCost_comm (l r : Nat) : splitCost l r = splitCost r l := by
  rw [splitCost, splitCost, add_comm ((l : ℚ) ^ 2), add_comm (l : ℚ)]

/-- The square of a count up to 65535 fits in 32 bits. -/
theorem sq_lt_word {x : Nat} (h : x ≤ 65535) : x * x < 2 ^ 32 :=
  (Nat.mul_le_mul h h).trans_lt (by decide)

/-- Up to 65535 rules the code's formula is the match expectation. -/
theorem heuristic_eq_splitCost {l r : Nat} (hl : l ≤ 65535) (hr : r ≤ 65535) :
    @splitMatchExpectHeuristic ℚ wordCost l r = splitCost l r := by
  have hcost : @splitMatchExpectHeuristic ℚ wordCost l r
      = ((r * r % 2 ^ 32 : Nat) : ℚ) / ((r + l : Nat) : ℚ)
        + ((l * l % 2 ^ 32 : Nat) : ℚ) / ((r + l : Nat) : ℚ) := rfl
  rw [hcost, Nat.mod_eq_of_lt (sq_lt_word hl), Nat.mod_eq_of_lt (sq_lt_word hr), ← add_div,
    splitCost]
  push_cast
  ring

/-- **Taking rules from the fuller side does not raise the cost.** -/
theorem splitCost_le_left {l l' r : Nat} (hpos : 0 < l') (hl : l' ≤ l) (hr : r ≤ l) :
    splitCost l' r ≤ splitCost l r := by
  have h0 : (0 : ℚ) < l' := by exact_mod_cast hpos
  have h1 : (l' : ℚ) ≤ l := by exact_mod_cast hl
  have h2 : (r : ℚ) ≤ l := by exact_mod_cast hr
  have h3 : (0 : ℚ) ≤ r := Nat.cast_nonneg r
  rw [splitCost, splitCost, div_le_div_iff₀ (by linarith) (by linarith)]
  -- the difference is a product of two differences that are not negative
  have hfactor : ((l : ℚ) ^ 2 + r ^ 2) * (l' + r) - ((l' : ℚ) ^ 2 + r ^ 2) * (l + r)
      = (l - l') * (l * l' + r * l' + r * (l - r)) := by ring
  have hprod : 0 ≤ ((l : ℚ) - l') * (l * l' + r * l' + r * (l - r)) := by
    apply mul_nonneg (by linarith)
    have := mul_nonneg h3 (sub_nonneg.mpr h2)
    nlinarith
  linarith

theorem splitCost_le_right {l r r' : Nat} (hpos : 0 < r') (hr : r' ≤ r) (hl : l ≤ r) :
    splitCost l r' ≤ splitCost l r := by
  rw [splitCost_comm l r', splitCost_comm l r]
  exact splitCost_le_left hpos hr hl

/-! ### Positions between those weighed -/

section Positions

variable {rs : List Rule} {d : Dim} {ps : List Nat}

theorem leftOf_mono {s t : Nat} (h : s ≤ t) : leftOf rs d s ≤ leftOf rs d t :=
  List.countP_mono_left (fun _ _ hr => decide_eq_true ((of_decide_eq_true hr).trans h))

theorem rightOf_anti {s t : Nat} (h : s ≤ t) : rightOf rs d t ≤ rightOf rs d s :=
  List.countP_mono_left (fun _ _ hr => decide_eq_true (h.trans_lt (of_decide_eq_true hr)))

/-- Where no range starts next, the same rules reach the left of the next position. -/
theorem leftOf_succ {s : Nat} (h : ∀ r ∈ rs, (r.range d).lo ≠ s + 1) :
    leftOf rs d (s + 1) = leftOf rs d s := by
  apply List.countP_congr
  intro r hr
  have := h r hr
  rw [decide_eq_true_eq, decide_eq_true_eq]
  omega

/-- Where no range ends, the same rules reach the right of the position before. -/
theorem rightOf_succ {s : Nat} (h : ∀ r ∈ rs, (r.range d).hi ≠ s + 1) :
    rightOf rs d s = rightOf rs d (s + 1) := by
  apply List.countP_congr
  intro r hr
  have := h r hr
  rw [decide_eq_true_eq, decide_eq_true_eq]
  omega

/-- Nothing happens at a position that is not weighed. -/
theorem Weighed.quiet (h : Weighed rs d ps) {s : Nat} (hlo : hullLo rs d ≤ s)
    (hhi : s < hullHi rs d) (hs : s ∉ ps) :
    ∀ r ∈ rs, (r.range d).hi ≠ s ∧ (r.range d).lo ≠ s + 1 := by
  intro r hr
  constructor
  · intro heq
    exact hs (by rw [← heq]; exact h.ends r hr (by omega))
  · intro heq
    have := h.starts r hr (by omega)
    rw [heq, Nat.add_sub_cancel] at this
    exact hs this

/-- To the left of a position lies a weighed one with as many rules on the right, unless
every rule is there. -/
theorem Weighed.exists_left (h : Weighed rs d ps) (hfit : ∀ r ∈ rs, r.Fits) : ∀ {s : Nat},
    hullLo rs d ≤ s → s < hullHi rs d →
    (∃ t ∈ ps, leftOf rs d t ≤ leftOf rs d s ∧ rightOf rs d t = rightOf rs d s) ∨
      rightOf rs d s = rs.length := by
  intro s hlo
  induction s, hlo using Nat.le_induction with
  | base =>
      intro hhi
      by_cases hs : hullLo rs d ∈ ps
      · exact Or.inl ⟨_, hs, Nat.le_refl _, rfl⟩
      · right
        refine List.countP_eq_length.mpr (fun r hr => ?_)
        have hquiet := (h.quiet (Nat.le_refl _) hhi hs r hr).1
        have hstart := hullLo_le (d := d) hr
        have hle := (hfit r hr d).1
        rw [decide_eq_true_eq]
        omega
  | succ s hlo ih =>
      intro hhi
      by_cases hs : s + 1 ∈ ps
      · exact Or.inl ⟨_, hs, Nat.le_refl _, rfl⟩
      · have hquiet := h.quiet (by omega) hhi hs
        have hright := rightOf_succ (fun r hr => (hquiet r hr).1)
        rw [← hright]
        rcases ih (by omega) with ⟨t, ht, hl, hr⟩ | hall
        · exact Or.inl ⟨t, ht, hl.trans (leftOf_mono (Nat.le_succ s)), hr⟩
        · exact Or.inr hall

/-- To its right lies a weighed one with as many rules on the left, unless every rule is
there. -/
theorem Weighed.exists_right (h : Weighed rs d ps) (hfit : ∀ r ∈ rs, r.Fits) :
    ∀ (k : Nat) {s : Nat},
    hullLo rs d ≤ s → s + k + 1 = hullHi rs d →
    (∃ t ∈ ps, leftOf rs d t = leftOf rs d s ∧ rightOf rs d t ≤ rightOf rs d s) ∨
      leftOf rs d s = rs.length := by
  intro k
  induction k with
  | zero =>
      intro s hlo hhi
      by_cases hs : s ∈ ps
      · exact Or.inl ⟨_, hs, rfl, Nat.le_refl _⟩
      · right
        refine List.countP_eq_length.mpr (fun r hr => ?_)
        have hquiet := (h.quiet hlo (by omega) hs r hr).2
        have hend := le_hullHi (d := d) hr
        have hle := (hfit r hr d).1
        rw [decide_eq_true_eq]
        omega
  | succ k ih =>
      intro s hlo hhi
      by_cases hs : s ∈ ps
      · exact Or.inl ⟨_, hs, rfl, Nat.le_refl _⟩
      · have hquiet := h.quiet hlo (by omega) hs
        have hleft := leftOf_succ (fun r hr => (hquiet r hr).2)
        rw [← hleft]
        rcases ih (show hullLo rs d ≤ s + 1 by omega) (by omega) with ⟨t, ht, hl, hr⟩ | hall
        · exact Or.inl ⟨t, ht, hl, hr.trans (rightOf_anti (Nat.le_succ s))⟩
        · exact Or.inr hall

/-- The cost of a weighed position is below the rule count by a third. -/
theorem Weighed.gap (h : Weighed rs d ps) {p : Nat} (hp : p ∈ ps) :
    splitCost (leftOf rs d p) (rightOf rs d p) + 1 / 3 ≤ rs.length := by
  have hs := h.split p hp
  have hle := hs.weight_le
  have hgap := mean_sq_gap hs.weight0_pos hs.weight1_pos hle.1 hle.2 hs.weight_lt
  rw [← add_div] at hgap
  rw [splitCost]
  push_cast at hgap ⊢
  rw [pow_two, pow_two, add_comm ((leftOf rs d p : ℚ) * _), add_comm (leftOf rs d p : ℚ)]
  exact hgap

/-- **No position beats those weighed.** -/
theorem Weighed.exists_le (h : Weighed rs d ps) (hfit : ∀ r ∈ rs, r.Fits) {s : Nat}
    (hlo : hullLo rs d ≤ s) (hhi : s < hullHi rs d) :
    ∃ p ∈ ps, splitCost (leftOf rs d p) (rightOf rs d p)
      ≤ splitCost (leftOf rs d s) (rightOf rs d s) := by
  have hleft := h.exists_left hfit hlo hhi
  have hright := h.exists_right hfit (hullHi rs d - s - 1) hlo (by omega)
  have hl : leftOf rs d s ≤ rs.length := List.countP_le_length
  have hr : rightOf rs d s ≤ rs.length := List.countP_le_length
  -- a split that leaves every rule on both sides costs the rule count
  have hboth : leftOf rs d s = rs.length → rightOf rs d s = rs.length →
      ∃ p ∈ ps, splitCost (leftOf rs d p) (rightOf rs d p)
        ≤ splitCost (leftOf rs d s) (rightOf rs d s) := by
    intro hln hrn
    obtain ⟨p, hp⟩ := List.exists_mem_of_ne_nil ps h.ne_nil
    refine ⟨p, hp, ?_⟩
    have hpos : (0 : ℚ) < rs.length := by
      exact_mod_cast List.length_pos_of_ne_nil (h.split p hp).ne_nil
    have hcost : splitCost rs.length rs.length = rs.length := by
      rw [splitCost, div_eq_iff (by linarith)]
      ring
    rw [hln, hrn, hcost]
    linarith [h.gap hp]
  rcases Nat.le_total (rightOf rs d s) (leftOf rs d s) with hle | hle
  · rcases hleft with ⟨t, ht, htl, htr⟩ | hall
    · refine ⟨t, ht, ?_⟩
      rw [htr]
      exact splitCost_le_left (h.split t ht).weight0_pos htl hle
    · exact hboth (by omega) hall
  · rcases hright with ⟨t, ht, htl, htr⟩ | hall
    · refine ⟨t, ht, ?_⟩
      rw [htl]
      exact splitCost_le_right (h.split t ht).weight1_pos htr hle
    · exact hboth hall (by omega)

/-- The fold of `find_min_me_do` ends at or below every position weighed. -/
theorem foldl_weigh_le (b0 : Best ℚ) : ∀ p ∈ ps,
    (ps.foldl (@Best.weigh ℚ wordCost rs d) b0).minMe
      ≤ @splitMatchExpectHeuristic ℚ wordCost (leftOf rs d p) (rightOf rs d p) := by
  induction ps using List.reverseRecOn with
  | nil => exact fun p hp => absurd hp List.not_mem_nil
  | append_singleton ps q ih =>
      intro p hp
      rw [List.foldl_append, List.foldl_cons, List.foldl_nil]
      -- the new position is taken only if it is below all before it
      unfold Best.weigh findMinMeDo
      split
      · next hlt =>
        have hlt' := of_decide_eq_true hlt
        rcases List.mem_append.mp hp with hp | hp
        · exact hlt'.le.trans (ih p hp)
        · rw [List.mem_singleton.mp hp]
      · next hge =>
        have hge' := not_lt.mp (fun hlt => hge (decide_eq_true hlt))
        rcases List.mem_append.mp hp with hp | hp
        · exact ih p hp
        · rw [List.mem_singleton.mp hp]
          exact hge'

end Positions

/-! ### The optimum -/

section Optimum

variable {rs : RuleSet} {d : Dim} {cap : Nat}

theorem leftOf_le (hs : Sane rs) (hsize : rs.num ≤ 65535) (p : Nat) :
    leftOf rs.items d p ≤ 65535 :=
  List.countP_le_length.trans (hs.num_eq ▸ hsize)

theorem rightOf_le (hs : Sane rs) (hsize : rs.num ≤ 65535) (p : Nat) :
    rightOf rs.items d p ≤ 65535 :=
  List.countP_le_length.trans (hs.num_eq ▸ hsize)

/-- The cost returned where two rules differ: that of a weighed position, and the least
of theirs. -/
theorem splitMatchExpect1d_least (hs : Sane rs) (hsize : rs.num ≤ 65535)
    (hdiff : ¬ SameRange rs.items d) (hcap : rs.num ≤ cap) (n : SNode) :
    ∃ ps p r0 r1, Weighed rs.items d ps ∧ p ∈ ps ∧ r0.high = p ∧
      @splitMatchExpect1d ℚ wordCost cap n rs d
        = .ok (splitCost (leftOf rs.items d p) (rightOf rs.items d p),
            { n with r0 := r0, r1 := r1 }) ∧
      ∀ q ∈ ps, splitCost (leftOf rs.items d p) (rightOf rs.items d p)
        ≤ splitCost (leftOf rs.items d q) (rightOf rs.items d q) := by
  obtain ⟨ps, b, hps, hb, hrun⟩ :=
    @splitMatchExpect1d_weighed ℚ wordCost rs d cap n hcap hs.num_eq hs.fits hdiff
  have hcost : ∀ p, @splitMatchExpectHeuristic ℚ wordCost (leftOf rs.items d p)
      (rightOf rs.items d p) = splitCost (leftOf rs.items d p) (rightOf rs.items d p) :=
    fun p => heuristic_eq_splitCost (leftOf_le hs hsize p) (rightOf_le hs hsize p)
  obtain ⟨p, hp, hbest⟩ := @foldl_weigh_mem ℚ wordCost d rs.items rs.num ps
    ⟨@CostArith.ofNat ℚ wordCost rs.num, hullLo rs.items d, n.r0.weight, n.r1.weight⟩
    hps.ne_nil rfl (by rw [hs.num_eq]; exact @Weighed.improves ℚ wordCost d rs.items ps hps)
  have hleast := @foldl_weigh_le rs.items d ps
    ⟨@CostArith.ofNat ℚ wordCost rs.num, hullLo rs.items d, n.r0.weight, n.r1.weight⟩
  rw [hbest] at hb hleast
  rw [hb] at hrun
  dsimp only at hrun hleast
  rw [hcost] at hrun
  refine ⟨ps, p, _, _, hps, hp, ?_, hrun, ?_⟩
  · rfl
  · intro q hq
    have hle := hleast q hq
    rwa [hcost, hcost] at hle

/-- A cost for rules that agree or differ: the count itself, or less by a third. -/
def Gapped (num : Nat) (same : Prop) (me : ℚ) : Prop :=
  (same ∧ me = num) ∨ (¬ same ∧ me + 1 / 3 ≤ num)

/-- `double_equals` tells the two kinds of cost apart. -/
theorem Gapped.doubleEquals_iff {num : Nat} {same : Prop} {me : ℚ} (h : Gapped num same me) :
    @doubleEquals ℚ wordCost me (@CostArith.ofNat ℚ wordCost num) = true ↔ same := by
  rcases h with ⟨hsame, rfl⟩ | ⟨hdiff, hgap⟩
  · exact iff_of_true (@doubleEquals_self ℚ wordCost num) hsame
  · refine iff_of_false ?_ hdiff
    have hle : @CostArith.le ℚ wordCost me (@CostArith.ofNat ℚ wordCost num) = true :=
      decide_eq_true (show me ≤ (num : ℚ) by linarith)
    have hfar : ¬ ((num : ℚ) - me < 1 / 10000) := by linarith
    unfold doubleEquals
    rw [if_pos hle]
    exact fun hlt => hfar (of_decide_eq_true hlt)

/-- The smaller of two such costs. -/
theorem Gapped.min {num : Nat} {same same' : Prop} {me me' : ℚ} (h : Gapped num same me)
    (h' : Gapped num same' me') :
    Gapped num (same ∧ same') (if me' < me then me' else me) := by
  rcases h with ⟨hs, rfl⟩ | ⟨hs, hgap⟩
  · rcases h' with ⟨hs', rfl⟩ | ⟨hs', hgap'⟩
    · rw [if_neg (lt_irrefl _)]
      exact Or.inl ⟨⟨hs, hs'⟩, rfl⟩
    · rw [if_pos (by linarith)]
      exact Or.inr ⟨fun hboth => hs' hboth.2, hgap'⟩
  · refine Or.inr ⟨fun hboth => hs hboth.1, ?_⟩
    split <;> linarith

/-- One dimension: the rule count where all rules agree, and a third less otherwise. -/
theorem splitMatchExpect1d_gapped (hs : Sane rs) (hne : rs.items ≠ []) (hsize : rs.num ≤ 65535)
    (hcap : rs.num ≤ cap) (n : SNode) :
    ∃ me n', @splitMatchExpect1d ℚ wordCost cap n rs d = .ok (me, n') ∧
      n'.enabled = n.enabled ∧ Gapped rs.num (SameRange rs.items d) me := by
  by_cases hsame : SameRange rs.items d
  · exact ⟨_, _, @splitMatchExpect1d_same ℚ wordCost rs d cap n hcap hne hsame, rfl,
      Or.inl ⟨hsame, rfl⟩⟩
  · obtain ⟨ps, p, r0, r1, hps, hp, -, hrun, -⟩ :=
      splitMatchExpect1d_least hs hsize hsame hcap n
    refine ⟨_, _, hrun, rfl, Or.inr ⟨hsame, ?_⟩⟩
    rw [hs.num_eq]
    exact hps.gap hp

/-- A call that returns had room for its ranges. -/
theorem splitMatchExpect1d_room {K : Type} [CostArith K] {n : SNode} {q : K × SNode}
    (h : splitMatchExpect1d cap n rs d = .ok q) : rs.num ≤ cap := by
  by_contra hlt
  rw [splitMatchExpect1d, if_pos (Nat.not_le.mp hlt)] at h
  cases h

/-- The root of the tree is switched off by the test and by nothing else. -/
theorem splitMatchExpectTree_root {K : Type} [CostArith K] {aux : SplitAux} {me : K} {t : STree}
    (h : splitMatchExpectTree K aux rs d = .ok (me, t)) :
    ∃ c n', splitMatchExpect1d (K := K) aux.rangesCap
        { (aux.strees d).root with dim := d, enabled := true } rs d = .ok (c, n') ∧
      t.root.enabled = (n'.enabled && !doubleEquals c (CostArith.ofNat rs.num)) := by
  obtain ⟨⟨c, n'⟩, h1d, hrest⟩ := bind_eq_ok.mp h
  refine ⟨c, n', h1d, ?_⟩
  dsimp only at hrest
  cases htest : doubleEquals c (CostArith.ofNat rs.num) with
  | true =>
      rw [htest, if_pos rfl] at hrest
      cases hrest
      exact (Bool.and_false _).symm
  | false =>
      rw [htest, if_neg Bool.false_ne_true] at hrest
      split at hrest
      · cases hrest
        exact (Bool.and_true _).symm
      · obtain ⟨p, -, hrest⟩ := bind_eq_ok.mp hrest
        obtain ⟨left, -, hrest⟩ := bind_eq_ok.mp hrest
        obtain ⟨right, -, hrest⟩ := bind_eq_ok.mp hrest
        cases hrest
        exact (Bool.and_true _).symm

/-- The rounds of `split_match_build_childs`: what is remembered is the count as long as
the dimensions tried agree, and a third less from then on. -/
theorem buildLoop_gapped (hs : Sane rs) (hne : rs.items ≠ []) (hsize : rs.num ≤ 65535)
    (hcap : rs.num ≤ cap) : ∀ (ds tried : List Dim) (n : SNode) (o : Option (BestDim ℚ)),
    (∀ b ∈ o, Gapped rs.num (∀ i ∈ tried, SameRange rs.items i) b.mec) → (o = none → tried = []) →
    ∃ n' o', ds.foldlM (@buildStep ℚ wordCost cap rs) (n, o) = .ok (n', o') ∧
      (∀ b ∈ o', Gapped rs.num (∀ i ∈ tried ++ ds, SameRange rs.items i) b.mec) ∧
      (o' = none → tried ++ ds = []) := by
  intro ds
  induction ds with
  | nil =>
      intro tried n o ho hnone
      rw [List.append_nil]
      exact ⟨n, o, rfl, ho, hnone⟩
  | cons i ds ih =>
      intro tried n o ho hnone
      obtain ⟨me, n1, h1d, -, hgap⟩ := splitMatchExpect1d_gapped (d := i) hs hne hsize hcap n
      have hstep : ∃ o1, @buildStep ℚ wordCost cap rs (n, o) i = .ok (n1, o1) ∧ o1 ≠ none ∧
          ∀ b ∈ o1, Gapped rs.num (∀ j ∈ tried ++ [i], SameRange rs.items j) b.mec := by
        unfold buildStep
        rw [h1d]
        cases o with
        | none =>
            rw [hnone rfl, List.nil_append]
            refine ⟨_, rfl, by simp, fun b hb => ?_⟩
            obtain rfl := Option.some.inj hb
            simpa only [List.mem_singleton, forall_eq] using hgap
        | some b0 =>
            refine ⟨_, rfl, by split <;> simp, fun b hb => ?_⟩
            have hmec : b.mec = if me < b0.mec then me else b0.mec := by
              split at hb
              · next hlt =>
                have hlt' : me < b0.mec := of_decide_eq_true hlt
                rw [if_pos hlt', ← Option.some.inj hb]
              · next hge =>
                have hge' : ¬ me < b0.mec := fun hlt => hge (decide_eq_true hlt)
                rw [if_neg hge', ← Option.some.inj hb]
            simp only [List.forall_mem_append, List.forall_mem_singleton]
            rw [hmec]
            exact (ho b0 rfl).min hgap
      obtain ⟨o1, hstep, hsome, ho1⟩ := hstep
      obtain ⟨n', o', hrun, hgood, hnone'⟩ := ih (tried ++ [i]) n1 o1 ho1
        (fun h => absurd h hsome)
      rw [List.append_assoc, List.singleton_append] at hgood hnone'
      refine ⟨n', o', ?_, hgood, hnone'⟩
      rw [List.foldlM_cons, hstep]
      exact hrun

/-- `split_match_expect` switches the root off iff the dimension tells no two rules apart. -/
theorem splitMatchExpect_off_iff (hs : Sane rs) (hne : rs.items ≠ []) (hsize : rs.num ≤ 65535)
    {aux aux' : SplitAux} {d : Dim} {me : ℚ}
    (h : @splitMatchExpect ℚ wordCost aux rs d = .ok (me, aux')) :
    (aux'.strees d).root.enabled = false ↔ SameRange rs.items d := by
  obtain ⟨⟨me', t⟩, htree, haux⟩ := (@bind_eq_ok Fault _ _ _ _ _).mp h
  obtain ⟨-, rfl⟩ := Prod.mk.inj (Except.ok.inj haux)
  obtain ⟨c, n1, h1d, hroot⟩ := @splitMatchExpectTree_root rs d ℚ wordCost aux me' t htree
  have hcap := @splitMatchExpect1d_room rs d _ ℚ wordCost _ _ h1d
  obtain ⟨c', n2, hrun, hen, hgap⟩ := splitMatchExpect1d_gapped (d := d) hs hne hsize hcap
    { (aux.strees d).root with dim := d, enabled := true }
  rw [hrun] at h1d
  cases h1d
  simp only [Function.update_self]
  rw [hroot, hen, Bool.true_and, Bool.not_eq_false', hgap.doubleEquals_iff]

/-- `split_match_build_childs` switches its node off iff no dimension does. -/
theorem splitMatchBuildChilds_off_iff (hs : Sane rs) (hne : rs.items ≠ [])
    (hsize : rs.num ≤ 65535) {cap : Nat} {n n' : SNode} (hbig : bucketSize < rs.num)
    (h : @splitMatchBuildChilds ℚ wordCost cap n rs = .ok n') :
    n'.enabled = false ↔ ∀ d, SameRange rs.items d := by
  unfold splitMatchBuildChilds at h
  rw [if_neg (Nat.not_le.mpr hbig)] at h
  -- the first dimension is tried, and returned
  have hcap : rs.num ≤ cap := by
    obtain ⟨p, hp, -⟩ := (@bind_eq_ok Fault _ _ _ _ _).mp h
    rw [show List.finRange 5 = 0 :: [1, 2, 3, 4] by decide, List.foldlM_cons] at hp
    obtain ⟨q, hq, -⟩ := (@bind_eq_ok Fault _ _ _ _ _).mp hp
    unfold buildStep at hq
    obtain ⟨q, hq, -⟩ := (@bind_eq_ok Fault _ _ _ _ _).mp hq
    exact @splitMatchExpect1d_room _ _ _ ℚ wordCost _ _ hq
  obtain ⟨n1, o1, hloop, hgood, hnone⟩ := buildLoop_gapped hs hne hsize hcap (List.finRange 5) []
    { n with enabled := true } none (by simp) (fun _ => rfl)
  rw [hloop] at h
  cases o1 with
  | none => exact absurd (hnone rfl) (by decide)
  | some b =>
      obtain rfl := Except.ok.inj h
      have hiff := (hgood b rfl).doubleEquals_iff
      simp only [List.nil_append, List.mem_finRange, forall_true_left] at hiff
      rw [Bool.not_eq_false', hiff]

/-- Two rules or more that `remove_redund` has left are irredundant. -/
theorem removeRedund_irredundant {rs0 : RuleSet} (hwf : RulesWF rs0.items)
    (hclean : removeRedund rs0 = rs) (hmany : 1 < rs.num) : Irredundant rs.items := by
  have hne0 : rs0.items ≠ [] := by
    intro hnil
    rw [← hclean, removeRedund_nil hnil] at hmany
    exact absurd hmany (lt_irrefl 1)
  rw [← hclean, removeRedund_eq hne0 (fun r hr => (hwf r hr).pri_lt.ne)]
  exact clean_irredundant

/-- **The progress gap.** A dimension costs exactly the rule count where all rules agree in
it and less by a third where two differ. So the tests of `split_match_expect` and of
`split_match_build_childs`, which switch a node off, hold iff the dimension, or all five,
tell no two rules apart; and rules that `remove_redund` has cleaned, if there are two, can
be split for less than their number in some dimension. -/
theorem split_progress (hs : Sane rs) (hne : rs.items ≠ []) (hsize : rs.num ≤ 65535) :
    (∀ (cap : Nat) (n : SNode) (d : Dim), rs.num ≤ cap →
      ∃ me n', @splitMatchExpect1d ℚ wordCost cap n rs d = .ok (me, n') ∧
        (SameRange rs.items d → me = rs.num) ∧
        (¬ SameRange rs.items d → me ≤ rs.num - 1 / 3)) ∧
    (∀ (aux aux' : SplitAux) (d : Dim) (me : ℚ),
      @splitMatchExpect ℚ wordCost aux rs d = .ok (me, aux') →
        ((aux'.strees d).root.enabled = false ↔ SameRange rs.items d)) ∧
    (∀ (cap : Nat) (n n' : SNode), bucketSize < rs.num →
      @splitMatchBuildChilds ℚ wordCost cap n rs = .ok n' →
        (n'.enabled = false ↔ ∀ d, SameRange rs.items d)) ∧
    ∀ rs0 : RuleSet, RulesWF rs0.items → removeRedund rs0 = rs → 1 < rs.num →
      ∃ d, ∀ (cap : Nat) (n : SNode), rs.num ≤ cap →
        ∃ me n', @splitMatchExpect1d ℚ wordCost cap n rs d = .ok (me, n') ∧ me < rs.num := by
  refine ⟨?_, ?_, ?_, ?_⟩
  · intro cap n d hcap
    obtain ⟨me, n', hrun, -, hgap⟩ := splitMatchExpect1d_gapped (d := d) hs hne hsize hcap n
    refine ⟨me, n', hrun, ?_, ?_⟩
    · intro hsame
      rcases hgap with ⟨-, hme⟩ | ⟨hdiff, -⟩
      · exact hme
      · exact absurd hsame hdiff
    · intro hdiff
      rcases hgap with ⟨hsame, -⟩ | ⟨-, hme⟩
      · exact absurd hsame hdiff
      · linarith
  · exact fun aux aux' d me h => splitMatchExpect_off_iff hs hne hsize h
  · exact fun cap n n' hbig h => splitMatchBuildChilds_off_iff hs hne hsize hbig h
  · intro rs0 hwf hclean hmany
    obtain ⟨d, hdiff⟩ := (removeRedund_irredundant hwf hclean hmany).exists_differ
      (by rw [← hs.num_eq]; exact hmany)
    refine ⟨d, fun cap n hcap => ?_⟩
    obtain ⟨me, n', hrun, -, hgap⟩ := splitMatchExpect1d_gapped (d := d) hs hne hsize hcap n
    refine ⟨me, n', hrun, ?_⟩
    rcases hgap with ⟨hsame, -⟩ | ⟨-, hme⟩
    · exact absurd hsame hdiff
    · linarith

/-- Of two groups of rules, `remove_redund` leaves one rule each, and they can be split. -/
theorem split_progress_pairRules :
    1 < (removeRedund (Buffer.ofList pairRules)).num ∧
      ∃ d me n', @splitMatchExpect1d ℚ wordCost 17 (CutAux.zero.split.strees 0).root
          (removeRedund (Buffer.ofList pairRules)) d = .ok (me, n') ∧
        me < (removeRedund (Buffer.ofList pairRules)).num := by
  have hs := removeRedund_sane (by decide) pairRules_wf
  have hmany : 1 < (removeRedund (Buffer.ofList pairRules)).num := by decide
  obtain ⟨d, hd⟩ := (split_progress hs (by decide) (by decide)).2.2.2
    (Buffer.ofList pairRules) pairRules_wf rfl hmany
  exact ⟨hmany, d, hd 17 _ (by decide)⟩

end Optimum

end ChooseCut
