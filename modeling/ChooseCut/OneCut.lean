import ChooseCut.Lookup

/-!
# ChooseCut.OneCut

What one cut of one node does, for each of the three methods on its own.

The lookup of the cut node reaches a child that answers for the node, whatever the
other children hold; and the sizes the cost function predicts are the sizes the
distribution produces, so that no buffer of the cut is too small. Both are stated
before redundancy removal, for the scratch data computed from the rules themselves.
-/

namespace ChooseCut

/-! ### Bitmap cuts -/

/-- **A bitmap cut preserves matching**: a flow that reaches no child matches no rule,
and a flow that reaches one has there, with its key shifted, the hits it had. -/
theorem evenCut_hits {b : RuleSet} (hwf : RulesWF b.items) (d : Dim) {f : Flow} (hf : f.InRange) :
    ∃ n kids, evenCut b d (getRuleHist b.items d) = .ok (n, kids) ∧
      match evenSearch n d f with
      | none => ∀ r ∈ b.items, ¬ r.Matches f
      | some (slot, f') => ∃ k, kids[slot]? = some k ∧ hits k.items f' = hits b.items f := by
  have hfit : ∀ r ∈ b.items, r.Fits := fun r hr => (hwf r hr).fits
  refine ⟨_, _, evenCut_eq hfit, ?_⟩
  have hspec := evenSearch_spec (d := d) hfit hf
  cases hsearch : evenSearch (evenNode (getRuleHist b.items d)) d f with
  | none =>
      rw [hsearch] at hspec
      exact hits_eq_nil.mp hspec
  | some q =>
      rw [hsearch] at hspec
      obtain ⟨-, i, hi, hslot, hhits⟩ := hspec
      exact ⟨_, by rw [hslot]; exact evenKids_getElem? hfit hi, hhits⟩

/-- On two groups of rules, a flow of the second. -/
theorem evenCut_hits_pairRules :
    ∃ n kids, evenCut (Buffer.ofList pairRules) 0 (getRuleHist pairRules 0) = .ok (n, kids) ∧
      match evenSearch n 0 (.onFirst (2 ^ 31)) with
      | none => ∀ r ∈ pairRules, ¬ r.Matches (.onFirst (2 ^ 31))
      | some (slot, f') => ∃ k, kids[slot]? = some k ∧
          hits k.items f' = hits pairRules (.onFirst (2 ^ 31)) :=
  @evenCut_hits (Buffer.ofList pairRules) pairRules_wf 0 (.onFirst (2 ^ 31))
    (Flow.onFirst_inRange (by decide))

/-- The child index of a prefix: the heap position of its first bits, at most six. -/
theorem prefixIdx_eq (d : Dim) (p : Pfx) :
    prefixIdx d p = 2 ^ min p.len stride - 1 + p.bits >>> (dimBits d - min p.len stride) := by
  unfold prefixIdx
  by_cases h : stride ≤ p.len
  · rw [if_pos h, Nat.min_eq_right h]
    exact Nat.add_comm _ _
  · rw [if_neg h, Nat.min_eq_left (Nat.le_of_lt (Nat.not_le.mp h)), countInlBitmap]
    exact Nat.sub_add_comm (Nat.two_pow_pos _)

/-- The totals of the histogram are the number of its non-zero entries and their sum. -/
theorem getRuleHist_totals {rs : List Rule} (hfit : ∀ r ∈ rs, r.Fits) (d : Dim) :
    (getRuleHist rs d).childs
        = count (fun i => (getRuleHist rs d).childRulecount i ≠ 0) childCount ∧
      (getRuleHist rs d).rules
        = ((List.range childCount).map (getRuleHist rs d).childRulecount).sum := by
  have hocc : (fun i => decide (countPrefixes rs d i ≠ 0))
      = fun i => decide ((getRuleHist rs d).childRulecount i ≠ 0) := by
    funext i
    rw [decide_eq_decide, getRuleHist_ne_zero hfit, countPrefixes_eq, Ne, List.count_eq_zero,
      not_not]
  have hloop := histLoop_eq (countPrefixes rs d) childCount
  constructor
  · rw [← hocc, getRuleHist, hloop]
  · have hentry : ∀ i ∈ List.range childCount, (getRuleHist rs d).childRulecount i
        = if countPrefixes rs d i = 0 then 0 else pathSum (countPrefixes rs d) i := by
      intro i hi
      rw [getRuleHist, hloop]
      dsimp only
      rw [accumulate_eq, if_pos (List.mem_range.mp hi)]
    rw [List.map_congr_left hentry, getRuleHist, hloop]

/-- **The histogram of a bitmap cut is its distribution.** A child counts zero when no
prefix has its index and otherwise the prefixes on its root path, the totals are those of
the entries, and the cut fills every child to exactly its count, within its capacity. -/
theorem getRuleHist_evenCut {b : RuleSet} (hwf : RulesWF b.items) (d : Dim) :
    (∀ p, prefixIdx d p
      = 2 ^ min p.len stride - 1 + p.bits >>> (dimBits d - min p.len stride)) ∧
    (∀ i, (getRuleHist b.items d).childRulecount i =
      if i ∈ prefixIdxs b.items d then
        (prefixIdxs b.items d).countP (fun a => a ∈ ancestors i) else 0) ∧
    (getRuleHist b.items d).childs
      = count (fun i => (getRuleHist b.items d).childRulecount i ≠ 0) childCount ∧
    (getRuleHist b.items d).rules
      = ((List.range childCount).map (getRuleHist b.items d).childRulecount).sum ∧
    ∃ n kids, evenCut b d (getRuleHist b.items d) = .ok (n, kids) ∧
      (∀ i, (getRuleHist b.items d).childRulecount i ≠ 0 →
        ∃ k, kids[evenSlot n i]? = some k ∧
          k.num = (getRuleHist b.items d).childRulecount i ∧ k.items.length = k.num) ∧
      ∀ k ∈ kids, k.num = k.cap ∧ k.items.length = k.num := by
  have hfit : ∀ r ∈ b.items, r.Fits := fun r hr => (hwf r hr).fits
  obtain ⟨hchilds, hrules⟩ := getRuleHist_totals hfit d
  refine ⟨prefixIdx_eq d, getRuleHist_count hfit, hchilds, hrules, _, _, evenCut_eq hfit, ?_, ?_⟩
  · intro i hi
    have hmem := (getRuleHist_ne_zero hfit).mp hi
    refine ⟨_, evenKids_getElem? hfit hmem, ?_, rfl⟩
    rw [getRuleHist_count hfit, if_pos hmem, ← length_childRules]
    rfl
  · intro k hk
    obtain ⟨i, -, rfl⟩ := mem_evenKids hfit hk
    exact ⟨rfl, rfl⟩

/-- On two groups of rules, in the dimension that tells them apart. -/
theorem getRuleHist_evenCut_pairRules :
    ∃ n kids, evenCut (Buffer.ofList pairRules) 0 (getRuleHist (Buffer.ofList pairRules).items 0)
        = .ok (n, kids) ∧
      ∀ k ∈ kids, k.num = k.cap ∧ k.items.length = k.num := by
  obtain ⟨-, -, -, -, n, kids, hcut, -, hfull⟩ :=
    @getRuleHist_evenCut (Buffer.ofList pairRules) pairRules_wf 0
  exact ⟨n, kids, hcut, hfull⟩

/-! ### Split cuts -/

theorem splitMemQuant_le (t : STree) : splitMemQuant t ≤ 4 := by
  unfold splitMemQuant
  split <;> split <;> decide

theorem le_splitMemQuant (t : STree) : 2 ≤ splitMemQuant t :=
  Nat.le_add_right_of_le (Nat.le_add_right 2 _)

/-- `split_mem_quant` counts the children. -/
theorem length_splitKids (rs : List Rule) (d : Dim) (t : STree) :
    (splitKids rs d t).length = splitMemQuant t := by
  rw [splitKids, List.length_append, length_sideKids, length_sideKids, splitMemQuant]
  split <;> split <;> rfl

/-- The rule counts a tree predicts for the children of one side. -/
def sideWeights (n : SNode) (side : Range1d) : List Nat :=
  if n.enabled then [n.r0.weight, n.r1.weight] else [side.weight]

/-- The rule counts a tree predicts for its children, in array order. -/
def splitWeights (t : STree) : List Nat :=
  sideWeights t.left t.root.r0 ++ sideWeights t.right t.root.r1

/-- `split_fits_bs` asks every predicted count to fit a bucket. -/
theorem splitFitsBs_iff {t : STree} :
    splitFitsBs t = true ↔ ∀ w ∈ splitWeights t, w ≤ bucketSize := by
  unfold splitFitsBs splitWeights sideWeights
  cases t.left.enabled <;> cases t.right.enabled <;> simp [and_assoc]

/-- The children of a side have the predicted sizes. -/
theorem length_of_sideKids {n : SNode} {l : List Rule} {side : Range1d}
    (h : n.enabled = true → IsSplit l n.dim n.r0 n.r1) (hfit : ∀ r ∈ l, r.Fits)
    (hside : l.length = side.weight) :
    (sideKids n l).map List.length = sideWeights n side := by
  unfold sideKids sideWeights
  by_cases he : n.enabled = true
  · rw [if_pos he, if_pos he, List.map_cons, List.map_singleton, (h he).length_left hfit,
      (h he).length_right hfit]
  · rw [if_neg he, if_neg he, List.map_singleton, hside]

/-- The children of a split have the predicted sizes. -/
theorem STreeFor.lengths {rs : List Rule} {d : Dim} {t : STree} (h : STreeFor rs d t)
    (hfit : ∀ r ∈ rs, r.Fits) : (splitKids rs d t).map List.length = splitWeights t := by
  have hclip : ∀ x : Range, x.lo ≤ x.hi → ∀ r ∈ clipTo x d rs, r.Fits := by
    intro x hx q hq
    obtain ⟨r, hr, hm, rfl⟩ := mem_clipTo hq
    exact clip_fits (hfit r hr) hx hm
  rw [splitKids, splitWeights, List.map_append,
    length_of_sideKids h.left (hclip _ h.root.left_le) (h.root.length_left hfit),
    length_of_sideKids h.right (hclip _ h.root.right_le) (h.root.length_right hfit)]

section Split

variable {K : Type} [CostArith K] {aux aux' : SplitAux} {rs : RuleSet} {d : Dim} {me : K}

/-- An enabled root was computed from the rules: only a dimension in which two of them
differ enables it. -/
theorem splitMatchExpect_enabled (hs : Sane rs)
    (h : splitMatchExpect K aux rs d = .ok (me, aux'))
    (hroot : (aux'.strees d).root.enabled = true) :
    STreeFor rs.items d (aux'.strees d) ∧ aux'.rulesCap = aux.rulesCap := by
  obtain ⟨⟨me', t⟩, ht, haux⟩ := bind_eq_ok.mp h
  obtain ⟨-, rfl⟩ := Prod.mk.inj (Except.ok.inj haux)
  simp only [Function.update_self] at hroot ⊢
  refine ⟨?_, trivial⟩
  have hroom := splitMatchExpectTree_room ht
  by_cases hsame : SameRange rs.items d
  · exfalso
    by_cases hne : rs.items = []
    · have h1d : ∀ n, splitMatchExpect1d (K := K) aux.rangesCap n rs d
          = .ok (CostArith.ofNat rs.num, n) := by
        intro n
        rw [splitMatchExpect1d, if_neg (Nat.not_lt.mpr hroom), hne]
        rfl
      simp only [splitMatchExpectTree, h1d, bind, Except.bind, doubleEquals_self] at ht
      cases ht
      cases hroot
    · rw [splitMatchExpectTree_same hroom hne hsame] at ht
      cases ht
      cases hroot
  · rcases splitMatchExpectTree_spec (K := K) hroom hs.num_eq hs.fits hsame with
      ⟨-, herr⟩ | ⟨me1, t1, hok, htree, -⟩
    · rw [herr] at ht
      cases ht
    · rw [hok] at ht
      cases ht
      exact htree

/-- **A split cut preserves matching**: with the tree an enabled root was computed with,
the cut succeeds when a side's rules fit the scratch buffers, and the lookup of its two
to four children reaches one with the hits of the node, for every flow. -/
theorem splitCut_hits (hs : Sane rs) (h : splitMatchExpect K aux rs d = .ok (me, aux'))
    (hroot : (aux'.strees d).root.enabled = true) :
    (rs.num ≤ aux'.rulesCap →
      ∃ n kids, splitCut aux'.rulesCap (aux'.strees d) rs d = .ok (n, kids)) ∧
    ∀ n kids, splitCut aux'.rulesCap (aux'.strees d) rs d = .ok (n, kids) →
      2 ≤ kids.length ∧ kids.length ≤ 4 ∧
      ∀ f, ∃ k, kids[splitSearch n d f]? = some k ∧ hits k.items f = hits rs.items f := by
  obtain ⟨htree, -⟩ := splitMatchExpect_enabled hs h hroot
  rw [splitCut_eq htree hs.fits]
  constructor
  · intro hcap
    have hle := htree.root.weight_le
    rw [← hs.num_eq] at hle
    rw [if_pos ⟨hle.1.trans hcap, hle.2.trans hcap⟩]
    exact ⟨_, _, rfl⟩
  · intro n kids hcut
    split at hcut
    · obtain ⟨rfl, rfl⟩ := Prod.mk.inj (Except.ok.inj hcut)
      have hlen := length_splitKids rs.items d (aux'.strees d)
      refine ⟨?_, ?_, fun f => ?_⟩
      · rw [List.length_map, hlen]
        exact le_splitMemQuant _
      · rw [List.length_map, hlen]
        exact splitMemQuant_le _
      · obtain ⟨k, hk, hhits⟩ := splitSearch_spec htree f
        exact ⟨Buffer.ofList k, by rw [List.getElem?_map, hk]; rfl, hhits⟩
    · cases hcut

/-- **What a split predicts is what it does.** In a dimension in which two rules differ,
the sweep stores a split of the hull into two adjoining ranges, with the numbers of rules
that the cut appends to the two sides, both positive; and the tree of `split_match_expect`
predicts the sizes of the children of `split_cut`, their number, and whether each of them
fits a bucket. -/
theorem split_predicts (hs : Sane rs) (hdiff : ¬ SameRange rs.items d) :
    (∀ (cap : Nat) (n : SNode), rs.num ≤ cap →
      ∃ r0 r1, splitMatchExpect1d (K := K) cap n rs d
          = .ok (splitMatchExpectHeuristic r0.weight r1.weight, { n with r0 := r0, r1 := r1 }) ∧
        r0.low = hullLo rs.items d ∧ r1.high = hullHi rs.items d ∧ r1.low = r0.high + 1 ∧
        r0.low ≤ r0.high ∧ r0.high < r1.high ∧ 0 < r0.weight ∧ 0 < r1.weight ∧
        ∃ l r : List Rule, l.length = r0.weight ∧ r.length = r1.weight ∧
          ∀ lrs rrs : RuleSet, lrs.num + r0.weight ≤ lrs.cap → rrs.num + r1.weight ≤ rrs.cap →
            splitCut1dInto rs d r0 r1 lrs rrs = .ok (lrs.extend l, rrs.extend r)) ∧
    ∀ aux : SplitAux, rs.num ≤ aux.rangesCap → rs.num ≤ aux.rulesCap →
      ∃ (me : K) (aux' : SplitAux), splitMatchExpect K aux rs d = .ok (me, aux') ∧
        ∃ n kids, splitCut aux'.rulesCap (aux'.strees d) rs d = .ok (n, kids) ∧
          kids.map Buffer.num = splitWeights (aux'.strees d) ∧
          (∀ k ∈ kids, k.num = k.cap ∧ k.items.length = k.num) ∧
          splitMemQuant (aux'.strees d) = kids.length ∧
          (splitFitsBs (aux'.strees d) = true ↔ ∀ k ∈ kids, k.num ≤ bucketSize) := by
  constructor
  · intro cap n hcap
    obtain ⟨r0, r1, h1d, hsplit⟩ := splitMatchExpect1d_spec (K := K) n hcap hs.num_eq hs.fits hdiff
    have hl := hsplit.length_left hs.fits
    have hr := hsplit.length_right hs.fits
    refine ⟨r0, r1, h1d, hsplit.low, hsplit.high, hsplit.next, hsplit.left_le, ?_,
      hsplit.weight0_pos, hsplit.weight1_pos, _, _, hl, hr, ?_⟩
    · rw [hsplit.high]
      exact hsplit.lt
    · intro lrs rrs hlrs hrrs
      rw [splitCut1dInto, splitCut1dInto_eq _ (by omega) (by omega), hl, hr, if_pos ⟨hlrs, hrrs⟩]
  · intro aux hranges hrules
    rcases splitMatchExpectTree_spec (K := K) hranges hs.num_eq hs.fits hdiff with
      ⟨hlt, -⟩ | ⟨me, t, hexp, htree, -⟩
    · exact absurd hrules (Nat.not_le.mpr hlt)
    · have hle := htree.root.weight_le
      rw [← hs.num_eq] at hle
      have hnum : ((splitKids rs.items d t).map Buffer.ofList).map Buffer.num = splitWeights t := by
        rw [List.map_map, ← htree.lengths hs.fits]
        rfl
      refine ⟨me, { aux with strees := Function.update aux.strees d t }, ?_, splitFill t,
        (splitKids rs.items d t).map Buffer.ofList, ?_, ?_⟩
      · rw [splitMatchExpect, hexp]
        rfl
      · dsimp only
        rw [Function.update_self, splitCut_eq htree hs.fits,
          if_pos ⟨hle.1.trans hrules, hle.2.trans hrules⟩]
      · dsimp only
        rw [Function.update_self]
        refine ⟨hnum, ?_, ?_, ?_⟩
        · intro k hk
          obtain ⟨l, -, rfl⟩ := List.mem_map.mp hk
          exact ⟨rfl, rfl⟩
        · rw [List.length_map, length_splitKids]
        · rw [splitFitsBs_iff, ← hnum, List.forall_mem_map]

end Split

/-- On two groups of rules the root is enabled, and a flow of the second group finds its
rules behind the split. -/
theorem splitCut_hits_pairRules :
    ∃ (me : ℚ) (aux' : SplitAux),
      splitMatchExpect ℚ { CutAux.zero.split with rangesCap := 17, rulesCap := 17 }
          (Buffer.ofList pairRules) 0 = .ok (me, aux') ∧
      (aux'.strees 0).root.enabled = true ∧
      ∃ n kids k, splitCut aux'.rulesCap (aux'.strees 0) (Buffer.ofList pairRules) 0
          = .ok (n, kids) ∧
        kids[splitSearch n 0 (.onFirst (2 ^ 31))]? = some k ∧
        hits k.items (.onFirst (2 ^ 31)) = hits pairRules (.onFirst (2 ^ 31)) := by
  have hrun : (splitMatchExpect ℚ { CutAux.zero.split with rangesCap := 17, rulesCap := 17 }
      (Buffer.ofList pairRules) 0).map (fun q => ((q.2.strees 0).root.enabled, q.2.rulesCap))
        = .ok (true, 17) := by
    decide +kernel
  cases h : splitMatchExpect ℚ { CutAux.zero.split with rangesCap := 17, rulesCap := 17 }
      (Buffer.ofList pairRules) 0 with
  | error e =>
      rw [h] at hrun
      cases hrun
  | ok q =>
      obtain ⟨me, aux'⟩ := q
      rw [h] at hrun
      obtain ⟨hroot, hcap⟩ := Prod.mk.inj (Except.ok.inj hrun)
      obtain ⟨hruns, hhits⟩ := splitCut_hits pairRules_sane h hroot
      obtain ⟨n, kids, hcut⟩ := hruns (by rw [hcap]; decide)
      obtain ⟨k, hk, heq⟩ := (hhits n kids hcut).2.2 (.onFirst (2 ^ 31))
      exact ⟨me, aux', rfl, hroot, n, kids, k, hcut, hk, heq⟩

/-- Two groups of rules differ in the first dimension. -/
theorem split_predicts_pairRules :
    ¬ SameRange pairRules 0 ∧
      ∃ (me : ℚ) (aux' : SplitAux),
        splitMatchExpect ℚ { CutAux.zero.split with rangesCap := 17, rulesCap := 17 }
            (Buffer.ofList pairRules) 0 = .ok (me, aux') ∧
        ∃ n kids, splitCut aux'.rulesCap (aux'.strees 0) (Buffer.ofList pairRules) 0
            = .ok (n, kids) ∧
          kids.map Buffer.num = splitWeights (aux'.strees 0) := by
  obtain ⟨me, aux', hexp, n, kids, hcut, hnum, -⟩ :=
    (split_predicts (K := ℚ) pairRules_sane pairRules_differ).2
      { CutAux.zero.split with rangesCap := 17, rulesCap := 17 } (by decide) (by decide)
  exact ⟨pairRules_differ, me, aux', hexp, n, kids, hcut, hnum⟩

/-! ### Hi cuts -/

theorem ne_nil_of_hullLen {rs : List Rule} {d : Dim} (h : 4 ≤ hullLen rs d) : rs ≠ [] := by
  rintro rfl
  exact absurd h ((by decide : ∀ d, ¬ 4 ≤ hullLen [] d) d)

/-- **A hi cut preserves matching**: at whatever granularity the doubling loop stops, a
flow below the hull matches no rule, and a flow in one of the segments has in the child of
that segment the hits it had. -/
theorem hiCut_hits {K : Type} [CostArith K] {cap : Nat} {e e' : HiEntry} {rs : RuleSet} {d : Dim}
    {me : K} (hs : Sane rs) (hlen : 4 ≤ hullLen rs.items d)
    (h : hiGetRuleHist K cap e rs d = .ok (me, e')) :
    ∃ n kids, hiCut e' rs d = .ok (n, kids) ∧
      ∀ f : Flow, f.key d < e'.start ∨ (f.key d - e'.start) >>> e'.shift ≤ 63 →
        match hiSearch n d f with
        | none => ∀ r ∈ rs.items, ¬ r.Matches f
        | some slot => ∃ k, kids[slot]? = some k ∧ hits k.items f = hits rs.items f := by
  have hfor := (hiGetRuleHist_ok h (ne_nil_of_hullLen hlen) hs.fits hlen).2
  refine ⟨_, _, hiCut_eq hfor hs.fits, fun f _ => ?_⟩
  have hspec := hiSearch_spec hfor f
  cases hsearch : hiSearch ⟨e'.start, e'.shift, hiSetBitmap e'⟩ d f with
  | none =>
      rw [hsearch] at hspec
      exact hits_eq_nil.mp hspec
  | some slot =>
      rw [hsearch] at hspec
      obtain ⟨k, hk, hhits⟩ := hspec
      exact ⟨Buffer.ofList k, by rw [List.getElem?_map, hk]; rfl, hhits⟩

/-- On two groups of rules that are far apart. -/
theorem hiCut_hits_pairRules :
    4 ≤ hullLen pairRules 0 ∧
      ∃ (me : ℚ) (e' : HiEntry),
        hiGetRuleHist ℚ 17 (CutAux.zero.hi.entries 0) (Buffer.ofList pairRules) 0
          = .ok (me, e') ∧
        ∃ n kids, hiCut e' (Buffer.ofList pairRules) 0 = .ok (n, kids) ∧
          (2 ^ 31 - e'.start) >>> e'.shift ≤ 63 ∧
          match hiSearch n 0 (.onFirst (2 ^ 31)) with
          | none => ∀ r ∈ pairRules, ¬ r.Matches (.onFirst (2 ^ 31))
          | some slot => ∃ k, kids[slot]? = some k ∧
              hits k.items (.onFirst (2 ^ 31)) = hits pairRules (.onFirst (2 ^ 31)) := by
  have hlen : 4 ≤ hullLen (Buffer.ofList pairRules).items 0 := by decide +kernel
  have hrun : (hiGetRuleHist ℚ 17 (CutAux.zero.hi.entries 0) (Buffer.ofList pairRules) 0).map
      (fun q => decide ((2 ^ 31 - q.2.start) >>> q.2.shift ≤ 63)) = .ok true := by
    decide +kernel
  cases h : hiGetRuleHist ℚ 17 (CutAux.zero.hi.entries 0) (Buffer.ofList pairRules) 0 with
  | error e =>
      rw [h] at hrun
      cases hrun
  | ok q =>
      obtain ⟨me, e'⟩ := q
      rw [h] at hrun
      have hseg := of_decide_eq_true (Except.ok.inj hrun)
      obtain ⟨n, kids, hcut, hhits⟩ := hiCut_hits pairRules_sane hlen h
      exact ⟨hlen, me, e', rfl, n, kids, hcut, hseg, hhits (.onFirst (2 ^ 31)) (Or.inr hseg)⟩

/-- Every end of a rule lies in one of the segments of the hull. -/
theorem HiEntry.seg_le_hull (e : HiEntry) {rs : List Rule} {d : Dim} {r : Rule} (hr : r ∈ rs)
    (hfit : r.Fits) :
    e.seg (r.range d).lo ≤ e.seg (hullHi rs d) ∧ e.seg (r.range d).hi ≤ e.seg (hullHi rs d) :=
  ⟨e.seg_mono ((hfit d).1.trans (le_hullHi hr)), e.seg_mono (le_hullHi hr)⟩

/-- **The segmentation of a hi cut is exact.** What `hi_get_rule_hist` stores and returns
belongs to one granularity: its children partition the divisions, the segments merged into
a child see the same rules, and the cut fills every child to its count with rules that are
not empty. -/
theorem hiGetRuleHist_segments {K : Type} [CostArith K] {cap : Nat} {e e' : HiEntry}
    {rs : RuleSet} {d : Dim} {me : K} (hs : Sane rs) (hlen : 4 ≤ hullLen rs.items d)
    (h : hiGetRuleHist K cap e rs d = .ok (me, e')) :
    me = getMatchExpect e'.hist ∧ e'.start = hullLo rs.items d ∧ e'.hist.childs ≤ 64 ∧
    (∃ div ∈ hiDivs, ∃ u us, sweepRanges rs.items d = u :: us ∧
      e' = hiEntryAt rs.items d u us div ∧ e'.shift = hiShift (hullLen rs.items d) div ∧
      Partitions div e'.nodeR e'.hist.childs ∧
      ∀ r ∈ rs.items, e'.seg (r.range d).lo < div ∧ e'.seg (r.range d).hi < div) ∧
    (∀ i < e'.hist.childs, ∀ j k, (e'.nodeR i).1 ≤ j ∧ j ≤ (e'.nodeR i).2 →
      (e'.nodeR i).1 ≤ k ∧ k ≤ (e'.nodeR i).2 → j ≤ e'.seg (hullHi rs.items d) →
      k ≤ e'.seg (hullHi rs.items d) → ∀ r ∈ rs.items,
        ((r.range d).Meets (e'.segment j) ↔ (r.range d).Meets (e'.segment k))) ∧
    ∃ n kids, hiCut e' rs d = .ok (n, kids) ∧ kids.length = e'.hist.childs ∧
      ∀ i k, kids[i]? = some k → k.num = e'.hist.childRulecount i ∧ k.items.length = k.num ∧
        ∀ r ∈ k.items, (r.range d).lo ≤ (r.range d).hi := by
  have hne := ne_nil_of_hullLen hlen
  obtain ⟨u, us, hsw, div, hdiv, hme, hentry⟩ := hiGetRuleHist_entry h hne hlen
  obtain ⟨hfor, hpart, hseg⟩ := hiEntryAt_for hdiv hne hs.fits hsw
  rw [← hentry] at hfor hpart hseg
  have h64 := (hiDivs_bounds div hdiv).2
  refine ⟨hme, hfor.start_eq, hpart.length_le.trans h64,
    ⟨div, hdiv, u, us, hsw, hentry, by rw [hentry]; rfl, hpart, ?_⟩, ?_,
    _, _, hiCut_eq hfor hs.fits, by simp [hiKids], ?_⟩
  · intro r hr
    obtain ⟨hlo, hhi⟩ := e'.seg_le_hull (d := d) hr (hs.fits r hr)
    exact ⟨hlo.trans_lt hseg, hhi.trans_lt hseg⟩
  · intro i hi j k hj hk hjh hkh r hr
    exact hfor.meets_congr hi hr (hs.fits r hr d).1 hj hk hjh hkh
  · intro i k hk
    rw [List.getElem?_map, Option.map_eq_some_iff] at hk
    obtain ⟨l, hl, rfl⟩ := hk
    obtain ⟨hi, rfl⟩ := hiKids_getElem?.mp hl
    refine ⟨(hfor.count i hi).symm, rfl, fun r hr => ?_⟩
    exact ((clipTo_wf hs.wf (hfor.interval_le hi) r hr).fits d).1

/-- On rules with a gap, the hull is divided into six children. -/
theorem hiGetRuleHist_segments_gapRules :
    4 ≤ hullLen gapRules 0 ∧
      ∃ (me : ℚ) (e' : HiEntry),
        hiGetRuleHist ℚ 20 (CutAux.zero.hi.entries 0) (Buffer.ofList gapRules) 0
          = .ok (me, e') ∧
        e'.hist.childs = 6 ∧ me = getMatchExpect e'.hist ∧
        (∃ div ∈ hiDivs, Partitions div e'.nodeR 6) ∧
        ∃ n kids, hiCut e' (Buffer.ofList gapRules) 0 = .ok (n, kids) ∧ kids.length = 6 := by
  have hlen : 4 ≤ hullLen (Buffer.ofList gapRules).items 0 := by decide +kernel
  have hrun : (hiGetRuleHist ℚ 20 (CutAux.zero.hi.entries 0) (Buffer.ofList gapRules) 0).map
      (fun q => decide (q.2.hist.childs = 6)) = .ok true := by
    decide +kernel
  cases h : hiGetRuleHist ℚ 20 (CutAux.zero.hi.entries 0) (Buffer.ofList gapRules) 0 with
  | error e =>
      rw [h] at hrun
      cases hrun
  | ok q =>
      obtain ⟨me, e'⟩ := q
      rw [h] at hrun
      have hchilds : e'.hist.childs = 6 := of_decide_eq_true (Except.ok.inj hrun)
      obtain ⟨hme, -, -, ⟨div, hdiv, -, -, -, -, -, hpart, -⟩, -, n, kids, hcut, hkids, -⟩ :=
        hiGetRuleHist_segments gapRules_sane hlen h
      rw [hchilds] at hpart hkids
      exact ⟨hlen, me, e', rfl, hchilds, hme, ⟨div, hdiv, hpart⟩, n, kids, hcut, hkids⟩

end ChooseCut
