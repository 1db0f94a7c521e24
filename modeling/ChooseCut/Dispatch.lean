import ChooseCut.Lookup

/-!
# ChooseCut.Dispatch

Which scratch data a dispatch reads.

`cut_node` selects a method either because its cost is below the rule count or, in the
second pass, because the entry it finds in the scratch area says that all children fit a
bucket. A cost below the rule count means that `match_expect` computed the entry for
this node. The second pass asks nothing of the kind: it consults the entry of the best
dimension of every method, and where `match_expect` returned early that entry is left
over from another node, or from before the first one.

For split this takes a node whose rules agree in every dimension, which redundancy
removal leaves only at the root. For hi it takes a best dimension whose hull has fewer
than four values.
-/

namespace ChooseCut

/-! ### Why a method is selected -/

section Choice

variable {K : Type} [CostArith K]

/-- A scan for the least value: it ends where it started or at a value of the list that is
below the start, and no value of the list is below that one. Only transitivity is asked of
the comparison, so that "not below" is said with the converse. -/
theorem foldl_least (me : CutType → K) (l : List CutType) : ∀ p : K × CutType,
    let q := l.foldl (fun p t => if CostArith.lt (me t) p.1 then (me t, t) else p) p
    (q = p ∨ CostArith.lt q.1 p.1 = true ∧ q.1 = me q.2) ∧
      ∀ t ∈ l, CostArith.lt (me t) q.1 = true → CostArith.lt q.1 (me t) = true := by
  induction l with
  | nil => intro p; simp
  | cons t l ih =>
      intro p
      rw [List.foldl_cons]
      by_cases hlt : CostArith.lt (me t) p.1 = true
      · rw [if_pos hlt]
        obtain ⟨hend, hleast⟩ := ih (me t, t)
        refine ⟨Or.inr ?_, List.forall_mem_cons.mpr ⟨?_, hleast⟩⟩
        · rcases hend with heq | ⟨hbelow, hval⟩
          · rw [heq]
            exact ⟨hlt, rfl⟩
          · exact ⟨CostArith.lt_trans _ _ _ hbelow hlt, hval⟩
        · rcases hend with heq | ⟨hbelow, -⟩
          · rw [heq]
            exact id
          · exact fun _ => hbelow
      · rw [if_neg hlt]
        obtain ⟨hend, hleast⟩ := ih p
        refine ⟨hend, List.forall_mem_cons.mpr ⟨fun ht => absurd ?_ hlt, hleast⟩⟩
        rcases hend with heq | ⟨hbelow, -⟩
        · rwa [heq] at ht
        · exact CostArith.lt_trans _ _ _ ht hbelow

theorem mem_cutTypes (t : CutType) : t ∈ cutTypes := by
  cases t <;> decide

/-- The first pass ends with a cost below the rule count, unless there is none. -/
theorem chooseByExpect_spec (num : Nat) (min : CutType → K) :
    CostArith.lt (min (chooseByExpect num min)) (CostArith.ofNat num) = true ∨
      (chooseByExpect num min = .bitmap ∧
        ∀ t, CostArith.lt (min t) (CostArith.ofNat num) = false) := by
  obtain ⟨hend, hleast⟩ := foldl_least min cutTypes (CostArith.ofNat num, CutType.bitmap)
  rw [← chooseByExpect] at hend
  rcases hend with heq | ⟨hbelow, hval⟩
  · refine Or.inr ⟨congrArg Prod.snd heq, fun t => ?_⟩
    rw [heq] at hleast
    by_contra hlt
    have hlt : CostArith.lt (min t) (CostArith.ofNat num) = true := by simpa using hlt
    have hself := CostArith.lt_trans _ _ _ (hleast t (mem_cutTypes t) hlt) hlt
    rw [CostArith.lt_irrefl] at hself
    cases hself
  · rw [hval] at hbelow
    exact Or.inl hbelow

/-- The second pass, written out. -/
theorem chooseByMemory_eq (quant : CutType → Nat) (chosen : CutType) :
    chooseByMemory quant chosen =
      if quant .split < quant .bitmap then (if quant .hi < quant .split then .hi else .split)
      else if quant .hi < quant .bitmap then .hi else chosen := by
  unfold chooseByMemory cutTypes
  simp only [List.foldl_cons, List.foldl_nil, Nat.lt_irrefl, if_false]
  by_cases hs : quant .split < quant .bitmap
  · rw [if_pos hs, if_pos hs]
    dsimp only
    split <;> rfl
  · rw [if_neg hs, if_neg hs]
    dsimp only
    split <;> rfl

/-- The second pass changes the choice only for fewer children than bitmap would have. -/
theorem chooseByMemory_spec (quant : CutType → Nat) (chosen : CutType) :
    chooseByMemory quant chosen = chosen ∨
      quant (chooseByMemory quant chosen) < quant .bitmap := by
  rw [chooseByMemory_eq]
  by_cases hs : quant .split < quant .bitmap
  · rw [if_pos hs]
    split
    · next hh => exact Or.inr (Nat.lt_trans hh hs)
    · exact Or.inr hs
  · rw [if_neg hs]
    split
    · next hh => exact Or.inr hh
    · exact Or.inl rfl

theorem bestOf_fst (c : Dim → K) : (bestOf c).1 = c (bestOf c).2 := by
  have h : ∀ (l : List Dim) (p : K × Dim), p.1 = c p.2 →
      (l.foldl (fun p i => if CostArith.lt (c i) p.1 then (c i, i) else p) p).1
        = c (l.foldl (fun p i => if CostArith.lt (c i) p.1 then (c i, i) else p) p).2 := by
    intro l
    induction l with
    | nil => exact fun p hp => hp
    | cons i l ih =>
        intro p hp
        rw [List.foldl_cons]
        apply ih
        split
        · rfl
        · exact hp
  exact h _ _ rfl

/-- Where every cost is the rule count or below it, the best one is below it as soon as
one is. -/
theorem bestOf_lt {c : Dim → K} {n : Nat} (hall : ∀ d, c d = CostArith.ofNat n ∨
    CostArith.lt (c d) (CostArith.ofNat n) = true) {d : Dim}
    (hd : CostArith.lt (c d) (CostArith.ofNat n) = true) :
    CostArith.lt (bestOf c).1 (CostArith.ofNat n) = true := by
  have hkeep : ∀ (l : List Dim) (p : K × Dim), CostArith.lt p.1 (CostArith.ofNat n) = true →
      CostArith.lt (l.foldl (fun p i => if CostArith.lt (c i) p.1 then (c i, i) else p) p).1
        (CostArith.ofNat n) = true := by
    intro l
    induction l with
    | nil => exact fun p hp => hp
    | cons i l ih =>
        intro p hp
        rw [List.foldl_cons]
        apply ih
        split
        · next hlt => exact CostArith.lt_trans _ _ _ hlt hp
        · exact hp
  have hreach : ∀ (l : List Dim) (p : K × Dim), d ∈ l →
      (p.1 = CostArith.ofNat n ∨ CostArith.lt p.1 (CostArith.ofNat n) = true) →
      CostArith.lt (l.foldl (fun p i => if CostArith.lt (c i) p.1 then (c i, i) else p) p).1
        (CostArith.ofNat n) = true := by
    intro l
    induction l with
    | nil => intro p hmem; simp at hmem
    | cons i l ih =>
        intro p hmem hp
        rw [List.foldl_cons]
        rcases hp with hp | hp
        · rcases List.mem_cons.mp hmem with rfl | hmem
          · rw [hp, if_pos hd]
            exact hkeep l _ hd
          · apply ih _ hmem
            split
            · exact hall i
            · exact Or.inl hp
        · apply hkeep l
          split
          · next hlt => exact CostArith.lt_trans _ _ _ hlt hp
          · exact hp
  have hmem : ∀ d : Dim, d ≠ 0 → d ∈ ([1, 2, 3, 4] : List Dim) := by decide
  unfold bestOf
  by_cases h0 : d = 0
  · subst h0
    exact hkeep _ _ hd
  · exact hreach _ _ (hmem d h0) (hall 0)

/-- Without a gain in any dimension, the scan stays with the first. -/
theorem bestOf_const {c : Dim → K} {n : Nat} (hall : ∀ d, c d = CostArith.ofNat n) :
    bestOf c = (CostArith.ofNat n, 0) := by
  simp [bestOf, hall, CostArith.lt_irrefl]

end Choice

/-! ### Costs below the rule count -/

section Costs

variable {K : Type} [CostArith K] {aux aux' : CutAux} {rs : RuleSet} {t : CutType} {d : Dim}

/-- The average over the two levels of a split is below the rule count. -/
theorem STreeFor.subtree_lt {l : List Rule} {tree : STree} (h : STreeFor l d tree)
    (hfit : ∀ r ∈ l, r.Fits) :
    CostArith.lt (splitMatchExpectSubtree tree : K) (CostArith.ofNat l.length) = true := by
  have hle := h.root.weight_le
  have hlt := h.root.weight_lt
  have hll := h.root.length_left hfit
  have hlr := h.root.length_right hfit
  unfold splitMatchExpectSubtree
  dsimp only
  cases hel : tree.left.enabled <;> cases her : tree.right.enabled <;>
    simp only [Bool.false_eq_true, if_true, if_false]
  · exact CostArith.quot_lt _ _ _ (by decide) (by decide) (by omega)
  · have h1 := (h.right her).weight_le
    have h2 := (h.right her).weight_lt
    exact CostArith.quot_lt _ _ _ (by decide) (by decide) (by omega)
  · have h1 := (h.left hel).weight_le
    have h2 := (h.left hel).weight_lt
    exact CostArith.quot_lt _ _ _ (by decide) (by decide) (by omega)
  · have h1 := (h.left hel).weight_le
    have h2 := (h.left hel).weight_lt
    have h3 := (h.right her).weight_le
    have h4 := (h.right her).weight_lt
    exact CostArith.quot_lt _ _ _ (by decide) (by decide) (by omega)

/-- **A split pays in every dimension where two rules differ**, and costs the rule count
in every other. -/
theorem split_cost {me : K} (hs : Sane rs) (hne : rs.items ≠ [])
    (h : matchExpect K .split aux rs d = .ok (me, aux')) :
    if SameRange rs.items d then me = CostArith.ofNat rs.num
    else CostArith.lt me (CostArith.ofNat rs.num) = true := by
  obtain ⟨hroom, htree⟩ := matchExpect_split h
  split
  · next hsame =>
    rw [splitMatchExpectTree_same hroom hne hsame] at htree
    simp only [Except.ok.injEq, Prod.mk.injEq] at htree
    exact htree.1.symm
  · next hdiff =>
    rcases splitMatchExpectTree_spec (K := K) hroom hs.num_eq hs.fits hdiff with
      ⟨-, herr⟩ | ⟨me', tree, hok, hfor, hme⟩
    · rw [herr] at htree
      cases htree
    · rw [hok] at htree
      simp only [Except.ok.injEq, Prod.mk.injEq] at htree
      obtain ⟨rfl, -⟩ := htree
      rw [hs.num_eq]
      rcases hme with ⟨rfl, -⟩ | ⟨rfl, -⟩
      · have hle := hfor.root.weight_le
        exact CostArith.mean_lt _ _ _ hfor.root.weight0_pos hfor.root.weight1_pos hle.1 hle.2
          hfor.root.weight_lt
      · exact hfor.subtree_lt hs.fits

/-- As soon as two rules differ somewhere, the best split costs less than the rule count. -/
theorem Selected.split_lt (h : Selected K aux rs aux' t d) (hs : Sane rs) (hne : rs.items ≠ [])
    {e : Dim} (he : ¬ SameRange rs.items e) :
    CostArith.lt (bestOf (costOf K aux rs .split)).1 (CostArith.ofNat rs.num) = true := by
  have hcost : ∀ d, if SameRange rs.items d then costOf K aux rs .split d = CostArith.ofNat rs.num
      else CostArith.lt (costOf K aux rs .split d) (CostArith.ofNat rs.num) = true := fun d => by
    obtain ⟨aux1, hme, -⟩ := h.entry .split d
    exact split_cost hs hne hme
  have hlt := hcost e
  rw [if_neg he] at hlt
  refine bestOf_lt (fun d => ?_) hlt
  have := hcost d
  split at this
  · exact Or.inl this
  · exact Or.inr this

/-- The histogram of a bitmap cut has at most `CHILDCOUNT` children. -/
theorem getRuleHist_childs_le (l : List Rule) (d : Dim) : (getRuleHist l d).childs ≤ childCount := by
  rw [getRuleHist, histLoop_eq, ← length_filter_range]
  exact (List.length_filter_le _ _).trans_eq List.length_range

/-- `mem_quant` of the bitmap method is at most `CHILDCOUNT`. -/
theorem Selected.quant_bitmap_le (h : Selected K aux rs aux' t d) (d' : Dim) :
    quantOf aux' .bitmap d' ≤ childCount := by
  obtain ⟨aux1, hme, hsame⟩ := h.entry .bitmap d'
  unfold quantOf
  split
  · rw [memQuant, matchExpect_bitmap hme hsame]
    exact getRuleHist_childs_le _ _
  · exact Nat.le_refl _

/-- **Why a method other than bitmap is selected**: its cost is below the rule count, or
the entry it reads passes `all_fits_bs`. -/
theorem Selected.reason (h : Selected K aux rs aux' t d) (ht : t ≠ .bitmap) :
    CostArith.lt (costOf K aux rs t d) (CostArith.ofNat rs.num) = true ∨
      allFitsBs aux' t d = true := by
  rcases chooseByMemory_spec (fun t => quantOf aux' t (bestOf (costOf K aux rs t)).2)
    (chooseByExpect rs.num (fun t => (bestOf (costOf K aux rs t)).1)) with hm | hm
  · left
    rw [← h.type_eq] at hm
    rcases chooseByExpect_spec rs.num (fun t => (bestOf (costOf K aux rs t)).1) with he | ⟨he, -⟩
    · rw [← hm, bestOf_fst, ← h.dim_eq] at he
      exact he
    · exact absurd (hm.trans he) ht
  · right
    rw [← h.type_eq, ← h.dim_eq] at hm
    by_contra hfits
    have hq : quantOf aux' t d = childCount := if_neg hfits
    have := h.quant_bitmap_le (bestOf (costOf K aux rs .bitmap)).2
    omega

end Costs

/-! ### Entries left over -/

/-- No entry left over from an earlier node passes for one of this node: the buffers have
room for the rules; if the rules agree in every dimension, the weights left in the split
tree of the first dimension do not fit a bucket; and if the best hi dimension is too
short to be computed, neither does the histogram left there. -/
def Call.NoStale (K : Type) [CostArith K] (c : Call) : Prop :=
  bucketSize < c.rs.num →
    Room c.aux c.rs.num ∧
    ((∀ d, SameRange c.rs.items d) →
      ¬ ((c.aux.split.strees 0).root.r0.weight ≤ bucketSize ∧
        (c.aux.split.strees 0).root.r1.weight ≤ bucketSize)) ∧
    (hullLen c.rs.items (bestOf (costOf K c.aux c.rs .hi)).2 < 4 →
      (c.aux.hi.entries (bestOf (costOf K c.aux c.rs .hi)).2).hist.fitsBs = false)

section Stale

variable {K : Type} [CostArith K] {aux aux' : CutAux} {rs : RuleSet} {t : CutType} {d : Dim}

/-- Split is not selected on a leftover tree. -/
theorem Selected.fresh_split (h : Selected K aux rs aux' .split d) (hs : Sane rs)
    (hne : rs.items ≠ []) (hroom : Room aux rs.num)
    (hstale : (∀ d, SameRange rs.items d) →
      ¬ ((aux.split.strees 0).root.r0.weight ≤ bucketSize ∧
        (aux.split.strees 0).root.r1.weight ≤ bucketSize)) : ¬ SameRange rs.items d := by
  intro hsame
  have hconst : ∀ d, SameRange rs.items d → costOf K aux rs .split d = CostArith.ofNat rs.num :=
    fun d hsame => by
      obtain ⟨aux1, hme, -⟩ := h.entry .split d
      have := split_cost hs hne hme
      rwa [if_pos hsame] at this
  have hd := hconst d hsame
  -- with two different rules somewhere, the best dimension has a cost below the count
  by_cases hall : ∀ d, SameRange rs.items d
  · have hd0 : d = 0 := by rw [h.dim_eq, bestOf_const (fun d => hconst d (hall d))]
    subst hd0
    rcases h.reason (by decide) with hlt | hfits
    · rw [hd, CostArith.lt_irrefl] at hlt
      exact Bool.noConfusion hlt
    · obtain ⟨aux1, hme, hentry⟩ := h.entry .split 0
      have htree := (matchExpect_split hme).2
      rw [splitMatchExpectTree_same hroom.splitRanges hne hsame,
        show aux1.split.strees 0 = aux'.split.strees 0 from hentry] at htree
      rw [allFitsBs, ← (Prod.mk.inj (Except.ok.inj htree)).2] at hfits
      simp only [splitFitsBs, Bool.false_eq_true, if_false, Bool.and_eq_true,
        decide_eq_true_eq] at hfits
      exact hstale hall hfits
  · push Not at hall
    obtain ⟨e, he⟩ := hall
    have hbest := h.split_lt hs hne he
    rw [bestOf_fst, ← h.dim_eq, hd, CostArith.lt_irrefl] at hbest
    exact Bool.noConfusion hbest

/-- Hi is not selected on a leftover histogram. -/
theorem Selected.fresh_hi (h : Selected K aux rs aux' .hi d) (hne : rs.items ≠ [])
    (hroom : Room aux rs.num)
    (hstale : hullLen rs.items d < 4 → (aux.hi.entries d).hist.fitsBs = false) :
    4 ≤ hullLen rs.items d := by
  by_contra hlt
  have hlen : hullLen rs.items d < 4 := by omega
  obtain ⟨aux1, hme, hsame⟩ := h.entry .hi d
  have hentry := matchExpect_hi hme
  rw [hiGetRuleHist_short (K := K) (aux.hi.entries d) hroom.hiRanges hne hlen] at hentry
  obtain ⟨hcost, hkept⟩ := Prod.mk.inj (Except.ok.inj hentry)
  rcases h.reason (by decide) with hgain | hfits
  · rw [← hcost, CostArith.lt_irrefl] at hgain
    exact Bool.noConfusion hgain
  · rw [allFitsBs, ← (show aux1.hi.entries d = aux'.hi.entries d from hsame), ← hkept,
      hstale hlen] at hfits
    exact Bool.noConfusion hfits

/-- **The dispatch reads the node's own scratch data** when no leftover entry passes for
one. -/
theorem Selected.fresh {c : Call} (h : Selected K c.aux c.rs aux' t d) (hs : Sane c.rs)
    (hbig : bucketSize < c.rs.num) (hno : c.NoStale K) : Fresh t c.rs.items d := by
  obtain ⟨hroom, hsplit, hhi⟩ := hno hbig
  have hne := hs.ne_nil hbig
  cases t with
  | bitmap => trivial
  | split => exact h.fresh_split hs hne hroom hsplit
  | hi =>
      rw [← h.dim_eq] at hhi
      exact h.fresh_hi hne hroom hhi

end Stale

/-- **Every dispatch of the run is on the node's own scratch data, and no assertion
fails**, in a run where no leftover entry passes for one of the node's own: the run can
only end with a tree or by running out of the recursion depth it was given. -/
theorem cut_dispatch {K : Type} [CostArith K] {fuel : Nat} {aux : CutAux} {rs : List Rule}
    (hwf : RulesWF rs) (hsteps : ∀ c ∈ (cut K fuel aux rs).log, c.NoStale K) :
    (∀ c ∈ (cut K fuel aux rs).log, c.Own K) ∧
      ∀ e, (cut K fuel aux rs).res = .error e → e = .fuel := by
  have hown : ∀ (c : Call) aux' t d, (bucketSize < c.rs.num → Sane c.rs) → c.NoStale K →
      bucketSize < c.rs.num → selectCut K c.aux c.rs = .ok (aux', t, d) →
      OwnScratch K aux' c.rs t d := fun c aux' t d hI hno hbig hsel =>
    (selectCut_ok hsel).ownScratch ((selectCut_ok hsel).fresh (hI hbig) hbig hno)
  have hrule : RunRule K (fun _ => True) (fun _ rs => bucketSize < rs.num → Sane rs)
      (Call.NoStale K) (fun _ _ => True) (fun e => e = .fuel) :=
    { fuel := fun _ _ => rfl
      leaf := fun _ _ _ _ _ _ => trivial
      select_error := by
        intro n c e _ hI hno hbig hsel
        have hs := hI hbig
        obtain ⟨aux', t, d, hok⟩ := selectCut_total (fun t d =>
          matchExpect_of_room (K := K) t d hs (hs.ne_nil hbig) (hno hbig).1)
        rw [hok] at hsel
        cases hsel
      cut_error := by
        intro n c aux' t d e _ hI hno hbig hsel hcut
        have hs := hI hbig
        have hentry := (hown c aux' t d hI hno hbig hsel).entryFor hs (hs.ne_nil hbig)
        have hroom := (hno hbig).1.congr (selectCut_ok hsel).caps
        obtain ⟨w, ks, hok⟩ := cutInto_of_room hentry hs (by
          rintro rfl
          have hle := (hentry : STreeFor _ _ _).root.weight_le
          have := hs.num_eq
          have := hroom.splitRules
          omega)
        rw [hok] at hcut
        cases hcut
      node := by
        intro n c aux' t d w ks _ hI hno hbig hsel hcut
        have hs := hI hbig
        obtain ⟨hperm, hkids⟩ := cutInto_kids hs hbig (hown c aux' t d hI hno hbig hsel) hcut
        refine ⟨trivial, hperm, fun k hk => ?_, fun _ _ _ => trivial⟩
        obtain ⟨l, rfl, hl⟩ := hkids k hk
        exact removeRedund_sane_of_big hl }
  obtain ⟨hcalls, hend⟩ := hrule.cutNode fuel (auxInit aux rs.length) (Buffer.ofList rs) trivial
    (fun _ => ⟨rfl, hwf⟩) hsteps
  refine ⟨fun c hc hbig aux' t d hsel => ?_, fun e he => hend.of_error he⟩
  obtain ⟨-, n, hI⟩ := hcalls c hc
  exact hown c aux' t d hI (hsteps c hc) hbig hsel

instance (K : Type) [CostArith K] (c : Call) : Decidable (c.NoStale K) :=
  inferInstanceAs (Decidable (_ → _ ∧ _ ∧ _))

theorem pairRules_noStale :
    runHas (cut ℚ 2 .zero pairRules) (fun _ => true) (fun c => c.NoStale ℚ) = true := by
  decide +kernel

/-- On a zeroed scratch area the two groups meet the condition at every node. -/
theorem cut_dispatch_pairRules :
    RulesWF pairRules ∧ (∀ c ∈ (cut ℚ 2 .zero pairRules).log, c.NoStale ℚ) ∧
      ∀ c ∈ (cut ℚ 2 .zero pairRules).log, c.Own ℚ := by
  obtain ⟨-, -, -, -, hlog⟩ := runHas_iff.mp pairRules_noStale
  have hsteps : ∀ c ∈ (cut ℚ 2 .zero pairRules).log, c.NoStale ℚ :=
    fun c hc => by simpa using hlog c hc
  exact ⟨pairRules_wf, hsteps, (cut_dispatch pairRules_wf hsteps).1⟩

/-- Seventeen rules that match everything. -/
def sameRules : List Rule := (List.range 17).map (fun i => .onFirst i 0 (2 ^ 32 - 1))

/-- **A leftover entry is dispatched.** No method has a gain on rules that agree in every
dimension; the second pass finds zero weights in the split tree nobody wrote, takes them
for two children that fit a bucket, and the assertion on the weights fails in
`split_cut_1d`. -/
theorem sameRules_stale :
    RulesWF sameRules ∧ (∃ c ∈ (cut ℚ 1 .zero sameRules).log, ¬ c.Own ℚ) ∧
      (cut ℚ 1 .zero sameRules).res = .error .assertion := by
  have hlog : ∃ c ∈ (cut ℚ 1 .zero sameRules).log,
      bucketSize < c.rs.num ∧ c.dispatchFresh ℚ = false := by decide +kernel
  obtain ⟨c, hc, hbig, hstale⟩ := hlog
  refine ⟨fun r hr => ?_, ⟨c, hc, ?_⟩, faultOf_eq_some.mp (by decide +kernel)⟩
  · obtain ⟨i, hi, rfl⟩ := List.mem_map.mp hr
    exact Rule.onFirst_wf (Nat.lt_trans (List.mem_range.mp hi) (by decide)) (by decide) (by decide)
  rw [Call.own_iff hbig, hstale]
  exact Bool.false_ne_true

end ChooseCut
