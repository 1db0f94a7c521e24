import ChooseCut.History

/-!
# ChooseCut.NodeHistory

The choice at a node and its children, on two scratch areas.

Once `hi_get_rule_hist` does the same on both areas, every cost is the same, and every
entry that was computed is the same. What is left is the entry of a dimension in which
all rules agree, where the old split tree stays. As long as two rules differ in some
dimension, the best split dimension is not such a one and the old trees are not looked
at. When all rules agree everywhere no method has a gain, and the second pass of
`cut_node` takes the weights of the old tree for those of the node.
-/

namespace ChooseCut

/-! ### Rules that agree -/

section Same

variable {rs : List Rule} {d : Dim}

/-- Rules that agree all reach an interval, or none does. -/
theorem clipTo_same (hsame : SameRange rs d) (x : Range) :
    (∀ r ∈ rs, ¬ (r.range d).Meets x) ∨ (clipTo x d rs).length = rs.length := by
  by_cases hmeet : ∃ r ∈ rs, (r.range d).Meets x
  · obtain ⟨r, hr, hm⟩ := hmeet
    right
    rw [length_clipTo, List.countP_eq_length]
    intro q hq
    rw [hsame q hq r hr]
    exact decide_eq_true hm
  · left
    intro r hr hm
    exact hmeet ⟨r, hr, hm⟩

/-- A hi cut of rules that agree has a single child. -/
theorem HiFor.childs_of_same {e : HiEntry} (h : HiFor rs d e) (hne : rs ≠ [])
    (hsame : SameRange rs d) : e.hist.childs = 1 := by
  by_contra hmany
  have htwo : 0 + 1 < e.hist.childs := by
    have := h.pos
    omega
  obtain ⟨r, hr, hlo⟩ := exists_hullLo (d := d) hne
  obtain ⟨s, hs, hhi⟩ := exists_hullHi (d := d) hne
  -- every rule starts in the first segment and ends in the last one, so nothing happens at
  -- the border behind the first child
  apply h.border 0 htwo
  intro q hq
  constructor
  · rw [hsame q hq r hr, hlo, HiEntry.seg, h.start_eq, Nat.sub_self, Nat.zero_shiftRight]
    exact (Nat.succ_ne_zero _).symm
  · rw [hsame q hq s hs, hhi]
    have hlast := h.inHull 1 htwo
    rw [h.part.next 0 htwo] at hlast
    exact Nat.ne_of_gt hlast

/-- Every child of a bitmap cut of rules that agree gets all of them. -/
theorem getRuleHist_same (hfit : ∀ r ∈ rs, r.Fits) (hsame : SameRange rs d)
    (hbig : bucketSize < rs.length) : (getRuleHist rs d).fitsBs = false := by
  have hne : rs ≠ [] := by
    intro hnil
    rw [hnil] at hbig
    exact Nat.not_lt_zero _ hbig
  obtain ⟨r, hr⟩ := List.exists_mem_of_ne_nil rs hne
  obtain ⟨p, hp⟩ := List.exists_mem_of_ne_nil _
    (prefixes_ne_nil (dimBits_le d) (hfit r hr d).1 (hfit r hr d).2)
  have hmem := prefixIdx_mem hr hp
  have hcount : ∀ l : List Rule, (∀ q ∈ l, q.range d = r.range d) →
      l.length ≤ (prefixIdxs l d).countP (fun a => a ∈ ancestors (prefixIdx d p)) := by
    intro l hl
    induction l with
    | nil => exact Nat.zero_le _
    | cons q l ih =>
        have hhere : 0 < ((prefixes (q.range d) (dimBits d)).map (prefixIdx d)).countP
            (fun a => a ∈ ancestors (prefixIdx d p)) := by
          rw [hl q List.mem_cons_self]
          exact List.countP_pos_iff.mpr
            ⟨_, List.mem_map_of_mem hp, by simpa using self_mem_ancestors _⟩
        have hrest := ih (fun q hq => hl q (List.mem_cons_of_mem _ hq))
        rw [prefixIdxs, List.flatMap_cons, List.countP_append, List.length_cons, Nat.add_comm]
        exact Nat.add_le_add hhere hrest
  have hall := hcount rs (fun q hq => hsame q hq r hr)
  rw [Bool.eq_false_iff]
  intro hfits
  have hle := RuleHist.fitsBs_iff.mp hfits _ (prefixIdxs_lt hfit hmem)
  rw [getRuleHist_count hfit, if_pos hmem] at hle
  exact Nat.not_lt.mpr (hall.trans hle) hbig

end Same

/-! ### Old split trees -/

/-- The weights of the node pass for two children that fit a bucket. -/
def SNode.Passes (n : SNode) : Prop := n.r0.weight ≤ bucketSize ∧ n.r1.weight ≤ bucketSize

/-- The node sends none of the rules anywhere, and its weights say so. -/
def SNode.Idle (n : SNode) (rs : List Rule) (d : Dim) : Prop :=
  (n.r0.weight = 0 ∧ n.r1.weight = 0) ∧
    ∀ r ∈ rs, ¬ (r.range d).Meets n.r0.range ∧ ¬ (r.range d).Meets n.r1.range

instance (n : SNode) : Decidable n.Passes := inferInstanceAs (Decidable (_ ∧ _))

instance (n : SNode) (rs : List Rule) (d : Dim) : Decidable (n.Idle rs d) :=
  inferInstanceAs (Decidable (_ ∧ _))

section Stale

variable {rs : RuleSet} {d : Dim} {n : SNode}

theorem SNode.Idle.passes {l : List Rule} (h : n.Idle l d) : n.Passes := by
  rw [SNode.Passes, h.1.1, h.1.2]
  exact ⟨Nat.zero_le _, Nat.zero_le _⟩

/-- A side whose weight fits a bucket and is the number of rules it gets gets none. -/
theorem clipTo_weight {l : List Rule} {x : Range1d} (hsame : SameRange l d)
    (hbig : bucketSize < l.length) (hle : x.weight ≤ bucketSize)
    (hx : (clipTo x.range d l).length = x.weight) :
    x.weight = 0 ∧ ∀ r ∈ l, ¬ (r.range d).Meets x.range := by
  rcases clipTo_same hsame x.range with hno | hall
  · refine ⟨?_, hno⟩
    rw [← hx, length_clipTo, List.countP_eq_zero]
    exact fun r hr => by simpa using hno r hr
  · rw [← hx, hall] at hle
    exact absurd hle (Nat.not_le.mpr hbig)

/-- `split_cut_1d` by an old node whose weights fit a bucket, on more rules than a bucket
holds: nothing is sent anywhere, or an assertion fails. -/
theorem splitCut1d_stale (cap : Nat) (hsame : SameRange rs.items d)
    (hbig : bucketSize < rs.items.length) (hpass : n.Passes) :
    splitCut1d cap n rs d =
      if n.Idle rs.items d then .ok (Buffer.alloc cap, Buffer.alloc cap)
      else .error .assertion := by
  rw [splitCut1d, splitCut1dInto, splitCut1dInto_eq _ (Nat.zero_le _) (Nat.zero_le _)]
  simp only [Buffer.alloc_num, Buffer.alloc_cap, Nat.zero_add]
  by_cases hidle : n.Idle rs.items d
  · have hnil : ∀ {x : Range}, (∀ r ∈ rs.items, ¬ (r.range d).Meets x) →
        clipTo x d rs.items = [] := by
      intro x hx
      rw [clipTo, List.filter_eq_nil_iff.mpr (fun r hr => by simpa using hx r hr), List.map_nil]
    have h0 := hnil (fun r hr => (hidle.2 r hr).1)
    have h1 := hnil (fun r hr => (hidle.2 r hr).2)
    simp [hidle, h0, h1, hidle.1.1, hidle.1.2, bind, Except.bind, assertThat]
  · rw [if_neg hidle]
    split
    · by_cases h0 : (clipTo n.r0.range d rs.items).length = n.r0.weight
      · by_cases h1 : (clipTo n.r1.range d rs.items).length = n.r1.weight
        · obtain ⟨hw0, hm0⟩ := clipTo_weight hsame hbig hpass.1 h0
          obtain ⟨hw1, hm1⟩ := clipTo_weight hsame hbig hpass.2 h1
          exact absurd ⟨⟨hw0, hw1⟩, fun r hr => ⟨hm0 r hr, hm1 r hr⟩⟩ hidle
        · simp [bind, Except.bind, assertThat, h0, h1]
      · simp [bind, Except.bind, assertThat, h0]
    · rfl

/-- **A cut by an old tree** has two empty children, or fails an assertion. -/
theorem splitCut_off (cap : Nat) {t : STree} (hsame : SameRange rs.items d)
    (hbig : bucketSize < rs.items.length) (hpass : t.root.Passes) :
    splitCut cap (t.off d) rs d =
      if t.root.Idle rs.items d then .ok (splitFill (t.off d), [Buffer.ofList [], Buffer.ofList []])
      else .error .assertion := by
  have hroot := splitCut1d_stale (n := (t.off d).root) cap hsame hbig hpass
  rw [splitCut, hroot]
  by_cases hidle : t.root.Idle rs.items d
  · rw [if_pos hidle, if_pos (show (t.off d).root.Idle rs.items d from hidle)]
    rfl
  · rw [if_neg hidle, if_neg (show ¬ (t.off d).root.Idle rs.items d from hidle)]
    rfl

end Stale

/-! ### The node -/

section Node

variable {K : Type} [CostArith K] {rs : RuleSet} {t t' : CutType} {d d' : Dim} {a b a' b' : CutAux}

/-- The method and the dimension `cut_node` selects. -/
def chosenCut (K : Type) [CostArith K] (aux : CutAux) (rs : RuleSet) :
    Except Fault (CutType × Dim) := do
  let c ← selectCut K aux rs
  .ok c.2

/-- The children `cut_node` builds, before they are cut themselves. -/
def builtChilds (K : Type) [CostArith K] (aux : CutAux) (rs : RuleSet) :
    Except Fault (List RuleSet) := do
  let c ← selectCut K aux rs
  let q ← cutInto c.1 rs c.2.1 c.2.2
  .ok q.2

/-- A method that does not read an old split tree builds the same. -/
theorem StoredAlike.cutInto (h : StoredAlike rs a b a' b')
    (ht : t = .split → ¬ SameRange rs.items d) :
    ChooseCut.cutInto a' rs t d = ChooseCut.cutInto b' rs t d := by
  unfold ChooseCut.cutInto
  cases t with
  | bitmap =>
      dsimp only
      rw [h.hist d]
  | split =>
      have htree := h.trees d
      rw [if_neg (ht rfl)] at htree
      dsimp only
      rw [h.caps.splitRules, htree.splitCut]
  | hi =>
      dsimp only
      rw [h.hi d]

/-- And counts the same children. -/
theorem StoredAlike.quantOf (h : StoredAlike rs a b a' b')
    (ht : t = .split → ¬ SameRange rs.items d) :
    ChooseCut.quantOf a' t d = ChooseCut.quantOf b' t d := by
  unfold ChooseCut.quantOf allFitsBs ChooseCut.memQuant
  cases t with
  | bitmap =>
      dsimp only
      rw [h.hist d]
  | split =>
      have htree := h.trees d
      rw [if_neg (ht rfl)] at htree
      dsimp only
      rw [htree.fitsBs, htree.memQuant]
  | hi =>
      dsimp only
      rw [h.hi d]

/-- Two selections at one node, from the same costs. -/
structure PairSelected (K : Type) [CostArith K] (rs : RuleSet) (a b a' b' : CutAux)
    (t t' : CutType) (d d' : Dim) : Prop where
  left : Selected K a rs a' t d
  right : Selected K b rs b' t' d'
  best : ∀ s, bestOf (costOf K b rs s) = bestOf (costOf K a rs s)
  stored : StoredAlike rs a b a' b'

/-- **The two selections fail with the same fault, or succeed on the same costs.** -/
theorem selectCut_pair (hs : Sane rs) (h : AuxAlike K rs a b) :
    (∃ e, selectCut K a rs = .error e ∧ selectCut K b rs = .error e) ∨
      ∃ a' t d b' t' d', selectCut K a rs = .ok (a', t, d) ∧ selectCut K b rs = .ok (b', t', d') ∧
        PairSelected K rs a b a' b' t t' d d' := by
  have hlock := bestDims_lockstep hs h
  cases hp : bestDims K a rs with
  | error e =>
      cases hq : bestDims K b rs with
      | error e' =>
          rw [hp, hq] at hlock
          obtain rfl : e = e' := hlock
          exact Or.inl ⟨e, by rw [selectCut, hp]; rfl, by rw [selectCut, hq]; rfl⟩
      | ok q =>
          rw [hp, hq] at hlock
          exact hlock.elim
  | ok p =>
      obtain ⟨q, hq, hbest⟩ := hlock.of_ok hp
      have hst := bestDims_stored hs h hp hq
      rw [(bestDims_ok hp).2.2, (bestDims_ok hq).2.2] at hbest
      have hpick : ∀ {c : CutAux} {p : CutAux × (CutType → K × Dim)}, bestDims K c rs = .ok p →
          ∃ t d, selectCut K c rs = .ok (p.1, t, d) := by
        intro c p hc
        rw [selectCut, hc]
        exact ⟨_, _, rfl⟩
      obtain ⟨t, d, hta⟩ := hpick hp
      obtain ⟨t', d', htb⟩ := hpick hq
      exact Or.inr ⟨p.1, t, d, q.1, t', d', hta, htb, selectCut_ok hta, selectCut_ok htb,
        fun s => (congrFun hbest s).symm, hst⟩

namespace PairSelected

/-- Where the second passes agree, so do the selections. -/
theorem same_of_quant (h : PairSelected K rs a b a' b' t t' d d')
    (hq : ∀ s, quantOf a' s (bestOf (costOf K a rs s)).2 = quantOf b' s (bestOf (costOf K a rs s)).2) :
    t = t' ∧ d = d' := by
  have htype : t = t' := by
    rw [h.left.type_eq, h.right.type_eq]
    simp only [h.best]
    rw [funext hq]
  refine ⟨htype, ?_⟩
  rw [h.left.dim_eq, h.right.dim_eq, h.best, htype]

/-- **With two different rules the old trees are not looked at.** -/
theorem differ (h : PairSelected K rs a b a' b' t t' d d') (hs : Sane rs) (hne : rs.items ≠ [])
    {e : Dim} (he : ¬ SameRange rs.items e) :
    (t, d) = (t', d') ∧ cutInto a' rs t d = cutInto b' rs t' d' := by
  have hsplit : ¬ SameRange rs.items (bestOf (costOf K a rs .split)).2 := by
    intro hsame
    obtain ⟨aux1, hme, -⟩ := h.left.entry .split (bestOf (costOf K a rs .split)).2
    have hcost := split_cost hs hne hme
    have hlt := h.left.split_lt hs hne he
    rw [if_pos hsame] at hcost
    rw [bestOf_fst, hcost, CostArith.lt_irrefl] at hlt
    exact Bool.noConfusion hlt
  obtain ⟨rfl, rfl⟩ := h.same_of_quant (fun s => h.stored.quantOf (by
    intro hs'
    rw [hs']
    exact hsplit))
  refine ⟨rfl, h.stored.cutInto ?_⟩
  intro ht
  rw [h.left.dim_eq, ht]
  exact hsplit

end PairSelected

end Node

/-! ### Rules that agree everywhere -/

/-- The old hi entry passes for a single child that fits a bucket, on rules whose hull is
too short for a new entry. -/
def HiFew (rs : RuleSet) (e : HiEntry) : Prop :=
  hullLen rs.items 0 < 4 ∧ e.hist.fitsBs = true ∧ e.hist.childs < 2

instance (rs : RuleSet) (e : HiEntry) : Decidable (HiFew rs e) :=
  inferInstanceAs (Decidable (_ ∧ _ ∧ _))

section Agree

variable {rs : RuleSet} {t t' : CutType} {d d' : Dim} {a b a' b' : CutAux}

/-- `hi_get_rule_hist` on rules that agree: no gain, and the old entry or a single child. -/
theorem hiGetRuleHist_same {cap : Nat} {e e' : HiEntry} {me : ℚ} (hs : Sane rs)
    (hne : rs.items ≠ []) (hsame : SameRange rs.items d)
    (h : hiGetRuleHist ℚ cap e rs d = .ok (me, e')) :
    me = CostArith.ofNat rs.num ∧
      if hullLen rs.items d < 4 then e' = e
      else e'.hist.childs = 1 ∧ e'.hist.childRulecount 0 = rs.num := by
  by_cases hlen : hullLen rs.items d < 4
  · rw [hiGetRuleHist_short e (hiGetRuleHist_room h) hne hlen] at h
    obtain ⟨hme, he⟩ := Prod.mk.inj (Except.ok.inj h)
    rw [if_pos hlen]
    exact ⟨hme.symm, he.symm⟩
  · obtain ⟨hme, hfor⟩ := hiGetRuleHist_ok h hne hs.fits (Nat.not_lt.mp hlen)
    have hone := hfor.childs_of_same hne hsame
    rw [if_neg hlen, hme, hfor.single_cost hs.fits hne hone, hfor.single hs.fits hone, hs.num_eq]
    exact ⟨rfl, hone, rfl⟩

namespace Selected

variable (h : Selected ℚ a rs a' t d) (hs : Sane rs) (hbig : bucketSize < rs.num)
  (hall : ∀ d, SameRange rs.items d)

include h hs hbig hall

/-- Neither split nor hi has a gain, so both stay with the first dimension. -/
theorem best_same : bestOf (costOf ℚ a rs .split) = (CostArith.ofNat rs.num, 0) ∧
    bestOf (costOf ℚ a rs .hi) = (CostArith.ofNat rs.num, 0) := by
  have hne := hs.ne_nil hbig
  refine ⟨bestOf_const (fun d => ?_), bestOf_const (fun d => ?_)⟩
  · obtain ⟨aux1, hme, -⟩ := h.entry .split d
    have hcost := split_cost hs hne hme
    rwa [if_pos (hall d)] at hcost
  · obtain ⟨aux1, hme, -⟩ := h.entry .hi d
    exact (hiGetRuleHist_same hs hne (hall d) (matchExpect_hi hme)).1

/-- The first pass does not choose split. -/
theorem expect_same :
    chooseByExpect rs.num (fun s => (bestOf (costOf ℚ a rs s)).1) ≠ .split := by
  intro hsplit
  rcases chooseByExpect_spec rs.num (fun s => (bestOf (costOf ℚ a rs s)).1) with hlt | ⟨hb, -⟩
  · rw [hsplit, (h.best_same hs hbig hall).1, CostArith.lt_irrefl] at hlt
    exact Bool.noConfusion hlt
  · rw [hsplit] at hb
    cases hb

/-- The children of a bitmap cut do not fit. -/
theorem quant_bitmap_same (e : Dim) : quantOf a' .bitmap e = childCount := by
  obtain ⟨aux1, hme, hsame⟩ := h.entry .bitmap e
  have hfits := getRuleHist_same hs.fits (hall e) (hs.num_eq ▸ hbig)
  rw [quantOf, allFitsBs, matchExpect_bitmap hme hsame, hfits]
  rfl

/-- The old split tree stays, and counts two children if its weights pass. -/
theorem quant_split_same : a'.split.strees 0 = (a.split.strees 0).off 0 ∧
    quantOf a' .split 0 = if (a.split.strees 0).root.Passes then 2 else childCount := by
  obtain ⟨aux1, hme, hsame⟩ := h.entry .split 0
  obtain ⟨hroom, htree⟩ := matchExpect_split hme
  rw [splitMatchExpectTree_same hroom (hs.ne_nil hbig) (hall 0),
    show aux1.split.strees 0 = a'.split.strees 0 from hsame] at htree
  have hoff : a'.split.strees 0 = (a.split.strees 0).off 0 :=
    (Prod.mk.inj (Except.ok.inj htree)).2.symm
  refine ⟨hoff, ?_⟩
  unfold quantOf allFitsBs memQuant
  dsimp only
  rw [hoff]
  have hfits : splitFitsBs ((a.split.strees 0).off 0) = true ↔ (a.split.strees 0).root.Passes := by
    simp only [splitFitsBs, STree.off, Bool.false_eq_true, if_false, Bool.and_eq_true]
    exact and_congr decide_eq_true_iff decide_eq_true_iff
  exact if_congr hfits rfl rfl

/-- Hi counts less than two children only by an old entry. -/
theorem quant_hi_same : quantOf a' .hi 0 < 2 ↔ HiFew rs (a.hi.entries 0) := by
  obtain ⟨aux1, hme, hsame⟩ := h.entry .hi 0
  have hentry := (hiGetRuleHist_same hs (hs.ne_nil hbig) (hall 0) (matchExpect_hi hme)).2
  rw [show aux1.hi.entries 0 = a'.hi.entries 0 from hsame] at hentry
  have hmany : ¬ childCount < 2 := by decide
  unfold quantOf allFitsBs memQuant HiFew
  dsimp only
  by_cases hlen : hullLen rs.items 0 < 4
  · rw [if_pos hlen] at hentry
    rw [hentry]
    cases (a.hi.entries 0).hist.fitsBs <;> simp [hlen, hmany]
  · rw [if_neg hlen] at hentry
    have hfits : (a'.hi.entries 0).hist.fitsBs = false := by
      rw [Bool.eq_false_iff]
      intro hfits
      have hle := RuleHist.fitsBs_iff.mp hfits 0 (by decide)
      rw [hentry.2] at hle
      exact Nat.not_lt.mpr hle hbig
    simp [hfits, hlen, hmany]

/-- **The selection on rules that agree everywhere** goes by what the old entries say. -/
theorem type_same : t =
    if (a.split.strees 0).root.Passes then
      (if HiFew rs (a.hi.entries 0) then .hi else .split)
    else if quantOf a' .hi 0 < childCount then .hi
    else chooseByExpect rs.num (fun s => (bestOf (costOf ℚ a rs s)).1) := by
  obtain ⟨hbs, hbh⟩ := h.best_same hs hbig hall
  rw [h.type_eq, chooseByMemory_eq, hbs, hbh]
  dsimp only
  rw [h.quant_bitmap_same hs hbig hall, (h.quant_split_same hs hbig hall).2]
  by_cases hpass : (a.split.strees 0).root.Passes
  · simp only [if_pos hpass, h.quant_hi_same hs hbig hall]
    rfl
  · simp only [if_neg hpass, Nat.lt_irrefl, if_false]

/-- Hi is selected by an old entry. -/
theorem few_same (hfew : HiFew rs (a.hi.entries 0)) : (t, d) = (.hi, 0) := by
  have hquant : quantOf a' .hi 0 < childCount :=
    Nat.lt_trans ((h.quant_hi_same hs hbig hall).mpr hfew) (by decide)
  have ht : t = .hi := by
    rw [h.type_same hs hbig hall, if_pos hfew, if_pos hquant, ite_self]
  rw [h.dim_eq, ht, (h.best_same hs hbig hall).2]

/-- Split is selected by an old tree. -/
theorem passes_same (hfew : ¬ HiFew rs (a.hi.entries 0)) (hpass : (a.split.strees 0).root.Passes) :
    (t, d) = (.split, 0) := by
  have ht : t = .split := by
    rw [h.type_same hs hbig hall, if_pos hpass, if_neg hfew]
  rw [h.dim_eq, ht, (h.best_same hs hbig hall).1]

/-- Otherwise split is not selected. -/
theorem not_split_same (hpass : ¬ (a.split.strees 0).root.Passes) : t ≠ .split := by
  rw [h.type_same hs hbig hall, if_neg hpass]
  split
  · decide
  · exact h.expect_same hs hbig hall

/-- What split builds from an old tree. -/
theorem cutInto_same (hpass : (a.split.strees 0).root.Passes) :
    (do let q ← cutInto a' rs .split 0; .ok q.2 : Except Fault (List RuleSet)) =
      if (a.split.strees 0).root.Idle rs.items 0 then .ok [Buffer.ofList [], Buffer.ofList []]
      else .error .assertion := by
  unfold cutInto
  dsimp only
  rw [(h.quant_split_same hs hbig hall).1, splitCut_off _ (hall 0) (hs.num_eq ▸ hbig) hpass]
  split <;> rfl

end Selected

/-- The old entries of the first dimension make no difference to rules that agree
everywhere: hi is selected by an old entry, or the old split trees both pass or both do not,
and both are idle or both are not. -/
def StaleAgree (rs : RuleSet) (a b : CutAux) : Prop :=
  HiFew rs (a.hi.entries 0) ∨
    (((a.split.strees 0).root.Passes ↔ (b.split.strees 0).root.Passes) ∧
      ((a.split.strees 0).root.Idle rs.items 0 ↔ (b.split.strees 0).root.Idle rs.items 0))

/-- **Two selections on rules that agree everywhere.** -/
theorem PairSelected.agree (h : PairSelected ℚ rs a b a' b' t t' d d') (hs : Sane rs)
    (hbig : bucketSize < rs.num) (hall : ∀ d, SameRange rs.items d) :
    ((t, d) = (t', d') ∧
      (do let q ← cutInto a' rs t d; .ok q.2 : Except Fault (List RuleSet)) =
        (do let q ← cutInto b' rs t' d'; .ok q.2)) ↔ StaleAgree rs a b := by
  have hhi : ∀ e, quantOf a' .hi e = quantOf b' .hi e :=
    fun e => h.stored.quantOf (fun ht => nomatch ht)
  have hfew : HiFew rs (a.hi.entries 0) ↔ HiFew rs (b.hi.entries 0) := by
    rw [← h.left.quant_hi_same hs hbig hall, ← h.right.quant_hi_same hs hbig hall, hhi]
  by_cases hf : HiFew rs (a.hi.entries 0)
  · have hl := h.left.few_same hs hbig hall hf
    have hr := h.right.few_same hs hbig hall (hfew.mp hf)
    obtain ⟨rfl, rfl⟩ := Prod.mk.inj hl
    obtain ⟨rfl, rfl⟩ := Prod.mk.inj hr
    refine iff_of_true ⟨rfl, ?_⟩ (Or.inl hf)
    rw [h.stored.cutInto (t := .hi) (fun ht => nomatch ht)]
  rw [StaleAgree, or_iff_right hf]
  by_cases hpa : (a.split.strees 0).root.Passes
  · have hl := h.left.passes_same hs hbig hall hf hpa
    obtain ⟨rfl, rfl⟩ := Prod.mk.inj hl
    by_cases hpb : (b.split.strees 0).root.Passes
    · have hr := h.right.passes_same hs hbig hall (fun hb => hf (hfew.mpr hb)) hpb
      obtain ⟨rfl, rfl⟩ := Prod.mk.inj hr
      rw [h.left.cutInto_same hs hbig hall hpa, h.right.cutInto_same hs hbig hall hpb,
        and_iff_right rfl, and_iff_right (iff_of_true hpa hpb)]
      split <;> split <;> simp_all
    · refine iff_of_false (fun hsame => ?_) (fun hst => hpb (hst.1.mp hpa))
      exact h.right.not_split_same hs hbig hall hpb (Prod.mk.inj hsame.1).1.symm
  · have hta := h.left.not_split_same hs hbig hall hpa
    by_cases hpb : (b.split.strees 0).root.Passes
    · refine iff_of_false (fun hsame => hta ?_) (fun hst => hpa (hst.1.mpr hpb))
      have hr := h.right.passes_same hs hbig hall (fun hb => hf (hfew.mpr hb)) hpb
      exact (Prod.mk.inj (hsame.1.trans hr)).1
    · refine iff_of_true ?_ ⟨iff_of_false hpa hpb,
        iff_of_false (fun hi => hpa hi.passes) (fun hi => hpb hi.passes)⟩
      have htype : t = t' := by
        rw [h.left.type_same hs hbig hall, h.right.type_same hs hbig hall, if_neg hpa, if_neg hpb, hhi]
        simp only [h.best]
      have hdim : d = d' := by
        rw [h.left.dim_eq, h.right.dim_eq, h.best, htype]
      subst htype
      subst hdim
      refine ⟨rfl, ?_⟩
      rw [h.stored.cutInto (fun ht => absurd ht hta)]

/-- With room in the buffers the selection on such rules does not fail. -/
theorem selectCut_of_same (hs : Sane rs) (hbig : bucketSize < rs.num)
    (hall : ∀ d, SameRange rs.items d) (hsplit : rs.num ≤ a.split.rangesCap)
    (hhi : rs.num ≤ a.hi.rangesCap) : ∃ a' t d, selectCut ℚ a rs = .ok (a', t, d) := by
  have hne := hs.ne_nil hbig
  refine selectCut_total (fun t d => ?_)
  cases t with
  | bitmap => exact ⟨_, _, rfl⟩
  | split =>
      simp only [matchExpect, splitMatchExpect, splitMatchExpectTree_same hsplit hne (hall d), bind,
        Except.bind]
      exact ⟨_, _, rfl⟩
  | hi =>
      obtain ⟨q, hq⟩ := hiGetRuleHist_total (K := ℚ) (d := d) (a.hi.entries d) hhi hne hs.fits
      simp only [matchExpect, hiMatchExpect, hq, bind, Except.bind]
      exact ⟨_, _, rfl⟩

/-- A selection that succeeds had room for the ranges. -/
theorem Selected.room (h : Selected ℚ a rs a' t d) :
    rs.num ≤ a.split.rangesCap ∧ rs.num ≤ a.hi.rangesCap := by
  obtain ⟨aux1, hme, -⟩ := h.entry .split 0
  obtain ⟨aux2, hme', -⟩ := h.entry .hi 0
  exact ⟨(matchExpect_split hme).1, hiGetRuleHist_room (matchExpect_hi hme')⟩

/-- **What a node takes from the scratch area.** For two contents of the scratch area with
the same room, `hi_get_rule_hist` returns the same and leaves the same entry in every
dimension, and `cut_node` selects the same cut and builds the same children, exactly when
the old duplicated-rule counts have no part in the first doubling, no old hi entry is kept
that differs, and, on more rules than a bucket holds that agree everywhere, the old entries
of the first dimension make no difference. -/
theorem cutNode_history (hs : Sane rs) (hcaps : SameCaps a b) :
    ((∀ d, hiGetRuleHist ℚ a.hi.rangesCap (a.hi.entries d) rs d
        = hiGetRuleHist ℚ b.hi.rangesCap (b.hi.entries d) rs d) ∧
      (bucketSize < rs.num → chosenCut ℚ a rs = chosenCut ℚ b rs ∧
        builtChilds ℚ a rs = builtChilds ℚ b rs)) ↔
    (∀ d, HiStable ℚ a.hi.rangesCap rs d (a.hi.entries d) (b.hi.entries d)) ∧
      (bucketSize < rs.num → (∀ d, SameRange rs.items d) → rs.num ≤ a.split.rangesCap →
        rs.num ≤ a.hi.rangesCap → StaleAgree rs a b) := by
  simp only [hcaps.hiRanges, hiGetRuleHist_eq_iff]
  refine and_congr_right (fun hstable => imp_congr_right (fun hbig => ?_))
  have halike : AuxAlike ℚ rs a b :=
    ⟨hcaps, fun d => by rw [hcaps.hiRanges]; exact hiGetRuleHist_eq_iff.mpr (hstable d)⟩
  rcases selectCut_pair hs halike with ⟨e, hea, heb⟩ | ⟨a', t, d, b', t', d', hta, htb, hpair⟩
  · refine iff_of_true ?_ (fun hall hsplit hhi => ?_)
    · rw [chosenCut, chosenCut, builtChilds, builtChilds, hea, heb]
      exact ⟨rfl, rfl⟩
    · obtain ⟨a', t, d, hok⟩ := selectCut_of_same (a := a) hs hbig hall hsplit hhi
      rw [hok] at hea
      cases hea
  · have hchosen : (chosenCut ℚ a rs = chosenCut ℚ b rs ∧ builtChilds ℚ a rs = builtChilds ℚ b rs) ↔
        ((t, d) = (t', d') ∧
          (do let q ← cutInto a' rs t d; .ok q.2 : Except Fault (List RuleSet)) =
            (do let q ← cutInto b' rs t' d'; .ok q.2)) := by
      rw [chosenCut, chosenCut, builtChilds, builtChilds, hta, htb]
      exact and_congr ⟨Except.ok.inj, congrArg Except.ok⟩ Iff.rfl
    rw [hchosen]
    by_cases hall : ∀ d, SameRange rs.items d
    · rw [hpair.agree hs hbig hall]
      obtain ⟨h1, h2⟩ := hpair.left.room
      exact ⟨fun hst _ _ _ => hst, fun himp => himp hall h1 h2⟩
    · refine iff_of_true ?_ (fun h => absurd h hall)
      obtain ⟨e, he⟩ := not_forall.mp hall
      obtain ⟨hcut, hinto⟩ := hpair.differ hs (hs.ne_nil hbig) he
      exact ⟨hcut, by rw [hinto]⟩

end Agree

/-- A scratch area that holds nothing but a duplicated-rule count, the same in every
dimension. -/
def CutAux.withRules (n : Nat) : CutAux :=
  { CutAux.zero with
    hi := { CutAux.zero.hi with entries := fun _ => ⟨⟨fun _ => 0, 0, n⟩, 0, 0, fun _ => (0, 0)⟩ } }

/-- The two groups of rules are cut the same whether the counts left over are 0 or 1. -/
theorem cutNode_history_pairRules :
    chosenCut ℚ (auxInit (.withRules 0) 17) (Buffer.ofList pairRules)
        = chosenCut ℚ (auxInit (.withRules 1) 17) (Buffer.ofList pairRules) ∧
      builtChilds ℚ (auxInit (.withRules 0) 17) (Buffer.ofList pairRules)
        = builtChilds ℚ (auxInit (.withRules 1) 17) (Buffer.ofList pairRules) := by
  have hlong : ∀ d, ¬ hullLen (Buffer.ofList pairRules).items d < 4 := by decide +kernel
  have hgoes : ∀ d, hiGoesOn ℚ (Buffer.ofList pairRules) d 0
      = hiGoesOn ℚ (Buffer.ofList pairRules) d 1 := by decide +kernel
  refine ((cutNode_history (a := auxInit (.withRules 0) 17) (b := auxInit (.withRules 1) 17)
    pairRules_sane ⟨rfl, rfl, rfl⟩).mpr ⟨fun d => ?_, ?_⟩).2 (by decide)
  · refine Or.inr (Or.inr ?_)
    rw [if_neg (hlong d)]
    exact hgoes d
  · exact fun _ hall => absurd (hall 0) pairRules_differ

/-- The key of rule `i` of `stepRules`. -/
def stepKey (i : Nat) : Nat := if i < 12 then 0 else if i < 17 then 16 else if i < 22 then 17 else 32

/-- Four groups of rules, two of them on neighbouring keys. -/
def stepRules : List Rule := (List.range 34).map (fun i => .onFirst i (stepKey i) (stepKey i))

/-- **A count left over decides the cut.** With 0 in it, `hi_get_rule_hist` goes on to eight
segments, which take five children, and split is selected; with 34 it stops at four, which
take three, and hi is selected. -/
theorem stepRules_history :
    RulesWF stepRules ∧ SameCaps (auxInit (.withRules 0) 34) (auxInit (.withRules 34) 34) ∧
      chosenCut ℚ (auxInit (.withRules 0) 34) (Buffer.ofList stepRules) = .ok (.split, 0) ∧
      chosenCut ℚ (auxInit (.withRules 34) 34) (Buffer.ofList stepRules) = .ok (.hi, 0) := by
  refine ⟨by decide +kernel, ⟨rfl, rfl, rfl⟩, ?_⟩
  decide +kernel

end ChooseCut
