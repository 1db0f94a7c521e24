import ChooseCut.CutStep

/-!
# ChooseCut.Select

What `cut_node` knows when it dispatches.

`match_expect` reads and writes one entry of the scratch area, the one of its method and
dimension, so the fifteen calls of `cut_node` do not see each other: `Selected` states
the outcome in terms of the scratch area the node starts from. The costs are
`costOf`, each entry is what the call of its own method and dimension stored, and the
choice is a function of the costs and of the stored entries.
-/

namespace ChooseCut

/-- The same room in the scratch buffers. -/
structure SameCaps (aux aux' : CutAux) : Prop where
  splitRanges : aux'.split.rangesCap = aux.split.rangesCap
  splitRules : aux'.split.rulesCap = aux.split.rulesCap
  hiRanges : aux'.hi.rangesCap = aux.hi.rangesCap

theorem SameCaps.refl (aux : CutAux) : SameCaps aux aux := ⟨rfl, rfl, rfl⟩

theorem SameCaps.symm {a b : CutAux} (h : SameCaps a b) : SameCaps b a :=
  ⟨h.splitRanges.symm, h.splitRules.symm, h.hiRanges.symm⟩

theorem SameCaps.trans {a b c : CutAux} (h : SameCaps a b) (h' : SameCaps b c) : SameCaps a c :=
  ⟨h'.splitRanges.trans h.splitRanges, h'.splitRules.trans h.splitRules,
    h'.hiRanges.trans h.hiRanges⟩

theorem SameEntry.refl (t : CutType) (d : Dim) (aux : CutAux) : SameEntry t d aux aux := by
  cases t <;> rfl

theorem SameEntry.symm {t : CutType} {d : Dim} {a b : CutAux} (h : SameEntry t d a b) :
    SameEntry t d b a := by
  cases t <;> exact Eq.symm h

theorem SameEntry.trans {t : CutType} {d : Dim} {a b c : CutAux} (h : SameEntry t d a b)
    (h' : SameEntry t d b c) : SameEntry t d a c := by
  cases t <;> exact Eq.trans h h'

section MatchExpect

variable {K : Type} [CostArith K] {aux aux' aux1 : CutAux} {rs : RuleSet} {t : CutType} {d : Dim}
  {me : K}

/-! ### Frame of `match_expect` -/

theorem matchExpect_caps (h : matchExpect K t aux rs d = .ok (me, aux1)) : SameCaps aux aux1 := by
  cases t with
  | bitmap =>
      simp only [matchExpect, Except.ok.injEq, Prod.mk.injEq] at h
      obtain ⟨-, rfl⟩ := h
      exact ⟨rfl, rfl, rfl⟩
  | split =>
      obtain ⟨q, hq, h⟩ := bind_eq_ok.mp h
      simp only [Except.ok.injEq, Prod.mk.injEq] at h
      obtain ⟨-, rfl⟩ := h
      obtain ⟨p, -, hq⟩ := bind_eq_ok.mp hq
      obtain rfl := Except.ok.inj hq
      exact ⟨rfl, rfl, rfl⟩
  | hi =>
      obtain ⟨q, hq, h⟩ := bind_eq_ok.mp h
      simp only [Except.ok.injEq, Prod.mk.injEq] at h
      obtain ⟨-, rfl⟩ := h
      obtain ⟨p, -, hq⟩ := bind_eq_ok.mp hq
      obtain rfl := Except.ok.inj hq
      exact ⟨rfl, rfl, rfl⟩

/-- Every other entry stays. -/
theorem matchExpect_frame (h : matchExpect K t aux rs d = .ok (me, aux1)) {t' : CutType} {d' : Dim}
    (hne : t' ≠ t ∨ d' ≠ d) : SameEntry t' d' aux aux1 := by
  cases t with
  | bitmap =>
      simp only [matchExpect, Except.ok.injEq, Prod.mk.injEq] at h
      obtain ⟨-, rfl⟩ := h
      cases t' with
      | bitmap => simp [SameEntry, hne.resolve_left (fun h => h rfl)]
      | split => rfl
      | hi => rfl
  | split =>
      obtain ⟨q, hq, h⟩ := bind_eq_ok.mp h
      simp only [Except.ok.injEq, Prod.mk.injEq] at h
      obtain ⟨-, rfl⟩ := h
      obtain ⟨p, -, hq⟩ := bind_eq_ok.mp hq
      obtain rfl := Except.ok.inj hq
      cases t' with
      | bitmap => rfl
      | split => simp [SameEntry, hne.resolve_left (fun h => h rfl)]
      | hi => rfl
  | hi =>
      obtain ⟨q, hq, h⟩ := bind_eq_ok.mp h
      simp only [Except.ok.injEq, Prod.mk.injEq] at h
      obtain ⟨-, rfl⟩ := h
      obtain ⟨p, -, hq⟩ := bind_eq_ok.mp hq
      obtain rfl := Except.ok.inj hq
      cases t' with
      | bitmap => rfl
      | split => rfl
      | hi => simp [SameEntry, hne.resolve_left (fun h => h rfl)]

/-- **`match_expect` reads only its own entry** and the room in the buffers. -/
theorem matchExpect_local (h : matchExpect K t aux rs d = .ok (me, aux1))
    (he : SameEntry t d aux aux') (hc : SameCaps aux aux') :
    ∃ aux1', matchExpect K t aux' rs d = .ok (me, aux1') ∧ SameEntry t d aux1 aux1' := by
  cases t with
  | bitmap =>
      simp only [matchExpect, Except.ok.injEq, Prod.mk.injEq] at h ⊢
      obtain ⟨rfl, rfl⟩ := h
      exact ⟨_, ⟨rfl, rfl⟩, by simp [SameEntry]⟩
  | split =>
      obtain ⟨q, hq, h⟩ := bind_eq_ok.mp h
      simp only [Except.ok.injEq, Prod.mk.injEq] at h
      obtain ⟨rfl, rfl⟩ := h
      obtain ⟨p, hp, hq⟩ := bind_eq_ok.mp hq
      obtain rfl := Except.ok.inj hq
      have htree : splitMatchExpectTree K aux'.split rs d = .ok p := by
        rw [← hp]
        unfold splitMatchExpectTree
        rw [hc.splitRanges, hc.splitRules, ← (show aux.split.strees d = _ from he)]
      refine ⟨{ aux' with split :=
        { aux'.split with strees := Function.update aux'.split.strees d p.2 } }, ?_, ?_⟩
      · simp [matchExpect, splitMatchExpect, htree, bind, Except.bind]
      · simp [SameEntry]
  | hi =>
      obtain ⟨q, hq, h⟩ := bind_eq_ok.mp h
      simp only [Except.ok.injEq, Prod.mk.injEq] at h
      obtain ⟨rfl, rfl⟩ := h
      obtain ⟨p, hp, hq⟩ := bind_eq_ok.mp hq
      obtain rfl := Except.ok.inj hq
      have hentry : hiGetRuleHist K aux'.hi.rangesCap (aux'.hi.entries d) rs d = .ok p := by
        rw [← hp, hc.hiRanges, ← (show aux.hi.entries d = _ from he)]
      refine ⟨{ aux' with hi :=
        { aux'.hi with entries := Function.update aux'.hi.entries d p.2 } }, ?_, ?_⟩
      · simp [matchExpect, hiMatchExpect, hentry, bind, Except.bind]
      · simp [SameEntry]

/-- The scratch buffers have room for the node's rules. -/
structure Room (aux : CutAux) (num : Nat) : Prop where
  splitRanges : num ≤ aux.split.rangesCap
  splitRules : num ≤ aux.split.rulesCap
  hiRanges : num ≤ aux.hi.rangesCap

instance (aux : CutAux) (num : Nat) : Decidable (Room aux num) :=
  decidable_of_iff
    (num ≤ aux.split.rangesCap ∧ num ≤ aux.split.rulesCap ∧ num ≤ aux.hi.rangesCap)
    ⟨fun h => ⟨h.1, h.2.1, h.2.2⟩, fun h => ⟨h.splitRanges, h.splitRules, h.hiRanges⟩⟩

theorem Room.congr {num : Nat} (h : Room aux num) (hc : SameCaps aux aux') : Room aux' num :=
  ⟨hc.splitRanges ▸ h.splitRanges, hc.splitRules ▸ h.splitRules, hc.hiRanges ▸ h.hiRanges⟩

/-- With room in the buffers, no call of `match_expect` fails. -/
theorem matchExpect_of_room (t : CutType) (d : Dim) (hs : Sane rs) (hne : rs.items ≠ [])
    (hroom : Room aux rs.num) : ∃ me aux1, matchExpect K t aux rs d = .ok (me, aux1) := by
  cases t with
  | bitmap => exact ⟨_, _, rfl⟩
  | split =>
      have htree : ∃ q, splitMatchExpectTree K aux.split rs d = .ok q := by
        by_cases hsame : SameRange rs.items d
        · exact ⟨_, splitMatchExpectTree_same hroom.splitRanges hne hsame⟩
        · rcases splitMatchExpectTree_spec (K := K) hroom.splitRanges hs.num_eq hs.fits hsame with
            ⟨hlt, -⟩ | ⟨me, tree, hok, -⟩
          · exact absurd hroom.splitRules (by omega)
          · exact ⟨_, hok⟩
      obtain ⟨q, hq⟩ := htree
      simp only [matchExpect, splitMatchExpect, hq, bind, Except.bind]
      exact ⟨_, _, rfl⟩
  | hi =>
      obtain ⟨q, hq⟩ := hiGetRuleHist_total (K := K) (d := d) (aux.hi.entries d) hroom.hiRanges hne
        hs.fits
      simp only [matchExpect, hiMatchExpect, hq, bind, Except.bind]
      exact ⟨_, _, rfl⟩

end MatchExpect

/-! ### The scan over the dimensions -/

section Scan

variable {K : Type} [CostArith K]

/-- The cost `match_expect` reports on this scratch area. -/
def costOf (K : Type) [CostArith K] (aux : CutAux) (rs : RuleSet) (t : CutType) (d : Dim) : K :=
  match matchExpect K t aux rs d with
  | .ok q => q.1
  | .error _ => CostArith.ofNat 0

/-- The first of the dimensions with the least cost. -/
def bestOf (c : Dim → K) : K × Dim :=
  [1, 2, 3, 4].foldl (fun p i => if CostArith.lt (c i) p.1 then (c i, i) else p) (c 0, 0)

/-- The scan of method `t` from `aux` has done the dimensions `seen` and holds `aux'`. -/
structure Scanned (K : Type) [CostArith K] (aux : CutAux) (rs : RuleSet) (t : CutType)
    (seen : List Dim) (aux' : CutAux) : Prop where
  stored : ∀ d ∈ seen, ∃ aux1, matchExpect K t aux rs d = .ok (costOf K aux rs t d, aux1) ∧
    SameEntry t d aux1 aux'
  later : ∀ d, d ∉ seen → SameEntry t d aux aux'
  others : ∀ t', t' ≠ t → ∀ d, SameEntry t' d aux aux'
  caps : SameCaps aux aux'

variable {aux aux' aux1 : CutAux} {rs : RuleSet} {t : CutType} {seen : List Dim} {d : Dim}

theorem costOf_eq {me : K} (h : matchExpect K t aux rs d = .ok (me, aux1)) :
    costOf K aux rs t d = me := by
  simp [costOf, h]

theorem Scanned.init (aux : CutAux) (rs : RuleSet) (t : CutType) : Scanned K aux rs t [] aux :=
  ⟨by simp, fun d _ => SameEntry.refl t d aux, fun t' _ d => SameEntry.refl t' d aux,
    SameCaps.refl aux⟩

/-- One more dimension, as the code computes it on the scratch area it has by then. -/
theorem Scanned.step {me : K} (h : Scanned K aux rs t seen aux') (hd : d ∉ seen)
    (hme : matchExpect K t aux' rs d = .ok (me, aux1)) :
    me = costOf K aux rs t d ∧ Scanned K aux rs t (d :: seen) aux1 := by
  obtain ⟨b, hb, hbe⟩ := matchExpect_local hme (h.later d hd).symm h.caps.symm
  have hcost := costOf_eq hb
  refine ⟨hcost.symm, ?_, ?_, ?_, h.caps.trans (matchExpect_caps hme)⟩
  · intro e he
    rcases List.mem_cons.mp he with rfl | he
    · exact ⟨b, by rw [hcost]; exact hb, hbe.symm⟩
    · obtain ⟨b', hb', hbe'⟩ := h.stored e he
      have hne : e ≠ d := fun heq => hd (heq ▸ he)
      exact ⟨b', hb', hbe'.trans (matchExpect_frame hme (Or.inr hne))⟩
  · intro e he
    rw [List.mem_cons, not_or] at he
    exact (h.later e he.2).trans (matchExpect_frame hme (Or.inr he.1))
  · intro t' ht' e
    exact (h.others t' ht' e).trans (matchExpect_frame hme (Or.inl ht'))

/-- The scan over a list of dimensions. -/
theorem scan_ok {l : List Dim} : ∀ {seen : List Dim} {p q : CutAux × K × Dim},
    Scanned K aux rs t seen p.1 → l.Nodup → (∀ d ∈ l, d ∉ seen) →
    l.foldlM (tryDim K t rs) p = .ok q →
    Scanned K aux rs t (l.reverse ++ seen) q.1 ∧
      q.2 = l.foldl (fun p i =>
        if CostArith.lt (costOf K aux rs t i) p.1 then (costOf K aux rs t i, i) else p) p.2 := by
  induction l with
  | nil =>
      intro seen p q hs _ _ h
      obtain rfl := Except.ok.inj h
      exact ⟨hs, rfl⟩
  | cons i l ih =>
      intro seen p q hs hnd hnew h
      rw [List.foldlM_cons] at h
      obtain ⟨p1, h1, h2⟩ := bind_eq_ok.mp h
      obtain ⟨r, hr, h1⟩ := bind_eq_ok.mp h1
      obtain rfl := Except.ok.inj h1
      obtain ⟨hcost, hs'⟩ := hs.step (hnew i List.mem_cons_self) hr
      obtain ⟨hni, hnd⟩ := List.nodup_cons.mp hnd
      have hnew' : ∀ d ∈ l, d ∉ i :: seen := by
        intro d hd
        rw [List.mem_cons, not_or]
        exact ⟨fun heq => hni (heq ▸ hd), hnew d (List.mem_cons_of_mem i hd)⟩
      obtain ⟨h3, h4⟩ := ih hs' hnd hnew' h2
      refine ⟨by simpa using h3, ?_⟩
      rw [h4, List.foldl_cons, hcost]

/-- The best dimension of a method is the first with the least cost. -/
theorem bestDim_ok {q : CutAux × K × Dim} (h : bestDim K t aux rs = .ok q) :
    Scanned K aux rs t (List.finRange 5) q.1 ∧ q.2 = bestOf (costOf K aux rs t) := by
  obtain ⟨r, hr, h⟩ := bind_eq_ok.mp h
  obtain ⟨hcost, hs⟩ := (Scanned.init aux rs t).step (by simp) hr
  obtain ⟨h1, h2⟩ := scan_ok hs (by decide) (by decide) h
  have hmem : ∀ d : Dim, d ∈ ([1, 2, 3, 4] : List Dim).reverse ++ [0] := by decide
  refine ⟨⟨fun d _ => h1.stored d (hmem d), fun d hd => absurd (List.mem_finRange d) hd,
    h1.others, h1.caps⟩, ?_⟩
  rw [h2]
  dsimp only
  rw [hcost]
  rfl

theorem scan_total (hall : ∀ d, ∃ me aux1, matchExpect K t aux rs d = .ok (me, aux1))
    {l : List Dim} : ∀ {seen : List Dim} {p : CutAux × K × Dim},
    Scanned K aux rs t seen p.1 → l.Nodup → (∀ d ∈ l, d ∉ seen) →
    ∃ q, l.foldlM (tryDim K t rs) p = .ok q := by
  induction l with
  | nil => intro seen p _ _ _; exact ⟨p, rfl⟩
  | cons i l ih =>
      intro seen p hs hnd hnew
      obtain ⟨hni, hnd⟩ := List.nodup_cons.mp hnd
      have hi := hnew i List.mem_cons_self
      obtain ⟨me, aux1, hme⟩ := hall i
      obtain ⟨aux2, hme', -⟩ := matchExpect_local hme (hs.later i hi) hs.caps
      have hnew' : ∀ d ∈ l, d ∉ i :: seen := by
        intro d hd
        rw [List.mem_cons, not_or]
        exact ⟨fun heq => hni (heq ▸ hd), hnew d (List.mem_cons_of_mem i hd)⟩
      obtain ⟨q, hq⟩ := @ih (i :: seen)
        (aux2, if CostArith.lt me p.2.1 then (me, i) else p.2) (hs.step hi hme').2 hnd hnew'
      refine ⟨q, ?_⟩
      rw [List.foldlM_cons, tryDim, hme']
      exact hq

theorem bestDim_total (hall : ∀ d, ∃ me aux1, matchExpect K t aux rs d = .ok (me, aux1)) :
    ∃ q, bestDim K t aux rs = .ok q := by
  obtain ⟨me, aux1, hme⟩ := hall 0
  obtain ⟨-, hs⟩ := (Scanned.init aux rs t).step (by simp) hme
  obtain ⟨q, hq⟩ := @scan_total K _ aux rs t hall [1, 2, 3, 4] [0] (aux1, me, 0) hs (by decide)
    (by decide)
  exact ⟨q, by rw [bestDim, hme]; exact hq⟩

end Scan

/-! ### The choice -/

section Selected

variable {K : Type} [CostArith K] {aux aux' : CutAux} {rs : RuleSet} {t : CutType} {d : Dim}

/-- The outcome of the selection at a node that starts from the scratch area `aux`. -/
structure Selected (K : Type) [CostArith K] (aux : CutAux) (rs : RuleSet) (aux' : CutAux)
    (t : CutType) (d : Dim) : Prop where
  caps : SameCaps aux aux'
  entry : ∀ t d, ∃ aux1, matchExpect K t aux rs d = .ok (costOf K aux rs t d, aux1) ∧
    SameEntry t d aux1 aux'
  type_eq : t = chooseByMemory (fun t => quantOf aux' t (bestOf (costOf K aux rs t)).2)
    (chooseByExpect rs.num (fun t => (bestOf (costOf K aux rs t)).1))
  dim_eq : d = (bestOf (costOf K aux rs t)).2

theorem Scanned.costOf_eq {seen : List Dim} (h : Scanned K aux rs t seen aux') {t' : CutType}
    (ht : t' ≠ t) (hall : ∃ me aux1, matchExpect K t' aux' rs d = .ok (me, aux1)) :
    costOf K aux' rs t' d = costOf K aux rs t' d ∧
      ∃ aux1, matchExpect K t' aux rs d = .ok (costOf K aux rs t' d, aux1) := by
  obtain ⟨me, aux1, hme⟩ := hall
  obtain ⟨aux2, hme', -⟩ := matchExpect_local hme (h.others t' ht d).symm h.caps.symm
  rw [ChooseCut.costOf_eq hme, ChooseCut.costOf_eq hme']
  exact ⟨rfl, aux2, hme'⟩

/-- The fifteen calls: each method's best dimension, and each entry as the call for it
stored it. -/
theorem bestDims_ok {c : CutAux × (CutType → K × Dim)} (h : bestDims K aux rs = .ok c) :
    SameCaps aux c.1 ∧
      (∀ t d, ∃ aux1, matchExpect K t aux rs d = .ok (costOf K aux rs t d, aux1) ∧
        SameEntry t d aux1 c.1) ∧
      c.2 = fun t => bestOf (costOf K aux rs t) := by
  obtain ⟨b, hb, h⟩ := bind_eq_ok.mp h
  obtain ⟨s, hs, h⟩ := bind_eq_ok.mp h
  obtain ⟨i, hi, h⟩ := bind_eq_ok.mp h
  obtain rfl := Except.ok.inj h
  obtain ⟨hb1, hb2⟩ := bestDim_ok hb
  obtain ⟨hs1, hs2⟩ := bestDim_ok hs
  obtain ⟨hi1, hi2⟩ := bestDim_ok hi
  -- what a later method computes is what it would have computed at the start
  have hsplit : ∀ d, costOf K b.1 rs .split d = costOf K aux rs .split d ∧
      ∃ aux1, matchExpect K .split aux rs d = .ok (costOf K aux rs .split d, aux1) := fun d =>
    hb1.costOf_eq (by decide) (by
      obtain ⟨a, ha, -⟩ := hs1.stored d (List.mem_finRange d)
      exact ⟨_, a, ha⟩)
  have hhi1 : ∀ d, costOf K s.1 rs .hi d = costOf K b.1 rs .hi d ∧
      ∃ aux1, matchExpect K .hi b.1 rs d = .ok (costOf K b.1 rs .hi d, aux1) := fun d =>
    hs1.costOf_eq (by decide) (by
      obtain ⟨a, ha, -⟩ := hi1.stored d (List.mem_finRange d)
      exact ⟨_, a, ha⟩)
  have hhi : ∀ d, costOf K b.1 rs .hi d = costOf K aux rs .hi d ∧
      ∃ aux1, matchExpect K .hi aux rs d = .ok (costOf K aux rs .hi d, aux1) := fun d =>
    hb1.costOf_eq (by decide) ⟨_, (hhi1 d).2⟩
  have hcs : costOf K b.1 rs .split = costOf K aux rs .split := funext (fun d => (hsplit d).1)
  have hch : costOf K s.1 rs .hi = costOf K aux rs .hi :=
    funext (fun d => (hhi1 d).1.trans (hhi d).1)
  rw [hcs] at hs2
  rw [hch] at hi2
  refine ⟨(hb1.caps.trans hs1.caps).trans hi1.caps, ?_, ?_⟩
  swap
  · funext t
    cases t with
    | bitmap => exact hb2
    | split => exact hs2
    | hi => exact hi2
  intro t d
  cases t with
  | bitmap =>
      obtain ⟨a, ha, hae⟩ := hb1.stored d (List.mem_finRange d)
      exact ⟨a, ha, (hae.trans (hs1.others _ (by decide) d)).trans (hi1.others _ (by decide) d)⟩
  | split =>
      obtain ⟨a, ha, hae⟩ := hs1.stored d (List.mem_finRange d)
      obtain ⟨a', ha', hae'⟩ := matchExpect_local ha (hb1.others _ (by decide) d).symm hb1.caps.symm
      rw [(hsplit d).1] at ha'
      exact ⟨a', ha', (hae'.symm.trans hae).trans (hi1.others _ (by decide) d)⟩
  | hi =>
      obtain ⟨a, ha, hae⟩ := hi1.stored d (List.mem_finRange d)
      obtain ⟨a', ha', hae'⟩ := matchExpect_local ha
        ((hb1.others _ (by decide) d).trans (hs1.others _ (by decide) d)).symm
        (hb1.caps.trans hs1.caps).symm
      rw [(hhi1 d).1, (hhi d).1] at ha'
      exact ⟨a', ha', hae'.symm.trans hae⟩

/-- **The selection is a function of the costs and of the entries stored.** -/
theorem selectCut_ok (h : selectCut K aux rs = .ok (aux', t, d)) : Selected K aux rs aux' t d := by
  obtain ⟨c, hc, h⟩ := bind_eq_ok.mp h
  obtain ⟨hcaps, hentry, hbest⟩ := bestDims_ok hc
  simp only [hbest, Except.ok.injEq, Prod.mk.injEq] at h
  obtain ⟨rfl, rfl, rfl⟩ := h
  exact ⟨hcaps, hentry, rfl, rfl⟩

/-- The selection fails only where a `match_expect` fails. -/
theorem selectCut_total (hall : ∀ t d, ∃ me aux1, matchExpect K t aux rs d = .ok (me, aux1)) :
    ∃ aux' t d, selectCut K aux rs = .ok (aux', t, d) := by
  have hlocal : ∀ {t : CutType} {aux' : CutAux}, (∀ d, SameEntry t d aux aux') →
      SameCaps aux aux' → ∃ q, bestDim K t aux' rs = .ok q := by
    intro t aux' he hc
    refine bestDim_total (fun d => ?_)
    obtain ⟨me, aux1, hme⟩ := hall t d
    obtain ⟨aux2, hme', -⟩ := matchExpect_local hme (he d) hc
    exact ⟨me, aux2, hme'⟩
  obtain ⟨b, hb⟩ := hlocal (fun d => SameEntry.refl .bitmap d aux) (SameCaps.refl aux)
  have hb1 := (bestDim_ok hb).1
  obtain ⟨s, hs⟩ := hlocal (t := .split) (hb1.others _ (by decide)) hb1.caps
  have hs1 := (bestDim_ok hs).1
  obtain ⟨i, hi⟩ := hlocal (t := .hi)
    (fun d => (hb1.others _ (by decide) d).trans (hs1.others _ (by decide) d))
    (hb1.caps.trans hs1.caps)
  simp only [selectCut, bestDims, hb, hs, hi, bind, Except.bind]
  exact ⟨_, _, _, rfl⟩

/-- The entry a dispatch reads is the one `match_expect` stored for this node, whenever
it stored one. -/
theorem Selected.ownScratch (h : Selected K aux rs aux' t d) (hfresh : Fresh t rs.items d) :
    OwnScratch K aux' rs t d := by
  obtain ⟨aux1, hme, hsame⟩ := h.entry t d
  exact ⟨hfresh, aux, _, aux1, hme, hsame⟩

end Selected

end ChooseCut
