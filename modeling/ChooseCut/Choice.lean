import ChooseCut.Dispatch

/-!
# ChooseCut.Choice

What the choice of `cut_node` achieves.

The first pass looks for the least match expectation. The second one, under
`memory_constraints`, looks for the fewest children among the methods whose children all
fit a bucket, and is meant to overrule the first. It keeps its running minimum in the
entry of the bitmap method and starts from it without choosing bitmap. So it finds the
fewest children whenever bitmap does not have them; when bitmap has them, it finds
nothing below, and the choice of the first pass stays, however many children that has.

The statements are about all values the methods may return, and `selectCut_values` says
where the builder gets them from.
-/

namespace ChooseCut

section Values

variable {K : Type} [CostArith K]

/-- `mem_quant[t]`, from what `all_fits_bs` and `mem_quant` return. -/
def memOf (fits : CutType → Bool) (quant : CutType → Nat) (t : CutType) : Nat :=
  if fits t then quant t else childCount

/-- The choice of `cut_node`, from the expectation of every method in its best dimension
and from what `all_fits_bs` and `mem_quant` return there. -/
def chooseCut (num : Nat) (me : CutType → K) (fits : CutType → Bool) (quant : CutType → Nat) :
    CutType :=
  chooseByMemory (memOf fits quant) (chooseByExpect num me)

/-- The best cut of a method fits: no child exceeds a bucket, and there are fewer than
`CHILDCOUNT` of them. -/
def CutFits (fits : CutType → Bool) (quant : CutType → Nat) (t : CutType) : Prop :=
  fits t = true ∧ quant t < childCount

/-- The cut of `t` fits, and no cut that fits has fewer children. -/
def FewestFits (fits : CutType → Bool) (quant : CutType → Nat) (t : CutType) : Prop :=
  CutFits fits quant t ∧ ∀ s, CutFits fits quant s → quant t ≤ quant s

/-- No expectation is below the one of `t`. -/
def LeastExpect (me : CutType → K) (t : CutType) : Prop :=
  ∀ s, CostArith.lt (me s) (me t) = true → CostArith.lt (me t) (me s) = true

/-- On exact costs this is the minimum. -/
theorem leastExpect_exact (me : CutType → ℚ) (t : CutType) :
    LeastExpect me t ↔ ∀ s, me t ≤ me s := by
  have hlt : ∀ a b : ℚ, CostArith.lt a b = true ↔ a < b := fun a b => decide_eq_true_iff
  simp only [LeastExpect, hlt]
  constructor
  · intro h s
    by_contra hgt
    exact absurd (h s (not_le.mp hgt)) (lt_asymm (not_le.mp hgt))
  · intro h s hs
    exact absurd hs (not_lt.mpr (h s))

section Fits

variable {fits : CutType → Bool} {quant : CutType → Nat} {t : CutType}

/-- The methods that fit are those with an entry below `CHILDCOUNT`. -/
theorem memOf_lt_iff : memOf fits quant t < childCount ↔ CutFits fits quant t := by
  unfold memOf CutFits
  cases fits t <;> simp

theorem CutFits.memOf_eq (h : CutFits fits quant t) : memOf fits quant t = quant t := by
  rw [memOf, if_pos h.1]

/-- Where some cut fits, the fewest children are the least entry. -/
theorem fewestFits_iff (hfit : ∃ s, CutFits fits quant s) :
    FewestFits fits quant t ↔ ∀ s, memOf fits quant t ≤ memOf fits quant s := by
  constructor
  · rintro ⟨ht, hleast⟩ s
    by_cases hs : CutFits fits quant s
    · rw [ht.memOf_eq, hs.memOf_eq]
      exact hleast s hs
    · have hlt := memOf_lt_iff.mpr ht
      have hge := mt memOf_lt_iff.mp hs
      omega
  · intro hleast
    obtain ⟨s, hs⟩ := hfit
    have ht : CutFits fits quant t :=
      memOf_lt_iff.mp ((hleast s).trans_lt (memOf_lt_iff.mpr hs))
    refine ⟨ht, fun s hs => ?_⟩
    rw [← ht.memOf_eq, ← hs.memOf_eq]
    exact hleast s

end Fits

section Passes

variable {quant : CutType → Nat} {chosen : CutType}

/-- The second pass finds the least entry if bitmap does not have it. -/
theorem chooseByMemory_least (h : ∃ s, quant s < quant .bitmap) (s : CutType) :
    quant (chooseByMemory quant chosen) ≤ quant s := by
  obtain ⟨t, ht⟩ := h
  rw [chooseByMemory_eq]
  cases s <;> cases t <;> split_ifs <;> omega

/-- If bitmap has the least entry, the second pass changes nothing. -/
theorem chooseByMemory_keeps (h : ∀ s, quant .bitmap ≤ quant s) :
    chooseByMemory quant chosen = chosen := by
  rw [chooseByMemory_eq, if_neg (Nat.not_lt.mpr (h .split)), if_neg (Nat.not_lt.mpr (h .hi))]

/-- When the second pass ends at the least entry. -/
theorem chooseByMemory_least_iff :
    (∀ s, quant (chooseByMemory quant chosen) ≤ quant s) ↔
      (∃ s, quant s < quant .bitmap) ∨ ∀ s, quant chosen ≤ quant s := by
  by_cases h : ∃ s, quant s < quant .bitmap
  · exact ⟨fun _ => Or.inl h, fun _ => chooseByMemory_least h⟩
  · have hkeep : chooseByMemory quant chosen = chosen :=
      chooseByMemory_keeps (fun s => Nat.not_lt.mp (fun hs => h ⟨s, hs⟩))
    rw [hkeep]
    exact ⟨Or.inr, fun hor => hor.resolve_left h⟩

/-- The first pass finds the least expectation, if one is below the rule count. -/
theorem chooseByExpect_least {num : Nat} {me : CutType → K}
    (h : ∃ s, CostArith.lt (me s) (CostArith.ofNat num) = true) :
    LeastExpect me (chooseByExpect num me) := by
  obtain ⟨hend, hleast⟩ := foldl_least me cutTypes (CostArith.ofNat num, CutType.bitmap)
  rw [← chooseByExpect] at hend
  rcases hend with heq | ⟨-, hval⟩
  · -- the scan did not move, but something was below its start
    obtain ⟨s, hs⟩ := h
    rw [heq] at hleast
    have hself := CostArith.lt_trans _ _ _ (hleast s (mem_cutTypes s) hs) hs
    rw [CostArith.lt_irrefl] at hself
    cases hself
  · rw [hval] at hleast
    exact fun s => hleast s (mem_cutTypes s)

end Passes

/-- Without a cut that fits, the choice of the first pass stays. -/
theorem chooseCut_none {num : Nat} {me : CutType → K} {fits : CutType → Bool}
    {quant : CutType → Nat} (hb : quant .bitmap ≤ childCount) (hno : ∀ s, ¬ CutFits fits quant s) :
    chooseCut num me fits quant = chooseByExpect num me := by
  refine chooseByMemory_keeps (fun s => ?_)
  have hs : childCount ≤ memOf fits quant s := Nat.not_lt.mp (mt memOf_lt_iff.mp (hno s))
  have hle : memOf fits quant .bitmap ≤ childCount := by
    rw [memOf]
    split
    · exact hb
    · exact Nat.le_refl _
  exact hle.trans hs

/-- The builder's choice is the one for the values its methods return, and `mem_quant` of
the bitmap method never exceeds `CHILDCOUNT`. -/
theorem selectCut_values {aux aux' : CutAux} {rs : RuleSet} {t : CutType} {d : Dim}
    (h : selectCut K aux rs = .ok (aux', t, d)) :
    ∃ best : CutType → K × Dim, bestDims K aux rs = .ok (aux', best) ∧
      t = chooseCut rs.num (fun s => (best s).1) (fun s => allFitsBs aux' s (best s).2)
        (fun s => memQuant aux' s (best s).2) ∧
      d = (best t).2 ∧ memQuant aux' .bitmap (best .bitmap).2 ≤ childCount := by
  have hsel := selectCut_ok h
  obtain ⟨⟨aux1, best⟩, hbest, h⟩ := bind_eq_ok.mp h
  simp only [Except.ok.injEq, Prod.mk.injEq] at h
  obtain ⟨rfl, rfl, rfl⟩ := h
  refine ⟨best, hbest, rfl, rfl, ?_⟩
  obtain ⟨aux2, hme, hsame⟩ := hsel.entry .bitmap (best .bitmap).2
  rw [memQuant, matchExpect_bitmap hme hsame]
  exact getRuleHist_childs_le _ _

/-- **When the selection has the fewest children.** For all values the methods may return:
if some cut fits, then the choice fits with the fewest children if and only if bitmap has
not the least entry or the choice of the first pass has it; if none fits, the choice has
the least expectation as soon as one is below the rule count. The builder chooses by these
values. -/
theorem chooseCut_fewest_iff (num : Nat) (me : CutType → K) (fits : CutType → Bool)
    (quant : CutType → Nat) :
    ((∃ s, CutFits fits quant s) →
      (FewestFits fits quant (chooseCut num me fits quant) ↔
        (∃ s, memOf fits quant s < memOf fits quant .bitmap) ∨
          ∀ s, memOf fits quant (chooseByExpect num me) ≤ memOf fits quant s)) ∧
    (quant .bitmap ≤ childCount → (∀ s, ¬ CutFits fits quant s) →
      (∃ s, CostArith.lt (me s) (CostArith.ofNat num) = true) →
      LeastExpect me (chooseCut num me fits quant)) ∧
    ∀ aux rs aux' t d, selectCut K aux rs = .ok (aux', t, d) →
      ∃ best : CutType → K × Dim, bestDims K aux rs = .ok (aux', best) ∧
        t = chooseCut rs.num (fun s => (best s).1) (fun s => allFitsBs aux' s (best s).2)
          (fun s => memQuant aux' s (best s).2) ∧
        d = (best t).2 ∧ memQuant aux' .bitmap (best .bitmap).2 ≤ childCount := by
  refine ⟨fun hfit => ?_, fun hb hno hlt => ?_, fun _ _ _ _ _ h => selectCut_values h⟩
  · rw [fewestFits_iff hfit, chooseCut]
    exact chooseByMemory_least_iff
  · rw [chooseCut_none hb hno]
    exact chooseByExpect_least hlt

end Values

/-- Where all cuts fit and split has the fewest children, split is chosen, although hi has
the least expectation. -/
theorem chooseCut_fewest_split :
    let me : CutType → ℚ := fun t => match t with | .bitmap => 9 | .split => 8 | .hi => 5
    let quant : CutType → Nat := fun t => match t with | .bitmap => 3 | .split => 2 | .hi => 4
    chooseCut 17 me (fun _ => true) quant = .split ∧ FewestFits (fun _ => true) quant .split := by
  intro me quant
  have hchoice : chooseCut 17 me (fun _ => true) quant = .split := by decide
  have hfew := ((chooseCut_fewest_iff 17 me (fun _ => true) quant).1
    ⟨.split, rfl, by decide⟩).mpr (Or.inl ⟨.split, by decide⟩)
  rw [hchoice] at hfew
  exact ⟨hchoice, hfew⟩

/-- Nine and eight rules in two halves of the first dimension, and four keys in the
second. -/
def tieRules : List Rule :=
  (List.range 17).map (fun i => ⟨i, fun d =>
    if d = 0 then (if i < 9 then ⟨0, 0⟩ else ⟨2 ^ 31, 2 ^ 31⟩)
    else if d = 1 then ⟨i % 4, i % 4⟩
    else ⟨0, 2 ^ dimBits d - 1⟩⟩)

/-- **The fewest children are not chosen.** Bitmap and split fit with two children in the
first dimension, hi fits with four in the second and has the least expectation; the second
pass finds nothing below the two of bitmap and leaves the choice at hi. -/
theorem tieRules_chosen :
    RulesWF tieRules ∧
      ((bestDims ℚ (auxInit .zero 17) (Buffer.ofList tieRules)).map (fun c =>
        cutTypes.map (fun t => ((c.2 t).2, allFitsBs c.1 t (c.2 t).2, memQuant c.1 t (c.2 t).2))))
        = .ok [(0, true, 2), (0, true, 2), (1, true, 4)] ∧
      (selectCut ℚ (auxInit .zero 17) (Buffer.ofList tieRules)).map (fun q => q.2)
        = .ok (.hi, 1) := by
  refine ⟨by decide +kernel, by decide +kernel, by decide +kernel⟩

end ChooseCut
