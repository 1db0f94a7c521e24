import Mathlib.Data.Set.Function
import Mathlib.Order.Interval.Set.Defs
import ChooseCut.CutBitmap

/-!
# ChooseCut.CutBitmapSlots

Where the children of a bitmap node lie.

The children are one array, with `child_ptr` behind the internal ones. Internal children
are ranked downwards from it and external children upwards, each by the number of lower
bits in its word, so that set bits and slots are in bijection (`slot_bijOn`). This
depends on the two words alone: `even_cut` may set their bits in any order.
-/

namespace ChooseCut

/-! ### The slots of a node -/

section Node

variable {n : MbNode}

/-- Internal children fill the array from `child_ptr` down to its start. -/
theorem nextInl_add (hptr : n.childPtr = popcount n.internal) {i : Nat}
    (hb : n.internal.getLsbD i = true) :
    nextInl n i + rank n.internal i + 1 = popcount n.internal := by
  have hlt := rank_lt_popcount hb
  rw [nextInl, hptr]
  omega

/-- External children fill it from `child_ptr` on. -/
theorem nextExl_eq (hptr : n.childPtr = popcount n.internal) (e : Nat) :
    nextExl n e = popcount n.internal + rank n.external e := by
  rw [nextExl, hptr]

/-- The child of a bit: an internal one on the left, an external one on the right. -/
def MbNode.slot (n : MbNode) : Nat ⊕ Nat → Nat
  | .inl i => nextInl n i
  | .inr e => nextExl n e

/-- The bits that are set. -/
def MbNode.bits (n : MbNode) : Set (Nat ⊕ Nat) :=
  {c | match c with
    | .inl i => n.internal.getLsbD i = true
    | .inr e => n.external.getLsbD e = true}

variable (hptr : n.childPtr = popcount n.internal)

include hptr

theorem slot_mapsTo :
    Set.MapsTo n.slot n.bits (Set.Iio (popcount n.internal + popcount n.external)) := by
  rintro (i | e) hb
  · have h := nextInl_add hptr hb
    change nextInl n i < _
    omega
  · have h := nextExl_eq hptr e
    have hlt := rank_lt_popcount hb
    change nextExl n e < _
    omega

theorem slot_injOn : Set.InjOn n.slot n.bits := by
  rintro (i | e) hb (j | e') hb' heq
  · have h1 := nextInl_add hptr hb
    have h2 := nextInl_add hptr hb'
    change nextInl n i = nextInl n j at heq
    rw [rank_inj hb hb' (by omega)]
  · have h1 := nextInl_add hptr hb
    have h2 := nextExl_eq hptr e'
    change nextInl n i = nextExl n e' at heq
    omega
  · have h1 := nextExl_eq hptr e
    have h2 := nextInl_add hptr hb'
    change nextExl n e = nextInl n j at heq
    omega
  · have h1 := nextExl_eq hptr e
    have h2 := nextExl_eq hptr e'
    change nextExl n e = nextExl n e' at heq
    rw [rank_inj hb hb' (by omega)]

theorem slot_surjOn :
    Set.SurjOn n.slot n.bits (Set.Iio (popcount n.internal + popcount n.external)) := by
  intro s hs
  rw [Set.mem_Iio] at hs
  by_cases hlow : s < popcount n.internal
  · obtain ⟨i, hb, hrank⟩ := exists_rank_eq (b := n.internal)
      (k := popcount n.internal - s - 1) (by omega)
    have h := nextInl_add hptr hb
    exact ⟨.inl i, hb, show nextInl n i = s by omega⟩
  · obtain ⟨e, hb, hrank⟩ := exists_rank_eq (b := n.external)
      (k := s - popcount n.internal) (by omega)
    have h := nextExl_eq hptr e
    exact ⟨.inr e, hb, show nextExl n e = s by omega⟩

theorem slot_bijOn :
    Set.BijOn n.slot n.bits (Set.Iio (popcount n.internal + popcount n.external)) :=
  ⟨slot_mapsTo hptr, slot_injOn hptr, slot_surjOn hptr⟩

/-- In whatever order the bits are visited, every slot is visited once. -/
theorem map_slot_perm {cs : List (Nat ⊕ Nat)} (hnd : cs.Nodup) (hmem : ∀ c, c ∈ cs ↔ c ∈ n.bits) :
    (cs.map n.slot).Perm (List.range (popcount n.internal + popcount n.external)) := by
  have hinj : (cs.map n.slot).Nodup :=
    List.Nodup.map_on (fun c hc c' hc' heq =>
      slot_injOn hptr ((hmem c).mp hc) ((hmem c').mp hc') heq) hnd
  rw [List.perm_ext_iff_of_nodup hinj List.nodup_range]
  intro s
  rw [List.mem_map, List.mem_range]
  constructor
  · rintro ⟨c, hc, rfl⟩
    exact slot_mapsTo hptr ((hmem c).mp hc)
  · intro hs
    obtain ⟨c, hc, hcs⟩ := slot_surjOn hptr (Set.mem_Iio.mpr hs)
    exact ⟨c, (hmem c).mpr hc, hcs⟩

end Node

/-! ### The slots of a histogram -/

section Hist

variable {hist : RuleHist}

theorem evenNode_internal (i : Nat) :
    (evenNode hist).internal.getLsbD i
      = (decide (hist.childRulecount i ≠ 0) && decide (i < inlOffset)) :=
  getLsbD_setBits _ (by decide) i

theorem evenNode_external (e : Nat) :
    (evenNode hist).external.getLsbD e
      = (decide (hist.childRulecount (e + inlOffset) ≠ 0) && decide (e < 2 ^ stride)) :=
  getLsbD_setBits _ (by decide) e

theorem popcount_internal : popcount (evenNode hist).internal = (evenNode hist).childPtr :=
  popcount_setBits _ (by decide)

/-- The number of children allocated. -/
def evenTotal (hist : RuleHist) : Nat :=
  popcount (evenNode hist).internal + popcount (evenNode hist).external

/-- Internal children fill the array below `child_ptr`. -/
theorem evenSlot_internal {i : Nat} (hocc : hist.childRulecount i ≠ 0) (hi : i < inlOffset) :
    evenSlot (evenNode hist) i + rank (evenNode hist).internal i + 1
        = popcount (evenNode hist).internal ∧ (evenNode hist).internal.getLsbD i = true := by
  have hbit : (evenNode hist).internal.getLsbD i = true := by
    rw [evenNode_internal]; simp [hocc, hi]
  rw [evenSlot, if_pos hi]
  exact ⟨nextInl_add popcount_internal.symm hbit, hbit⟩

/-- External children fill it from `child_ptr` on. -/
theorem evenSlot_external {i : Nat} (hocc : hist.childRulecount i ≠ 0) (hi : ¬ i < inlOffset)
    (hlt : i < childCount) :
    evenSlot (evenNode hist) i
        = popcount (evenNode hist).internal + rank (evenNode hist).external (i - inlOffset) ∧
      (evenNode hist).external.getLsbD (i - inlOffset) = true := by
  have hsub : i - inlOffset + inlOffset = i := by omega
  have hbit : (evenNode hist).external.getLsbD (i - inlOffset) = true := by
    rw [evenNode_external, hsub]
    simp only [Bool.and_eq_true, decide_eq_true_eq]
    refine ⟨hocc, ?_⟩
    simp only [childCount, inlOffset, stride] at hi hlt ⊢
    omega
  rw [evenSlot, if_neg hi, nextExl, ← popcount_internal]
  exact ⟨rfl, hbit⟩

theorem evenSlot_lt {i : Nat} (hocc : hist.childRulecount i ≠ 0) (hlt : i < childCount) :
    evenSlot (evenNode hist) i < evenTotal hist := by
  unfold evenTotal
  by_cases hi : i < inlOffset
  · have := (evenSlot_internal hocc hi).1
    omega
  · obtain ⟨heq, hbit⟩ := evenSlot_external hocc hi hlt
    have := rank_lt_popcount hbit
    omega

/-- **No two occupied children share a slot.** -/
theorem evenSlot_inj {i j : Nat} (hi : hist.childRulecount i ≠ 0) (hj : hist.childRulecount j ≠ 0)
    (hilt : i < childCount) (hjlt : j < childCount)
    (h : evenSlot (evenNode hist) i = evenSlot (evenNode hist) j) : i = j := by
  by_cases hi' : i < inlOffset <;> by_cases hj' : j < inlOffset
  · obtain ⟨h1, b1⟩ := evenSlot_internal hi hi'
    obtain ⟨h2, b2⟩ := evenSlot_internal hj hj'
    exact rank_inj b1 b2 (by omega)
  · have h1 := (evenSlot_internal hi hi').1
    have h2 := (evenSlot_external hj hj' hjlt).1
    omega
  · have h1 := (evenSlot_external hi hi' hilt).1
    have h2 := (evenSlot_internal hj hj').1
    omega
  · obtain ⟨h1, b1⟩ := evenSlot_external hi hi' hilt
    obtain ⟨h2, b2⟩ := evenSlot_external hj hj' hjlt
    have := rank_inj b1 b2 (by omega)
    omega

/-- Every slot of the array belongs to an occupied child. -/
theorem exists_evenSlot {s : Nat} (hs : s < evenTotal hist) :
    ∃ i < childCount, hist.childRulecount i ≠ 0 ∧ evenSlot (evenNode hist) i = s := by
  unfold evenTotal at hs
  by_cases hlow : s < popcount (evenNode hist).internal
  · obtain ⟨i, hbit, hrank⟩ := exists_rank_eq
      (b := (evenNode hist).internal) (k := popcount (evenNode hist).internal - s - 1) (by omega)
    have hb := hbit
    rw [evenNode_internal] at hb
    simp only [Bool.and_eq_true, decide_eq_true_eq] at hb
    have := (evenSlot_internal hb.1 hb.2).1
    refine ⟨i, ?_, hb.1, by omega⟩
    have := hb.2
    simp only [childCount, inlOffset] at *
    omega
  · obtain ⟨e, hbit, hrank⟩ := exists_rank_eq
      (b := (evenNode hist).external) (k := s - popcount (evenNode hist).internal) (by omega)
    have hb := hbit
    rw [evenNode_external] at hb
    simp only [Bool.and_eq_true, decide_eq_true_eq] at hb
    have hlt : e + inlOffset < childCount := by
      have := hb.2
      simp only [childCount, inlOffset] at *
      omega
    have := (evenSlot_external hb.1 (by omega) hlt).1
    rw [Nat.add_sub_cancel] at this
    exact ⟨e + inlOffset, hlt, hb.1, by omega⟩

theorem evenAlloc_spec :
    (evenAlloc hist).length = evenTotal hist ∧
      ∀ i < childCount, hist.childRulecount i ≠ 0 →
        (evenAlloc hist)[evenSlot (evenNode hist) i]?
          = some (Buffer.alloc (hist.childRulecount i)) := by
  have htotal : count (fun i => hist.childRulecount i ≠ 0) inlOffset
      + count (fun e => hist.childRulecount (e + inlOffset) ≠ 0) (2 ^ stride) = evenTotal hist := by
    rw [evenTotal, popcount_internal]
    congr 1
    exact (popcount_setBits _ (by decide)).symm
  unfold evenAlloc
  rw [htotal]
  -- the loop over the first `n` children has set the slots of the occupied ones
  have hgen : ∀ n ≤ childCount,
      ((List.range n).foldl (fun (ks : List RuleSet) i =>
        if hist.childRulecount i ≠ 0 then
          ks.set (evenSlot (evenNode hist) i) (Buffer.alloc (hist.childRulecount i))
        else ks) (List.replicate (evenTotal hist) (Buffer.alloc 0))).length = evenTotal hist ∧
      ∀ i < n, hist.childRulecount i ≠ 0 →
        ((List.range n).foldl (fun (ks : List RuleSet) i =>
          if hist.childRulecount i ≠ 0 then
            ks.set (evenSlot (evenNode hist) i) (Buffer.alloc (hist.childRulecount i))
          else ks) (List.replicate (evenTotal hist) (Buffer.alloc 0)))[evenSlot (evenNode hist) i]?
          = some (Buffer.alloc (hist.childRulecount i)) := by
    intro n
    induction n with
    | zero => intro _; exact ⟨by simp, fun i hi => absurd hi (Nat.not_lt_zero i)⟩
    | succ n ih =>
        intro hn
        obtain ⟨hlen, hset⟩ := ih (by omega)
        rw [List.range_succ, List.foldl_append, List.foldl_cons, List.foldl_nil]
        by_cases hocc : hist.childRulecount n ≠ 0
        · rw [if_pos hocc]
          refine ⟨by rw [List.length_set]; exact hlen, ?_⟩
          intro i hi hoi
          rw [List.getElem?_set]
          by_cases heq : i = n
          · subst heq
            rw [if_pos rfl, if_pos (by rw [hlen]; exact evenSlot_lt hocc (by omega))]
          · rw [if_neg (fun h => heq (evenSlot_inj hocc hoi (by omega) (by omega) h).symm)]
            exact hset i (by omega) hoi
        · rw [if_neg hocc]
          refine ⟨hlen, ?_⟩
          intro i hi hoi
          have : i ≠ n := fun h => hocc (h ▸ hoi)
          exact hset i (by omega) hoi
  exact hgen childCount (Nat.le_refl _)

end Hist

/-! ### The order of the bits -/

/-- The body of the first loop of `even_cut`: the bit of an occupied child is set. -/
def evenSetBit (hist : RuleHist) (n : MbNode) (i : Nat) : MbNode :=
  if hist.childRulecount i ≠ 0 then
    if i < inlOffset then { n with internal := setBit n.internal i }
    else { n with external := setBit n.external (i - inlOffset) }
  else n

section Order

variable {hist : RuleHist}

theorem evenSetBit_childPtr (n : MbNode) (i : Nat) :
    (evenSetBit hist n i).childPtr = n.childPtr := by
  unfold evenSetBit
  split
  · split <;> rfl
  · rfl

theorem evenSetBit_internal (n : MbNode) (i j : Nat) :
    (evenSetBit hist n i).internal.getLsbD j = (n.internal.getLsbD j ||
      decide (hist.childRulecount j ≠ 0 ∧ j < inlOffset ∧ j = i)) := by
  unfold evenSetBit
  by_cases hocc : hist.childRulecount i ≠ 0
  · rw [if_pos hocc]
    by_cases hin : i < inlOffset
    · have hlt : i < 64 := Nat.lt_succ_of_lt hin
      rw [if_pos hin, getLsbD_setBit _ hlt]
      by_cases hj : j = i
      · subst hj; simp [hocc, hin]
      · simp [hj, Ne.symm hj]
    · rw [if_neg hin]
      by_cases hj : j = i
      · subst hj; simp [hin]
      · simp [hj]
  · rw [if_neg hocc]
    by_cases hj : j = i
    · subst hj; simp [hocc]
    · simp [hj]

theorem evenSetBit_external (n : MbNode) {i : Nat} (hi : i < childCount) (j : Nat) :
    (evenSetBit hist n i).external.getLsbD j = (n.external.getLsbD j ||
      decide (hist.childRulecount (j + inlOffset) ≠ 0 ∧ j + inlOffset = i)) := by
  unfold evenSetBit
  by_cases hocc : hist.childRulecount i ≠ 0
  · rw [if_pos hocc]
    by_cases hin : i < inlOffset
    · rw [if_pos hin]
      simp [show j + inlOffset ≠ i by omega]
    · have hlt : i - inlOffset < 64 := by
        simp only [childCount, inlOffset, stride] at hi ⊢
        omega
      rw [if_neg hin, getLsbD_setBit _ hlt]
      by_cases hj : j + inlOffset = i
      · subst hj; simp [hocc]
      · simp [hj, show i - inlOffset ≠ j by omega]
  · rw [if_neg hocc]
    by_cases hj : j + inlOffset = i
    · subst hj; simp [hocc]
    · simp [hj]

/-- The words after some children have been looked at. -/
theorem foldl_evenSetBit {l : List Nat} : ∀ {n : MbNode}, (∀ i ∈ l, i < childCount) →
    (l.foldl (evenSetBit hist) n).childPtr = n.childPtr ∧
    (∀ j, (l.foldl (evenSetBit hist) n).internal.getLsbD j = (n.internal.getLsbD j ||
      decide (hist.childRulecount j ≠ 0 ∧ j < inlOffset ∧ j ∈ l))) ∧
    ∀ j, (l.foldl (evenSetBit hist) n).external.getLsbD j = (n.external.getLsbD j ||
      decide (hist.childRulecount (j + inlOffset) ≠ 0 ∧ j + inlOffset ∈ l)) := by
  induction l with
  | nil => intro n _; simp
  | cons i l ih =>
      intro n hlt
      obtain ⟨hptr, hint, hext⟩ := ih (n := evenSetBit hist n i)
        (fun k hk => hlt k (List.mem_cons_of_mem i hk))
      rw [List.foldl_cons, hptr, evenSetBit_childPtr]
      refine ⟨rfl, fun j => ?_, fun j => ?_⟩
      · rw [hint j, evenSetBit_internal, Bool.or_assoc, ← Bool.decide_or]
        simp only [List.mem_cons, ← and_or_left]
      · rw [hext j, evenSetBit_external n (hlt i List.mem_cons_self), Bool.or_assoc,
          ← Bool.decide_or]
        simp only [List.mem_cons, ← and_or_left]

/-- Setting the bits in any order makes the words of `evenNode`. -/
theorem evenSetBit_order {order : List Nat} (horder : order.Perm (List.range childCount)) :
    order.foldl (evenSetBit hist) ⟨0#64, 0#64, (evenNode hist).childPtr⟩ = evenNode hist := by
  obtain ⟨hptr, hint, hext⟩ := @foldl_evenSetBit hist order
    ⟨0#64, 0#64, (evenNode hist).childPtr⟩ (fun i hi => List.mem_range.mp (horder.mem_iff.mp hi))
  have hmem : ∀ i, i ∈ order ↔ i < 127 := fun i => horder.mem_iff.trans List.mem_range
  have h1 : (order.foldl (evenSetBit hist) ⟨0#64, 0#64, (evenNode hist).childPtr⟩).internal
      = (evenNode hist).internal := by
    apply BitVec.eq_of_getLsbD_eq
    intro j hj
    rw [hint j, evenNode_internal, ← Bool.decide_and]
    dsimp only
    rw [BitVec.getLsbD_zero, Bool.false_or, decide_eq_decide]
    simp only [hmem, inlOffset, stride]
    omega
  have h2 : (order.foldl (evenSetBit hist) ⟨0#64, 0#64, (evenNode hist).childPtr⟩).external
      = (evenNode hist).external := by
    apply BitVec.eq_of_getLsbD_eq
    intro j hj
    rw [hext j, evenNode_external, ← Bool.decide_and]
    dsimp only
    rw [BitVec.getLsbD_zero, Bool.false_or, decide_eq_decide]
    simp only [hmem, inlOffset, stride]
    omega
  exact congr (congrArg₂ MbNode.mk h2 h1) hptr

end Order

/-- **Set bits and slots are in bijection.** With `child_ptr` behind the internal children,
no slot lies in front of the array, distinct bits have distinct slots, and the slots are
exactly those allocated, whatever order the bits are visited in; and `even_cut` makes such
a node, with the same words in whatever order it sets their bits. -/
theorem evenSlots_bijection (n : MbNode) (hptr : n.childPtr = popcount n.internal) :
    (∀ i, n.internal.getLsbD i = true → rank n.internal i + 1 ≤ n.childPtr) ∧
    Set.BijOn n.slot n.bits (Set.Iio (popcount n.internal + popcount n.external)) ∧
    (∀ cs : List (Nat ⊕ Nat), cs.Nodup → (∀ c, c ∈ cs ↔ c ∈ n.bits) →
      (cs.map n.slot).Perm (List.range (popcount n.internal + popcount n.external))) ∧
    ∀ (hist : RuleHist) (order : List Nat), order.Perm (List.range childCount) →
      order.foldl (evenSetBit hist) ⟨0#64, 0#64, (evenNode hist).childPtr⟩ = evenNode hist ∧
      (evenNode hist).childPtr = popcount (evenNode hist).internal ∧
      (evenAlloc hist).length
        = popcount (evenNode hist).internal + popcount (evenNode hist).external := by
  refine ⟨fun i hb => ?_, slot_bijOn hptr, fun cs => map_slot_perm hptr, ?_⟩
  · rw [hptr]
    exact rank_lt_popcount hb
  · intro hist order horder
    exact ⟨evenSetBit_order horder, popcount_internal.symm, evenAlloc_spec.1⟩

/-- Two internal and two external children, the highest bits among them. -/
theorem evenSlots_bijection_highest :
    Set.BijOn (MbNode.slot ⟨0x8000000000000001#64, 0x4000000000000001#64, 2⟩)
      (MbNode.bits ⟨0x8000000000000001#64, 0x4000000000000001#64, 2⟩) (Set.Iio 4) := by
  have hint : popcount 0x4000000000000001#64 = 2 := by decide
  have hext : popcount 0x8000000000000001#64 = 2 := by decide
  have h := (evenSlots_bijection ⟨0x8000000000000001#64, 0x4000000000000001#64, 2⟩ hint.symm).2.1
  rwa [hint, hext] at h

end ChooseCut
