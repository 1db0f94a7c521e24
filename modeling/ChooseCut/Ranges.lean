import Mathlib.Algebra.BigOperators.Group.List.Lemmas
import Mathlib.Data.List.Dedup
import Mathlib.Data.List.Sort
import ChooseCut.Rule
import ChooseCut.Lib.Sweep

/-!
# ChooseCut.Ranges

The one-dimensional ranges both sweeps work on (`rule.c`): the rules' ranges in
one dimension, sorted, with equal ranges merged into one entry of higher weight.

`unique_ranges` merges in place: the write index `unique_num` never passes the
read index, so the entries still to be read are untouched, and the slot a new
entry is written to still has the weight 1 it was loaded with. `UniqueInv` says
this of every turn. What is left is a grouping of the ranges, and a sorted list has
only one: its distinct members with their multiplicities (`Grouped.eq_dedup`).
`qsort` is taken at its word, and so is the vendored heap: a queue in order of `high`.
-/

namespace ChooseCut

/-- `struct range1d`. -/
@[ext]
structure Range1d where
  low : Nat
  high : Nat
  weight : Nat
  deriving Repr, DecidableEq

/-- `_range_compare`. -/
def rangeCompare (a b : Range1d) : Ordering :=
  if a.low ≠ b.low then
    if a.low < b.low then .lt else .gt
  else if a.high ≠ b.high then
    if a.high < b.high then .lt else .gt
  else .eq

/-- The order `qsort` sorts by. -/
def rangeLe (a b : Range1d) : Prop := rangeCompare a b ≠ .gt

instance : DecidableRel rangeLe := fun a b => inferInstanceAs (Decidable (rangeCompare a b ≠ .gt))

theorem rangeLe_iff {a b : Range1d} :
    rangeLe a b ↔ a.low < b.low ∨ (a.low = b.low ∧ a.high ≤ b.high) := by
  unfold rangeLe rangeCompare
  split_ifs <;> simp <;> omega

theorem rangeCompare_lt {a b : Range1d} :
    rangeCompare a b = .lt ↔ a.low < b.low ∨ (a.low = b.low ∧ a.high < b.high) := by
  unfold rangeCompare
  split_ifs <;> simp <;> omega

instance : Std.Total rangeLe := ⟨fun a b => by simp only [rangeLe_iff]; omega⟩

instance : IsTrans Range1d rangeLe := ⟨fun a b c => by simp only [rangeLe_iff]; omega⟩

/-- The loop that copies one dimension of the rules into the scratch ranges. -/
def loadRanges (rs : List Rule) (d : Dim) : List Range1d :=
  rs.map (fun r => ⟨(r.range d).lo, (r.range d).hi, 1⟩)

/-- `qsort` with `_range_compare`. -/
def sortRanges (l : List Range1d) : List Range1d := l.insertionSort rangeLe

/-- Body of `unique_ranges`: the array and `unique_num`. -/
def uniqueStep (s : List Range1d × Nat) (i : Nat) : List Range1d × Nat :=
  match s.1[i]?, s.1[s.2 - 1]? with
  | some x, some y =>
      if x.low ≠ y.low ∨ x.high ≠ y.high then
        (s.1.modify s.2 (fun z => { z with low := x.low, high := x.high }), s.2 + 1)
      else
        (s.1.modify (s.2 - 1) (fun z => { z with weight := z.weight + 1 }), s.2)
  | _, _ => s

/-- `unique_ranges`: the array afterwards and the number of distinct ranges. -/
def uniqueRanges (l : List Range1d) : List Range1d × Nat :=
  (List.range' 1 (l.length - 1)).foldl uniqueStep (l, 1)

/-- The entries both sweeps run over. -/
def sweepRanges (rs : List Rule) (d : Dim) : List Range1d :=
  let u := uniqueRanges (sortRanges (loadRanges rs d))
  u.1.take u.2

/-! ### Merging equal ranges -/

/-- The weight of the entries whose ends satisfy `p`. -/
abbrev weightWhere (p : Nat → Nat → Prop) [∀ a b, Decidable (p a b)] (l : List Range1d) : Nat :=
  weightOf Range1d.weight (fun x => p x.low x.high) l

/-- `us` lists the distinct ranges of `l` in strictly increasing order, with the
weight of each the weight it has in `l`. -/
structure Grouped (us l : List Range1d) : Prop where
  sorted : us.Pairwise (fun a b => rangeCompare a b = .lt)
  pos : ∀ x ∈ us, 0 < x.weight
  weight : ∀ (p : Nat → Nat → Prop) [∀ a b, Decidable (p a b)],
    weightWhere p us = weightWhere p l

/-- What the loop of `unique_ranges` maintains when it is about to read slot `i`. -/
structure UniqueInv (l : List Range1d) (i : Nat) (s : List Range1d × Nat) : Prop where
  len : s.1.length = l.length
  le : s.2 ≤ i
  rest : ∀ j, i ≤ j → s.1[j]? = l[j]?
  fresh : ∀ j x, s.2 ≤ j → s.1[j]? = some x → x.weight = 1
  front : ∃ vs z x, s.1.take s.2 = vs ++ [z] ∧ s.2 = vs.length + 1 ∧
    Grouped (vs ++ [z]) (l.take i) ∧
    l[i - 1]? = some x ∧ z.low = x.low ∧ z.high = x.high

theorem take_modify_succ {α : Type} {l : List α} {n : Nat} {x : α} (h : l[n]? = some x)
    (f : α → α) : (l.modify n f).take (n + 1) = l.take n ++ [f x] := by
  have hkeep : (l.take n).modify n f = l.take n := List.modify_eq_self (by simp)
  rw [List.take_add_one, List.take_modify, hkeep, List.getElem?_modify]
  simp [h]

/-- A range above the last one opens a group of its own. -/
theorem Grouped.append_above {vs l : List Range1d} {z x : Range1d} (h : Grouped (vs ++ [z]) l)
    (hzx : rangeCompare z x = .lt) (hpos : 0 < x.weight) :
    Grouped (vs ++ [z] ++ [x]) (l ++ [x]) := by
  refine ⟨?_, ?_, ?_⟩
  · rw [List.pairwise_append]
    refine ⟨h.sorted, List.pairwise_singleton _ _, ?_⟩
    intro a ha b hb
    obtain rfl := List.mem_singleton.mp hb
    rcases List.mem_append.mp ha with ha | ha
    · have haz := (List.pairwise_append.mp h.sorted).2.2 a ha z (by simp)
      rw [rangeCompare_lt] at haz hzx ⊢
      omega
    · obtain rfl := List.mem_singleton.mp ha
      exact hzx
  · intro y hy
    rcases List.mem_append.mp hy with hy | hy
    · exact h.pos y hy
    · obtain rfl := List.mem_singleton.mp hy
      exact hpos
  · intro p _
    unfold weightWhere
    rw [weightOf_append (l := vs ++ [z]), weightOf_append (l := l)]
    congr 1
    exact h.weight p

/-- A range equal to the last one adds to its weight. -/
theorem Grouped.append_equal {vs l : List Range1d} {z x : Range1d} (h : Grouped (vs ++ [z]) l)
    (hlow : x.low = z.low) (hhigh : x.high = z.high) (hone : x.weight = 1) :
    Grouped (vs ++ [{ z with weight := z.weight + 1 }]) (l ++ [x]) := by
  refine ⟨?_, ?_, ?_⟩
  · have hsorted := List.pairwise_append.mp h.sorted
    rw [List.pairwise_append]
    refine ⟨hsorted.1, List.pairwise_singleton _ _, ?_⟩
    intro a ha b hb
    obtain rfl := List.mem_singleton.mp hb
    have haz := hsorted.2.2 a ha z (by simp)
    rw [rangeCompare_lt] at haz ⊢
    exact haz
  · intro y hy
    rcases List.mem_append.mp hy with hy | hy
    · exact h.pos y (by simp [hy])
    · obtain rfl := List.mem_singleton.mp hy
      exact Nat.succ_pos _
  · intro p _
    have hg := h.weight p
    unfold weightWhere at hg ⊢
    rw [weightOf_append, weightOf_cons, weightOf_nil] at hg
    rw [weightOf_append, weightOf_append, weightOf_cons, weightOf_cons, weightOf_nil, ← hg]
    dsimp only
    rw [hlow, hhigh, hone]
    split <;> omega

/-- A turn of the loop writes one slot `k` below the new `unique_num`, so the entries still
to be read stay as they are, and so do the weights behind it. -/
theorem UniqueInv.modify {l : List Range1d} {i : Nat} {s : List Range1d × Nat}
    (h : UniqueInv l i s) {k u : Nat} (hku : k < u) (hu : s.2 ≤ u) (hui : u ≤ i + 1)
    {f : Range1d → Range1d}
    (hfront : ∃ vs z x, (s.1.modify k f).take u = vs ++ [z] ∧ u = vs.length + 1 ∧
      Grouped (vs ++ [z]) (l.take (i + 1)) ∧ l[i]? = some x ∧ z.low = x.low ∧ z.high = x.high) :
    UniqueInv l (i + 1) (s.1.modify k f, u) where
  len := by
    rw [List.length_modify]
    exact h.len
  le := hui
  rest := by
    intro j hj
    rw [List.getElem?_modify_ne _ _ (by omega)]
    exact h.rest j (by omega)
  fresh := by
    intro j x hj hjx
    dsimp only at hj
    rw [List.getElem?_modify_ne _ _ (by omega)] at hjx
    exact h.fresh j x (by omega) hjx
  front := hfront

theorem uniqueStep_inv {l : List Range1d} (hs : l.Pairwise rangeLe)
    (hw : ∀ x ∈ l, x.weight = 1) {i : Nat} (hpos : 0 < i) (hi : i < l.length)
    {s : List Range1d × Nat} (h : UniqueInv l i s) : UniqueInv l (i + 1) (uniqueStep s i) := by
  obtain ⟨vs, z, y, htake, hu, hgrp, hy, hlow, hhigh⟩ := h.front
  have hui := h.le
  have hli : l[i]? = some l[i] := List.getElem?_eq_getElem hi
  have hx : s.1[i]? = some l[i] := by rw [h.rest i (Nat.le_refl i), hli]
  have hz : s.1[s.2 - 1]? = some z := by
    have : (s.1.take s.2)[s.2 - 1]? = some z := by rw [htake, hu]; simp
    rwa [List.getElem?_take, if_pos (by omega)] at this
  have htl : l.take (i + 1) = l.take i ++ [l[i]] := by rw [List.take_append_getElem hi]
  have hle : rangeLe z l[i] := by
    obtain ⟨hlt, rfl⟩ := List.getElem?_eq_some_iff.mp hy
    have := List.pairwise_iff_getElem.mp hs (i - 1) i hlt hi (by omega)
    rw [rangeLe_iff] at this ⊢
    omega
  have hwx : l[i].weight = 1 := hw _ (List.getElem_mem hi)
  rw [uniqueStep, hx, hz]
  dsimp only
  by_cases hne : l[i].low ≠ z.low ∨ l[i].high ≠ z.high
  · rw [if_pos hne]
    -- the slot written to has kept its weight, so it becomes a copy of the new range
    have hlt : s.2 < s.1.length := by rw [h.len]; omega
    have ht := List.getElem?_eq_getElem hlt
    have htw := h.fresh _ _ (Nat.le_refl _) ht
    have hnew : ({ s.1[s.2] with low := l[i].low, high := l[i].high } : Range1d) = l[i] := by
      rw [Range1d.ext_iff]
      exact ⟨rfl, rfl, htw.trans hwx.symm⟩
    have hzx : rangeCompare z l[i] = .lt := by
      rw [rangeCompare_lt]
      rw [rangeLe_iff] at hle
      omega
    refine h.modify (by omega) (by omega) (by omega) ⟨vs ++ [z], l[i], l[i], ?_, ?_, ?_, hli, rfl, rfl⟩
    · rw [take_modify_succ ht, htake, hnew]
    · rw [List.length_append, List.length_singleton, hu]
    · rw [htl]
      exact hgrp.append_above hzx (by omega)
  · rw [if_neg hne]
    have heq : l[i].low = z.low ∧ l[i].high = z.high := by omega
    have htake' : (s.1.modify (s.2 - 1) (fun z => { z with weight := z.weight + 1 })).take s.2
        = vs ++ [{ z with weight := z.weight + 1 }] := by
      have hsub : s.2 - 1 + 1 = s.2 := by omega
      have hvs : s.1.take (s.2 - 1) = vs := by
        have := congrArg (List.take (s.2 - 1)) htake
        rw [List.take_take, min_eq_left (by omega)] at this
        rw [this, hu, Nat.add_sub_cancel, List.take_left']
        rfl
      rw [← hsub, Nat.add_sub_cancel, take_modify_succ hz, hvs]
    refine h.modify (by omega) (Nat.le_refl _) (by omega)
      ⟨vs, { z with weight := z.weight + 1 }, l[i], htake', hu, ?_, hli, heq.1.symm, heq.2.symm⟩
    rw [htl]
    exact hgrp.append_equal heq.1 heq.2 hwx

/-- Before the loop, the first entry is a group of its own. -/
theorem UniqueInv.init {x : Range1d} {l : List Range1d} (hw : ∀ y ∈ x :: l, y.weight = 1) :
    UniqueInv (x :: l) 1 (x :: l, 1) where
  len := rfl
  le := Nat.le_refl _
  rest := fun _ _ => rfl
  fresh := fun _ _ _ hy => hw _ (List.mem_of_getElem? hy)
  front := by
    refine ⟨[], x, x, rfl, rfl, ⟨List.pairwise_singleton _ _, ?_, fun _ _ => rfl⟩, rfl, rfl, rfl⟩
    intro y hy
    obtain rfl := List.mem_singleton.mp hy
    rw [hw y List.mem_cons_self]
    exact Nat.one_pos

/-- The loop has read the whole array. -/
theorem uniqueRanges_inv {l : List Range1d} (hne : l ≠ []) (hs : l.Pairwise rangeLe)
    (hw : ∀ x ∈ l, x.weight = 1) : UniqueInv l l.length (uniqueRanges l) := by
  have hlen : 0 < l.length := List.length_pos_iff.mpr hne
  have hloop : ∀ n, n + 1 ≤ l.length →
      UniqueInv l (n + 1) ((List.range' 1 n).foldl uniqueStep (l, 1)) := by
    intro n
    induction n with
    | zero =>
        intro _
        cases l with
        | nil => exact absurd rfl hne
        | cons x l => exact UniqueInv.init hw
    | succ n ih =>
        intro hn
        rw [List.range'_1_concat, List.foldl_append, Nat.add_comm 1 n]
        exact uniqueStep_inv hs hw (Nat.succ_pos n) hn (ih (by omega))
  have h := hloop (l.length - 1) (by omega)
  rwa [Nat.sub_add_cancel hlen] at h

theorem uniqueRanges_grouped {l : List Range1d} (hne : l ≠ []) (hs : l.Pairwise rangeLe)
    (hw : ∀ x ∈ l, x.weight = 1) :
    Grouped ((uniqueRanges l).1.take (uniqueRanges l).2) l := by
  obtain ⟨vs, z, x, htake, -, hgrp, -⟩ := (uniqueRanges_inv hne hs hw).front
  rw [htake]
  rwa [List.take_length] at hgrp

/-! ### What the groups are -/

section Groups

variable {us l : List Range1d}

/-- A range is listed iff it occurs. -/
theorem Grouped.exists_iff (h : Grouped us l) (hpos : ∀ x ∈ l, 0 < x.weight) (lo hi : Nat) :
    (∃ x ∈ us, x.low = lo ∧ x.high = hi) ↔ ∃ x ∈ l, x.low = lo ∧ x.high = hi := by
  have hw := h.weight (fun a b => a = lo ∧ b = hi)
  unfold weightWhere at hw
  rw [← weightOf_pos_iff h.pos, hw, weightOf_pos_iff hpos]

/-- In a strictly increasing list an entry has all the weight of its range. -/
theorem weightWhere_of_sorted (h : us.Pairwise (fun a b => rangeCompare a b = .lt)) {x : Range1d}
    (hx : x ∈ us) : weightWhere (fun lo hi => lo = x.low ∧ hi = x.high) us = x.weight := by
  unfold weightWhere
  induction us with
  | nil => exact absurd hx List.not_mem_nil
  | cons y us ih =>
      obtain ⟨hy, hus⟩ := List.pairwise_cons.mp h
      rw [weightOf_cons]
      rcases List.mem_cons.mp hx with rfl | hx
      · rw [if_pos ⟨rfl, rfl⟩, weightOf_eq_zero, Nat.add_zero]
        intro z hz heq
        have := hy z hz
        rw [rangeCompare_lt] at this
        omega
      · have hlt := hy x hx
        rw [rangeCompare_lt] at hlt
        rw [if_neg (by omega), ih hus hx, Nat.zero_add]

/-- The weight of an entry is the number of times its range occurs. -/
theorem Grouped.weight_eq_count (h : Grouped us l) (hw : ∀ x ∈ l, x.weight = 1) {x : Range1d}
    (hx : x ∈ us) : x.weight = l.count { x with weight := 1 } := by
  have hcount : ∀ y ∈ l, decide (y.low = x.low ∧ y.high = x.high) = true ↔
      (y == { x with weight := 1 }) = true := by
    intro y hy
    rw [decide_eq_true_eq, beq_iff_eq, Range1d.ext_iff]
    exact ⟨fun ⟨hlo, hhi⟩ => ⟨hlo, hhi, hw y hy⟩, fun ⟨hlo, hhi, _⟩ => ⟨hlo, hhi⟩⟩
  calc x.weight = weightWhere (fun lo hi => lo = x.low ∧ hi = x.high) us :=
        (weightWhere_of_sorted h.sorted hx).symm
    _ = weightWhere (fun lo hi => lo = x.low ∧ hi = x.high) l := h.weight _
    _ = l.countP (fun y => y.low = x.low ∧ y.high = x.high) := weightOf_one hw
    _ = l.count { x with weight := 1 } := List.countP_congr hcount

/-- The distinct members of a sorted list are strictly increasing. -/
theorem pairwise_dedup (hs : l.Pairwise rangeLe) (hw : ∀ x ∈ l, x.weight = 1) :
    l.dedup.Pairwise (fun a b => rangeCompare a b = .lt) := by
  have hle : l.dedup.Pairwise rangeLe := hs.sublist (List.dedup_sublist l)
  refine (hle.and (List.nodup_dedup l)).imp_of_mem ?_
  intro a b ha hb hab
  have hwa := hw a (List.mem_dedup.mp ha)
  have hwb := hw b (List.mem_dedup.mp hb)
  obtain ⟨hle, hne⟩ := hab
  rw [Ne, Range1d.ext_iff] at hne
  rw [rangeLe_iff] at hle
  rw [rangeCompare_lt]
  omega

/-- There is only one grouping of a sorted list of weights 1. -/
theorem Grouped.eq_dedup (h : Grouped us l) (hs : l.Pairwise rangeLe)
    (hw : ∀ x ∈ l, x.weight = 1) :
    us = l.dedup.map (fun x => { x with weight := l.count x }) := by
  have hpos : ∀ x ∈ l, 0 < x.weight := fun x hx => by rw [hw x hx]; exact Nat.one_pos
  have hentry : ∀ x ∈ us, ∀ y ∈ l, x.low = y.low → x.high = y.high →
      ({ y with weight := l.count y } : Range1d) = x := by
    intro x hx y hy hlow hhigh
    have hy' : y = { x with weight := 1 } := Range1d.ext hlow.symm hhigh.symm (hw y hy)
    exact Range1d.ext hlow.symm hhigh.symm ((h.weight_eq_count hw hx).trans (by rw [← hy'])).symm
  have hsorted : (l.dedup.map (fun x : Range1d => { x with weight := l.count x })).Pairwise
      (fun a b => rangeCompare a b = .lt) :=
    List.pairwise_map.mpr (pairwise_dedup hs hw)
  have hirrefl : ∀ {a b : Range1d}, rangeCompare a b = .lt → a ≠ b := by
    rintro a b hab rfl
    rw [rangeCompare_lt] at hab
    omega
  have hperm : us.Perm (l.dedup.map (fun x => { x with weight := l.count x })) := by
    refine (List.perm_ext_iff_of_nodup (h.sorted.imp hirrefl) (hsorted.imp hirrefl)).mpr ?_
    intro x
    rw [List.mem_map]
    constructor
    · intro hx
      obtain ⟨y, hy, hlow, hhigh⟩ := (h.exists_iff hpos x.low x.high).mp ⟨x, hx, rfl, rfl⟩
      exact ⟨y, List.mem_dedup.mpr hy, hentry x hx y hy hlow.symm hhigh.symm⟩
    · rintro ⟨y, hy, rfl⟩
      have hy := List.mem_dedup.mp hy
      obtain ⟨x, hx, hlow, hhigh⟩ := (h.exists_iff hpos y.low y.high).mpr ⟨y, hy, rfl, rfl⟩
      rw [hentry x hx y hy hlow hhigh]
      exact hx
  refine hperm.eq_of_pairwise (fun a b _ _ hab hba => ?_) h.sorted hsorted
  rw [rangeCompare_lt] at hab hba
  omega

end Groups

/-- **`unique_ranges`.** On a sorted array of ranges of weight 1 it returns the number of
distinct ranges and leaves exactly these at the front of the array, in strictly increasing
order and each with its multiplicity as weight. -/
theorem uniqueRanges_dedup {l : List Range1d} (hne : l ≠ []) (hs : l.Pairwise rangeLe)
    (hw : ∀ x ∈ l, x.weight = 1) :
    (uniqueRanges l).1.length = l.length ∧
      (uniqueRanges l).2 = l.dedup.length ∧
      (uniqueRanges l).1.take (uniqueRanges l).2
        = l.dedup.map (fun x => { x with weight := l.count x }) ∧
      ((uniqueRanges l).1.take (uniqueRanges l).2).Pairwise
        (fun a b => rangeCompare a b = .lt) ∧
      (((uniqueRanges l).1.take (uniqueRanges l).2).map Range1d.weight).sum = l.length := by
  have hinv := uniqueRanges_inv hne hs hw
  have hgrp := uniqueRanges_grouped hne hs hw
  have heq := hgrp.eq_dedup hs hw
  refine ⟨hinv.len, ?_, heq, hgrp.sorted, ?_⟩
  · have hlen := congrArg List.length heq
    rwa [List.length_map, List.length_take, hinv.len, Nat.min_eq_left hinv.le] at hlen
  · rw [heq, List.map_map]
    exact List.sum_map_count_dedup_eq_length l

/-- Two groups of equal ranges; the second is written over slots of the first. -/
theorem uniqueRanges_dedup_five :
    (uniqueRanges [⟨0, 5, 1⟩, ⟨0, 5, 1⟩, ⟨3, 9, 1⟩, ⟨3, 9, 1⟩, ⟨3, 9, 1⟩]).2 = 2 ∧
      (uniqueRanges [⟨0, 5, 1⟩, ⟨0, 5, 1⟩, ⟨3, 9, 1⟩, ⟨3, 9, 1⟩, ⟨3, 9, 1⟩]).1.take 2
        = [⟨0, 5, 2⟩, ⟨3, 9, 3⟩] := by
  obtain ⟨-, hnum, htake, -, -⟩ := uniqueRanges_dedup
    (l := [⟨0, 5, 1⟩, ⟨0, 5, 1⟩, ⟨3, 9, 1⟩, ⟨3, 9, 1⟩, ⟨3, 9, 1⟩])
    (by decide) (by decide) (by decide)
  rw [hnum] at htake
  exact ⟨hnum, htake⟩

/-! ### The ranges of a rule list -/

section Rules

variable {rs : List Rule} {d : Dim}

theorem loadRanges_weight {x : Range1d} (h : x ∈ loadRanges rs d) : x.weight = 1 := by
  obtain ⟨r, -, rfl⟩ := List.mem_map.mp h
  rfl

theorem weightWhere_loadRanges (p : Nat → Nat → Prop) [∀ a b, Decidable (p a b)] :
    weightWhere p (loadRanges rs d)
      = rs.countP (fun r => p (r.range d).lo (r.range d).hi) := by
  unfold weightWhere
  rw [weightOf_one (fun x hx => loadRanges_weight hx), loadRanges, List.countP_map]
  rfl

/-- The scratch ranges stand for the rules: distinct, increasing, and weighted by the
number of rules that have the range. -/
theorem sweepRanges_grouped (hne : rs ≠ []) :
    Grouped (sweepRanges rs d) (loadRanges rs d) := by
  have hperm : (sortRanges (loadRanges rs d)).Perm (loadRanges rs d) :=
    List.perm_insertionSort _ _
  have hg : Grouped (sweepRanges rs d) (sortRanges (loadRanges rs d)) := by
    apply uniqueRanges_grouped
    · intro h
      have := hperm.length_eq
      rw [h] at this
      simp only [loadRanges, List.length_nil, List.length_map] at this
      exact hne (List.length_eq_zero_iff.mp this.symm)
    · exact List.pairwise_insertionSort _ _
    · exact fun x hx => loadRanges_weight (hperm.mem_iff.mp hx)
  exact ⟨hg.sorted, hg.pos, fun p _ => (hg.weight p).trans (weightOf_perm hperm)⟩

theorem sweepRanges_weight (hne : rs ≠ []) (p : Nat → Nat → Prop) [∀ a b, Decidable (p a b)] :
    weightWhere p (sweepRanges rs d) = rs.countP (fun r => p (r.range d).lo (r.range d).hi) :=
  ((sweepRanges_grouped hne).weight p).trans (weightWhere_loadRanges p)

/-- A range is swept over iff a rule has it. -/
theorem exists_sweepRange_iff (hne : rs ≠ []) (lo hi : Nat) :
    (∃ x ∈ sweepRanges rs d, x.low = lo ∧ x.high = hi) ↔ ∃ r ∈ rs, r.range d = ⟨lo, hi⟩ := by
  have hpos : ∀ x ∈ loadRanges rs d, 0 < x.weight :=
    fun x hx => by rw [loadRanges_weight hx]; exact Nat.one_pos
  rw [(sweepRanges_grouped hne).exists_iff hpos]
  constructor
  · rintro ⟨x, hx, rfl, rfl⟩
    obtain ⟨r, hr, rfl⟩ := List.mem_map.mp hx
    exact ⟨r, hr, rfl⟩
  · rintro ⟨r, hr, hrange⟩
    exact ⟨_, List.mem_map_of_mem hr, by rw [hrange], by rw [hrange]⟩

theorem mem_sweepRanges (hne : rs ≠ []) {x : Range1d} (h : x ∈ sweepRanges rs d) :
    ∃ r ∈ rs, r.range d = ⟨x.low, x.high⟩ :=
  (exists_sweepRange_iff hne x.low x.high).mp ⟨x, h, rfl, rfl⟩

theorem exists_sweepRange {r : Rule} (h : r ∈ rs) :
    ∃ x ∈ sweepRanges rs d, x.low = (r.range d).lo ∧ x.high = (r.range d).hi :=
  (exists_sweepRange_iff (List.ne_nil_of_mem h) _ _).mpr ⟨r, h, rfl⟩

/-- The ranges swept over are ranges of rules, so they are not empty. -/
theorem sweepRange_le (hne : rs ≠ []) (hfit : ∀ r ∈ rs, r.Fits) {x : Range1d}
    (h : x ∈ sweepRanges rs d) : x.low ≤ x.high := by
  obtain ⟨r, hr, hrx⟩ := mem_sweepRanges hne h
  have := (hfit r hr d).1
  rwa [hrx] at this

/-- The weights add up to the number of rules. -/
theorem sum_sweepRanges (hne : rs ≠ []) :
    ((sweepRanges rs d).map Range1d.weight).sum = rs.length := by
  have h := sweepRanges_weight (d := d) hne (fun _ _ => True)
  unfold weightWhere at h
  rw [weightOf_true] at h
  rw [h]
  simp

theorem sweepRanges_ne_nil (hne : rs ≠ []) : sweepRanges rs d ≠ [] := by
  obtain ⟨r, hr⟩ := List.exists_mem_of_ne_nil rs hne
  obtain ⟨x, hx, -⟩ := exists_sweepRange (d := d) hr
  exact List.ne_nil_of_mem hx

/-- All rules have the same range in dimension `d`. -/
def SameRange (rs : List Rule) (d : Dim) : Prop := ∀ r ∈ rs, ∀ s ∈ rs, r.range d = s.range d

instance (rs : List Rule) (d : Dim) : Decidable (SameRange rs d) :=
  inferInstanceAs (Decidable (∀ r ∈ rs, ∀ s ∈ rs, r.range d = s.range d))

/-- One entry is left exactly when no two rules differ in the dimension. -/
theorem sweepRanges_length_eq_one (hne : rs ≠ []) :
    (sweepRanges rs d).length = 1 ↔ SameRange rs d := by
  constructor
  · intro h r hr s hs
    obtain ⟨u, hu⟩ := List.length_eq_one_iff.mp h
    obtain ⟨x, hx, hx1, hx2⟩ := exists_sweepRange (d := d) hr
    obtain ⟨y, hy, hy1, hy2⟩ := exists_sweepRange (d := d) hs
    rw [hu, List.mem_singleton] at hx hy
    subst hx hy
    cases hrr : r.range d with
    | mk a b =>
      cases hsr : s.range d with
      | mk a' b' =>
          rw [hrr] at hx1 hx2
          rw [hsr] at hy1 hy2
          simp only at hx1 hx2 hy1 hy2
          rw [← hx1, ← hx2, hy1, hy2]
  · intro h
    have hsorted := (sweepRanges_grouped (d := d) hne).sorted
    cases hu : sweepRanges rs d with
    | nil => exact absurd hu (sweepRanges_ne_nil hne)
    | cons x l =>
        cases l with
        | nil => rfl
        | cons y l =>
            obtain ⟨r, hr, hrx⟩ := mem_sweepRanges (d := d) hne (x := x) (by rw [hu]; simp)
            obtain ⟨s, hs, hsy⟩ := mem_sweepRanges (d := d) hne (x := y) (by rw [hu]; simp)
            have hxy := h r hr s hs
            rw [hrx, hsy, Range.mk.injEq] at hxy
            rw [hu] at hsorted
            have := List.rel_of_pairwise_cons hsorted List.mem_cons_self
            rw [rangeCompare_lt] at this
            omega

/-! ### The hull -/

/-- The least low end of the rules in dimension `d`. -/
def hullLo (rs : List Rule) (d : Dim) : Nat := ((rs.map (fun r => (r.range d).lo)).min?).getD 0

/-- The greatest high end. -/
def hullHi (rs : List Rule) (d : Dim) : Nat := ((rs.map (fun r => (r.range d).hi)).max?).getD 0

theorem hullLo_le {r : Rule} (h : r ∈ rs) : hullLo rs d ≤ (r.range d).lo := by
  unfold hullLo
  cases hm : (rs.map (fun r => (r.range d).lo)).min? with
  | none => exact Nat.zero_le _
  | some a =>
      rw [List.min?_eq_some_iff] at hm
      exact hm.2 _ (List.mem_map_of_mem h)

theorem le_hullHi {r : Rule} (h : r ∈ rs) : (r.range d).hi ≤ hullHi rs d := by
  unfold hullHi
  cases hm : (rs.map (fun r => (r.range d).hi)).max? with
  | none =>
      rw [List.max?_eq_none_iff, List.map_eq_nil_iff] at hm
      rw [hm] at h
      exact absurd h List.not_mem_nil
  | some a =>
      rw [List.max?_eq_some_iff] at hm
      exact hm.2 _ (List.mem_map_of_mem h)

theorem exists_hullLo (hne : rs ≠ []) : ∃ r ∈ rs, (r.range d).lo = hullLo rs d := by
  unfold hullLo
  cases hm : (rs.map (fun r => (r.range d).lo)).min? with
  | none =>
      rw [List.min?_eq_none_iff, List.map_eq_nil_iff] at hm
      exact absurd hm hne
  | some a =>
      rw [List.min?_eq_some_iff] at hm
      exact List.mem_map.mp hm.1

theorem exists_hullHi (hne : rs ≠ []) : ∃ r ∈ rs, (r.range d).hi = hullHi rs d := by
  unfold hullHi
  cases hm : (rs.map (fun r => (r.range d).hi)).max? with
  | none =>
      rw [List.max?_eq_none_iff, List.map_eq_nil_iff] at hm
      exact absurd hm hne
  | some a =>
      rw [List.max?_eq_some_iff] at hm
      exact List.mem_map.mp hm.1

theorem hullLo_le_sweepRange (hne : rs ≠ []) {x : Range1d} (h : x ∈ sweepRanges rs d) :
    hullLo rs d ≤ x.low := by
  obtain ⟨r, hr, hrx⟩ := mem_sweepRanges hne h
  have := hullLo_le (d := d) hr
  rwa [hrx] at this

theorem sweepRange_le_hullHi (hne : rs ≠ []) {x : Range1d} (h : x ∈ sweepRanges rs d) :
    x.high ≤ hullHi rs d := by
  obtain ⟨r, hr, hrx⟩ := mem_sweepRanges hne h
  have := le_hullHi (d := d) hr
  rwa [hrx] at this

/-- The first entry of the sweep starts where the hull does. -/
theorem sweepRanges_head {x : Range1d} {l : List Range1d} (hne : rs ≠ [])
    (h : sweepRanges rs d = x :: l) : x.low = hullLo rs d := by
  obtain ⟨s, hs, hlo⟩ := exists_hullLo (d := d) hne
  obtain ⟨y, hy, hylow, -⟩ := exists_sweepRange (d := d) hs
  have hle : hullLo rs d ≤ x.low := hullLo_le_sweepRange hne (by rw [h]; simp)
  have hge : x.low ≤ y.low := by
    have hsorted := (sweepRanges_grouped (d := d) hne).sorted
    rw [h] at hy hsorted
    rcases List.mem_cons.mp hy with rfl | hy
    · exact Nat.le_refl _
    · have := List.rel_of_pairwise_cons hsorted hy
      rw [rangeCompare_lt] at this
      omega
  omega

end Rules

end ChooseCut
