import Mathlib.Algebra.Order.Chebyshev
import ChooseCut.FilterFile
import ChooseCut.OneCut
import ChooseCut.PrefixCover
import ChooseCut.Terminate

/-!
# ChooseCut.CostRange

The integers behind a cost.

`get_match_expect` squares a count of rules in `int` before it converts the product to
`double`. The counters themselves stay far below the range of `int` for as many rules as
a filter file may have, but the square of a count above 46340 does not fit. A child can
hold that many rules, so the product may wrap, and a cost may be negative.

`int32Cost` is the exact arithmetic with the one operation that can wrap.
-/

namespace ChooseCut

/-! ### The product -/

/-- `x * x` for a count in `int`. -/
def squareInt (x : Nat) : Int := ((x * x : Nat) : Int).bmod (2 ^ 32)

/-- Exact costs, but for the products of counts. -/
@[reducible] def int32Cost : CostArith ℚ := { exactCost with sqI := fun x => squareInt x }

/-- The greatest count with a square in the range of `int`. -/
def maxSquared : Nat := 46340

theorem square_lt_iff (x : Nat) : x * x < 2 ^ 31 ↔ x ≤ maxSquared := by
  unfold maxSquared
  constructor
  · intro h
    by_contra hlt
    have hge : 46341 ≤ x := by omega
    have := Nat.mul_le_mul hge hge
    omega
  · intro h
    have := Nat.mul_le_mul h h
    omega

/-- A product fits an `int` or comes out wrong. -/
theorem bmod_eq_self_iff (y : Nat) : (y : Int).bmod (2 ^ 32) = y ↔ y < 2 ^ 31 := by
  constructor
  · intro h
    have hlt := @Int.bmod_lt y (2 ^ 32) (Nat.two_pow_pos 32)
    rw [h] at hlt
    omega
  · intro h
    exact Int.bmod_eq_of_le (by omega) (by omega)

/-- A square is exact up to `maxSquared`. -/
theorem squareInt_eq_iff (x : Nat) : squareInt x = (x * x : Nat) ↔ x ≤ maxSquared :=
  (bmod_eq_self_iff (x * x)).trans (square_lt_iff x)

/-- Every product of `get_match_expect` on the histogram is exact. -/
def RuleHist.ProductsExact (hist : RuleHist) : Prop :=
  ∀ i < childCount, squareInt (hist.childRulecount i)
    = (hist.childRulecount i * hist.childRulecount i : Nat)

theorem productsExact_iff {hist : RuleHist} :
    hist.ProductsExact ↔ ∀ i < childCount, hist.childRulecount i ≤ maxSquared :=
  forall₂_congr (fun i _ => squareInt_eq_iff (hist.childRulecount i))

/-- With exact products the cost is the exact one. -/
theorem getMatchExpect_int32 {hist : RuleHist} (h : hist.ProductsExact) :
    @getMatchExpect ℚ int32Cost hist = getMatchExpect hist := by
  unfold getMatchExpect
  apply List.foldl_ext
  intro ret i hi
  have hsq : (@CostArith.sqI ℚ int32Cost (hist.childRulecount i))
      = CostArith.sqI (hist.childRulecount i) := by
    show ((squareInt (hist.childRulecount i) : Int) : ℚ) = _
    rw [h i (List.mem_range.mp hi)]
    show (((hist.childRulecount i * hist.childRulecount i : Nat) : Int) : ℚ)
      = (hist.childRulecount i : ℚ) * hist.childRulecount i
    push_cast
    rfl
  rw [hsq]
  rfl

/-! ### Averages -/

/-- The number of children with a rule. -/
def RuleHist.nonEmpty (hist : RuleHist) : Nat :=
  ((Finset.range childCount).filter (fun i => hist.childRulecount i ≠ 0)).card

/-- The sum of the counts. -/
def RuleHist.total (hist : RuleHist) : Nat := ∑ i ∈ Finset.range childCount, hist.childRulecount i

/-- The sum of the squares of the counts. -/
def RuleHist.squares (hist : RuleHist) : Nat :=
  ∑ i ∈ Finset.range childCount, hist.childRulecount i ^ 2

/-- Squares weigh at least as much as an even distribution over the non-empty children. -/
theorem total_sq_le (hist : RuleHist) : hist.total ^ 2 ≤ hist.nonEmpty * hist.squares := by
  have hcauchy := @sq_sum_le_card_mul_sum_sq Nat ℕ _ _ _ _
    ((Finset.range childCount).filter (fun i => hist.childRulecount i ≠ 0)) hist.childRulecount
  rw [Finset.sum_filter_ne_zero] at hcauchy
  refine hcauchy.trans (Nat.mul_le_mul_left _ ?_)
  exact Finset.sum_le_sum_of_subset (Finset.filter_subset _ _)

theorem sum_map_range {M : Type} [AddCommMonoid M] (f : Nat → M) (n : Nat) :
    ((List.range n).map f).sum = ∑ i ∈ Finset.range n, f i := rfl

/-- Exactly, the cost is the sum of the squares over the sum. -/
theorem getMatchExpect_eq_div {hist : RuleHist} (h : hist.rules = hist.total) :
    (getMatchExpect hist : ℚ) = hist.squares / hist.total := by
  rw [getMatchExpect_exact, sum_map_range, h, RuleHist.squares]
  push_cast
  rfl

/-- The exact cost is at least the average size of the non-empty children. -/
theorem average_le (hist : RuleHist) :
    (hist.total : ℚ) / hist.nonEmpty ≤ hist.squares / hist.total := by
  rcases Nat.eq_zero_or_pos hist.total with hzero | hpos
  · rw [hzero, Nat.cast_zero, zero_div, div_zero]
  · have hsq : (hist.total : ℚ) * hist.total ≤ hist.squares * hist.nonEmpty := by
      have := total_sq_le hist
      rw [pow_two, Nat.mul_comm hist.nonEmpty] at this
      exact_mod_cast this
    have hchilds : 0 < hist.nonEmpty := by
      by_contra hnone
      have hle := total_sq_le hist
      rw [Nat.eq_zero_of_not_pos hnone, Nat.zero_mul] at hle
      exact absurd hle (Nat.not_le.mpr (Nat.pow_pos hpos))
    rw [div_le_div_iff₀ (by exact_mod_cast hchilds) (by exact_mod_cast hpos)]
    exact hsq

/-- What holds of the integers behind the cost of a histogram, and of the cost as far as
they are exact. -/
structure CostInRange (hist : RuleHist) : Prop where
  /-- The counter `rules` is the sum of the counts, and does not overflow. -/
  rules_eq : hist.rules = hist.total
  rules_lt : hist.rules < 2 ^ 31
  products_iff : hist.ProductsExact ↔ ∀ i < childCount, hist.childRulecount i ≤ maxSquared
  value : hist.ProductsExact →
    @getMatchExpect ℚ int32Cost hist = hist.squares / hist.total
  average : hist.ProductsExact →
    (hist.total : ℚ) / hist.nonEmpty ≤ @getMatchExpect ℚ int32Cost hist
  nonneg : hist.ProductsExact → 0 ≤ @getMatchExpect ℚ int32Cost hist

theorem costInRange {hist : RuleHist} (heq : hist.rules = hist.total) (hlt : hist.rules < 2 ^ 31) :
    CostInRange hist := by
  have hvalue : hist.ProductsExact →
      @getMatchExpect ℚ int32Cost hist = hist.squares / hist.total := fun h => by
    rw [getMatchExpect_int32 h, getMatchExpect_eq_div heq]
  refine ⟨heq, hlt, productsExact_iff, hvalue, fun h => ?_, fun h => ?_⟩
  · rw [hvalue h]
    exact average_le hist
  · rw [hvalue h]
    exact div_nonneg (Nat.cast_nonneg _) (Nat.cast_nonneg _)

/-! ### Bitmap cuts -/

section Bitmap

variable {rs : List Rule} {d : Dim}

/-- Every rule has at most 62 prefixes. -/
theorem length_prefixIdxs_le (hfit : ∀ r ∈ rs, r.Fits) :
    (prefixIdxs rs d).length ≤ 62 * rs.length := by
  have hbits : 2 ≤ dimBits d := (by decide : ∀ d, 2 ≤ dimBits d) d
  have hle := dimBits_le d
  unfold prefixIdxs
  induction rs with
  | nil => simp
  | cons r rs ih =>
      have hr := hfit r List.mem_cons_self d
      have hone := prefixes_length_le hbits hle hr.1 hr.2
      have hrest := ih (fun r hr => hfit r (List.mem_cons_of_mem _ hr))
      rw [List.flatMap_cons, List.length_append, List.length_map, List.length_cons]
      omega

theorem getRuleHist_le (hfit : ∀ r ∈ rs, r.Fits) (i : Nat) :
    (getRuleHist rs d).childRulecount i ≤ 62 * rs.length := by
  rw [getRuleHist_count hfit]
  split
  · exact List.countP_le_length.trans (length_prefixIdxs_le hfit)
  · exact Nat.zero_le _

/-- The counters of a bitmap histogram. -/
theorem getRuleHist_inRange (hfit : ∀ r ∈ rs, r.Fits) (hlen : rs.length ≤ maxFilters) (d : Dim) :
    CostInRange (getRuleHist rs d) := by
  have heq : (getRuleHist rs d).rules = (getRuleHist rs d).total := (getRuleHist_totals hfit d).2
  have hle : (getRuleHist rs d).total ≤ childCount * (62 * rs.length) := by
    have := Finset.sum_le_card_nsmul (Finset.range childCount)
      (getRuleHist rs d).childRulecount _ (fun i _ => getRuleHist_le hfit i)
    rwa [Finset.card_range, smul_eq_mul] at this
  refine costInRange heq ?_
  rw [heq]
  refine hle.trans_lt ?_
  have : childCount * (62 * rs.length) ≤ childCount * (62 * maxFilters) :=
    Nat.mul_le_mul_left _ (Nat.mul_le_mul_left _ hlen)
  exact this.trans_lt (by decide)

theorem getRuleHist_eq_length (hfit : ∀ r ∈ rs, r.Fits) {i : Nat} (hi : i ∈ prefixIdxs rs d) :
    (getRuleHist rs d).childRulecount i = (childRules rs d i).length := by
  rw [getRuleHist_count hfit, if_pos hi, length_childRules]

/-- The children of a bitmap cut are as large as the counts. -/
theorem evenKids_le_iff (hfit : ∀ r ∈ rs, r.Fits) (m : Nat) :
    (∀ k ∈ evenKids rs d, k.num ≤ m) ↔
      ∀ i < childCount, (getRuleHist rs d).childRulecount i ≤ m := by
  constructor
  · intro h i _
    by_cases hi : i ∈ prefixIdxs rs d
    · rw [getRuleHist_eq_length hfit hi]
      exact h _ (List.mem_of_getElem? (evenKids_getElem? hfit hi))
    · rw [getRuleHist_count hfit, if_neg hi]
      exact Nat.zero_le _
  · intro h k hk
    obtain ⟨i, hi, rfl⟩ := mem_evenKids hfit hk
    exact (getRuleHist_eq_length hfit hi).symm.le.trans (h i (prefixIdxs_lt hfit hi))

end Bitmap

/-! ### Hi cuts -/

section Hi

variable {rs : List Rule} {d : Dim} {e : HiEntry}

theorem HiFor.childs_le (h : HiFor rs d e) : e.hist.childs ≤ 64 :=
  (Partitions.of_last h.part h.pos rfl).length_le.trans h.bound

theorem HiFor.count_le (h : HiFor rs d e) (i : Nat) : e.hist.childRulecount i ≤ rs.length := by
  by_cases hi : i < e.hist.childs
  · rw [h.count i hi]
    exact length_clipTo_le
  · rw [h.beyond i (Nat.not_lt.mp hi)]
    exact Nat.zero_le _

/-- The counters of a hi histogram. -/
theorem HiFor.inRange (h : HiFor rs d e) (hlen : rs.length ≤ maxFilters) : CostInRange e.hist := by
  have h64 := h.childs_le
  have hsub : Finset.range e.hist.childs ⊆ Finset.range childCount :=
    Finset.range_subset_range.mpr (h64.trans (by decide))
  have heq : e.hist.rules = e.hist.total := by
    rw [h.rules, sum_map_range]
    refine Finset.sum_subset hsub (fun i _ hi => h.beyond i ?_)
    exact Nat.not_lt.mp (fun hlt => hi (Finset.mem_range.mpr hlt))
  refine costInRange heq ?_
  rw [h.rules, sum_map_range]
  have hle := Finset.sum_le_card_nsmul (Finset.range e.hist.childs) e.hist.childRulecount _
    (fun i _ => h.count_le i)
  rw [Finset.card_range, smul_eq_mul] at hle
  have : e.hist.childs * rs.length ≤ 64 * maxFilters := Nat.mul_le_mul h64 hlen
  exact (hle.trans this).trans_lt (by decide)

/-- The children of a hi cut are as large as the counts. -/
theorem HiFor.kids_le_iff (h : HiFor rs d e) (m : Nat) :
    (∀ k ∈ (hiKids rs d e).map Buffer.ofList, k.num ≤ m) ↔
      ∀ i < childCount, e.hist.childRulecount i ≤ m := by
  constructor
  · intro hkids i _
    by_cases hi : i < e.hist.childs
    · rw [h.count i hi]
      exact hkids _ (List.mem_map_of_mem (List.mem_of_getElem? (hiKids_getElem?.mpr ⟨hi, rfl⟩)))
    · rw [h.beyond i (Nat.not_lt.mp hi)]
      exact Nat.zero_le _
  · intro hcount k hk
    obtain ⟨l, hl, rfl⟩ := List.mem_map.mp hk
    obtain ⟨i, hi, rfl⟩ := mem_hiKids hl
    have hlt : i < childCount := hi.trans_le (h.childs_le.trans (by decide))
    exact (h.count i hi).symm.le.trans (hcount i hlt)

end Hi

/-- Rules that ask nothing, one more than can be squared. -/
def wildRules : List Rule := List.replicate 46341 (.onFirst 0 0 (2 ^ 32 - 1))

end ChooseCut
