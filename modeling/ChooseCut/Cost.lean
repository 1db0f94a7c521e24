import Mathlib.Algebra.Order.Field.Rat
import Mathlib.Data.Rat.Cast.Order
import Mathlib.Algebra.BigOperators.Group.List.Basic
import Mathlib.Algebra.Order.BigOperators.Group.List
import Mathlib.Tactic.NormNum
import Mathlib.Tactic.Ring
import Mathlib.Tactic.Linarith
import Mathlib.Tactic.FieldSimp
import ChooseCut.Rule

/-!
# ChooseCut.Cost

The arithmetic of match expectations, and the histograms they are computed from.

The code computes costs in `double`. `CostArith K` lists the operations it uses,
so that the model is the same text for every arithmetic. The laws asked of an instance
are few, and those of `double` on the counts a machine can hold: a count is close to
itself and not below itself, the comparison is transitive, and two averages compare
below a count that is above them by a quarter or more in exact arithmetic. Claims about
exact costs use the rational instance.
-/

namespace ChooseCut

/-- The operations costs are computed with. -/
class CostArith (K : Type) where
  /-- An integer converted to `double`. -/
  ofNat : Nat → K
  /-- `(double)(x * x)` for an `unsigned int`. -/
  sqU : Nat → K
  /-- `(double)(x * x)` for an `int`. -/
  sqI : Nat → K
  add : K → K → K
  sub : K → K → K
  div : K → K → K
  lt : K → K → Bool
  le : K → K → Bool
  /-- The constant `0.0001` of `double_equals`. -/
  tol : K
  /-- The difference of a count with itself is below the tolerance. -/
  close_self : ∀ n, lt (sub (ofNat n) (ofNat n)) tol = true
  /-- Both sides of a split hold a rule and not both hold all `n`: the weighted mean
  of their sizes is below `n`. -/
  mean_lt : ∀ n l r, 0 < l → 0 < r → l ≤ n → r ≤ n → (l < n ∨ r < n) →
    lt (add (div (sqU r) (ofNat (r + l))) (div (sqU l) (ofNat (r + l)))) (ofNat n) = true
  /-- The average of at most four children with fewer than `n` rules each on average. -/
  quot_lt : ∀ n m c, 0 < c → c ≤ 4 → m < c * n → lt (div (ofNat m) (ofNat c)) (ofNat n) = true
  /-- No count is below itself. -/
  lt_irrefl : ∀ n, lt (ofNat n) (ofNat n) = false
  lt_trans : ∀ a b c, lt a b = true → lt b c = true → lt a c = true

theorem mean_sq_lt {n l r : Nat} (hl : 0 < l) (hr : 0 < r) (hln : l ≤ n) (hrn : r ≤ n)
    (h : l < n ∨ r < n) :
    (r : ℚ) * r / ((r + l : Nat) : ℚ) + (l : ℚ) * l / ((r + l : Nat) : ℚ) < n := by
  have hsum : (0 : ℚ) < ((r + l : Nat) : ℚ) := by exact_mod_cast Nat.add_pos_left hr l
  rw [← add_div, div_lt_iff₀ hsum]
  have hnat : r * r + l * l < n * (r + l) := by
    rcases h with h | h
    · nlinarith [Nat.mul_le_mul_right r hrn, Nat.mul_lt_mul_of_pos_right h hl]
    · nlinarith [Nat.mul_le_mul_right l hln, Nat.mul_lt_mul_of_pos_right h hr]
  exact_mod_cast hnat

/-- Costs as exact rationals. -/
instance exactCost : CostArith ℚ where
  ofNat n := n
  sqU n := n * n
  sqI n := n * n
  add a b := a + b
  sub a b := a - b
  div a b := a / b
  lt a b := decide (a < b)
  le a b := decide (a ≤ b)
  tol := 1 / 10000
  close_self n := by simp
  mean_lt n l r hl hr hln hrn h := by
    simpa using mean_sq_lt hl hr hln hrn h
  quot_lt n m c hc _ hm := by
    have hc' : (0 : ℚ) < c := by exact_mod_cast hc
    rw [decide_eq_true_eq, div_lt_iff₀ hc', mul_comm]
    exact_mod_cast hm
  lt_irrefl n := by simp
  lt_trans a b c hab hbc := by
    rw [decide_eq_true_eq] at hab hbc ⊢
    exact lt_trans hab hbc

variable {K : Type} [CostArith K]

/-- `double_equals`. -/
def doubleEquals (a b : K) : Bool :=
  if CostArith.le a b then CostArith.lt (CostArith.sub b a) CostArith.tol
  else CostArith.lt (CostArith.sub a b) CostArith.tol

theorem doubleEquals_self (n : Nat) :
    doubleEquals (CostArith.ofNat n : K) (CostArith.ofNat n) = true := by
  unfold doubleEquals
  split <;> exact CostArith.close_self n

/-! ### Histograms -/

/-- `struct rule_hist`; slots that were never written hold zero. -/
structure RuleHist where
  childRulecount : Nat → Nat
  childs : Nat
  rules : Nat

/-- `memset(hist, 0, sizeof *hist)`. -/
def RuleHist.zero : RuleHist := ⟨fun _ => 0, 0, 0⟩

/-- `get_match_expect`. -/
def getMatchExpect (hist : RuleHist) : K :=
  (List.range childCount).foldl
    (fun ret i =>
      if hist.childRulecount i ≠ 0 then
        CostArith.add ret
          (CostArith.div (CostArith.sqI (hist.childRulecount i)) (CostArith.ofNat hist.rules))
      else ret)
    (CostArith.ofNat 0)

/-- `even_fits_bs` and `hi_fits_bs`: no child holds more than a bucket. -/
def RuleHist.fitsBs (hist : RuleHist) : Bool :=
  (List.range childCount).all
    (fun i => !(hist.childRulecount i ≠ 0 && bucketSize < hist.childRulecount i))

theorem RuleHist.fitsBs_iff {hist : RuleHist} :
    hist.fitsBs = true ↔ ∀ i < childCount, hist.childRulecount i ≤ bucketSize := by
  simp only [RuleHist.fitsBs, List.all_eq_true, List.mem_range, Bool.not_eq_true',
    Bool.and_eq_false_iff, decide_eq_false_iff_not, not_lt]
  constructor
  · intro h i hi
    rcases h i hi with h0 | h0
    · have : hist.childRulecount i = 0 := by simpa using h0
      omega
    · exact h0
  · intro h i hi
    exact Or.inr (h i hi)

/-! ### Exact costs -/

/-- Exactly, the match expectation is `Σ c² / rules`. -/
theorem getMatchExpect_exact (hist : RuleHist) :
    (getMatchExpect hist : ℚ) =
      ((List.range childCount).map (fun i => ((hist.childRulecount i : ℚ) ^ 2))).sum
        / hist.rules := by
  have hgen : ∀ (l : List Nat) (a : ℚ),
      l.foldl (fun ret i =>
        if hist.childRulecount i ≠ 0 then
          CostArith.add ret
            (CostArith.div (CostArith.sqI (hist.childRulecount i)) (CostArith.ofNat hist.rules))
        else ret) a
        = a + (l.map (fun i => ((hist.childRulecount i : ℚ) ^ 2))).sum / hist.rules := by
    intro l
    induction l with
    | nil => intro a; simp
    | cons i l ih =>
        intro a
        rw [List.foldl_cons, ih, List.map_cons, List.sum_cons, add_div]
        split
        · simp only [CostArith.add, CostArith.div, CostArith.sqI, CostArith.ofNat]
          ring
        · next h =>
          have h0 : hist.childRulecount i = 0 := by simpa using h
          simp [h0]
  unfold getMatchExpect
  rw [hgen]
  simp [CostArith.ofNat]

end ChooseCut
