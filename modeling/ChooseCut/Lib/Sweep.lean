import Mathlib.Algebra.BigOperators.Group.List.Basic
import Mathlib.Algebra.Order.Ring.Nat
import Mathlib.Data.List.Sort

/-!
# ChooseCut.Lib.Sweep

Sweeps over weighted intervals.

A sweep moves a time `τ` upwards, takes intervals in as they start and drops them
as they end. `weightOf` is the weight of the intervals of a list with a property,
which is all a sweep measures. `Open key seen τ q` says that the queue `q`, kept
in order of `key`, holds exactly the intervals seen so far that have not ended
before `τ`; taking one in, moving the time on and dropping the earliest end keep
it, whatever is measured on the way.
-/

namespace ChooseCut

variable {α : Type}

/-! ### Weights -/

/-- The total weight of the elements of `l` with property `p`. -/
def weightOf (w : α → Nat) (p : α → Prop) [DecidablePred p] (l : List α) : Nat :=
  ((l.filter (fun x => p x)).map w).sum

section Weight

variable {w : α → Nat} {p q : α → Prop} [DecidablePred p] [DecidablePred q]

@[simp] theorem weightOf_nil : weightOf w p [] = 0 := rfl

theorem weightOf_cons (x : α) (l : List α) :
    weightOf w p (x :: l) = (if p x then w x else 0) + weightOf w p l := by
  unfold weightOf
  rw [List.filter_cons]
  by_cases h : p x <;> simp [h]

theorem weightOf_append (l m : List α) :
    weightOf w p (l ++ m) = weightOf w p l + weightOf w p m := by
  simp [weightOf]

theorem weightOf_perm {l m : List α} (h : l.Perm m) : weightOf w p l = weightOf w p m :=
  ((h.filter _).map w).sum_eq

theorem weightOf_congr {l : List α} (h : ∀ x ∈ l, (p x ↔ q x)) :
    weightOf w p l = weightOf w q l := by
  have hf : l.filter (fun x => p x) = l.filter (fun x => q x) :=
    List.filter_congr (fun x hx => decide_eq_decide.mpr (h x hx))
  rw [weightOf, weightOf, hf]

/-- Weight splits along a second property. -/
theorem weightOf_split (q : α → Prop) [DecidablePred q] (l : List α) :
    weightOf w p l = weightOf w (fun x => p x ∧ q x) l + weightOf w (fun x => p x ∧ ¬ q x) l := by
  induction l with
  | nil => rfl
  | cons x l ih =>
      rw [weightOf_cons, weightOf_cons, weightOf_cons, ih]
      by_cases hp : p x <;> by_cases hq : q x <;> simp [hp, hq] <;> omega

theorem weightOf_true (l : List α) : weightOf w (fun _ => True) l = (l.map w).sum := by
  simp [weightOf]

theorem weightOf_eq_zero {l : List α} (h : ∀ x ∈ l, ¬ p x) : weightOf w p l = 0 := by
  unfold weightOf
  rw [List.filter_eq_nil_iff.mpr (fun x hx => by simpa using h x hx)]
  rfl

theorem weightOf_pos {l : List α} (hw : ∀ x ∈ l, 0 < w x) {x : α} (hx : x ∈ l) (hp : p x) :
    0 < weightOf w p l := by
  induction l with
  | nil => cases hx
  | cons y l ih =>
      rw [weightOf_cons]
      rcases List.mem_cons.mp hx with rfl | hx
      · rw [if_pos hp]
        have := hw x List.mem_cons_self
        omega
      · have := ih (fun z hz => hw z (List.mem_cons_of_mem y hz)) hx
        omega

theorem weightOf_pos_iff {l : List α} (hw : ∀ x ∈ l, 0 < w x) :
    0 < weightOf w p l ↔ ∃ x ∈ l, p x := by
  refine ⟨fun h => ?_, fun ⟨x, hx, hp⟩ => weightOf_pos hw hx hp⟩
  by_contra hno
  push Not at hno
  exact absurd (weightOf_eq_zero hno) (Nat.ne_of_gt h)

/-- With all weights 1, weighing is counting. -/
theorem weightOf_one {l : List α} (hw : ∀ x ∈ l, w x = 1) :
    weightOf w p l = l.countP (fun x => p x) := by
  induction l with
  | nil => rfl
  | cons x l ih =>
      rw [weightOf_cons, ih (fun y hy => hw y (List.mem_cons_of_mem x hy)), List.countP_cons,
        hw x List.mem_cons_self, Nat.add_comm]
      by_cases h : p x <;> simp [h]

end Weight

/-! ### Queues ordered by a key -/

/-- Insert into a queue ordered by `key`. -/
def enqueue (key : α → Nat) (x : α) (q : List α) : List α :=
  q.orderedInsert (fun a b => key a ≤ key b) x

/-- The queue is in order of `key`. -/
def Ordered (key : α → Nat) (q : List α) : Prop := q.Pairwise (fun a b => key a ≤ key b)

theorem enqueue_perm (key : α → Nat) (x : α) (q : List α) : (enqueue key x q).Perm (x :: q) :=
  List.perm_orderedInsert _ x q

theorem Ordered.enqueue {key : α → Nat} {q : List α} (h : Ordered key q) (x : α) :
    Ordered key (enqueue key x q) := by
  have : Std.Total (fun a b : α => key a ≤ key b) := ⟨fun a b => Nat.le_total _ _⟩
  have : IsTrans α (fun a b => key a ≤ key b) := ⟨fun _ _ _ => Nat.le_trans⟩
  exact List.Pairwise.orderedInsert x q h

/-- The front of the queue has the least key. -/
theorem Ordered.head_le {key : α → Nat} {x y : α} {q : List α} (h : Ordered key (x :: q))
    (hy : y ∈ x :: q) : key x ≤ key y := by
  rcases List.mem_cons.mp hy with rfl | hy
  · exact Nat.le_refl _
  · exact List.rel_of_pairwise_cons h hy

/-- Dropping from the front what ended before `t` drops all of it. -/
theorem Ordered.dropWhile_lt {key : α → Nat} {q : List α} (h : Ordered key q) (t : Nat) :
    q.dropWhile (fun x => key x < t) = q.filter (fun x => t ≤ key x) := by
  induction q with
  | nil => rfl
  | cons x q ih =>
      obtain ⟨hx, hq⟩ := List.pairwise_cons.mp h
      by_cases hlt : key x < t
      · rw [List.dropWhile_cons, if_pos (by simpa using hlt), ih hq,
          List.filter_cons_of_neg (by simpa using hlt)]
      · rw [List.dropWhile_cons, if_neg (by simpa using hlt)]
        symm
        rw [List.filter_eq_self]
        intro y hy
        rcases List.mem_cons.mp hy with rfl | hy
        · simpa using hlt
        · have := hx y hy
          simp only [decide_eq_true_eq]
          omega

theorem Ordered.takeWhile_lt {key : α → Nat} {q : List α} (h : Ordered key q) (t : Nat) :
    q.takeWhile (fun x => key x < t) = q.filter (fun x => key x < t) := by
  induction q with
  | nil => rfl
  | cons x q ih =>
      obtain ⟨hx, hq⟩ := List.pairwise_cons.mp h
      by_cases hlt : key x < t
      · rw [List.takeWhile_cons, if_pos (by simpa using hlt), ih hq,
          List.filter_cons_of_pos (by simpa using hlt)]
      · rw [List.takeWhile_cons, if_neg (by simpa using hlt), eq_comm, List.filter_eq_nil_iff]
        intro y hy
        rcases List.mem_cons.mp hy with rfl | hy
        · simpa using hlt
        · have := hx y hy
          simp only [decide_eq_true_eq]
          omega

/-- When nothing in the queue is below `e`, the elements at `e` are those before
`e + 1`. -/
theorem takeWhile_eq_lt (key : α → Nat) {e : Nat} {q : List α} (h : ∀ x ∈ q, e ≤ key x) :
    q.takeWhile (fun x => key x = e) = q.takeWhile (fun x => key x < e + 1) ∧
      q.dropWhile (fun x => key x = e) = q.dropWhile (fun x => key x < e + 1) := by
  induction q with
  | nil => exact ⟨rfl, rfl⟩
  | cons x q ih =>
      have hx := h x List.mem_cons_self
      obtain ⟨ih1, ih2⟩ := ih (fun y hy => h y (List.mem_cons_of_mem x hy))
      by_cases heq : key x = e
      · rw [List.takeWhile_cons, List.takeWhile_cons, List.dropWhile_cons, List.dropWhile_cons,
          ih1, ih2]
        have hlt : key x < e + 1 := by omega
        simp [heq]
      · have hlt : ¬ key x < e + 1 := by omega
        rw [List.takeWhile_cons, List.takeWhile_cons, List.dropWhile_cons, List.dropWhile_cons]
        simp [heq, hlt]

/-! ### The open intervals of a sweep -/

/-- `q` holds, in order of `key`, the elements seen so far that end at `τ` or
later. -/
structure Open (key : α → Nat) (seen : List α) (τ : Nat) (q : List α) : Prop where
  ordered : Ordered key q
  perm : q.Perm (seen.filter (fun x => τ ≤ key x))

namespace Open

variable {key : α → Nat} {seen : List α} {τ : Nat} {q : List α}

theorem mem_iff (h : Open key seen τ q) {x : α} : x ∈ q ↔ x ∈ seen ∧ τ ≤ key x := by
  rw [h.perm.mem_iff, List.mem_filter]
  simp

/-- Take an element in. -/
theorem push (h : Open key seen τ q) {x : α} (hx : τ ≤ key x) :
    Open key (seen ++ [x]) τ (enqueue key x q) where
  ordered := h.ordered.enqueue x
  perm := by
    have hfilter : (seen ++ [x]).filter (fun y => τ ≤ key y)
        = seen.filter (fun y => τ ≤ key y) ++ [x] := by
      rw [List.filter_append, List.filter_cons_of_pos (by simpa using hx), List.filter_nil]
    rw [hfilter]
    exact (enqueue_perm key x q).trans
      ((@List.perm_append_comm _ [x] _).trans (h.perm.append_right [x]))

/-- Take in a list of elements. -/
theorem pushAll {l : List α} : ∀ {seen q : List α}, Open key seen τ q → (∀ x ∈ l, τ ≤ key x) →
    Open key (seen ++ l) τ (l.foldl (fun h x => enqueue key x h) q) := by
  induction l with
  | nil => intro seen q h _; rw [List.append_nil]; exact h
  | cons x l ih =>
      intro seen q h hl
      have := ih (h.push (hl x List.mem_cons_self)) (fun y hy => hl y (List.mem_cons_of_mem x hy))
      rwa [List.append_assoc] at this

/-- Move the time on. -/
theorem advance (h : Open key seen τ q) {t : Nat} (ht : τ ≤ t) :
    Open key seen t (q.dropWhile (fun x => key x < t)) where
  ordered := h.ordered.sublist (List.dropWhile_sublist _)
  perm := by
    rw [h.ordered.dropWhile_lt t]
    refine (h.perm.filter _).trans (List.Perm.of_eq ?_)
    rw [List.filter_filter]
    apply List.filter_congr
    intro x _
    rw [← Bool.decide_and]
    exact decide_eq_decide.mpr ⟨fun h => h.1, fun h => ⟨h, by omega⟩⟩

/-- The weight still open. -/
theorem weight (h : Open key seen τ q) (w : α → Nat) :
    (q.map w).sum = weightOf w (fun x => τ ≤ key x) seen :=
  (h.perm.map w).sum_eq

/-- The weight that ends when the time moves to `t`. -/
theorem weight_ended (h : Open key seen τ q) (w : α → Nat) (t : Nat) :
    ((q.takeWhile (fun x => key x < t)).map w).sum
      = weightOf w (fun x => key x < t ∧ τ ≤ key x) seen := by
  rw [h.ordered.takeWhile_lt t]
  have := ((h.perm.filter (fun x => decide (key x < t))).map w).sum_eq
  rw [this, List.filter_filter]
  unfold weightOf
  congr 2
  apply List.filter_congr
  intro x _
  simp

end Open

end ChooseCut
