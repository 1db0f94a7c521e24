import Mathlib.Algebra.Order.Ring.Int
import Mathlib.Algebra.Order.Ring.Nat
import Mathlib.Data.Fin.VecNotation
import Mathlib.Data.Fintype.Basic
import Mathlib.Logic.Function.Basic
import ChooseCut.Lib.Buffer

/-!
# ChooseCut.Rule

Rules, rule sets and flows (`rule.h`, `param.h`), linear search (`cut.c`) and the
containment test (`utils.c`).

Machine words are natural numbers. A rule is *well formed* when its five ranges
are non-empty and fit their dimension; every arithmetic step of the cuts that
could wrap carries its own `% 2 ^ 32` or `% 2 ^ 64`.

`hits` is the abstract meaning of a rule list: for each flow, the priorities of
the matching rules in list order. Every cut is specified by what it does to
`hits`, and `lsearch` returns its head.
-/

namespace ChooseCut

/-! ### Parameters -/

/-- A dimension, one of the five header fields (`DIM`). -/
abbrev Dim := Fin 5

/-- The numerals of `Dim` are read through this instance. -/
instance Dim.neZero : NeZero 5 := ⟨by decide⟩

/-- `BUCKETSIZE`. -/
def bucketSize : Nat := 16

/-- `STRIDE`: the key bits one bitmap node consumes. -/
def stride : Nat := 6

/-- `INL_OFFSET`: the number of internal (short prefix) children. -/
def inlOffset : Nat := 2 ^ stride - 1

/-- `CHILDCOUNT`: internal and external children of a bitmap node. -/
def childCount : Nat := 2 ^ stride + 2 ^ stride - 1

/-- `UINT32_MAX`. -/
def uint32Max : Nat := 2 ^ 32 - 1

/-- `dim_bits`: the width of each dimension. -/
def dimBits : Dim → Nat := ![32, 32, 16, 16, 8]

theorem dimBits_le (d : Dim) : dimBits d ≤ 32 := by
  revert d; decide

theorem stride_lt_dimBits (d : Dim) : stride < dimBits d := by
  revert d; decide

/-! ### Rules and flows -/

/-- One range `range[d][0..1]`, both ends included. -/
structure Range where
  lo : Nat
  hi : Nat
  deriving Repr, DecidableEq

/-- `rule_t`. -/
structure Rule where
  pri : Nat
  range : Dim → Range
  deriving DecidableEq

/-- `struct flow`. -/
structure Flow where
  key : Dim → Nat

/-- `rule_set_t`: count, capacity and the rules written so far. -/
abbrev RuleSet := Buffer Rule

/-- Replace the range of one dimension. -/
def Rule.setRange (r : Rule) (d : Dim) (x : Range) : Rule :=
  { r with range := Function.update r.range d x }

@[simp] theorem Rule.setRange_pri (r : Rule) (d : Dim) (x : Range) :
    (r.setRange d x).pri = r.pri := rfl

@[simp] theorem Rule.setRange_range (r : Rule) (d : Dim) (x : Range) :
    (r.setRange d x).range = Function.update r.range d x := rfl

/-- Replace the key of one dimension. -/
def Flow.setKey (f : Flow) (d : Dim) (k : Nat) : Flow :=
  { f with key := Function.update f.key d k }

@[simp] theorem Flow.setKey_key (f : Flow) (d : Dim) (k : Nat) :
    (f.setKey d k).key = Function.update f.key d k := rfl

/-- A key lies in a range. -/
def Range.Has (x : Range) (k : Nat) : Prop := x.lo ≤ k ∧ k ≤ x.hi

instance (x : Range) (k : Nat) : Decidable (x.Has k) :=
  inferInstanceAs (Decidable (_ ∧ _))

/-- The five comparisons of `lsearch`: the flow lies in every range of the rule. -/
def Rule.Matches (r : Rule) (f : Flow) : Prop := ∀ d, (r.range d).Has (f.key d)

instance (r : Rule) (f : Flow) : Decidable (r.Matches f) :=
  inferInstanceAs (Decidable (∀ _, _))

/-- The range is non-empty and fits dimension `d`. -/
def Range.Fits (x : Range) (d : Dim) : Prop := x.lo ≤ x.hi ∧ x.hi < 2 ^ dimBits d

instance (x : Range) (d : Dim) : Decidable (x.Fits d) :=
  inferInstanceAs (Decidable (_ ∧ _))

/-- All five ranges are non-empty and fit their dimension. -/
def Rule.Fits (r : Rule) : Prop := ∀ d, (r.range d).Fits d

instance (r : Rule) : Decidable r.Fits := inferInstanceAs (Decidable (∀ _, _))

/-- A well-formed rule: its ranges fit, and its priority is not the mark
`remove_redund` uses. -/
structure Rule.WF (r : Rule) : Prop where
  fits : r.Fits
  pri_lt : r.pri < uint32Max

instance (r : Rule) : Decidable r.WF :=
  decidable_of_iff (r.Fits ∧ r.pri < uint32Max)
    ⟨fun h => ⟨h.1, h.2⟩, fun h => ⟨h.fits, h.pri_lt⟩⟩

/-- Every rule of the list is well formed. -/
def RulesWF (rs : List Rule) : Prop := ∀ r ∈ rs, r.WF

instance (rs : List Rule) : Decidable (RulesWF rs) :=
  inferInstanceAs (Decidable (∀ r ∈ rs, r.WF))

/-- Every key of the flow fits its dimension. -/
def Flow.InRange (f : Flow) : Prop := ∀ d, f.key d < 2 ^ dimBits d

instance (f : Flow) : Decidable f.InRange := inferInstanceAs (Decidable (∀ _, _))

theorem Flow.InRange.setKey {f : Flow} (h : f.InRange) {d : Dim} {k : Nat}
    (hk : k < 2 ^ dimBits d) : (f.setKey d k).InRange := by
  intro e
  by_cases he : e = d
  · subst he; simpa using hk
  · simpa [Function.update_of_ne he] using h e

/-- A flow matches after one range and the key under it have been replaced iff it
matches in that dimension and matched before in all others. -/
theorem Rule.matches_setRange {r : Rule} {f : Flow} {d : Dim} {x : Range} {k : Nat} :
    (r.setRange d x).Matches (f.setKey d k) ↔
      x.Has k ∧ ∀ e, e ≠ d → (r.range e).Has (f.key e) := by
  unfold Rule.Matches
  constructor
  · intro h
    refine ⟨by simpa using h d, fun e he => ?_⟩
    simpa [Function.update_of_ne he] using h e
  · rintro ⟨hx, hrest⟩ e
    by_cases he : e = d
    · subst he; simpa using hx
    · simpa [Function.update_of_ne he] using hrest e he

theorem Rule.matches_iff_dim {r : Rule} {f : Flow} (d : Dim) :
    r.Matches f ↔ (r.range d).Has (f.key d) ∧ ∀ e, e ≠ d → (r.range e).Has (f.key e) := by
  unfold Rule.Matches
  constructor
  · exact fun h => ⟨h d, fun e _ => h e⟩
  · rintro ⟨hd, hrest⟩ e
    by_cases he : e = d
    · subst he; exact hd
    · exact hrest e he

/-- As `Rule.matches_setRange`, with the flow left alone. -/
theorem Rule.matches_setRange_same {r : Rule} {f : Flow} {d : Dim} {x : Range} :
    (r.setRange d x).Matches f ↔
      x.Has (f.key d) ∧ ∀ e, e ≠ d → (r.range e).Has (f.key e) := by
  have h : f.setKey d (f.key d) = f := by
    cases f; simp [Flow.setKey]
  rw [← Rule.matches_setRange, h]

theorem Rule.setRange_fits {r : Rule} {d : Dim} {x : Range} (hr : r.Fits) (hx : x.Fits d) :
    (r.setRange d x).Fits := by
  intro e
  by_cases he : e = d
  · subst he; simpa using hx
  · simpa [Function.update_of_ne he] using hr e

/-! ### Linear search -/

/-- An `unsigned int` returned as an `int`. -/
def toInt (u : Nat) : Int := if u < 2 ^ 31 then u else (u : Int) - 2 ^ 32

/-- The loop of `lsearch`: `n` slots still to read. Reading past the slots that
were written is a fault, not a value. -/
def lsearchLoop (f : Flow) : Nat → List Rule → Except Fault Int
  | 0, _ => .ok (-1)
  | _ + 1, [] => .error .overread
  | n + 1, r :: rs => if r.Matches f then .ok (toInt r.pri) else lsearchLoop f n rs

/-- `lsearch`. -/
def lsearch (rs : RuleSet) (f : Flow) : Except Fault Int := lsearchLoop f rs.num rs.items

/-- The priorities of the rules that match, in list order. -/
def hits (rs : List Rule) (f : Flow) : List Nat :=
  (rs.filter (fun r => r.Matches f)).map Rule.pri

/-- What linear search answers for a list of hits. -/
def answer : List Nat → Int
  | [] => -1
  | p :: _ => toInt p

theorem hits_cons (r : Rule) (rs : List Rule) (f : Flow) :
    hits (r :: rs) f = (if r.Matches f then [r.pri] else []) ++ hits rs f := by
  unfold hits
  rw [List.filter_cons]
  by_cases h : r.Matches f <;> simp [h]

theorem hits_append (rs ss : List Rule) (f : Flow) :
    hits (rs ++ ss) f = hits rs f ++ hits ss f := by
  simp [hits]

theorem hits_flatMap {α : Type} (l : List α) (g : α → List Rule) (f : Flow) :
    hits (l.flatMap g) f = l.flatMap (fun a => hits (g a) f) := by
  induction l with
  | nil => rfl
  | cons a l ih => rw [List.flatMap_cons, hits_append, ih, List.flatMap_cons]

theorem hits_eq_nil {rs : List Rule} {f : Flow} :
    hits rs f = [] ↔ ∀ r ∈ rs, ¬ r.Matches f := by
  simp [hits, List.filter_eq_nil_iff]

/-- The head of the hits is the priority of the first matching rule. -/
theorem head?_hits (rs : List Rule) (f : Flow) :
    (hits rs f).head? = (rs.find? (fun r => r.Matches f)).map Rule.pri := by
  simp [hits, List.head?_filter]

/-- On a rule set whose count is right, `lsearch` answers the first hit. -/
theorem lsearch_ok {rs : RuleSet} (h : rs.num = rs.items.length) (f : Flow) :
    lsearch rs f = .ok (answer (hits rs.items f)) := by
  unfold lsearch
  rw [h]
  induction rs.items with
  | nil => rfl
  | cons r l ih =>
      rw [List.length_cons, lsearchLoop, hits_cons]
      by_cases hm : r.Matches f
      · simp [hm, answer]
      · simpa [hm] using ih

/-! ### Containment -/

/-- `rule_contained`: `a` contains `b` in every dimension. -/
def ruleContained (a b : Rule) : Prop :=
  ∀ d, (a.range d).lo ≤ (b.range d).lo ∧ (b.range d).hi ≤ (a.range d).hi

instance (a b : Rule) : Decidable (ruleContained a b) := inferInstanceAs (Decidable (∀ _, _))

/-- A flow that matches a rule matches every rule that contains it. -/
theorem ruleContained_matches {a b : Rule} (h : ruleContained a b) {f : Flow}
    (hb : b.Matches f) : a.Matches f :=
  fun d => ⟨Nat.le_trans (h d).1 (hb d).1, Nat.le_trans (hb d).2 (h d).2⟩

end ChooseCut
