import ChooseCut.Ranges

/-!
# ChooseCut.Clip

The part of a rule list inside an interval of one dimension.

The split cut and the hi cut both hand a child the rules that meet the child's
interval, trimmed to it. `clipTo` is that list; the code's two trimming loops are
shown equal to it, and what a child inherits from its parent (matching, ranges
that fit, borders) is proved here once.
-/

namespace ChooseCut

/-- The two ranges have a value in common. -/
def Range.Meets (a x : Range) : Prop := x.lo ≤ a.hi ∧ a.lo ≤ x.hi

instance (a x : Range) : Decidable (a.Meets x) := inferInstanceAs (Decidable (_ ∧ _))

/-- The rule with its range in dimension `d` cut down to `x`. -/
def Rule.clip (r : Rule) (d : Dim) (x : Range) : Rule :=
  r.setRange d ⟨max (r.range d).lo x.lo, min (r.range d).hi x.hi⟩

/-- The rules that meet `x` in dimension `d`, cut down to it. -/
def clipTo (x : Range) (d : Dim) (rs : List Rule) : List Rule :=
  (rs.filter (fun r => (r.range d).Meets x)).map (fun r => r.clip d x)

section Clip

variable {x : Range} {d : Dim} {rs : List Rule}

theorem clipTo_cons (r : Rule) :
    clipTo x d (r :: rs) = (if (r.range d).Meets x then [r.clip d x] else []) ++ clipTo x d rs := by
  unfold clipTo
  rw [List.filter_cons]
  by_cases h : (r.range d).Meets x <;> simp [h]

theorem mem_clipTo {q : Rule} (h : q ∈ clipTo x d rs) :
    ∃ r ∈ rs, (r.range d).Meets x ∧ q = r.clip d x := by
  obtain ⟨r, hr, rfl⟩ := List.mem_map.mp h
  obtain ⟨hr, hm⟩ := List.mem_filter.mp hr
  exact ⟨r, hr, by simpa using hm, rfl⟩

theorem length_clipTo : (clipTo x d rs).length = rs.countP (fun r => (r.range d).Meets x) := by
  rw [clipTo, List.length_map, List.countP_eq_length_filter]

theorem length_clipTo_le : (clipTo x d rs).length ≤ rs.length := by
  rw [length_clipTo]
  exact List.countP_le_length

@[simp] theorem Rule.clip_pri (r : Rule) : (r.clip d x).pri = r.pri := rfl

@[simp] theorem Rule.clip_range_same (r : Rule) :
    (r.clip d x).range d = ⟨max (r.range d).lo x.lo, min (r.range d).hi x.hi⟩ := by
  simp [Rule.clip]

theorem Rule.clip_range_of_ne (r : Rule) {e : Dim} (he : e ≠ d) :
    (r.clip d x).range e = r.range e := by
  simp [Rule.clip, Function.update_of_ne he]

/-- A clipped rule matches iff the rule does and the key lies in the interval. -/
theorem Rule.clip_matches {r : Rule} {f : Flow} :
    (r.clip d x).Matches f ↔ r.Matches f ∧ x.Has (f.key d) := by
  rw [Rule.clip, Rule.matches_setRange_same, Rule.matches_iff_dim d]
  unfold Range.Has
  simp only [max_le_iff, le_min_iff]
  tauto

/-- **Clipping keeps the hits of a flow inside the interval.** -/
theorem hits_clipTo {f : Flow} (hf : x.Has (f.key d)) : hits (clipTo x d rs) f = hits rs f := by
  induction rs with
  | nil => rfl
  | cons r rs ih =>
      rw [clipTo_cons, hits_append, hits_cons, ih]
      congr 1
      by_cases hm : r.Matches f
      · have hmeet : (r.range d).Meets x :=
          ⟨Nat.le_trans hf.1 (hm d).2, Nat.le_trans (hm d).1 hf.2⟩
        rw [if_pos hm, if_pos hmeet, hits_cons, if_pos (Rule.clip_matches.mpr ⟨hm, hf⟩)]
        rfl
      · rw [if_neg hm]
        split
        · rw [hits_cons, if_neg (fun h => hm (Rule.clip_matches.mp h).1)]
          rfl
        · rfl

/-- Clipping never adds a hit. -/
theorem hits_clipTo_nil {f : Flow} (h : hits rs f = []) : hits (clipTo x d rs) f = [] := by
  rw [hits_eq_nil] at h ⊢
  intro q hq hm
  obtain ⟨r, hr, -, rfl⟩ := mem_clipTo hq
  exact h r hr (Rule.clip_matches.mp hm).1

theorem clip_fits {r : Rule} (hr : r.Fits) (hx : x.lo ≤ x.hi) (hm : (r.range d).Meets x) :
    (r.clip d x).Fits := by
  refine Rule.setRange_fits hr ⟨?_, ?_⟩
  · have := (hr d).1
    have := hm.1
    have := hm.2
    dsimp only
    omega
  · have := (hr d).2
    dsimp only
    omega

theorem clipTo_wf (hwf : RulesWF rs) (hx : x.lo ≤ x.hi) : RulesWF (clipTo x d rs) := by
  intro q hq
  obtain ⟨r, hr, hm, rfl⟩ := mem_clipTo hq
  exact ⟨clip_fits (hwf r hr).fits hx hm, (hwf r hr).pri_lt⟩

/-! ### The hull of a clipped list -/

theorem hullLo_clipTo (hne : clipTo x d rs ≠ []) :
    max (hullLo rs d) x.lo ≤ hullLo (clipTo x d rs) d := by
  obtain ⟨q, hq, hlo⟩ := exists_hullLo (d := d) hne
  obtain ⟨r, hr, -, rfl⟩ := mem_clipTo hq
  rw [← hlo, Rule.clip_range_same]
  exact max_le_max (hullLo_le hr) (Nat.le_refl _)

theorem hullHi_clipTo (hne : clipTo x d rs ≠ []) :
    hullHi (clipTo x d rs) d ≤ min (hullHi rs d) x.hi := by
  obtain ⟨q, hq, hhi⟩ := exists_hullHi (d := d) hne
  obtain ⟨r, hr, -, rfl⟩ := mem_clipTo hq
  rw [← hhi, Rule.clip_range_same]
  exact min_le_min (le_hullHi hr) (Nat.le_refl _)

end Clip

end ChooseCut
