import ChooseCut.Rule

/-!
# ChooseCut.Redund

Redundancy removal (`cut-inl.c`, `remove_redund`).

The code marks a rule by overwriting its priority with `UINT32_MAX` when any
earlier slot contains it, marked or not, and then compacts the unmarked rules in
place behind slot 0. The count it stores starts at one, so a rule set without
rules leaves with `num = 1`: `removeRedund_nil` records this, and everything else
is about non-empty lists.

`clean` is the specification: the rules no earlier rule of the list contains.
-/

namespace ChooseCut

/-- The double loop of `remove_redund`: `earlier` holds the slots before the
current one. Marking changes priorities only, so the containment tests see the
original ranges. -/
def markRedund : List Rule → List Rule → List Rule
  | _, [] => []
  | earlier, r :: rest =>
      let r' := if earlier.any (fun a => ruleContained a r) then { r with pri := uint32Max } else r
      r' :: markRedund (r' :: earlier) rest

/-- `remove_redund`: slot 0 always stays, later slots stay when unmarked, and the
count is the write index `j`, which starts at 1. -/
def removeRedund (rs : RuleSet) : RuleSet :=
  match markRedund [] rs.items with
  | [] => { rs with num := 1 }
  | r :: rest =>
      let kept := r :: rest.filter (fun x => x.pri ≠ uint32Max)
      { rs with num := kept.length, items := kept }

@[simp] theorem removeRedund_cap (rs : RuleSet) : (removeRedund rs).cap = rs.cap := by
  unfold removeRedund
  split <;> rfl

/-- A rule set without rules leaves with one rule more than it has. -/
theorem removeRedund_nil {rs : RuleSet} (h : rs.items = []) :
    removeRedund rs = { rs with num := 1 } := by
  simp [removeRedund, h, markRedund]

/-! ### The specification -/

/-- The rules of a list that no rule before them, in `earlier` or in the list,
contains. -/
def clean : List Rule → List Rule → List Rule
  | _, [] => []
  | earlier, r :: rest =>
      if earlier.any (fun a => ruleContained a r) then clean (r :: earlier) rest
      else r :: clean (r :: earlier) rest

/-- Two lists of earlier rules decide alike when they contain the same ranges. -/
theorem markRedund_congr {l : List Rule} : ∀ {e e' : List Rule},
    (∀ r, e.any (fun a => ruleContained a r) = e'.any (fun a => ruleContained a r)) →
    markRedund e l = markRedund e' l := by
  induction l with
  | nil => intro e e' _; rfl
  | cons r rest ih =>
      intro e e' h
      simp only [markRedund, h r]
      congr 1
      apply ih
      intro s
      rw [List.any_cons, List.any_cons, h s]

/-- Marking, then dropping the marked rules, is `clean`. -/
theorem markRedund_filter {l : List Rule} : ∀ {earlier : List Rule},
    (∀ r ∈ l, r.pri ≠ uint32Max) →
    (markRedund earlier l).filter (fun x => x.pri ≠ uint32Max) = clean earlier l := by
  induction l with
  | nil => intro earlier _; rfl
  | cons r rest ih =>
      intro earlier h
      have hr : r.pri ≠ uint32Max := h r (by simp)
      have hrest : ∀ s ∈ rest, s.pri ≠ uint32Max := fun s hs => h s (by simp [hs])
      by_cases hc : earlier.any (fun a => ruleContained a r) = true
      · rw [markRedund, clean, if_pos hc, if_pos hc, List.filter_cons]
        -- the marked copy has the ranges of the original
        have hsame : markRedund ({ r with pri := uint32Max } :: earlier) rest =
            markRedund (r :: earlier) rest := markRedund_congr (fun _ => rfl)
        rw [hsame, ih hrest]
        simp
      · rw [markRedund, clean, if_neg hc, if_neg hc, List.filter_cons, ih hrest]
        simp [hr]

/-- On a non-empty list `remove_redund` computes `clean`, with the count right. -/
theorem removeRedund_eq {rs : RuleSet} (hne : rs.items ≠ [])
    (hpri : ∀ r ∈ rs.items, r.pri ≠ uint32Max) :
    removeRedund rs = ⟨(clean [] rs.items).length, rs.cap, clean [] rs.items⟩ := by
  have hf := @markRedund_filter rs.items [] hpri
  unfold removeRedund
  cases hl : rs.items with
  | nil => exact absurd hl hne
  | cons r rest =>
      rw [hl] at hf hpri
      simp only [markRedund, List.any_nil, Bool.false_eq_true, if_false] at hf ⊢
      rw [List.filter_cons, if_pos (by simpa using hpri r (by simp))] at hf
      rw [hf]

theorem clean_sublist {l : List Rule} : ∀ {earlier : List Rule},
    (clean earlier l).Sublist l := by
  induction l with
  | nil => intro earlier; exact List.Sublist.refl _
  | cons r rest ih =>
      intro earlier
      rw [clean]
      split
      · exact ih.cons r
      · exact ih.cons_cons r

/-- A flow that no earlier rule matches has the same first hit before and after
cleaning: whatever is dropped was contained in an earlier rule. -/
theorem clean_head {f : Flow} {l : List Rule} : ∀ {earlier : List Rule},
    (∀ a ∈ earlier, ¬ a.Matches f) →
    (hits (clean earlier l) f).head? = (hits l f).head? := by
  induction l with
  | nil => intro earlier _; rfl
  | cons r rest ih =>
      intro earlier h
      by_cases hm : r.Matches f
      · have hc : ¬ earlier.any (fun a => ruleContained a r) = true := by
          intro hany
          obtain ⟨a, ha, hcont⟩ := List.any_eq_true.mp hany
          exact h a ha (ruleContained_matches (by simpa using hcont) hm)
        rw [clean, if_neg hc, hits_cons, hits_cons, if_pos hm]
        rfl
      · have hrest : ∀ a ∈ r :: earlier, ¬ a.Matches f := by
          intro a ha
          rcases List.mem_cons.mp ha with rfl | ha
          · exact hm
          · exact h a ha
        have hskip : (hits (r :: rest) f).head? = (hits rest f).head? := by
          rw [hits_cons, if_neg hm]
          rfl
        rw [hskip, clean]
        split
        · exact ih hrest
        · rw [hits_cons, if_neg hm]
          exact ih hrest

theorem answer_eq_of_head? {a b : List Nat} (h : a.head? = b.head?) : answer a = answer b := by
  cases a <;> cases b <;> simp_all [answer]

/-- **Redundancy removal keeps linear search.** -/
theorem hits_clean_head (l : List Rule) (f : Flow) :
    (hits (clean [] l) f).head? = (hits l f).head? :=
  clean_head (by simp)

/-- No rule contains a later one. -/
def Irredundant (l : List Rule) : Prop := l.Pairwise (fun a b => ¬ ruleContained a b)

theorem not_contained_of_mem_clean {l : List Rule} : ∀ {earlier : List Rule} {a b : Rule},
    a ∈ earlier → b ∈ clean earlier l → ¬ ruleContained a b := by
  induction l with
  | nil => intro earlier a b _ hb; simp [clean] at hb
  | cons r rest ih =>
      intro earlier a b ha hb
      rw [clean] at hb
      split at hb
      · exact ih (List.mem_cons_of_mem r ha) hb
      · next hc =>
        rcases List.mem_cons.mp hb with rfl | hb
        · intro hcont
          exact hc (List.any_eq_true.mpr ⟨a, ha, by simpa using hcont⟩)
        · exact ih (List.mem_cons_of_mem r ha) hb

theorem clean_irredundant {l : List Rule} : ∀ {earlier : List Rule},
    Irredundant (clean earlier l) := by
  induction l with
  | nil => intro earlier; exact List.Pairwise.nil
  | cons r rest ih =>
      intro earlier
      rw [clean]
      split
      · exact ih
      · exact List.pairwise_cons.mpr
          ⟨fun b hb => not_contained_of_mem_clean (List.mem_cons_self) hb, ih⟩

/-- Nothing is dropped from a list without redundant rules. -/
theorem clean_eq_self {l : List Rule} : ∀ {earlier : List Rule},
    (∀ a ∈ earlier, ∀ b ∈ l, ¬ ruleContained a b) → Irredundant l → clean earlier l = l := by
  induction l with
  | nil => intro earlier _ _; rfl
  | cons r rest ih =>
      intro earlier hout hin
      obtain ⟨hr, hrest⟩ := List.pairwise_cons.mp hin
      have hkeep : ¬ earlier.any (fun a => ruleContained a r) = true := by
        intro hany
        obtain ⟨a, ha, hcont⟩ := List.any_eq_true.mp hany
        exact hout a ha r List.mem_cons_self (by simpa using hcont)
      have hout' : ∀ a ∈ r :: earlier, ∀ b ∈ rest, ¬ ruleContained a b := by
        intro a ha b hb
        rcases List.mem_cons.mp ha with rfl | ha
        · exact hr b hb
        · exact hout a ha b (List.mem_cons_of_mem r hb)
      rw [clean, if_neg hkeep, ih hout' hrest]

/-- The first rule stays: nothing is before it. -/
theorem clean_head?_eq (l : List Rule) : (clean [] l).head? = l.head? := by
  cases l with
  | nil => rfl
  | cons r rest => rfl

/-- **`remove_redund`** on a non-empty list without the mark: an order-preserving sublist
that starts with the first rule, in which no rule is contained in an earlier one, on which
`lsearch` answers as before, and which a second call leaves as it is. -/
theorem removeRedund_spec {rs : RuleSet} (hnum : rs.num = rs.items.length) (hne : rs.items ≠ [])
    (hpri : ∀ r ∈ rs.items, r.pri ≠ uint32Max) :
    (removeRedund rs).num = (removeRedund rs).items.length ∧
      (removeRedund rs).items.Sublist rs.items ∧
      (removeRedund rs).items.head? = rs.items.head? ∧
      Irredundant (removeRedund rs).items ∧
      (∀ f, lsearch (removeRedund rs) f = lsearch rs f) ∧
      removeRedund (removeRedund rs) = removeRedund rs := by
  have heq := removeRedund_eq hne hpri
  have hhead := clean_head?_eq rs.items
  -- a second call finds a list of the same kind
  have hne' : clean [] rs.items ≠ [] := by
    intro hnil
    rw [hnil] at hhead
    exact hne (List.head?_eq_none_iff.mp hhead.symm)
  have hpri' : ∀ r ∈ clean [] rs.items, r.pri ≠ uint32Max :=
    fun r hr => hpri r (clean_sublist.subset hr)
  have hagain : clean [] (clean [] rs.items) = clean [] rs.items :=
    clean_eq_self (by simp) clean_irredundant
  rw [heq]
  refine ⟨rfl, clean_sublist, hhead, clean_irredundant, fun f => ?_, ?_⟩
  · rw [lsearch_ok rfl, lsearch_ok hnum]
    exact congrArg _ (answer_eq_of_head? (hits_clean_head rs.items f))
  · rw [removeRedund_eq hne' hpri', hagain]

/-- A rule that stands twice, and a third rule inside it: only the first stays. -/
theorem removeRedund_spec_nested :
    let outer : Rule := ⟨1, fun _ => ⟨0, 9⟩⟩
    let rs : RuleSet := Buffer.ofList [outer, { outer with pri := 2 }, ⟨3, fun _ => ⟨2, 5⟩⟩]
    (removeRedund rs).items = [outer] ∧ removeRedund (removeRedund rs) = removeRedund rs := by
  intro outer rs
  have h := @removeRedund_spec rs rfl (by simp [rs]) (by decide)
  exact ⟨by decide, h.2.2.2.2.2⟩

end ChooseCut
