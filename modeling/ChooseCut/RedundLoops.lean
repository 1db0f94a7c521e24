import ChooseCut.Redund

/-!
# ChooseCut.RedundLoops

`remove_redund` as the source runs it: on one array, with indices.

The marking loops overwrite a priority while later turns still compare that rule, and the
second pass moves rules to the front of the array it is reading. Neither disturbs what
is read later: a comparison looks at ranges only, and the write index never passes the
read index. So the array ends with the rules of `removeRedund` in front, and behind them
slots that the stored count leaves out.
-/

namespace ChooseCut

/-! ### The loops -/

/-- Body of the marking loops. -/
def markSlot (i : Nat) (l : List Rule) (j : Nat) : List Rule :=
  match l[j]?, l[i]? with
  | some a, some b => if ruleContained a b then l.set i { b with pri := uint32Max } else l
  | _, _ => l

/-- The inner loop: slot `i` against all slots before it. -/
def markRow (l : List Rule) (i : Nat) : List Rule := (List.range i).foldl (markSlot i) l

/-- Both marking loops. -/
def markLoops (l : List Rule) : List Rule := (List.range' 1 (l.length - 1)).foldl markRow l

/-- Body of the second pass: the array and the write index `j`. -/
def keepSlot (s : List Rule × Nat) (i : Nat) : List Rule × Nat :=
  match s.1[i]? with
  | some x => if x.pri ≠ uint32Max then (s.1.set s.2 x, s.2 + 1) else s
  | none => s

/-- `remove_redund`: the array afterwards and the count stored. -/
def removeRedundLoops (l : List Rule) : List Rule × Nat :=
  (List.range' 1 (l.length - 1)).foldl keepSlot (markLoops l, 1)

/-! ### Marking -/

/-- The rule after it was compared with those of `p`. -/
def markBy (p : List Rule) (b : Rule) : Rule :=
  if p.any (fun a => ruleContained a b) then { b with pri := uint32Max } else b

/-- A mark does not change what contains a rule. -/
theorem ruleContained_markBy {a b : Rule} {p : List Rule} :
    ruleContained a (markBy p b) ↔ ruleContained a b := by
  unfold markBy
  split <;> rfl

theorem markBy_snoc (p : List Rule) (a b : Rule) :
    markBy (p ++ [a]) b =
      if ruleContained a b then { markBy p b with pri := uint32Max } else markBy p b := by
  unfold markBy
  by_cases h : ruleContained a b <;> by_cases hp : p.any (fun a => ruleContained a b) = true <;>
    simp [h, hp]

/-- The inner loop after `n` turns. -/
theorem foldl_markSlot (p : List Rule) (b : Rule) (t : List Rule) :
    ∀ n ≤ p.length, (List.range n).foldl (markSlot p.length) (p ++ b :: t)
      = p ++ markBy (p.take n) b :: t := by
  intro n
  induction n with
  | zero => exact fun _ => rfl
  | succ n ih =>
      intro hn
      have hget : (p ++ markBy (p.take n) b :: t)[n]? = some p[n] := by
        rw [List.getElem?_append_left hn, List.getElem?_eq_getElem hn]
      have hown : (p ++ markBy (p.take n) b :: t)[p.length]? = some (markBy (p.take n) b) := by
        simp
      rw [List.range_succ, List.foldl_append, ih (by omega), List.foldl_cons, List.foldl_nil,
        markSlot, hget, hown, List.take_add_one, List.getElem?_eq_getElem hn, Option.toList_some,
        markBy_snoc]
      simp only [ruleContained_markBy]
      split
      · rw [List.set_append_right _ _ (Nat.le_refl _), Nat.sub_self, List.set_cons_zero]
      · rfl

theorem markRow_eq (p : List Rule) (b : Rule) (t : List Rule) :
    markRow (p ++ b :: t) p.length = p ++ markBy p b :: t := by
  rw [markRow, foldl_markSlot p b t _ (Nat.le_refl _), List.take_length]

/-- The outer loop from slot `p.length` on. -/
theorem foldl_markRow : ∀ (t p : List Rule),
    (List.range' p.length t.length).foldl markRow (p ++ t) = p ++ markRedund p t := by
  intro t
  induction t with
  | nil => exact fun p => rfl
  | cons b t ih =>
      intro p
      have hrow := markRow_eq p b t
      have hnext := ih (p ++ [markBy p b])
      rw [List.length_append, List.length_singleton, List.append_assoc, List.append_assoc] at hnext
      rw [List.length_cons, List.range'_succ, List.foldl_cons, hrow]
      refine hnext.trans (congrArg (p ++ ·) ?_)
      rw [markRedund]
      refine congrArg (markBy p b :: ·) (markRedund_congr fun r => ?_)
      rw [List.any_append, List.any_cons, List.any_nil, Bool.or_false, Bool.or_comm]
      rfl

theorem markLoops_eq (l : List Rule) : markLoops l = markRedund [] l := by
  cases l with
  | nil => rfl
  | cons r rest => exact foldl_markRow rest [r]

/-! ### Keeping -/

/-- A write at the end of the kept rules: it takes the first slot behind them. -/
theorem set_kept (kept gap : List Rule) (x : Rule) (t : List Rule) :
    ∃ gap', (kept ++ gap ++ x :: t).set kept.length x = kept ++ [x] ++ gap' ++ t ∧
      gap'.length = gap.length := by
  cases gap with
  | nil => exact ⟨[], by simp, rfl⟩
  | cons y gap => exact ⟨gap ++ [x], by simp, by simp⟩

/-- The second pass, about to read the first slot of `t`: in front are the rules kept so
far, then slots it is done with. -/
theorem foldl_keepSlot : ∀ t kept gap : List Rule, ∃ gap',
    (List.range' (kept ++ gap).length t.length).foldl keepSlot (kept ++ gap ++ t, kept.length)
      = (kept ++ t.filter (fun x => x.pri ≠ uint32Max) ++ gap',
          (kept ++ t.filter (fun x => x.pri ≠ uint32Max)).length) ∧
      (t.filter (fun x => x.pri ≠ uint32Max)).length + gap'.length = gap.length + t.length := by
  intro t
  induction t with
  | nil =>
      intro kept gap
      exact ⟨gap, by simp, by simp⟩
  | cons x t ih =>
      intro kept gap
      have hread : (kept ++ gap ++ x :: t)[(kept ++ gap).length]? = some x := by simp
      rw [List.length_cons, List.range'_succ, List.foldl_cons, keepSlot, hread]
      by_cases hx : x.pri = uint32Max
      · -- a marked rule joins the slots left behind
        obtain ⟨gap', hrun, hlen⟩ := ih kept (gap ++ [x])
        refine ⟨gap', ?_, ?_⟩
        · simpa [hx, Nat.add_assoc] using hrun
        · simp only [List.filter_cons, hx, ne_eq, not_true, decide_false, Bool.false_eq_true,
            if_false, List.length_append, List.length_singleton] at hlen ⊢
          omega
      · obtain ⟨gap₁, hset, hgap⟩ := set_kept kept gap x t
        obtain ⟨gap', hrun, hlen⟩ := ih (kept ++ [x]) gap₁
        refine ⟨gap', ?_, ?_⟩
        · have hfrom : (kept ++ [x] ++ gap₁).length = (kept ++ gap).length + 1 := by
            simp only [List.length_append, List.length_singleton, hgap]
            omega
          rw [hfrom, ← hset] at hrun
          simpa [hx] using hrun
        · simp only [List.filter_cons, ne_eq, hx, not_false_eq_true, decide_true, if_true,
            List.length_cons] at hlen ⊢
          omega

theorem markRedund_length : ∀ l e : List Rule, (markRedund e l).length = l.length := by
  intro l
  induction l with
  | nil => exact fun e => rfl
  | cons r rest ih => exact fun e => congrArg (· + 1) (ih _)

/-- **The loops compute `removeRedund`.** The array keeps its length, the stored count is
that of `removeRedund`, and the slots it counts hold the rules of `removeRedund`. -/
theorem removeRedundLoops_refines (rs : RuleSet) :
    (removeRedundLoops rs.items).2 = (removeRedund rs).num ∧
      (removeRedundLoops rs.items).1.take (removeRedund rs).num = (removeRedund rs).items ∧
      (removeRedundLoops rs.items).1.length = rs.items.length := by
  unfold removeRedundLoops removeRedund
  rw [markLoops_eq]
  cases hl : rs.items with
  | nil => exact ⟨rfl, rfl, rfl⟩
  | cons r rest =>
      -- slot 0 is never marked and never moved
      have hmark : markRedund [] (r :: rest) = r :: markRedund [r] rest := rfl
      have hlen := markRedund_length rest [r]
      obtain ⟨gap, hrun, hsize⟩ := foldl_keepSlot (markRedund [r] rest) [r] []
      rw [hlen] at hrun
      rw [hmark]
      dsimp only
      rw [show (r :: rest).length - 1 = rest.length from rfl,
        show List.foldl keepSlot (r :: markRedund [r] rest, 1) (List.range' 1 rest.length) = _
          from hrun]
      refine ⟨rfl, List.take_left, ?_⟩
      rw [List.length_nil] at hsize
      simp only [List.length_append, List.length_cons, List.length_nil]
      omega

end ChooseCut
