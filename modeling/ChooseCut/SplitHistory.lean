import ChooseCut.CutSplitSound
import ChooseCut.Lib.Lockstep

/-!
# ChooseCut.SplitHistory

What a split computation keeps of the scratch tree it finds.

The old tree is read in one place only: `split_match_expect_1d` leaves the ranges and
weights of its node as they are when all rules agree. Two computations that start from
different trees therefore take the same steps with the same costs, and where the rules
differ they store the same root. Sides that are switched off may still hold old ranges,
but nothing looks at those.
-/

namespace ChooseCut

variable {K : Type} [CostArith K]

/-! ### The sweep -/

/-- Two states of the sweep that differ at most in the weights of the best split. -/
structure Sweep.Alike (a b : Sweep K) : Prop where
  heap : a.heap = b.heap
  left : a.left = b.left
  s : a.s = b.s
  high : a.high = b.high
  minMe : a.best.minMe = b.best.minMe
  split : a.best.split = b.best.split

section Sweep

variable {a b : Sweep K} {num : Nat}

theorem Sweep.Alike.evaluate (h : a.Alike b) (num pos : Nat) :
    (a.evaluate num pos).Alike (b.evaluate num pos) := by
  unfold Sweep.evaluate findMinMeDo
  rw [h.heap, h.left, h.minMe]
  refine ⟨rfl, rfl, h.s, h.high, ?_, ?_⟩
  · dsimp only
    split
    · rfl
    · exact h.minMe
  · dsimp only
    split
    · rfl
    · exact h.split

omit [CostArith K] in
theorem Sweep.Alike.popEnd (h : a.Alike b) (e : Nat) : (a.popEnd e).Alike (b.popEnd e) := by
  unfold Sweep.popEnd
  rw [h.heap, h.left, h.high]
  exact ⟨rfl, rfl, h.s, rfl, h.minMe, h.split⟩

theorem Sweep.Alike.drain (num low : Nat) : ∀ (fuel : Nat) {a b : Sweep K}, a.Alike b →
    (a.drain num low fuel).Alike (b.drain num low fuel) := by
  intro fuel
  induction fuel with
  | zero => exact fun h => h
  | succ fuel ih =>
      intro a b h
      rw [Sweep.drain, Sweep.drain, h.heap]
      cases b.heap with
      | nil => exact h
      | cons top tl =>
          dsimp only
          split
          · exact ih ((h.popEnd _).evaluate _ _)
          · exact h

theorem Sweep.Alike.next (h : a.Alike b) (r : Range1d) : (a.next num r).Alike (b.next num r) := by
  have hdrain := Sweep.Alike.drain num r.low a.heap.length h
  unfold Sweep.next
  rw [← h.heap]
  dsimp only
  rw [hdrain.s]
  split
  · exact ⟨by rw [hdrain.heap], hdrain.left, rfl, hdrain.high, hdrain.minMe, hdrain.split⟩
  · have heval := hdrain.evaluate num (r.low - 1)
    exact ⟨by rw [heval.heap], heval.left, rfl, heval.high, heval.minMe, heval.split⟩

theorem Sweep.Alike.flush : ∀ (fuel : Nat) {a b : Sweep K}, a.Alike b →
    (a.flush num fuel).Alike (b.flush num fuel) := by
  intro fuel
  induction fuel with
  | zero => exact fun h => h
  | succ fuel ih =>
      intro a b h
      rw [Sweep.flush, Sweep.flush, h.heap]
      rcases b.heap with _ | ⟨top, _ | ⟨x, tl⟩⟩
      · exact h
      · exact h
      · dsimp only
        apply ih
        have hpop := h.popEnd top.high
        rw [hpop.heap]
        split
        · exact hpop.evaluate _ _
        · exact hpop

omit [CostArith K] in
theorem Sweep.Alike.finish (h : a.Alike b) : a.finish.Alike b.finish := by
  unfold Sweep.finish
  rw [h.heap]
  cases hb : b.heap with
  | nil => exact h
  | cons top tl => exact ⟨rfl, h.left, h.s, by rw [h.high], h.minMe, h.split⟩

/-- The sweep does not depend on the weights the node held before. -/
theorem splitSweep_alike (num w0 w1 v0 v1 : Nat) (u : Range1d) (us : List Range1d) :
    (splitSweep (K := K) num w0 w1 u us).Alike (splitSweep num v0 v1 u us) := by
  have hloop : ∀ (l : List Range1d) {a b : Sweep K}, a.Alike b →
      (l.foldl (Sweep.next num) a).Alike (l.foldl (Sweep.next num) b) := by
    intro l
    induction l with
    | nil => exact fun h => h
    | cons r l ih => exact fun h => ih (h.next r)
  have hmain := hloop us (show Sweep.Alike
    { heap := [u], left := 0, s := u.low, high := u.high,
      best := ⟨CostArith.ofNat num, u.low, w0, w1⟩ }
    { heap := [u], left := 0, s := u.low, high := u.high,
      best := ⟨CostArith.ofNat num, u.low, v0, v1⟩ } from ⟨rfl, rfl, rfl, rfl, rfl, rfl⟩)
  unfold splitSweep
  dsimp only
  rw [hmain.heap]
  exact (hmain.flush _).finish

end Sweep

/-! ### One dimension -/

section Expect

variable {rs : RuleSet} {d : Dim} {cap : Nat}

/-- A split is known from its position. -/
theorem IsSplit.ext {l : List Rule} {r0 r1 s0 s1 : Range1d} (h : IsSplit l d r0 r1)
    (h' : IsSplit l d s0 s1) (hhigh : r0.high = s0.high) : r0 = s0 ∧ r1 = s1 := by
  obtain ⟨rl, rh, rw0⟩ := r0
  obtain ⟨sl, sh, sw0⟩ := s0
  obtain ⟨tl, th, tw⟩ := r1
  obtain ⟨ul, uh, uw⟩ := s1
  obtain rfl : rh = sh := hhigh
  simp only [Range1d.mk.injEq]
  exact ⟨⟨h.low.trans h'.low.symm, trivial, h.weight0.trans h'.weight0.symm⟩,
    h.next.trans h'.next.symm, h.high.trans h'.high.symm, h.weight1.trans h'.weight1.symm⟩

/-- What two calls of `split_match_expect_1d` return: the rule count with the nodes as they
were, or the same cost and the same split. -/
def Expect1d (rs : RuleSet) (d : Dim) (n m : SNode) (p q : K × SNode) : Prop :=
  p.1 = q.1 ∧
    if SameRange rs.items d then p = (CostArith.ofNat rs.num, n) ∧ q = (CostArith.ofNat rs.num, m)
    else ∃ r0 r1, IsSplit rs.items d r0 r1 ∧ p.2 = { n with r0 := r0, r1 := r1 } ∧
      q.2 = { m with r0 := r0, r1 := r1 }

theorem splitMatchExpect1d_lockstep (hnum : rs.num = rs.items.length)
    (hfit : ∀ r ∈ rs.items, r.Fits) (n m : SNode) :
    Lockstep (Expect1d (K := K) rs d n m) (splitMatchExpect1d cap n rs d)
      (splitMatchExpect1d cap m rs d) := by
  by_cases hcap : cap < rs.num
  · rw [splitMatchExpect1d, splitMatchExpect1d, if_pos hcap, if_pos hcap]
    exact Lockstep.error _
  by_cases hsame : SameRange rs.items d
  · have hcost : ∀ n : SNode, splitMatchExpect1d (K := K) cap n rs d
        = .ok (CostArith.ofNat rs.num, n) := by
      intro n
      by_cases hne : rs.items = []
      · rw [splitMatchExpect1d, if_neg hcap, hne]
        rfl
      · exact splitMatchExpect1d_same n (Nat.not_lt.mp hcap) hne hsame
    rw [hcost n, hcost m]
    exact Lockstep.ok ⟨rfl, by rw [if_pos hsame]; exact ⟨rfl, rfl⟩⟩
  · obtain ⟨r0, r1, hn, hsn⟩ :=
      splitMatchExpect1d_spec (K := K) n (Nat.not_lt.mp hcap) hnum hfit hsame
    obtain ⟨s0, s1, hm, hsm⟩ :=
      splitMatchExpect1d_spec (K := K) m (Nat.not_lt.mp hcap) hnum hfit hsame
    -- both sweeps end at the same position
    have hhigh : r0.high = s0.high := by
      have hpos : (splitMatchExpect1d (K := K) cap n rs d).map (fun q => q.2.r0.high)
          = (splitMatchExpect1d (K := K) cap m rs d).map (fun q => q.2.r0.high) := by
        have hne : rs.items ≠ [] := hsn.ne_nil
        rw [splitMatchExpect1d, splitMatchExpect1d, if_neg hcap, if_neg hcap]
        rcases hsw : sweepRanges rs.items d with _ | ⟨u, _ | ⟨v, us⟩⟩
        · exact absurd hsw (sweepRanges_ne_nil hne)
        · exact absurd ((sweepRanges_length_eq_one hne).mp (by rw [hsw]; rfl)) hsame
        · have halike := splitSweep_alike (K := K) rs.num n.r0.weight n.r1.weight m.r0.weight
            m.r1.weight u (v :: us)
          dsimp only
          rw [halike.heap]
          unfold assertThat
          split
          · exact congrArg Except.ok halike.split
          · rfl
      rw [hn, hm] at hpos
      exact Except.ok.inj hpos
    obtain ⟨rfl, rfl⟩ := hsn.ext hsm hhigh
    rw [hn, hm]
    exact Lockstep.ok ⟨rfl, by rw [if_neg hsame]; exact ⟨_, _, hsn, rfl, rfl⟩⟩

end Expect

/-! ### The tree -/

/-- Nodes that are both switched off, or the same. -/
def SNode.Alike (a b : SNode) : Prop := a.enabled = b.enabled ∧ (a.enabled = true → a = b)

/-- Trees with the same root and sides that are alike. -/
structure STree.Alike (a b : STree) : Prop where
  root : a.root = b.root
  left : a.left.Alike b.left
  right : a.right.Alike b.right

/-- Records of the same dimension and cost, with the same split unless there is no gain. -/
structure BestDim.Alike (num : Nat) (b c : BestDim K) : Prop where
  mec : b.mec = c.mec
  minDim : b.minDim = c.minDim
  split : b.mec = CostArith.ofNat num ∨ (b.r0 = c.r0 ∧ b.r1 = c.r1)

/-- Both runs remember a dimension, and their records are alike. -/
def BuildAlike (num : Nat) (p q : SNode × Option (BestDim K)) : Prop :=
  ∃ b c, p.2 = some b ∧ q.2 = some c ∧ BestDim.Alike num b c

section Tree

variable {rs : RuleSet} {d : Dim} {cap : Nat}

theorem buildStep_lockstep (hnum : rs.num = rs.items.length) (hfit : ∀ r ∈ rs.items, r.Fits)
    {p q : SNode × Option (BestDim K)} (h : (p.2 = none ∧ q.2 = none) ∨ BuildAlike rs.num p q)
    (i : Dim) :
    Lockstep (BuildAlike rs.num) (buildStep cap rs p i) (buildStep cap rs q i) := by
  unfold buildStep
  refine (splitMatchExpect1d_lockstep hnum hfit p.1 q.1).bind (fun x y hxy => ?_)
  obtain ⟨hcost, hsplit⟩ := hxy
  have hhere : BestDim.Alike rs.num (⟨x.1, i, x.2.r0, x.2.r1⟩ : BestDim K)
      ⟨y.1, i, y.2.r0, y.2.r1⟩ := by
    refine ⟨hcost, rfl, ?_⟩
    split at hsplit
    · obtain ⟨rfl, -⟩ := hsplit
      exact Or.inl rfl
    · obtain ⟨r0, r1, -, hx, hy⟩ := hsplit
      right
      rw [hx, hy]
      exact ⟨rfl, rfl⟩
  rcases h with ⟨hp, hq⟩ | ⟨b, c, hp, hq, hbc⟩
  · rw [hp, hq]
    exact Lockstep.ok ⟨_, _, rfl, rfl, hhere⟩
  · rw [hp, hq]
    dsimp only
    rw [hcost, hbc.mec]
    split
    · exact Lockstep.ok ⟨_, _, rfl, rfl, hcost ▸ hhere⟩
    · exact Lockstep.ok ⟨_, _, rfl, rfl, hbc⟩

/-- `split_match_build_childs` switches the side on or off regardless of what it held, and
a side that is on is new. -/
theorem splitMatchBuildChilds_lockstep (hnum : rs.num = rs.items.length)
    (hfit : ∀ r ∈ rs.items, r.Fits) (n m : SNode) :
    Lockstep SNode.Alike (splitMatchBuildChilds K cap n rs) (splitMatchBuildChilds K cap m rs) := by
  unfold splitMatchBuildChilds
  split
  · exact Lockstep.ok ⟨rfl, fun h => absurd h Bool.false_ne_true⟩
  · -- the first dimension is remembered in any case
    rw [show List.finRange 5 = 0 :: [1, 2, 3, 4] by decide, List.foldlM_cons, List.foldlM_cons]
    refine ((buildStep_lockstep hnum hfit (Or.inl ⟨rfl, rfl⟩) 0).bind (fun a b hab =>
      Lockstep.foldlM [1, 2, 3, 4]
        (fun a b i _ h => buildStep_lockstep hnum hfit (Or.inr h) i) hab)).bind ?_
    intro p q hpq
    obtain ⟨b, c, hp, hq, hbc⟩ := hpq
    rw [hp, hq]
    dsimp only
    refine Lockstep.ok ⟨?_, ?_⟩
    · dsimp only
      rw [hbc.mec]
    · intro hen
      dsimp only at hen
      rcases hbc.split with hmec | ⟨h0, h1⟩
      · rw [hmec, doubleEquals_self] at hen
        exact absurd hen Bool.false_ne_true
      · rw [hbc.minDim, hbc.mec, h0, h1]

theorem SNode.Alike.cases {a b : SNode} (h : a.Alike b) :
    (a.enabled = false ∧ b.enabled = false) ∨ a = b := by
  obtain ⟨heq, hon⟩ := h
  cases ha : a.enabled with
  | false => exact Or.inl ⟨rfl, heq ▸ ha⟩
  | true => exact Or.inr (hon ha)

theorem SNode.Alike.off (a b : SNode) :
    SNode.Alike { a with enabled := false } { b with enabled := false } :=
  ⟨rfl, fun h => absurd h Bool.false_ne_true⟩

/-- What is read of a node only while it is on is the same. -/
theorem SNode.Alike.ite {β : Type} {a b : SNode} (h : a.Alike b) (f : SNode → β) (c : β) :
    (if a.enabled = true then f a else c) = if b.enabled = true then f b else c := by
  rcases h.cases with ⟨ha, hb⟩ | rfl
  · rw [ha, hb, if_neg Bool.false_ne_true, if_neg Bool.false_ne_true]
  · rfl

theorem STree.Alike.fitsBs {t t' : STree} (h : t.Alike t') : splitFitsBs t = splitFitsBs t' := by
  unfold splitFitsBs
  rw [h.root]
  exact congrArg₂ (· && ·)
    (h.left.ite (fun n => decide (n.r0.weight ≤ bucketSize) && decide (n.r1.weight ≤ bucketSize)) _)
    (h.right.ite (fun n => decide (n.r0.weight ≤ bucketSize) && decide (n.r1.weight ≤ bucketSize)) _)

theorem STree.Alike.memQuant {t t' : STree} (h : t.Alike t') :
    splitMemQuant t = splitMemQuant t' := by
  unfold splitMemQuant
  rw [h.left.1, h.right.1]

theorem STree.Alike.subtree {t t' : STree} (h : t.Alike t') :
    (splitMatchExpectSubtree t : K) = splitMatchExpectSubtree t' := by
  unfold splitMatchExpectSubtree
  rw [h.root, h.left.1, h.right.1]
  have hl := h.left.ite (fun n => n.r0.weight + n.r1.weight) t'.root.r0.weight
  have hr := h.right.ite (fun n => n.r0.weight + n.r1.weight) t'.root.r1.weight
  rw [h.left.1] at hl
  rw [h.right.1] at hr
  dsimp only
  rw [hl, hr]

theorem SNode.Alike.splitSide {a b : SNode} (h : a.Alike b) (rs : RuleSet) :
    ChooseCut.splitSide a rs = ChooseCut.splitSide b rs := by
  unfold ChooseCut.splitSide
  rcases h.cases with ⟨ha, hb⟩ | rfl
  · rw [ha, hb]
    rfl
  · rfl

theorem STree.Alike.splitFill {t t' : STree} (h : t.Alike t') :
    ChooseCut.splitFill t = ChooseCut.splitFill t' := by
  unfold ChooseCut.splitFill
  rw [h.root, h.left.ite (fun n => some n.dim) none, h.right.ite (fun n => some n.dim) none,
    h.left.ite (fun n => n.r0.high) 0, h.right.ite (fun n => n.r0.high) 0, h.left.1, h.right.1]

theorem STree.Alike.splitCut {t t' : STree} (h : t.Alike t') :
    ChooseCut.splitCut cap t rs d = ChooseCut.splitCut cap t' rs d := by
  unfold ChooseCut.splitCut
  rw [h.root, h.splitFill, funext (fun p => h.left.splitSide p),
    funext (fun p => h.right.splitSide p)]

/-- The tree of a dimension in which all rules agree: the old one, switched off. -/
def STree.off (t : STree) (d : Dim) : STree :=
  ⟨{ t.root with dim := d, enabled := false }, { t.left with enabled := false },
    { t.right with enabled := false }⟩

/-- What two calls of `split_match_expect` store: the old trees, switched off, or trees that
are alike. -/
def TreeAlike (rs : RuleSet) (d : Dim) (s s' : STree) (p q : K × STree) : Prop :=
  p.1 = q.1 ∧
    if SameRange rs.items d then p.2 = s.off d ∧ q.2 = s'.off d else p.2.Alike q.2

/-- **Split costs do not depend on the scratch tree**, and where two rules differ the tree
stored does not either. -/
theorem splitMatchExpectTree_lockstep {aux aux' : SplitAux} (hranges : aux'.rangesCap = aux.rangesCap)
    (hrules : aux'.rulesCap = aux.rulesCap) (hnum : rs.num = rs.items.length)
    (hfit : ∀ r ∈ rs.items, r.Fits) :
    Lockstep (TreeAlike rs d (aux.strees d) (aux'.strees d)) (splitMatchExpectTree K aux rs d)
      (splitMatchExpectTree K aux' rs d) := by
  unfold splitMatchExpectTree
  rw [hranges, hrules]
  refine (splitMatchExpect1d_lockstep hnum hfit _ _).bind (fun p q hpq => ?_)
  obtain ⟨hcost, hsplit⟩ := hpq
  by_cases hsame : SameRange rs.items d
  · rw [if_pos hsame] at hsplit
    obtain ⟨rfl, rfl⟩ := hsplit
    dsimp only
    rw [if_pos (doubleEquals_self _), if_pos (doubleEquals_self _)]
    exact Lockstep.ok ⟨rfl, by rw [if_pos hsame]; exact ⟨rfl, rfl⟩⟩
  · rw [if_neg hsame] at hsplit
    obtain ⟨r0, r1, hs, hp, hq⟩ := hsplit
    have hroot : p.2 = q.2 := by rw [hp, hq]
    have halike : ∀ {me : K} {t t' : STree}, t.Alike t' →
        TreeAlike rs d (aux.strees d) (aux'.strees d) (me, t) (me, t') := by
      intro me t t' ht
      exact ⟨rfl, by rw [if_neg hsame]; exact ht⟩
    rw [hcost, hroot]
    split
    · exact Lockstep.ok (halike ⟨rfl, SNode.Alike.off _ _, SNode.Alike.off _ _⟩)
    split
    · exact Lockstep.ok (halike ⟨rfl, SNode.Alike.off _ _, SNode.Alike.off _ _⟩)
    -- two levels: the sides are cut from the same rules at the same split
    rw [splitCut1d_eq (n := q.2) (by rw [hq]; exact hs) hfit, hq]
    dsimp only
    split
    · have hside : ∀ (x : Range1d) (n m : SNode), x.range.lo ≤ x.range.hi →
          Lockstep SNode.Alike
            (splitMatchBuildChilds K aux.rangesCap n
              ((Buffer.alloc aux.rulesCap).extend (clipTo x.range d rs.items)))
            (splitMatchBuildChilds K aux.rangesCap m
              ((Buffer.alloc aux.rulesCap).extend (clipTo x.range d rs.items))) := by
        intro x n m hx
        refine splitMatchBuildChilds_lockstep (by simp) ?_ n m
        intro r hr
        obtain ⟨r', hr', hm, rfl⟩ := mem_clipTo (by simpa using hr)
        exact clip_fits (hfit r' hr') hx hm
      refine (hside r0 _ _ hs.left_le).bind (fun nl nl' hl => ?_)
      refine (hside r1 _ _ hs.right_le).bind (fun nr nr' hr => ?_)
      have ht : STree.Alike ⟨{ (aux'.strees d).root with dim := d, enabled := true, r0 := r0, r1 := r1 }, nl, nr⟩
          ⟨{ (aux'.strees d).root with dim := d, enabled := true, r0 := r0, r1 := r1 }, nl', nr'⟩ :=
        ⟨rfl, hl, hr⟩
      rw [ht.subtree]
      exact Lockstep.ok (halike ht)
    · exact Lockstep.error _

end Tree

end ChooseCut
