import ChooseCut.Cost
import ChooseCut.Ranges
import ChooseCut.Lib.Bits

/-!
# ChooseCut.CutSplit

The split cut (`cut-split.c`, `cut-split.h`): one split of the chosen dimension,
and on each side one more split in that side's best dimension, so that a node has
two, three or four children.

The scratch trees are explicit arguments and results. A rule set inside a scratch
node is never read before it is rewritten, so `SNode` leaves it out and the rules
are passed beside it; the ranges and weights *are* read stale when a sweep returns
early, so they are kept.
-/

namespace ChooseCut

variable {K : Type} [CostArith K]

/-! ### Scratch -/

/-- `struct snode`; `enabled` is `flags == 1`. -/
structure SNode where
  dim : Dim
  enabled : Bool
  r0 : Range1d
  r1 : Range1d
  deriving Repr, DecidableEq

/-- `struct stree`. -/
structure STree where
  root : SNode
  left : SNode
  right : SNode
  deriving Repr, DecidableEq

/-- `struct split_aux`: the room in `ranges`, the room in `left_rules` and
`right_rules`, and a tree for every dimension. -/
structure SplitAux where
  rangesCap : Nat
  rulesCap : Nat
  strees : Dim → STree

/-! ### The sweep of one dimension -/

/-- The best split so far: `min_me`, `split` and the two weights `find_min_me_do`
stores in the node. -/
structure Best (K : Type) where
  minMe : K
  split : Nat
  weight0 : Nat
  weight1 : Nat

/-- `find_min_me_do`. -/
def findMinMeDo (b : Best K) (curr : K) (scurr left right : Nat) : Best K :=
  if CostArith.lt curr b.minMe then ⟨curr, scurr, left, right⟩ else b

/-- `split_match_expect_heuristic`. -/
def splitMatchExpectHeuristic (left right : Nat) : K :=
  CostArith.add (CostArith.div (CostArith.sqU right) (CostArith.ofNat (right + left)))
    (CostArith.div (CostArith.sqU left) (CostArith.ofNat (right + left)))

/-- The variables of `split_match_expect_1d` that live across its loops. -/
structure Sweep (K : Type) where
  heap : List Range1d
  left : Nat
  s : Nat
  high : Nat
  best : Best K

/-- Weigh a split behind position `pos`: the ended ranges and the open ones lie on
the left, everything that has not ended on the right. -/
def Sweep.evaluate (num : Nat) (st : Sweep K) (pos : Nat) : Sweep K :=
  let dup := (st.heap.map Range1d.weight).sum
  let right := num - st.left
  { st with
    best := findMinMeDo st.best (splitMatchExpectHeuristic (st.left + dup) right) pos
      (st.left + dup) right }

/-- Remove every open range that ends at `e`. -/
def Sweep.popEnd (st : Sweep K) (e : Nat) : Sweep K :=
  { st with
    high := if st.high < e then e else st.high
    left := st.left + ((st.heap.takeWhile (fun x => x.high = e)).map Range1d.weight).sum
    heap := st.heap.dropWhile (fun x => x.high = e) }

/-- The inner `while`: handle the ends before `low`. Each round empties the front of
the heap, so the heap's length bounds the rounds. -/
def Sweep.drain (num low : Nat) : Nat → Sweep K → Sweep K
  | 0, st => st
  | fuel + 1, st =>
      match st.heap with
      | [] => st
      | top :: _ =>
          if top.high < low then
            Sweep.drain num low fuel ((st.popEnd top.high).evaluate num top.high)
          else st

/-- Body of the main loop: the next range `r`. -/
def Sweep.next (num : Nat) (st : Sweep K) (r : Range1d) : Sweep K :=
  let st := st.drain num r.low st.heap.length
  if r.low = st.s then { st with heap := enqueue Range1d.high r st.heap }
  else
    let st := st.evaluate num (r.low - 1)
    { st with s := r.low, heap := enqueue Range1d.high r st.heap }

/-- The loop `while(h->len > 1)` behind the main loop. -/
def Sweep.flush (num : Nat) : Nat → Sweep K → Sweep K
  | 0, st => st
  | fuel + 1, st =>
      match st.heap with
      | top :: _ :: _ =>
          let st' := st.popEnd top.high
          Sweep.flush num fuel (if st'.heap ≠ [] then st'.evaluate num top.high else st')
      | _ => st

/-- The last range leaves the heap. -/
def Sweep.finish (st : Sweep K) : Sweep K :=
  match st.heap with
  | top :: rest => { st with high := if st.high < top.high then top.high else st.high, heap := rest }
  | [] => st

/-- The sweep over the ranges `u :: us`; `w0`, `w1` are the weights the node holds
before. -/
def splitSweep (num w0 w1 : Nat) (u : Range1d) (us : List Range1d) : Sweep K :=
  let st := us.foldl (Sweep.next num)
    { heap := [u], left := 0, s := u.low, high := u.high,
      best := ⟨CostArith.ofNat num, u.low, w0, w1⟩ }
  (Sweep.flush num st.heap.length st).finish

/-- `split_match_expect_1d`: the cost and the node with its ranges. A node with one
distinct range is returned untouched. -/
def splitMatchExpect1d (rangesCap : Nat) (n : SNode) (rs : RuleSet) (d : Dim) :
    Except Fault (K × SNode) :=
  if rangesCap < rs.num then .error .overrun
  else
    match sweepRanges rs.items d with
    | u :: v :: us => do
        let st : Sweep K := splitSweep rs.num n.r0.weight n.r1.weight u (v :: us)
        assertThat (st.heap = [])
        .ok (st.best.minMe,
          { n with
            r0 := ⟨u.low, st.best.split, st.best.weight0⟩
            r1 := ⟨st.best.split + 1, st.high, st.best.weight1⟩ })
    | _ => .ok (CostArith.ofNat rs.num, n)

/-! ### Distribution -/

/-- The part of a rule inside `x`, if there is one. -/
def trimTo (x : Range1d) (d : Dim) (r : Rule) : Option Rule :=
  if ¬ ((r.range d).hi < x.low ∨ x.high < (r.range d).lo) then
    some (r.setRange d
      ⟨if (r.range d).lo < x.low then x.low else (r.range d).lo,
        if x.high < (r.range d).hi then x.high else (r.range d).hi⟩)
  else none

/-- Append when there is something to append. -/
def pushTrimmed (b : RuleSet) : Option Rule → Except Fault RuleSet
  | some r => b.push r
  | none => .ok b

/-- Body of `_split_cut_1d`: a rule goes to the sides it meets, trimmed. -/
def splitCutRule (d : Dim) (left right : Range1d) (p : RuleSet × RuleSet) (r : Rule) :
    Except Fault (RuleSet × RuleSet) := do
  let lrs ← pushTrimmed p.1 (trimTo left d r)
  let rrs ← pushTrimmed p.2 (trimTo right d r)
  .ok (lrs, rrs)

/-- `_split_cut_1d`. -/
def splitCut1dInto (ors : RuleSet) (d : Dim) (left right : Range1d) (lrs rrs : RuleSet) :
    Except Fault (RuleSet × RuleSet) :=
  ors.items.foldlM (splitCutRule d left right) (lrs, rrs)

/-- `split_cut_1d`, into emptied buffers of capacity `cap`. -/
def splitCut1d (cap : Nat) (n : SNode) (rs : RuleSet) (d : Dim) :
    Except Fault (RuleSet × RuleSet) := do
  let p ← splitCut1dInto rs d n.r0 n.r1 (Buffer.alloc cap) (Buffer.alloc cap)
  assertThat (p.1.num = n.r0.weight)
  assertThat (p.2.num = n.r1.weight)
  .ok p

/-! ### Choosing the tree -/

/-- What `split_match_build_childs` remembers of the dimensions tried: `mec`,
`min_dim` and `min_r`. -/
structure BestDim (K : Type) where
  mec : K
  minDim : Dim
  r0 : Range1d
  r1 : Range1d

/-- One round of `split_match_build_childs`. -/
def buildStep (rangesCap : Nat) (rs : RuleSet) (p : SNode × Option (BestDim K)) (i : Dim) :
    Except Fault (SNode × Option (BestDim K)) := do
  let q ← splitMatchExpect1d (K := K) rangesCap p.1 rs i
  let here : BestDim K := ⟨q.1, i, q.2.r0, q.2.r1⟩
  match p.2 with
  | none => .ok (q.2, some here)
  | some b => .ok (q.2, if CostArith.lt q.1 b.mec then some here else some b)

/-- `split_match_build_childs`. -/
def splitMatchBuildChilds (K : Type) [CostArith K] (rangesCap : Nat) (n : SNode) (rs : RuleSet) :
    Except Fault SNode :=
  if rs.num ≤ bucketSize then .ok { n with enabled := false }
  else do
    let p ← (List.finRange 5).foldlM (buildStep (K := K) rangesCap rs) ({ n with enabled := true }, none)
    match p.2 with
    | none => .ok p.1
    | some b =>
        .ok { dim := b.minDim
              enabled := !doubleEquals b.mec (CostArith.ofNat rs.num)
              r0 := b.r0
              r1 := b.r1 }

/-- `split_match_expect_subtree`. -/
def splitMatchExpectSubtree (t : STree) : K :=
  let rulesL := if t.left.enabled then t.left.r0.weight + t.left.r1.weight else t.root.r0.weight
  let rulesR := if t.right.enabled then t.right.r0.weight + t.right.r1.weight else t.root.r1.weight
  let childs := 2 + (if t.left.enabled then 1 else 0) + (if t.right.enabled then 1 else 0)
  CostArith.div (CostArith.ofNat (rulesL + rulesR)) (CostArith.ofNat childs)

/-- `split_match_expect` on the tree of dimension `d`. -/
def splitMatchExpectTree (K : Type) [CostArith K] (aux : SplitAux) (rs : RuleSet) (d : Dim) :
    Except Fault (K × STree) := do
  let t := aux.strees d
  let q ← splitMatchExpect1d (K := K) aux.rangesCap { t.root with dim := d, enabled := true } rs d
  let left := { t.left with enabled := false }
  let right := { t.right with enabled := false }
  if doubleEquals q.1 (CostArith.ofNat rs.num) then
    .ok (q.1, ⟨{ q.2 with enabled := false }, left, right⟩)
  else if q.2.r0.weight ≤ bucketSize ∧ q.2.r1.weight ≤ bucketSize then
    .ok (q.1, ⟨q.2, left, right⟩)
  else do
    let p ← splitCut1d aux.rulesCap q.2 rs d
    let left ← splitMatchBuildChilds K aux.rangesCap t.left p.1
    let right ← splitMatchBuildChilds K aux.rangesCap t.right p.2
    .ok (splitMatchExpectSubtree ⟨q.2, left, right⟩, ⟨q.2, left, right⟩)

/-- `split_match_expect`: the cost and the scratch area with the tree stored. -/
def splitMatchExpect (K : Type) [CostArith K] (aux : SplitAux) (rs : RuleSet) (d : Dim) :
    Except Fault (K × SplitAux) := do
  let q ← splitMatchExpectTree K aux rs d
  .ok (q.1, { aux with strees := Function.update aux.strees d q.2 })

/-- `split_mem_quant`. -/
def splitMemQuant (t : STree) : Nat :=
  2 + (if t.left.enabled then 1 else 0) + (if t.right.enabled then 1 else 0)

/-- `split_fits_bs`. -/
def splitFitsBs (t : STree) : Bool :=
  (if t.left.enabled then
      decide (t.left.r0.weight ≤ bucketSize) && decide (t.left.r1.weight ≤ bucketSize)
    else decide (t.root.r0.weight ≤ bucketSize)) &&
  (if t.right.enabled then
      decide (t.right.r0.weight ≤ bucketSize) && decide (t.right.r1.weight ≤ bucketSize)
    else decide (t.root.r1.weight ≤ bucketSize))

/-! ### The node -/

/-- `struct sp_node`; the dimension number `DIM`, which marks a side without a second
split, is `none`. -/
structure SpNode where
  dimLeft : Option Dim
  dimRight : Option Dim
  shape : BitVec 8
  rootSplit : Nat
  leftSplit : Nat
  rightSplit : Nat
  deriving Repr, DecidableEq

/-- `split_fill` on a zeroed node, without the number of children it returns, which
is `splitMemQuant`. -/
def splitFill (t : STree) : SpNode :=
  { dimLeft := if t.left.enabled then some t.left.dim else none
    dimRight := if t.right.enabled then some t.right.dim else none
    shape := 0x5 ||| (if t.left.enabled then 0x2 else 0) ||| (if t.right.enabled then 0x8 else 0)
    rootSplit := t.root.r0.high
    leftSplit := if t.left.enabled then t.left.r0.high else 0
    rightSplit := if t.right.enabled then t.right.r0.high else 0 }

/-- The children of one side: the side itself, or its two halves. -/
def splitSide (n : SNode) (rs : RuleSet) : Except Fault (List RuleSet) :=
  if n.enabled then do
    let p ← splitCut1dInto rs n.dim n.r0 n.r1 (Buffer.alloc n.r0.weight) (Buffer.alloc n.r1.weight)
    .ok [p.1, p.2]
  else .ok [{ rs with cap := rs.num }]

/-- `split_cut` up to the recursion: the node word and the filled children. -/
def splitCut (rulesCap : Nat) (t : STree) (rs : RuleSet) (d : Dim) :
    Except Fault (SpNode × List RuleSet) := do
  let p ← splitCut1d rulesCap t.root rs d
  let left ← splitSide t.left p.1
  let right ← splitSide t.right p.2
  .ok (splitFill t, left ++ right)

/-! ### Lookup -/

/-- `split_next`: the array slot of child `idx`. -/
def splitNext (n : SpNode) (idx : Nat) : Nat := rank n.shape idx

/-- The child number `split_search` computes. -/
def splitIdx (n : SpNode) (d : Dim) (f : Flow) : Nat :=
  if n.rootSplit < f.key d then
    match n.dimRight with
    | some e => if n.rightSplit < f.key e then 3 else 2
    | none => 2
  else
    match n.dimLeft with
    | some e => if n.leftSplit < f.key e then 1 else 0
    | none => 0

/-- `split_search`: the array slot of the child reached. -/
def splitSearch (n : SpNode) (d : Dim) (f : Flow) : Nat := splitNext n (splitIdx n d f)

end ChooseCut
