import ChooseCut.CutBitmap
import ChooseCut.CutHi
import ChooseCut.CutSplit
import ChooseCut.Redund
import ChooseCut.Lib.Trace

/-!
# ChooseCut.Cut

The tree builder and the lookup (`cut.c`, `cut-inl.h`): the choice among the three cut
methods, the recursion over the children, and the walk from the root to a leaf.

The scratch area `cut_aux` is threaded through the whole recursion as the code shares
it, and its contents before the first node are an argument: `cut` does not initialise
them. Every call of `cut_node` is recorded with the scratch and the rules it starts
from, so that a statement about every node of a run also covers the runs that stop at a
failed assertion. The program's recursion has no bound; `fuel` is the model's, and
running out of it is a fault of its own.
-/

namespace ChooseCut

/-! ### Methods -/

/-- `enum cut_type`. -/
inductive CutType
  | bitmap
  | split
  | hi
  deriving Repr, DecidableEq

/-- `struct cut_aux`. -/
structure CutAux where
  hist : Dim → RuleHist
  split : SplitAux
  hi : HiAux

/-- The union of node words in `struct cnode`; which member is valid is what the `type`
bits say. -/
inductive NodeWord
  | mb (n : MbNode)
  | sp (n : SpNode)
  | hi (n : HiNode)
  deriving DecidableEq

/-- The `type` bits of a node. -/
def NodeWord.type : NodeWord → CutType
  | .mb _ => .bitmap
  | .sp _ => .split
  | .hi _ => .hi

/-- `cuts[t].match_expect`: the cost, and the scratch area afterwards. -/
def matchExpect (K : Type) [CostArith K] (t : CutType) (aux : CutAux) (rs : RuleSet) (d : Dim) :
    Except Fault (K × CutAux) :=
  match t with
  | .bitmap =>
      .ok (evenMatchExpect rs.items d,
        { aux with hist := Function.update aux.hist d (getRuleHist rs.items d) })
  | .split => do
      let q ← splitMatchExpect K aux.split rs d
      .ok (q.1, { aux with split := q.2 })
  | .hi => do
      let q ← hiMatchExpect K aux.hi rs d
      .ok (q.1, { aux with hi := q.2 })

/-- `cuts[t].all_fits_bs`. -/
def allFitsBs (aux : CutAux) (t : CutType) (d : Dim) : Bool :=
  match t with
  | .bitmap => (aux.hist d).fitsBs
  | .split => splitFitsBs (aux.split.strees d)
  | .hi => (aux.hi.entries d).hist.fitsBs

/-- `cuts[t].mem_quant`. -/
def memQuant (aux : CutAux) (t : CutType) (d : Dim) : Nat :=
  match t with
  | .bitmap => (aux.hist d).childs
  | .split => splitMemQuant (aux.split.strees d)
  | .hi => (aux.hi.entries d).hist.childs

/-- `cuts[t].cut_node` up to the recursion: the node word and the filled children. -/
def cutInto (aux : CutAux) (rs : RuleSet) (t : CutType) (d : Dim) :
    Except Fault (NodeWord × List RuleSet) :=
  match t with
  | .bitmap => do
      let q ← evenCut rs d (aux.hist d)
      .ok (.mb q.1, q.2)
  | .split => do
      let q ← splitCut aux.split.rulesCap (aux.split.strees d) rs d
      .ok (.sp q.1, q.2)
  | .hi => do
      let q ← hiCut (aux.hi.entries d) rs d
      .ok (.hi q.1, q.2)

/-! ### Choosing the cut -/

/-- One more dimension for one method: `me[t]`, `min[t]` and `chose_dim[t]`. -/
def tryDim (K : Type) [CostArith K] (t : CutType) (rs : RuleSet) (p : CutAux × K × Dim) (i : Dim) :
    Except Fault (CutAux × K × Dim) := do
  let q ← matchExpect K t p.1 rs i
  .ok (q.2, if CostArith.lt q.1 p.2.1 then (q.1, i) else p.2)

/-- The best dimension of a method, with its cost. -/
def bestDim (K : Type) [CostArith K] (t : CutType) (aux : CutAux) (rs : RuleSet) :
    Except Fault (CutAux × K × Dim) := do
  let q ← matchExpect K t aux rs 0
  [1, 2, 3, 4].foldlM (tryDim K t rs) (q.2, q.1, 0)

/-- The best dimension of every method. -/
def bestDims (K : Type) [CostArith K] (aux : CutAux) (rs : RuleSet) :
    Except Fault (CutAux × (CutType → K × Dim)) := do
  let b ← bestDim K .bitmap aux rs
  let s ← bestDim K .split b.1 rs
  let h ← bestDim K .hi s.1 rs
  .ok (h.1, fun t => match t with | .bitmap => b.2 | .split => s.2 | .hi => h.2)

/-- The methods in the order the loops of `cut_node` try them. -/
def cutTypes : List CutType := [.bitmap, .split, .hi]

/-- The first pass: the method with the least cost, if that is below the rule count. -/
def chooseByExpect {K : Type} [CostArith K] (num : Nat) (min : CutType → K) : CutType :=
  (cutTypes.foldl (fun p t => if CostArith.lt (min t) p.1 then (min t, t) else p)
    (CostArith.ofNat num, CutType.bitmap)).2

/-- The second pass, under `memory_constraints`: the first method with the least entry in
`mem_quant`, if that is below the entry of bitmap. -/
def chooseByMemory (quant : CutType → Nat) (chosen : CutType) : CutType :=
  (cutTypes.foldl (fun p t => if quant t < p.1 then (quant t, t) else p)
    (quant .bitmap, chosen)).2

/-- `mem_quant[t]`: the number of children if they fit, `CHILDCOUNT` if not. -/
def quantOf (aux : CutAux) (t : CutType) (d : Dim) : Nat :=
  if allFitsBs aux t d then memQuant aux t d else childCount

/-- The choice of `cut_node`: the scratch area after the costs were computed, the method
and the dimension. -/
def selectCut (K : Type) [CostArith K] (aux : CutAux) (rs : RuleSet) :
    Except Fault (CutAux × CutType × Dim) := do
  let c ← bestDims K aux rs
  let t := chooseByMemory (fun t => quantOf c.1 t (c.2 t).2)
    (chooseByExpect rs.num (fun t => (c.2 t).1))
  .ok (c.1, t, (c.2 t).2)

/-! ### The recursion -/

/-- A node of the tree. A leaf keeps its rules; at any other node the rules have been
freed, the node word is set and the children lie in one array. -/
inductive CTree
  | leaf (ruleset : RuleSet)
  | node (dim : Dim) (word : NodeWord) (childs : List CTree)

/-- A child that has not been visited yet: the zeroed node. -/
def CTree.blank : CTree := .node 0 (.mb ⟨0, 0, 0⟩) []

/-- The order in which the children are cut: `even_cut_recursive` peels the two bitmaps,
`cut_recursive` walks the array. -/
def visitOrder (w : NodeWord) (childs : Nat) : List Nat :=
  match w with
  | .mb n => (peel n.internal 64 0).map (nextInl n) ++ (peel n.external 64 0).map (nextExl n)
  | _ => List.range childs

@[simp] theorem visitOrder_mb (n : MbNode) (childs : Nat) :
    visitOrder (.mb n) childs =
      (peel n.internal 64 0).map (nextInl n) ++ (peel n.external 64 0).map (nextExl n) := rfl

/-- A call of `cut_node`: the scratch area and the rules of the node. -/
structure Call where
  aux : CutAux
  rs : RuleSet

/-- The loop over the children: remove the redundant rules of each, then cut it. -/
def visitChilds (rec : CutAux → RuleSet → Trace Call (CTree × CutAux)) (kids : List RuleSet) :
    List Nat → CutAux → List CTree → Trace Call (List CTree × CutAux)
  | [], aux, cs => pure (cs, aux)
  | s :: order, aux, cs =>
      match kids[s]? with
      | none => Trace.lift (.error .wild)
      | some k => do
          let p ← rec aux (removeRedund k)
          visitChilds rec kids order p.2 (cs.set s p.1)

/-- `cut_node`. -/
def cutNode (K : Type) [CostArith K] : Nat → CutAux → RuleSet → Trace Call (CTree × CutAux)
  | 0, _, _ => Trace.lift (.error .fuel)
  | fuel + 1, aux, rs => do
      Trace.tell ⟨aux, rs⟩
      if rs.num ≤ bucketSize then pure (.leaf rs, aux)
      else do
        let c ← Trace.lift (selectCut K aux rs)
        let q ← Trace.lift (cutInto c.1 rs c.2.1 c.2.2)
        let p ← visitChilds (cutNode K fuel) q.2 (visitOrder q.1 q.2.length) c.1
          (List.replicate q.2.length CTree.blank)
        pure (.node c.2.2 q.1 p.1, p.2)

/-- The loop of `darray_next_alloc`, at most `fuel` doublings. -/
def growLoop : Nat → Nat → Nat → Nat
  | 0, alloc, _ => alloc
  | fuel + 1, alloc, need => if alloc < need then growLoop fuel (alloc * 2) need else alloc

/-- `darray_growalloc` on an empty array: the room it makes for `need` items. -/
def growAlloc (need : Nat) : Nat := if 0 < need then growLoop need 1 need else 0

/-- The three `aux_init` functions: buffers are sized from the root's rule count, the rest
of the scratch area is left as it is. -/
def auxInit (aux : CutAux) (num : Nat) : CutAux :=
  { aux with
    split := { aux.split with rangesCap := growAlloc num, rulesCap := num }
    hi := { aux.hi with rangesCap := growAlloc num } }

/-- `cut`, on the copy of the rules `main` makes, with `aux` the contents of the
uninitialised scratch area. -/
def cut (K : Type) [CostArith K] (fuel : Nat) (aux : CutAux) (rs : List Rule) :
    Trace Call (CTree × CutAux) :=
  cutNode K fuel (auxInit aux rs.length) (Buffer.ofList rs)

/-! ### Search -/

/-- One step of `search`: the slot of the next child and the flow as the step leaves it,
or no child. -/
def nextChild (w : NodeWord) (d : Dim) (f : Flow) : Option (Nat × Flow) :=
  match w with
  | .mb n => evenSearch n d f
  | .sp n => some (splitSearch n d f, f)
  | .hi n => (hiSearch n d f).map (fun s => (s, f))

@[simp] theorem nextChild_mb (n : MbNode) (d : Dim) (f : Flow) :
    nextChild (.mb n) d f = evenSearch n d f := rfl

@[simp] theorem nextChild_hi (n : HiNode) (d : Dim) (f : Flow) :
    nextChild (.hi n) d f = (hiSearch n d f).map (fun s => (s, f)) := rfl

mutual

/-- `search`. -/
def search : CTree → Flow → Except Fault Int
  | .leaf rs, f => lsearch rs f
  | .node d w childs, f =>
      match nextChild w d f with
      | none => .ok (-1)
      | some (s, f') => searchNth childs s f'

/-- `search` from slot `s` of an array. -/
def searchNth : List CTree → Nat → Flow → Except Fault Int
  | [], _, _ => .error .wild
  | c :: _, 0, f => search c f
  | _ :: cs, s + 1, f => searchNth cs s f

end

theorem searchNth_eq (cs : List CTree) (s : Nat) (f : Flow) :
    searchNth cs s f = match cs[s]? with | some c => search c f | none => .error .wild := by
  induction cs generalizing s with
  | nil => simp [searchNth]
  | cons c cs ih =>
      cases s with
      | zero => simp [searchNth]
      | succ s => simpa [searchNth] using ih s

end ChooseCut
