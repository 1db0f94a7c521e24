import ChooseCut.Cost
import ChooseCut.Ranges
import ChooseCut.Lib.Bits

/-!
# ChooseCut.CutHi

The hi cut (`cut-hi.c`, `cut-hi.h`): the hull of the rules in one dimension is cut
into equal segments, neighbouring segments that see the same rules are merged into
one child, and the number of segments is doubled as long as that pays.

The scratch entry of a dimension is an explicit argument and result. It is read
before it is written: `calc_me_ratio` is called on the duplicated-rule count that
is *stored*, which on the first call is the one an earlier node left there, and a
hull of less than four values leaves the whole entry as it was.
-/

namespace ChooseCut

variable {K : Type} [CostArith K]

/-- The entry of one dimension in `struct hi_aux`. -/
structure HiEntry where
  hist : RuleHist
  shift : Nat
  start : Nat
  nodeR : Nat → Nat × Nat

/-- `struct hi_aux`: the room in `ranges` and an entry for every dimension. -/
structure HiAux where
  rangesCap : Nat
  entries : Dim → HiEntry

/-- `roundup_log2`. -/
def roundupLog2 (n : Nat) : Nat :=
  let shift := Nat.log2 n + 1
  if n = 2 ^ (shift - 1) then shift - 1 else shift

/-! ### One granularity -/

/-- The variables of `hi_get_me_1d` that live across its loop. -/
structure HiSweep where
  rest : List Range1d
  heap : List Range1d
  curr : Nat
  prevNewEnds : Bool
  hist : RuleHist
  nodeR : Nat → Nat × Nat

/-- A segment opens a child or widens the last one. -/
def HiSweep.record (st : HiSweep) (newChild : Bool) (rules : Nat) : HiSweep :=
  let childs := st.hist.childs
  if newChild then
    let start := if childs = 0 then 0 else (st.nodeR (childs - 1)).2 + 1
    { st with
      hist := { childRulecount := Function.update st.hist.childRulecount childs rules
                childs := childs + 1
                rules := st.hist.rules + rules }
      nodeR := Function.update st.nodeR childs (start, start) }
  else
    let last := st.nodeR (childs - 1)
    { st with nodeR := Function.update st.nodeR (childs - 1) (last.1, last.2 + 1) }

/-- One segment: take in what starts before `curr`, drop what ends before it, count the
rules seen in between. -/
def HiSweep.segment (seg : Nat) (st : HiSweep) : HiSweep :=
  let started := st.rest.takeWhile (fun r => r.low < st.curr)
  let heap := started.foldl (fun h r => enqueue Range1d.high r h) st.heap
  let ended := heap.takeWhile (fun r => r.high < st.curr)
  let heap' := heap.dropWhile (fun r => r.high < st.curr)
  let rules := (ended.map Range1d.weight).sum + (heap'.map Range1d.weight).sum
  let st' : HiSweep :=
    { st with
      rest := st.rest.dropWhile (fun r => r.low < st.curr)
      heap := heap'
      curr := st.curr + seg
      prevNewEnds := !ended.isEmpty }
  st'.record (!started.isEmpty || st.prevNewEnds) rules

/-- The loop over the segments, at most `fuel` of them. -/
def HiSweep.run (seg : Nat) : Nat → HiSweep → HiSweep
  | 0, st => st
  | fuel + 1, st =>
      if st.rest = [] ∧ st.heap = [] then st else HiSweep.run seg fuel (st.segment seg)

/-- `hi_get_me_1d`: the histogram and the segments of each child. Each round passes one
segment, so the hull's number of segments bounds the rounds. -/
def hiGetMe1d (u : Range1d) (us : List Range1d) (high seg div : Nat) :
    RuleHist × (Nat → Nat × Nat) :=
  let st := HiSweep.run seg ((high - u.low) / seg + 1)
    { rest := us, heap := [u], curr := u.low + seg, prevNewEnds := true, hist := RuleHist.zero,
      nodeR := fun _ => (0, 0) }
  let last := st.hist.childs - 1
  (st.hist, Function.update st.nodeR last ((st.nodeR last).1, div - 1))

/-! ### Doubling the granularity -/

/-- `calc_me_ratio`; the difference of the counts is taken in `unsigned int`. -/
def calcMeRatio (rulenum dupRules : Nat) (me : K) : K :=
  if dupRules ≠ rulenum then
    CostArith.div (CostArith.sub (CostArith.ofNat rulenum) me)
      (CostArith.ofNat ((dupRules + 2 ^ 32 - rulenum) % 2 ^ 32))
  else CostArith.sub (CostArith.ofNat rulenum) me

/-- The segment size for `div` divisions. -/
def hiShift (len div : Nat) : Nat := roundupLog2 ((len + div - 1) / div)

/-- The `do`-loop of `hi_get_rule_hist`: store the granularity just computed, try the
next one, go on while the ratio grows. Five granularities exist, so four rounds are
enough. -/
def hiDouble (num : Nat) (u : Range1d) (us : List Range1d) (high : Nat) :
    Nat → Nat → Nat → RuleHist × (Nat → Nat × Nat) → K → K × HiEntry
  | fuel, div, shift, q, ratio =>
      let stored : HiEntry := ⟨q.1, shift, u.low, q.2⟩
      let len := high - u.low + 1
      let div' := div * 2
      let shift' := hiShift len div'
      if 64 < div' ∨ len < div' ∨ shift' = shift then (getMatchExpect q.1, stored)
      else
        match fuel with
        | 0 => (getMatchExpect q.1, stored)
        | fuel + 1 =>
            let q' := hiGetMe1d u us high (2 ^ shift') div'
            let ratio' := calcMeRatio num q.1.rules (getMatchExpect q'.1 : K)
            if CostArith.lt ratio ratio' then hiDouble num u us high fuel div' shift' q' ratio'
            else (getMatchExpect q.1, stored)

/-- `hi_get_rule_hist`: the cost and the entry stored. -/
def hiGetRuleHist (K : Type) [CostArith K] (rangesCap : Nat) (e : HiEntry) (rs : RuleSet)
    (d : Dim) : Except Fault (K × HiEntry) :=
  if rangesCap < rs.num then .error .overrun
  else
    match sweepRanges rs.items d with
    | [] => .error .overread
    | u :: us =>
        let high := us.foldl (fun h r => if h < r.high then r.high else h) u.high
        let len := high - u.low + 1
        if len < 4 then .ok (CostArith.ofNat rs.num, e)
        else
          let shift := hiShift len 4
          let q := hiGetMe1d u us high (2 ^ shift) 4
          .ok (hiDouble rs.num u us high 4 4 shift q
            (calcMeRatio rs.num e.hist.rules (getMatchExpect q.1 : K)))

/-- `hi_match_expect`: the cost and the scratch area with the entry stored. -/
def hiMatchExpect (K : Type) [CostArith K] (aux : HiAux) (rs : RuleSet) (d : Dim) :
    Except Fault (K × HiAux) := do
  let q ← hiGetRuleHist K aux.rangesCap (aux.entries d) rs d
  .ok (q.1, { aux with entries := Function.update aux.entries d q.2 })

/-! ### Distribution -/

/-- The first child whose segments contain `s`; `-1` in the source is `none`. -/
def hiChildOf (e : HiEntry) (s : Nat) : Option Nat :=
  (List.range e.hist.childs).find? (fun i => (e.nodeR i).1 ≤ s ∧ s ≤ (e.nodeR i).2)

/-- The copy of a rule that child `i` gets. -/
def hiTrim (e : HiEntry) (d : Dim) (r : Rule) (i : Nat) : Rule :=
  let trimS := e.start + (e.nodeR i).1 * 2 ^ e.shift
  let trimE := e.start + ((e.nodeR i).2 + 1) * 2 ^ e.shift
  r.setRange d
    ⟨if (r.range d).lo < trimS then trimS % 2 ^ 32 else (r.range d).lo,
      if trimE ≤ (r.range d).hi then (trimE - 1) % 2 ^ 32 else (r.range d).hi⟩

/-- `hi_push_rule`. -/
def hiPushRule (e : HiEntry) (d : Dim) (childs : List RuleSet) (r : Rule) :
    Except Fault (List RuleSet) :=
  let s := (((r.range d).lo + 2 ^ 32 - e.start) % 2 ^ 32) >>> e.shift
  let t := (((r.range d).hi + 2 ^ 32 - e.start) % 2 ^ 32) >>> e.shift
  match hiChildOf e s, hiChildOf e t with
  | some cs, some ce => do
      assertThat (cs ≤ ce)
      pushAll childs ((List.range' cs (ce + 1 - cs)).map (fun i => (i, hiTrim e d r i)))
  | some _, none => .error .assertion
  | none, _ => .error .wild

/-- `struct hi_node`. -/
structure HiNode where
  start : Nat
  shift : Nat
  bitmap : BitVec 64
  deriving Repr, DecidableEq

/-- `hi_set_bitmap` on a zeroed node: a bit at the last segment of every child but the
last. -/
def hiSetBitmap (e : HiEntry) : BitVec 64 :=
  (List.range (e.hist.childs - 1)).foldl (fun b i => setBit b (e.nodeR i).2) 0

/-- `hi_cut` up to the recursion: the node word and the filled children. -/
def hiCut (e : HiEntry) (rs : RuleSet) (d : Dim) : Except Fault (HiNode × List RuleSet) := do
  let childs := (List.range e.hist.childs).map (fun i => Buffer.alloc (e.hist.childRulecount i))
  let kids ← rs.items.foldlM (hiPushRule e d) childs
  assertThat (kids.map Buffer.num = (List.range e.hist.childs).map e.hist.childRulecount)
  .ok (⟨e.start, e.shift, hiSetBitmap e⟩, kids)

/-! ### Lookup -/

/-- `hi_next`: the array slot of the child of segment `idx`. A shift count of 64 or more
is taken modulo 64, as the machine does. -/
def hiNext (n : HiNode) (idx : Nat) : Nat := rank n.bitmap (idx % 64)

/-- `hi_search`: the array slot of the child reached, if the key is not below the
hull. -/
def hiSearch (n : HiNode) (d : Dim) (f : Flow) : Option Nat :=
  if f.key d < n.start then none else some (hiNext n ((f.key d - n.start) >>> n.shift))

end ChooseCut
