import ChooseCut.Cost
import ChooseCut.MbNode
import ChooseCut.PrefixIter

/-!
# ChooseCut.CutBitmap

The bitmap cut (`cut-bitmap.c`, `cut-bitmap.h`): the histogram over the 127
children, the placement of children in one array around `child_ptr`, the
distribution of the expanded rules, and the lookup.

The writes of `push_rules_even` are collected as a list of `(child index, rule)`
pairs in program order (`evenEntries`) and performed by `pushAll`, so that a
child overrun is a fault of the model.
-/

namespace ChooseCut

/-! ### The histogram -/

/-- The child a prefix belongs to: external by its first six bits, internal by
its heap position when it is shorter. -/
def prefixIdx (d : Dim) (p : Pfx) : Nat :=
  if stride ≤ p.len then (p.bits >>> (dimBits d - stride)) + inlOffset
  else countInlBitmap (p.bits >>> (dimBits d - p.len)) p.len

/-- First loop of `get_rule_hist`: one count per prefix of every rule. -/
def countPrefixes (rs : List Rule) (d : Dim) : Nat → Nat :=
  rs.foldl
    (fun c r =>
      (prefixes (r.range d) (dimBits d)).foldl
        (fun c p => Function.update c (prefixIdx d p) (c (prefixIdx d p) + 1)) c)
    (fun _ => 0)

/-- Body of the second loop: an occupied child adds its nearest occupied ancestor
and is counted. -/
def histStep (h : RuleHist) (i : Nat) : RuleHist :=
  if h.childRulecount i ≠ 0 then
    let n := h.childRulecount i + nearestUp h.childRulecount i i
    { childRulecount := Function.update h.childRulecount i n
      childs := h.childs + 1
      rules := h.rules + n }
  else h

/-- `get_rule_hist`. -/
def getRuleHist (rs : List Rule) (d : Dim) : RuleHist :=
  (List.range childCount).foldl histStep ⟨countPrefixes rs d, 0, 0⟩

/-! ### Children in memory -/

/-- `next_inl`, as an offset in the child array: internal children lie below
`child_ptr`. -/
def nextInl (n : MbNode) (idx : Nat) : Nat := n.childPtr - rank n.internal idx - 1

/-- `next_exl`: external children lie at and above `child_ptr`. -/
def nextExl (n : MbNode) (idx : Nat) : Nat := n.childPtr + rank n.external idx

/-- The array slot of child `i`. -/
def evenSlot (n : MbNode) (i : Nat) : Nat :=
  if i < inlOffset then nextInl n i else nextExl n (i - inlOffset)

/-- The node word `even_cut` builds: a bit for every occupied child, with
`child_ptr` behind the internal ones. -/
def evenNode (hist : RuleHist) : MbNode :=
  { external := setBits 64 (fun e => hist.childRulecount (e + inlOffset) ≠ 0) (2 ^ stride)
    internal := setBits 64 (fun i => hist.childRulecount i ≠ 0) inlOffset
    childPtr := count (fun i => hist.childRulecount i ≠ 0) inlOffset }

/-- The children allocated, each with room for the rules the histogram counted. -/
def evenAlloc (hist : RuleHist) : List RuleSet :=
  (List.range childCount).foldl
    (fun ks i =>
      if hist.childRulecount i ≠ 0 then
        ks.set (evenSlot (evenNode hist) i) (Buffer.alloc (hist.childRulecount i))
      else ks)
    (List.replicate (count (fun i => hist.childRulecount i ≠ 0) inlOffset
      + count (fun e => hist.childRulecount (e + inlOffset) ≠ 0) (2 ^ stride)) (Buffer.alloc 0))

/-! ### Distribution -/

/-- The prefix a rule keeps in its child: six bits shifted out, or everything when
the prefix was shorter. -/
def shiftPrefix (d : Dim) (p : Pfx) : Pfx :=
  if stride ≤ p.len then
    { bits := (p.bits <<< stride) % 2 ^ dimBits d, len := p.len - stride }
  else { bits := 0, len := 0 }

/-- The copy of the rule that stands for one of its prefixes. -/
def prefixRule (d : Dim) (r : Rule) (p : Pfx) : Rule :=
  r.setRange d (prefixToRange (shiftPrefix d p) (dimBits d))

/-- The writes for one prefix: its own child, and by `push_inl_rules_even` every
occupied child below it. -/
def pushPrefix (hist : RuleHist) (d : Dim) (r : Rule) (p : Pfx) : List (Nat × Rule) :=
  (prefixIdx d p, prefixRule d r p) ::
    if prefixIdx d p < inlOffset then
      ((descRows childCount (stride + 1) (prefixIdx d p * 2 + 1) 2).filter
        (fun i => hist.childRulecount i ≠ 0)).map (fun i => (i, prefixRule d r p))
    else []

/-- All writes of `push_rules_even`, in order. -/
def evenEntries (hist : RuleHist) (rs : List Rule) (d : Dim) : List (Nat × Rule) :=
  rs.flatMap (fun r => (prefixes (r.range d) (dimBits d)).flatMap (pushPrefix hist d r))

/-- `even_cut` up to the recursion: the node word and the filled children. -/
def evenCut (rs : RuleSet) (d : Dim) (hist : RuleHist) :
    Except Fault (MbNode × List RuleSet) := do
  let kids ← pushAll (evenAlloc hist)
    ((evenEntries hist rs.items d).map (fun e => (evenSlot (evenNode hist) e.1, e.2)))
  .ok (evenNode hist, kids)

/-! ### Lookup -/

/-- `even_search_lshift`: the key is cut to the width of its dimension. -/
def evenSearchLshift (dest bits lshift : Nat) : Nat := (dest <<< lshift) % 2 ^ bits

/-- `even_search`: the child reached and the flow with the consumed bits shifted
out, or nothing. -/
def evenSearch (n : MbNode) (d : Dim) (f : Flow) : Option (Nat × Flow) :=
  let s := (f.key d >>> (dimBits d - stride)) % 2 ^ 8
  if n.external.getLsbD s then
    some (nextExl n s, f.setKey d (evenSearchLshift (f.key d) (dimBits d) stride))
  else
    match treeFunction n.internal s with
    | none => none
    | some (pos, cidr) =>
        some (nextInl n pos, f.setKey d (evenSearchLshift (f.key d) (dimBits d) cidr))

/-- `even_match_expect`, without the store into the scratch area. -/
def evenMatchExpect {K : Type} [CostArith K] (rs : List Rule) (d : Dim) : K :=
  getMatchExpect (getRuleHist rs d)

end ChooseCut
