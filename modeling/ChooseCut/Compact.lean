import ChooseCut.Traverse

/-!
# ChooseCut.Compact

Copying a tree into one array (`cut.c`: `compact_traverse`, `compact`, and the
`count_childs` and `set_child_ptr` methods).

The array is a `darray`, and a node in it keeps a pointer to its children, so this is
the one place where the model needs addresses. A pointer leads to an element of the
child array of a node of the original tree, or to an element of the block the array was
in after a number of reallocations. A pointer into an earlier block is dangling.

What `compact` is for is `SelfContained`: from element 0 every child pointer leads to
the copies of the children, inside the array. What it does is different. The callback
patches the element after the ones copied so far, which is never element 0, so the
first pointer followed leaves the array.
-/

namespace ChooseCut

/-! ### Nodes in memory -/

/-- A `struct cnode *`. -/
inductive NodePtr
  | null
  /-- What lies in memory that was never written. -/
  | junk
  /-- Element `idx` of the child array of the original node at `owner`. -/
  | kid (owner : List Nat) (idx : Int)
  /-- Element `idx` of the array, in the block it got by its `block`-th allocation. -/
  | item (block : Nat) (idx : Int)
  deriving DecidableEq

/-- Pointer arithmetic. -/
def NodePtr.add : NodePtr → Int → NodePtr
  | .null, _ => .null
  | .junk, _ => .junk
  | .kid owner idx, k => .kid owner (idx + k)
  | .item block idx, k => .item block (idx + k)

/-- The control bits, the node word and the rules of a `struct cnode`. -/
inductive NodeBody
  | leaf (ruleset : RuleSet)
  | inner (dim : Dim) (word : NodeWord)

/-- A `struct cnode` in memory. The child pointer stands at the same place in the three
node words; a body of `none` was never written. -/
structure CNode where
  body : Option NodeBody
  childPtr : NodePtr

/-- The element of its child array that a node's pointer leads to: a bitmap node points
behind its internal children. -/
def NodeWord.base : NodeWord → Nat
  | .mb n => n.childPtr
  | _ => 0

/-- The original node at `addr`, as it lies in memory. -/
def CTree.cnode (addr : List Nat) : CTree → CNode
  | .leaf rs => ⟨some (.leaf rs), .null⟩
  | .node d w _ => ⟨some (.inner d w), .kid addr w.base⟩

/-! ### The array -/

/-- `ctree_t`: the elements allocated, the number of them in use, and the number of times
the block was allocated. -/
structure CtArray where
  items : List CNode
  size : Nat
  block : Nat

/-- `darray_realloc`, to at least the present room. -/
def CtArray.realloc (ct : CtArray) (alloc : Nat) : CtArray :=
  { ct with
    items := ct.items ++ List.replicate (alloc - ct.items.length) ⟨none, .junk⟩
    block := ct.block + 1 }

/-- `darray_next_alloc`. -/
def nextAlloc (alloc need : Nat) : Nat := growLoop need (if alloc = 0 then 1 else alloc) need

/-- `darray_append`. -/
def CtArray.append (ct : CtArray) (n : CNode) : CtArray :=
  let ct := if ct.items.length < ct.size + 1 then
      ct.realloc (nextAlloc ct.items.length (ct.size + 1)) else ct
  { ct with items := ct.items.set ct.size n, size := ct.size + 1 }

/-- `darray_make_room`, without the pointer it returns, which leads to element `size`. -/
def CtArray.makeRoom (ct : CtArray) (room : Nat) : CtArray :=
  if ct.items.length < ct.size + room then ct.realloc (ct.size + room) else ct

/-! ### Compaction -/

/-- `even_count_childs` on a node that is not a leaf. -/
def evenCountChilds (n : MbNode) : Nat := popcount n.external + popcount n.internal

/-- `split_count_childs` on a node that is not a leaf. -/
def splitCountChilds (n : SpNode) : Nat := popcount n.shape

/-- `hi_count_childs` on a node that is not a leaf: `__builtin_popcount` takes an
`unsigned int`, so that the upper half of the bitmap is lost. -/
def hiCountChilds (n : HiNode) : Nat := popcount (n.bitmap.setWidth 32)

/-- `cuts[type].count_childs`. -/
def countChilds : NodeWord → Nat
  | .mb n => evenCountChilds n
  | .sp n => splitCountChilds n
  | .hi n => hiCountChilds n

/-- `cuts[type].set_child_ptr`: the pointer stored in the copy. -/
def setChildPtr (w : NodeWord) (childs : NodePtr) : NodePtr :=
  match w with
  | .mb n => childs.add (popcount n.internal)
  | _ => childs

/-- `struct ct_info`. -/
structure CtInfo where
  ct : CtArray
  copied : Nat

/-- `compact_traverse`. -/
def compactTraverse : TraverseFunc CtInfo := fun addr n _ ci =>
  let ct := ci.ct.append (n.cnode addr)
  let copied := ci.copied + 1
  match n with
  | .leaf _ => .ok ⟨ct, copied⟩
  | .node _ w _ =>
      let childs := countChilds w
      let ct := ct.makeRoom childs
      -- the element patched is number `copied`, counted after the increment
      match ct.items[copied]? with
      | none => .error .overrun
      | some cn =>
          .ok ⟨{ ct with
            items := ct.items.set copied
              { cn with childPtr := setChildPtr w (.item ct.block ct.size) }
            size := ct.size + childs }, copied⟩

/-- `compact`. -/
def compact (root : CTree) : Except Fault CtArray := do
  let ci ← traverse compactTraverse root [] 0 ⟨⟨[], 0, 0⟩, 0⟩
  .ok ci.ct

/-! ### Search through pointers -/

/-- The node at an address of a tree. -/
def CTree.sub : CTree → List Nat → Option CTree
  | t, [] => some t
  | .leaf _, _ :: _ => none
  | .node _ _ childs, s :: addr => childs[s]?.bind (fun c => c.sub addr)

/-- The node a pointer leads to, with the original tree and the array in memory. -/
def loadNode (root : CTree) (ct : CtArray) : NodePtr → Except Fault CNode
  | .kid owner idx =>
      match if 0 ≤ idx then root.sub (owner ++ [idx.toNat]) else none with
      | some c => .ok (c.cnode (owner ++ [idx.toNat]))
      | none => .error .wild
  | .item block idx =>
      match if block = ct.block ∧ 0 ≤ idx then ct.items[idx.toNat]? else none with
      | some c => .ok c
      | none => .error .wild
  | .null => .error .wild
  | .junk => .error .wild

/-- `search` from a node in memory, with a record of the nodes it visits. -/
def searchFrom (root : CTree) (ct : CtArray) : Nat → NodePtr → Flow → Trace NodePtr Int
  | 0, _, _ => Trace.lift (.error .fuel)
  | fuel + 1, p, f => do
      Trace.tell p
      let c ← Trace.lift (loadNode root ct p)
      match c.body with
      | none => Trace.lift (.error .overread)
      | some (.leaf rs) => Trace.lift (lsearch rs f)
      | some (.inner d w) =>
          match nextChild w d f with
          | none => pure (-1)
          | some (s, f') => searchFrom root ct fuel (c.childPtr.add (s - w.base)) f'

/-! ### What a compact tree is -/

/-- The pointer leads to an element of the array in use. -/
def CtArray.Holds (ct : CtArray) (p : NodePtr) : Prop :=
  ∃ i : Nat, i < ct.size ∧ p = .item ct.block i

/-- Element `i` is a copy of the tree: it has the bits, the word and the rules of the root,
and its pointer leads to copies of the children, in order and inside the array. -/
inductive CopyAt (ct : CtArray) : Nat → CTree → Prop
  | leaf {i : Nat} {rs : RuleSet} {p : NodePtr} (hi : i < ct.size)
      (h : ct.items[i]? = some ⟨some (.leaf rs), p⟩) : CopyAt ct i (.leaf rs)
  | node {i : Nat} {d : Dim} {w : NodeWord} {start : Nat} {childs : List CTree} (hi : i < ct.size)
      (h : ct.items[i]? = some ⟨some (.inner d w), .item ct.block (start + w.base)⟩)
      (hkids : ∀ (s : Nat) ch, childs[s]? = some ch → CopyAt ct (start + s) ch) :
      CopyAt ct i (.node d w childs)

/-- The array is a self-contained copy of the tree: element 0 is a copy of it, and a search
that starts there stays in the array and returns what a search in the tree returns. -/
def SelfContained (ct : CtArray) (root : CTree) : Prop :=
  CopyAt ct 0 root ∧ ∀ f : Flow, ∃ fuel,
    (searchFrom root ct fuel (.item ct.block 0) f).res = search root f ∧
      ∀ p ∈ (searchFrom root ct fuel (.item ct.block 0) f).log, ct.Holds p

/-! ### Element 0 -/

section First

/-- Element 0 holds the root as it was copied, and at least that one was. -/
structure FirstIs (n : CNode) (ci : CtInfo) : Prop where
  first : ci.ct.items[0]? = some n
  used : 0 < ci.ct.size
  copied : 0 < ci.copied

variable {ct : CtArray} {n : CNode} {i : Nat}

theorem realloc_getElem? (alloc : Nat) (h : ct.items[i]? = some n) :
    (ct.realloc alloc).items[i]? = some n := by
  rw [CtArray.realloc, List.getElem?_append_left (List.getElem?_eq_some_iff.mp h).1, h]

@[simp] theorem realloc_size (alloc : Nat) : (ct.realloc alloc).size = ct.size := rfl

/-- Appending keeps the elements in use. -/
theorem append_getElem? (m : CNode) (hi : i < ct.size) (h : ct.items[i]? = some n) :
    (ct.append m).items[i]? = some n := by
  unfold CtArray.append
  dsimp only
  split
  · rw [List.getElem?_set_ne (by simp only [realloc_size]; omega)]
    exact realloc_getElem? _ h
  · rw [List.getElem?_set_ne (by omega), h]

theorem append_size (m : CNode) : (ct.append m).size = ct.size + 1 := by
  unfold CtArray.append
  dsimp only
  split <;> rfl

theorem makeRoom_getElem? (room : Nat) (h : ct.items[i]? = some n) :
    (ct.makeRoom room).items[i]? = some n := by
  unfold CtArray.makeRoom
  split
  · exact realloc_getElem? _ h
  · exact h

theorem makeRoom_size (room : Nat) : (ct.makeRoom room).size = ct.size := by
  unfold CtArray.makeRoom
  split <;> rfl

end First

section Walk

variable {σ : Type} {f : TraverseFunc σ} {P : σ → Prop}

mutual

/-- What the callback keeps, a walk keeps. -/
theorem traverse_inv (hf : ∀ addr n depth a a', P a → f addr n depth a = .ok a' → P a') :
    ∀ (tree : CTree) (addr : List Nat) (depth : Nat) (a a' : σ), P a →
      traverse f tree addr depth a = .ok a' → P a'
  | .leaf rs, addr, depth, a, a', ha, h => by
      rw [traverse] at h
      exact hf _ _ _ _ _ ha h
  | .node d w childs, addr, depth, a, a', ha, h => by
      rw [traverse] at h
      obtain ⟨b, hb, h⟩ := bind_eq_ok.mp h
      refine foldlM_inv (fun c s c' hc hstep => ?_) _ (hf _ _ _ _ _ ha hb) h
      split at hstep
      · rename_i go hgo
        exact traverseEach_inv hf childs go (List.mem_of_getElem? hgo) _ _ _ _ hc hstep
      · cases hstep

theorem traverseEach_inv (hf : ∀ addr n depth a a', P a → f addr n depth a = .ok a' → P a') :
    ∀ (cs : List CTree), ∀ go ∈ traverseEach f cs, ∀ (addr : List Nat) (depth : Nat) (a a' : σ),
      P a → go addr depth a = .ok a' → P a'
  | [], go, hgo, _, _, _, _, _, _ => by simp [traverseEach] at hgo
  | c :: cs, go, hgo, addr, depth, a, a', ha, h => by
      rw [traverseEach] at hgo
      rcases List.mem_cons.mp hgo with rfl | hgo
      · exact traverse_inv hf c addr depth a a' ha h
      · exact traverseEach_inv hf cs go hgo addr depth a a' ha h

end

end Walk

/-- The callback never patches element 0. -/
theorem FirstIs.step {n : CNode} {ci ci' : CtInfo} {addr : List Nat} {t : CTree} {depth : Nat}
    (h : FirstIs n ci) (hf : compactTraverse addr t depth ci = .ok ci') : FirstIs n ci' := by
  have happ := append_getElem? (t.cnode addr) h.used h.first
  cases t with
  | leaf rs =>
      obtain rfl := Except.ok.inj hf
      exact ⟨happ, by simp [append_size], by simp⟩
  | node d w childs =>
      simp only [compactTraverse] at hf
      split at hf
      · cases hf
      · obtain rfl := Except.ok.inj hf
        refine ⟨?_, ?_, by simp⟩
        · rw [List.getElem?_set_ne (by omega)]
          exact makeRoom_getElem? _ happ
        · simp only [makeRoom_size, append_size]
          omega

/-- Copying the root of a tree that is not a leaf leaves element 0 with the pointer into
the original tree. -/
theorem compactTraverse_root {d : Dim} {w : NodeWord} {childs : List CTree} {ci : CtInfo}
    (h : compactTraverse [] (.node d w childs) 0 ⟨⟨[], 0, 0⟩, 0⟩ = .ok ci) :
    FirstIs ((CTree.node d w childs).cnode []) ci := by
  simp only [compactTraverse] at h
  split at h
  · cases h
  · obtain rfl := Except.ok.inj h
    refine ⟨?_, ?_, by simp⟩
    · rw [List.getElem?_set_ne (by omega)]
      exact makeRoom_getElem? _ rfl
    · simp only [makeRoom_size, append_size]
      omega

/-- **Element 0 of a compact tree points into the original tree**, unless it is a leaf. -/
theorem compact_first {d : Dim} {w : NodeWord} {childs : List CTree} {ct : CtArray}
    (h : compact (.node d w childs) = .ok ct) :
    ct.items[0]? = some ⟨some (.inner d w), .kid [] w.base⟩ := by
  obtain ⟨ci, hci, h⟩ := bind_eq_ok.mp h
  obtain rfl := Except.ok.inj h
  rw [traverse] at hci
  obtain ⟨ci0, hroot, hwalk⟩ := bind_eq_ok.mp hci
  refine (foldlM_inv (fun c s c' hc hstep => ?_) _ (compactTraverse_root hroot) hwalk).first
  split at hstep
  · rename_i go hgo
    exact traverseEach_inv (fun _ _ _ _ _ => FirstIs.step) childs go (List.mem_of_getElem? hgo)
      _ _ _ _ hc hstep
  · cases hstep

theorem compact_leaf (rs : RuleSet) :
    compact (.leaf rs) = .ok ⟨[⟨some (.leaf rs), .null⟩], 1, 1⟩ := rfl

/-- **Only a leaf is compacted to a self-contained copy.** -/
theorem compact_selfContained_iff (tree : CTree) :
    (∃ ct, compact tree = .ok ct ∧ SelfContained ct tree) ↔ ∃ rs, tree = .leaf rs := by
  constructor
  · rintro ⟨ct, hct, hcopy, -⟩
    cases hcopy with
    | leaf hi h => exact ⟨_, rfl⟩
    | node hi h hkids =>
        rw [compact_first hct] at h
        cases h
  · rintro ⟨rs, rfl⟩
    refine ⟨_, compact_leaf rs, .leaf (Nat.zero_lt_one) rfl, fun f => ⟨1, ?_, ?_⟩⟩
    · rw [search]
      rfl
    · intro p hp
      exact ⟨0, Nat.zero_lt_one, List.mem_singleton.mp hp⟩

/-- A run returns a leaf exactly when the rules fit a bucket. -/
theorem cut_leaf_iff {K : Type} [CostArith K] {fuel : Nat} {aux aux' : CutAux} {rs : List Rule}
    {tree : CTree} (hrun : (cut K fuel aux rs).res = .ok (tree, aux')) :
    (∃ l, tree = .leaf l) ↔ rs.length ≤ bucketSize := by
  unfold cut at hrun
  cases fuel with
  | zero => cases hrun
  | succ fuel =>
      by_cases hsmall : rs.length ≤ bucketSize
      · rw [cutNode_leaf (show (Buffer.ofList rs).num ≤ bucketSize from hsmall)] at hrun
        obtain ⟨rfl, -⟩ := Prod.mk.inj (Except.ok.inj hrun)
        exact ⟨fun _ => hsmall, fun _ => ⟨_, rfl⟩⟩
      · have hbig : bucketSize < (Buffer.ofList rs).num := Nat.lt_of_not_le hsmall
        refine ⟨?_, fun h => absurd h hsmall⟩
        rintro ⟨l, rfl⟩
        cases hsel : selectCut K (auxInit aux rs.length) (Buffer.ofList rs) with
        | error e =>
            rw [cutNode_fault hbig (Or.inl hsel)] at hrun
            cases hrun
        | ok c =>
            obtain ⟨aux1, t, d⟩ := c
            cases hcut : cutInto aux1 (Buffer.ofList rs) t d with
            | error e =>
                rw [cutNode_fault hbig (Or.inr ⟨aux1, t, d, hsel, hcut⟩)] at hrun
                cases hrun
            | ok q =>
                rw [(cutNode_node hbig hsel hcut).2] at hrun
                obtain ⟨p, -, hp⟩ := bind_eq_ok.mp hrun
                cases hp

/-- **When `compact` does what it is for.** For every tree a run of `cut` returns, the array
is a self-contained copy of the tree exactly when the rules fit a bucket, so that the
tree is a single leaf. -/
theorem compact_selfContained_cut {K : Type} [CostArith K] {fuel : Nat} {aux aux' : CutAux}
    {rs : List Rule} {tree : CTree} (hrun : (cut K fuel aux rs).res = .ok (tree, aux')) :
    (∃ ct, compact tree = .ok ct ∧ SelfContained ct tree) ↔ rs.length ≤ bucketSize :=
  (compact_selfContained_iff tree).trans (cut_leaf_iff hrun)

/-- A single rule makes a leaf, and that is copied. -/
theorem compact_selfContained_single :
    ∃ tree aux, (cut ℚ 1 .zero [.onFirst 0 5 5]).res = .ok (tree, aux) ∧
      ∃ ct, compact tree = .ok ct ∧ SelfContained ct tree :=
  ⟨_, _, rfl, (@compact_selfContained_cut ℚ _ 1 .zero _ [.onFirst 0 5 5] _ rfl).mpr (by decide)⟩

/-- **A search leaves the array.** The tree of the two groups is a root with two leaves.
`compact` copies them to elements 0, 3 and 4; element 0 points into the original tree,
and the search for a flow of the second group goes from element 0 to the original
leaf. -/
theorem pairRules_leaves_array :
    runHas (cut ℚ 2 .zero pairRules)
      (fun tree =>
        match compact tree with
        | .ok ct =>
            ct.size = 5 ∧ (ct.items[0]?).map CNode.childPtr = some (.kid [] 0) ∧
              (ct.items.take 5).map (fun n => n.body.isSome) = [true, false, false, true, true] ∧
              (searchFrom tree ct 2 (.item ct.block 0) (.onFirst (2 ^ 31))).log
                = [.item ct.block 0, .kid [] 1]
        | .error _ => false)
      (fun c => c.dispatchFresh ℚ) = true := by
  decide +kernel

/-! ### Counting the children -/

theorem length_peel {w : Nat} (b : BitVec w) : (peel b w 0#w).length = popcount b := by
  have h := congrArg List.length (map_rank_peel b)
  simpa using h

/-- The walk follows as many slots as the two bitmaps, or the shape, have bits. -/
theorem length_traverseSlots (w : NodeWord) (h : w.type ≠ .hi) :
    (traverseSlots w).length = countChilds w := by
  cases w with
  | mb n =>
      simp [traverseSlots, evenTraverse, countChilds, evenCountChilds, length_peel, Nat.add_comm]
  | sp n => simp [traverseSlots, splitTraverse, countChilds, splitCountChilds, length_peel]
  | hi n => exact absurd rfl h

/-- The bits counted of a hi word are among its separators. -/
theorem countChilds_hi_le {n : HiNode} {k : Nat} (h : WordFits (.hi n) k) :
    countChilds (.hi n) ≤ k - 1 := by
  obtain ⟨m, hm, heq⟩ := h
  have hpop : popcount n.bitmap = m := by
    have := congrArg List.length ((hiTraverse_eq n).symm.trans heq)
    simpa using this
  exact (popcount_setWidth_le (by decide) n.bitmap).trans (hpop.trans_le hm)

/-- **A word counts its children**, but for the word of a hi node that has any. -/
theorem WordFits.countChilds_iff {d : Dim} {w : NodeWord} {childs : List CTree}
    (h : WordFits w childs.length) :
    countChilds w = childs.length ↔ (CTree.node d w childs).cutsHi = false := by
  constructor
  · intro hcount
    cases w with
    | mb n => rfl
    | sp n => rfl
    | hi n =>
        have hle := countChilds_hi_le h
        cases childs with
        | nil => rfl
        | cons c cs =>
            rw [hcount, List.length_cons] at hle
            omega
  · intro hno
    have hslots := (wordFits_of_not_cutsHi h hno).length_eq
    rw [List.length_range] at hslots
    cases w with
    | mb n => rw [← length_traverseSlots _ (by simp [NodeWord.type]), hslots]
    | sp n => rw [← length_traverseSlots _ (by simp [NodeWord.type]), hslots]
    | hi n =>
        have hle := countChilds_hi_le h
        cases childs with
        | nil => exact Nat.le_zero.mp hle
        | cons c cs => cases hno

/-- Every word of a shaped tree fits the array of its node. -/
theorem Shaped.wordFits {tree : CTree} (h : Shaped tree) : ∀ {addr : List Nat} {n : List Nat} {d : Dim}
    {w : NodeWord} {childs : List CTree},
    (n, CTree.node d w childs) ∈ tree.listing arrayOrder addr → WordFits w childs.length := by
  induction h with
  | leaf rs =>
      intro addr n d w childs hn
      simp [listing_leaf] at hn
  | @node d' w' childs' hw hkids ih =>
      intro addr n d w childs hn
      rw [listing_node] at hn
      rcases List.mem_cons.mp hn with heq | hn
      · obtain ⟨-, -, rfl, rfl⟩ : n = addr ∧ d = d' ∧ w = w' ∧ childs = childs' := by
          simpa using heq
        exact hw
      · obtain ⟨s, c, hc, hn⟩ := mem_flatMap_listingSlot.mp hn
        exact ih c (List.mem_of_getElem? hc) hn

/-- The elements the callback takes for a node: its copy and the children counted. -/
theorem compactTraverse_size {addr : List Nat} {d : Dim} {w : NodeWord} {childs : List CTree}
    {depth : Nat} {ci ci' : CtInfo}
    (h : compactTraverse addr (.node d w childs) depth ci = .ok ci') :
    ci'.ct.size = ci.ct.size + 1 + countChilds w := by
  simp only [compactTraverse] at h
  split at h
  · cases h
  · obtain rfl := Except.ok.inj h
    simp only [makeRoom_size, append_size]

/-- **When a node's children are counted right.** At every node that is not a leaf, of every
tree a run of `cut` returns, `count_childs` is the number of children allocated, and
`compact_traverse` reserves room for exactly these, if and only if the node is not a hi node
with children. -/
theorem countChilds_cut {K : Type} [CostArith K] {fuel : Nat} {aux aux' : CutAux} {rs : List Rule}
    {tree : CTree} (hrun : (cut K fuel aux rs).res = .ok (tree, aux')) {addr : List Nat} {d : Dim}
    {w : NodeWord} {childs : List CTree} (hn : (addr, CTree.node d w childs) ∈ tree.nodes) :
    (countChilds w = childs.length ↔ (CTree.node d w childs).cutsHi = false) ∧
      ∀ depth ci ci', compactTraverse addr (.node d w childs) depth ci = .ok ci' →
        (ci'.ct.size = ci.ct.size + 1 + childs.length ↔
          (CTree.node d w childs).cutsHi = false) := by
  have hcount : countChilds w = childs.length ↔ (CTree.node d w childs).cutsHi = false :=
    ((cut_shaped hrun).wordFits hn).countChilds_iff
  refine ⟨hcount, fun depth ci ci' h => ?_⟩
  rw [compactTraverse_size h, Nat.add_left_cancel_iff]
  exact hcount

/-- The root of the tree of the two groups is a bitmap node, and its two children are
counted. -/
theorem countChilds_pairRules :
    ∃ tree aux, (cut ℚ 2 .zero pairRules).res = .ok (tree, aux) ∧
      ∃ d w childs, ([], CTree.node d w childs) ∈ tree.nodes ∧ childs.length = 2 ∧
        countChilds w = childs.length := by
  obtain ⟨aux, a, b, hrun, -⟩ := pairRules_tree
  have hn : ([], CTree.node 0 (.mb ⟨0x100000001#64, 0, 0⟩) [.leaf a, .leaf b]) ∈
      (CTree.node 0 (.mb ⟨0x100000001#64, 0, 0⟩) [.leaf a, .leaf b]).nodes := by
    rw [CTree.nodes, listing_node]
    exact List.mem_cons_self
  exact ⟨_, aux, hrun, _, _, _, hn, rfl, (countChilds_cut hrun hn).1.mpr rfl⟩

/-- **A child is not counted.** The root of this tree is a hi node over six leaves, and
`hi_count_childs` counts its five separators. -/
theorem gapRules_uncounted :
    runHas (cut ℚ 2 .zero gapRules)
      (fun tree => match tree with
        | .leaf _ => false
        | .node _ w childs => w.type = .hi ∧ childs.length = 6 ∧ countChilds w = 5)
      (fun c => c.dispatchFresh ℚ) = true := by
  obtain ⟨aux, l₀, l₁, l₂, l₃, l₅, hrun, hlog⟩ := gapRules_tree
  have hcount : countChilds (.hi ⟨0, 7, 0x4f#64⟩) = 5 := by decide
  exact runHas_iff.mpr ⟨_, aux, hrun, by simp [hcount, NodeWord.type], hlog⟩

end ChooseCut
