import ChooseCut.Lookup

/-!
# ChooseCut.Traverse

Walking a finished tree (`cut.c`: `traverse`, `get_tree_info`, and the three `traverse`
methods).

Each method peels the bits of its own node word and maps a bit to a slot of the child
array by rank. For a bitmap node the bits of the two words are the children, for a split
node the bits of the shape are, and the walk visits every slot once. A hi node with `N`
children has `N - 1` separator bits, and the walk stops one child short.

A node is named by its address: the slots on the way to it from the root. The callback
gets it next to the node, so that "once on every node" can be said of trees with equal
subtrees.
-/

namespace ChooseCut

/-! ### The walk -/

/-- The slots `even_traverse` goes to, in order. -/
def evenTraverse (n : MbNode) : List Nat :=
  (peel n.internal 64 0#64).map (nextInl n) ++ (peel n.external 64 0#64).map (nextExl n)

/-- The slots `split_traverse` goes to, in order. -/
def splitTraverse (n : SpNode) : List Nat := (peel n.shape 8 0#8).map (splitNext n)

/-- The slots `hi_traverse` goes to, in order. -/
def hiTraverse (n : HiNode) : List Nat := (peel n.bitmap 64 0#64).map (hiNext n)

/-- `cuts[type].traverse`, as the slots it goes to. -/
def traverseSlots : NodeWord → List Nat
  | .mb n => evenTraverse n
  | .sp n => splitTraverse n
  | .hi n => hiTraverse n

/-- The callback of a walk: it gets the address of the node, the node, the depth, and the
data `arg` points to, which it may change. -/
abbrev TraverseFunc (σ : Type) := List Nat → CTree → Nat → σ → Except Fault σ

mutual

/-- `traverse`. A leaf is a zeroed node but for its rules: its type is that of a bitmap
node and its words have no bit, so that the walk ends there. -/
def traverse {σ : Type} (f : TraverseFunc σ) : CTree → List Nat → Nat → σ → Except Fault σ
  | .leaf rs, addr, depth, arg => f addr (.leaf rs) depth arg
  | .node d w childs, addr, depth, arg => do
      let arg ← f addr (.node d w childs) depth arg
      (traverseSlots w).foldlM (fun arg s =>
        match (traverseEach f childs)[s]? with
        | some go => go (addr ++ [s]) (depth + 1) arg
        | none => .error .wild) arg

/-- The walks from the slots of an array. -/
def traverseEach {σ : Type} (f : TraverseFunc σ) :
    List CTree → List (List Nat → Nat → σ → Except Fault σ)
  | [] => []
  | c :: cs => traverse f c :: traverseEach f cs

end

theorem traverseEach_eq {σ : Type} (f : TraverseFunc σ) (cs : List CTree) :
    traverseEach f cs = cs.map (traverse f) := by
  induction cs with
  | nil => simp [traverseEach]
  | cons c cs ih => simp [traverseEach, ih]

/-! ### Tree information -/

/-- `struct ctree_info`, without the two averages. -/
structure CTreeInfo where
  nodeCnt : Nat
  leafCnt : Nat
  ruleCnt : Nat
  depthCnt : Nat
  maxDepth : Nat
  accessCnt : Nat
  cutType : CutType → Nat

/-- `struct ctree_info info = {0}`. -/
def CTreeInfo.zero : CTreeInfo := ⟨0, 0, 0, 0, 0, 0, fun _ => 0⟩

/-- `get_tree_info_traverse`. -/
def getTreeInfoTraverse : TraverseFunc CTreeInfo := fun _ n depth info =>
  let info := { info with
    maxDepth := if info.maxDepth < depth then depth else info.maxDepth
    nodeCnt := info.nodeCnt + 1 }
  match n with
  | .leaf rs =>
      .ok { info with
        leafCnt := info.leafCnt + 1
        ruleCnt := info.ruleCnt + rs.num
        depthCnt := info.depthCnt + depth
        accessCnt := info.accessCnt + (depth + rs.num) }
  | .node _ w _ =>
      .ok { info with cutType := Function.update info.cutType w.type (info.cutType w.type + 1) }

/-- `get_tree_info`, up to printing the numbers. -/
def getTreeInfo (root : CTree) : Except Fault CTreeInfo :=
  traverse getTreeInfoTraverse root [] 0 .zero

/-! ### The nodes of a tree -/

mutual

/-- The nodes of a tree with their addresses, each node before the ones below it, where
`order` says which slots of a node are followed. -/
def CTree.listing (order : NodeWord → Nat → List Nat) :
    CTree → List Nat → List (List Nat × CTree)
  | .leaf rs, addr => [(addr, .leaf rs)]
  | .node d w childs, addr => (addr, .node d w childs) ::
      (order w childs.length).flatMap (fun s =>
        match (listingEach order childs)[s]? with
        | some go => go (addr ++ [s])
        | none => [])

/-- The listings of the slots of an array. -/
def listingEach (order : NodeWord → Nat → List Nat) :
    List CTree → List (List Nat → List (List Nat × CTree))
  | [] => []
  | c :: cs => c.listing order :: listingEach order cs

end

/-- Every slot of an array, first to last. -/
def arrayOrder : NodeWord → Nat → List Nat := fun _ n => List.range n

/-- All nodes: the root and every child allocated. -/
def CTree.nodes (tree : CTree) : List (List Nat × CTree) := tree.listing arrayOrder []

/-- The listing of the child in slot `s`, if there is one. -/
def listingSlot (order : NodeWord → Nat → List Nat) (childs : List CTree) (addr : List Nat)
    (s : Nat) : List (List Nat × CTree) :=
  match childs[s]? with
  | some c => c.listing order (addr ++ [s])
  | none => []

section Listing

variable {order : NodeWord → Nat → List Nat} {d : Dim} {w : NodeWord} {childs : List CTree}
  {addr : List Nat}

theorem listingEach_eq (cs : List CTree) :
    listingEach order cs = cs.map (CTree.listing order) := by
  induction cs with
  | nil => simp [listingEach]
  | cons c cs ih => simp [listingEach, ih]

theorem listing_leaf (rs : RuleSet) : (CTree.leaf rs).listing order addr = [(addr, .leaf rs)] := by
  simp [CTree.listing]

theorem listing_node : (CTree.node d w childs).listing order addr =
    (addr, .node d w childs) ::
      (order w childs.length).flatMap (listingSlot order childs addr) := by
  rw [CTree.listing, listingEach_eq]
  congr 2
  funext s
  rw [List.getElem?_map, listingSlot]
  cases childs[s]? <;> rfl

theorem listing_ne_nil (c : CTree) : c.listing order addr ≠ [] := by
  cases c with
  | leaf rs => simp [listing_leaf]
  | node d w childs => simp [listing_node]

/-- In array order, the listings of the slots are those of the children. -/
theorem mem_flatMap_listingSlot {n : List Nat × CTree} :
    n ∈ (List.range childs.length).flatMap (listingSlot order childs addr) ↔
      ∃ (s : Nat) (c : CTree), childs[s]? = some c ∧ n ∈ c.listing order (addr ++ [s]) := by
  simp only [List.mem_flatMap, List.mem_range, listingSlot]
  constructor
  · rintro ⟨s, hs, hn⟩
    rw [List.getElem?_eq_getElem hs] at hn
    exact ⟨s, childs[s], List.getElem?_eq_getElem hs, hn⟩
  · rintro ⟨s, c, hc, hn⟩
    refine ⟨s, (List.getElem?_eq_some_iff.mp hc).1, ?_⟩
    rw [hc]
    exact hn

end Listing

/-! ### Words and child arrays -/

/-- The slots of a node word, against an array of `n` children: the slots of a bitmap and
of a split word are the array, those of a hi word are the array without its last
element. -/
def WordFits (w : NodeWord) (n : Nat) : Prop :=
  match w with
  | .hi h => ∃ k, k ≤ n - 1 ∧ traverseSlots (.hi h) = List.range k
  | w => (traverseSlots w).Perm (List.range n)

/-- A tree whose node words fit their arrays. -/
inductive Shaped : CTree → Prop
  | leaf (rs : RuleSet) : Shaped (.leaf rs)
  | node {d : Dim} {w : NodeWord} {childs : List CTree} (hw : WordFits w childs.length)
      (hkids : ∀ c ∈ childs, Shaped c) : Shaped (.node d w childs)

/-- Peeling a word and ranking the bits counts them. -/
theorem map_rank_peel {w : Nat} (b : BitVec w) :
    (peel b w 0#w).map (rank b) = List.range (popcount b) := by
  rw [peel_eq_bitPositions, map_rank_bitPositions]

/-- The shape has a bit for every child, whatever the tree of splits. -/
theorem splitTraverse_splitFill (t : STree) :
    splitTraverse (splitFill t) = List.range (splitMemQuant t) := by
  have hbits : ∀ l r : Bool, popcount (0x5#8 ||| (if l then 0x2 else 0) ||| (if r then 0x8 else 0))
      = 2 + (if l then 1 else 0) + (if r then 1 else 0) := by decide
  have hpop : popcount (splitFill t).shape = splitMemQuant t := hbits _ _
  rw [← hpop]
  exact map_rank_peel _

/-- A segment bit is below 64, so that the walk over a hi node is by rank. -/
theorem hiTraverse_eq (n : HiNode) : hiTraverse n = List.range (popcount n.bitmap) := by
  rw [← map_rank_peel, hiTraverse]
  apply List.map_congr_left
  intro i hi
  rw [peel_eq_bitPositions, mem_bitPositions] at hi
  rw [hiNext, Nat.mod_eq_of_lt (BitVec.lt_of_getLsbD hi)]

/-- A bit for every child but the last makes at most that many bits. -/
theorem popcount_hiSetBitmap_le (e : HiEntry) : popcount (hiSetBitmap e) ≤ e.hist.childs - 1 := by
  have h := popcount_foldl_setBit_le (fun i => (e.nodeR i).2) (List.range (e.hist.childs - 1)) 0#64
  rwa [List.length_range, popcount_zero, Nat.zero_add] at h

theorem hiPushRule_length {e : HiEntry} {d : Dim} {r : Rule} {bs bs' : List RuleSet}
    (h : hiPushRule e d bs r = .ok bs') : bs'.length = bs.length := by
  unfold hiPushRule at h
  dsimp only at h
  split at h
  · obtain ⟨-, -, h⟩ := bind_eq_ok.mp h
    rw [pushAll_ok h, extendAll_length]
  · cases h
  · cases h

/-- The two sides of a split make as many children as `split_mem_quant` says. -/
theorem splitSide_length {n : SNode} {rs : RuleSet} {ks : List RuleSet}
    (h : splitSide n rs = .ok ks) : ks.length = 1 + if n.enabled then 1 else 0 := by
  unfold splitSide at h
  split at h
  · obtain ⟨p, -, h⟩ := bind_eq_ok.mp h
    rw [← Except.ok.inj h]
    simp [*]
  · rw [← Except.ok.inj h]
    simp [*]

/-- **A cut fits its word to its array**, from any scratch area. -/
theorem cutInto_wordFits {aux : CutAux} {rs : RuleSet} {t : CutType} {d : Dim} {w : NodeWord}
    {ks : List RuleSet} (h : cutInto aux rs t d = .ok (w, ks)) : WordFits w ks.length := by
  cases t with
  | bitmap =>
      obtain ⟨q, hq, h⟩ := bind_eq_ok.mp h
      obtain ⟨bs, hbs, hq⟩ := bind_eq_ok.mp hq
      obtain rfl := Except.ok.inj hq
      obtain ⟨rfl, rfl⟩ := Prod.mk.inj (Except.ok.inj h)
      rw [pushAll_ok hbs, extendAll_length, evenAlloc_spec.1]
      exact evenOrder_perm _
  | split =>
      obtain ⟨q, hq, h⟩ := bind_eq_ok.mp h
      obtain ⟨p, -, hq⟩ := bind_eq_ok.mp hq
      obtain ⟨left, hleft, hq⟩ := bind_eq_ok.mp hq
      obtain ⟨right, hright, hq⟩ := bind_eq_ok.mp hq
      obtain rfl := Except.ok.inj hq
      obtain ⟨rfl, rfl⟩ := Prod.mk.inj (Except.ok.inj h)
      have hlen : (left ++ right).length = splitMemQuant (aux.split.strees d) := by
        rw [List.length_append, splitSide_length hleft, splitSide_length hright, splitMemQuant]
        omega
      show (splitTraverse _).Perm _
      rw [splitTraverse_splitFill, hlen]
  | hi =>
      obtain ⟨q, hq, h⟩ := bind_eq_ok.mp h
      obtain ⟨bs, hbs, hq⟩ := bind_eq_ok.mp hq
      obtain ⟨-, -, hq⟩ := bind_eq_ok.mp hq
      obtain rfl := Except.ok.inj hq
      obtain ⟨rfl, rfl⟩ := Prod.mk.inj (Except.ok.inj h)
      have hlen : bs.length = (aux.hi.entries d).hist.childs := by
        refine @foldlM_inv _ _ _ (fun bs => bs.length = (aux.hi.entries d).hist.childs) ?_ _ _ _
          (by rw [List.length_map, List.length_range]) hbs
        exact fun bs r bs' hbs hpush => (hiPushRule_length hpush).trans hbs
      refine ⟨_, ?_, hiTraverse_eq _⟩
      rw [hlen]
      exact popcount_hiSetBitmap_le _

/-- Every child is cut once, whatever the scratch area. -/
theorem WordFits.visitOrder_perm {w : NodeWord} {n : Nat} (h : WordFits w n) :
    (visitOrder w n).Perm (List.range n) := by
  cases w with
  | mb m => exact h
  | sp m => exact List.Perm.refl _
  | hi m => exact List.Perm.refl _

/-- **What holds of the tree of every run of `cut` that returns**, own scratch or not: a
leaf has at most a bucket of rules, and the word of a node fits its array. -/
theorem cut_tree_induct {K : Type} [CostArith K] {fuel : Nat} {aux aux' : CutAux} {rs : List Rule}
    {tree : CTree} {P : CTree → Prop} (leaf : ∀ rs : RuleSet, rs.num ≤ bucketSize → P (.leaf rs))
    (node : ∀ d w (childs : List CTree), WordFits w childs.length → (∀ c ∈ childs, P c) →
      P (.node d w childs))
    (hrun : (cut K fuel aux rs).res = .ok (tree, aux')) : P tree := by
  have hrule : RunRule K (fun _ => True) (fun _ _ => True) (fun _ => True)
      (fun _ tree => P tree) (fun _ => True) :=
    { fuel := fun _ _ => trivial
      leaf := fun _ c _ _ _ hsmall => leaf c.rs hsmall
      select_error := fun _ _ _ _ _ _ _ _ => trivial
      cut_error := fun _ _ _ _ _ _ _ _ _ _ _ _ => trivial
      node := by
        intro n c aux t d w ks _ _ _ _ _ hcut
        have hw := cutInto_wordFits hcut
        refine ⟨trivial, ?_, fun _ _ => trivial, fun childs hlen hch => node d w _ (hlen ▸ hw) ?_⟩
        · exact hw.visitOrder_perm
        · intro ch hmem
          obtain ⟨s, hs, rfl⟩ := List.mem_iff_getElem.mp hmem
          exact hch s _ _ (List.getElem?_eq_getElem (hlen ▸ hs)) (List.getElem?_eq_getElem hs) }
  exact ((hrule.cutNode fuel _ _ trivial trivial (fun _ _ => trivial)).2.of_ok hrun).1

theorem cut_shaped {K : Type} [CostArith K] {fuel : Nat} {aux aux' : CutAux} {rs : List Rule}
    {tree : CTree} (hrun : (cut K fuel aux rs).res = .ok (tree, aux')) : Shaped tree :=
  cut_tree_induct (fun rs _ => .leaf rs) (fun _ _ _ hw hkids => .node hw hkids) hrun

theorem cut_leaves_small {K : Type} [CostArith K] {fuel : Nat} {aux aux' : CutAux} {rs : List Rule}
    {tree : CTree} (hrun : (cut K fuel aux rs).res = .ok (tree, aux')) :
    ∀ l ∈ tree.leaves, l.num ≤ bucketSize := by
  refine cut_tree_induct (P := fun tree => ∀ l ∈ tree.leaves, l.num ≤ bucketSize) ?_ ?_ hrun
  · intro rs hsmall l hl
    rw [CTree.leaves, List.mem_singleton] at hl
    exact hl ▸ hsmall
  · intro d w childs _ hkids l hl
    rw [CTree.leaves, mem_leavesOf] at hl
    obtain ⟨c, hc, hl⟩ := hl
    exact hkids c hc l hl

/-! ### What the walk visits -/

/-- The nodes a walk visits, in order. -/
def CTree.visited (tree : CTree) : List Nat → List (List Nat × CTree) :=
  tree.listing (fun w _ => traverseSlots w)

theorem WordFits.lt {w : NodeWord} {n : Nat} (h : WordFits w n) : ∀ s ∈ traverseSlots w, s < n := by
  intro s hs
  cases w with
  | mb m => exact List.mem_range.mp (h.mem_iff.mp hs)
  | sp m => exact List.mem_range.mp (h.mem_iff.mp hs)
  | hi m =>
      obtain ⟨k, hk, heq⟩ := h
      rw [heq, List.mem_range] at hs
      omega

/-- **The walk calls the callback on the nodes of the listing, one after the other**, each
with the length of its address as the depth. -/
theorem Shaped.traverse_eq {σ : Type} (f : TraverseFunc σ) {tree : CTree} (h : Shaped tree) :
    ∀ (addr : List Nat) (arg : σ), traverse f tree addr addr.length arg
      = (tree.visited addr).foldlM (fun arg n => f n.1 n.2 n.1.length arg) arg := by
  induction h with
  | leaf rs =>
      intro addr arg
      simp [traverse, CTree.visited, listing_leaf]
  | @node d w childs hw hkids ih =>
      intro addr arg
      rw [traverse, CTree.visited, listing_node, List.foldlM_cons]
      congr 1
      funext arg
      have hlt := hw.lt
      -- over the slots: each walk from a child is its part of the listing
      generalize traverseSlots w = slots at hlt ⊢
      induction slots generalizing arg with
      | nil => rfl
      | cons s slots ihs =>
          have hs : s < childs.length := hlt s List.mem_cons_self
          rw [List.foldlM_cons, List.flatMap_cons, List.foldlM_append, traverseEach_eq,
            List.getElem?_map, List.getElem?_eq_getElem hs]
          have hc := ih childs[s] (List.getElem_mem hs) (addr ++ [s]) arg
          rw [List.length_append, List.length_singleton] at hc
          simp only [Option.map_some, hc, listingSlot, List.getElem?_eq_getElem hs]
          congr 1
          funext arg
          rw [← traverseEach_eq]
          exact ihs arg (fun i hi => hlt i (List.mem_cons_of_mem s hi))

/-! ### Which nodes are visited -/

/-- A hi node with children. -/
def CTree.cutsHi : CTree → Bool
  | .node _ (.hi _) (_ :: _) => true
  | _ => false

theorem wordFits_of_not_cutsHi {d : Dim} {w : NodeWord} {childs : List CTree}
    (h : WordFits w childs.length) (hno : (CTree.node d w childs).cutsHi = false) :
    (traverseSlots w).Perm (List.range childs.length) := by
  cases w with
  | mb m => exact h
  | sp m => exact h
  | hi m =>
      cases childs with
      | nil =>
          obtain ⟨k, hk, heq⟩ := h
          obtain rfl : k = 0 := by simpa using hk
          rw [heq]
          exact List.Perm.refl _
      | cons c cs => cases hno

/-- **Without hi nodes the walk visits every node once.** -/
theorem Shaped.visited_perm {tree : CTree} (h : Shaped tree) : ∀ addr : List Nat,
    (∀ n ∈ tree.listing arrayOrder addr, n.2.cutsHi = false) →
    (tree.visited addr).Perm (tree.listing arrayOrder addr) := by
  induction h with
  | leaf rs =>
      intro addr _
      rw [CTree.visited, listing_leaf, listing_leaf]
  | @node d w childs hw hkids ih =>
      intro addr hno
      rw [listing_node, List.forall_mem_cons] at hno
      rw [CTree.visited, listing_node, listing_node]
      refine List.Perm.cons _ (((wordFits_of_not_cutsHi hw hno.1).flatMap_right _).trans ?_)
      refine List.Perm.flatMap_left _ (fun s hs => ?_)
      have hs : s < childs.length := List.mem_range.mp hs
      rw [listingSlot, listingSlot, List.getElem?_eq_getElem hs]
      refine ih childs[s] (List.getElem_mem hs) (addr ++ [s]) (fun n hn => hno.2 n ?_)
      exact mem_flatMap_listingSlot.mpr ⟨s, childs[s], List.getElem?_eq_getElem hs, hn⟩

/-- The slots of a hi word leave out the last child, and a child has at least one node. -/
theorem sum_hi_slots_lt {d : Dim} {w : NodeWord} {childs : List CTree} {addr : List Nat}
    {V : Nat → Nat} (hw : WordFits w childs.length) (hhi : (CTree.node d w childs).cutsHi = true)
    (hle : ∀ s < childs.length, V s ≤ (listingSlot arrayOrder childs addr s).length) :
    ((traverseSlots w).map V).sum
      < ((List.range childs.length).map
          (fun s => (listingSlot arrayOrder childs addr s).length)).sum := by
  cases w with
  | mb m => cases hhi
  | sp m => cases hhi
  | hi m =>
      cases childs with
      | nil => cases hhi
      | cons c cs =>
          obtain ⟨k, hk, heq⟩ := hw
          rw [List.length_cons, Nat.add_sub_cancel] at hk
          rw [List.length_cons] at hle ⊢
          rw [heq, List.range_succ, List.map_append, List.sum_append]
          have hfirst : ((List.range k).map V).sum ≤ ((List.range k).map
              (fun s => (listingSlot arrayOrder (c :: cs) addr s).length)).sum :=
            List.sum_le_sum (fun s hs => hle s (by have := List.mem_range.mp hs; omega))
          have hmore : ((List.range k).map
                (fun s => (listingSlot arrayOrder (c :: cs) addr s).length)).sum
              ≤ ((List.range cs.length).map
                (fun s => (listingSlot arrayOrder (c :: cs) addr s).length)).sum :=
            ((List.range_sublist.mpr hk).map _).sum_le_sum (fun _ _ => Nat.zero_le _)
          have hlast : 0 < (listingSlot arrayOrder (c :: cs) addr cs.length).length := by
            have hlt : cs.length < (c :: cs).length := by simp
            rw [listingSlot, List.getElem?_eq_getElem hlt]
            exact List.length_pos_iff.mpr (listing_ne_nil _)
          simp only [List.map_cons, List.map_nil, List.sum_singleton]
          omega

/-- **A hi node makes the walk miss a node.** -/
theorem Shaped.visited_length {tree : CTree} (h : Shaped tree) : ∀ addr : List Nat,
    (tree.visited addr).length ≤ (tree.listing arrayOrder addr).length ∧
      ((∃ n ∈ tree.listing arrayOrder addr, n.2.cutsHi = true) →
        (tree.visited addr).length < (tree.listing arrayOrder addr).length) := by
  induction h with
  | leaf rs =>
      intro addr
      rw [CTree.visited, listing_leaf, listing_leaf]
      exact ⟨Nat.le_refl _, by simp [CTree.cutsHi]⟩
  | @node d w childs hw hkids ih =>
      intro addr
      have hle : ∀ s < childs.length, (listingSlot (fun w _ => traverseSlots w) childs addr s).length
          ≤ (listingSlot arrayOrder childs addr s).length := by
        intro s hs
        rw [listingSlot, listingSlot, List.getElem?_eq_getElem hs]
        exact (ih childs[s] (List.getElem_mem hs) (addr ++ [s])).1
      rw [CTree.visited, listing_node, listing_node, List.length_cons, List.length_cons,
        List.length_flatMap, List.length_flatMap, Nat.add_le_add_iff_right,
        Nat.add_lt_add_iff_right]
      cases hhi : (CTree.node d w childs).cutsHi with
      | true =>
          have hlt := sum_hi_slots_lt hw hhi hle
          exact ⟨Nat.le_of_lt hlt, fun _ => hlt⟩
      | false =>
          have hperm := wordFits_of_not_cutsHi hw hhi
          rw [(hperm.map _).sum_eq]
          refine ⟨List.sum_le_sum (fun s hs => hle s (List.mem_range.mp hs)), ?_⟩
          rintro ⟨n, hn, hcut⟩
          rcases List.mem_cons.mp hn with rfl | hn
          · rw [hhi] at hcut
            cases hcut
          · obtain ⟨s, c, hc, hn⟩ := mem_flatMap_listingSlot.mp hn
            obtain ⟨hs, rfl⟩ := List.getElem?_eq_some_iff.mp hc
            refine List.sum_lt_sum _ _ (fun i hi => hle i (List.mem_range.mp hi))
              ⟨s, List.mem_range.mpr hs, ?_⟩
            rw [listingSlot, listingSlot, hc]
            exact (ih childs[s] (List.getElem_mem hs) (addr ++ [s])).2 ⟨n, hn, hcut⟩

/-! ### Counting -/

/-- The rules of a leaf. -/
def CTree.leafRules : CTree → Option RuleSet
  | .leaf rs => some rs
  | .node _ _ _ => none

theorem flatMap_range_getElem? {α β : Type} (f : α → List β) (l : List α) :
    (List.range l.length).flatMap (fun s => match l[s]? with | some a => f a | none => [])
      = l.flatMap f := by
  induction l with
  | nil => rfl
  | cons a l ih =>
      rw [List.length_cons, List.range_succ_eq_map, List.flatMap_cons, List.flatMap_map,
        List.flatMap_cons, ← ih]
      rfl

theorem leavesOf_eq (cs : List CTree) : leavesOf cs = cs.flatMap CTree.leaves := by
  induction cs with
  | nil => rfl
  | cons c cs ih => rw [leavesOf, ih, List.flatMap_cons]

/-- The leaves are the leaves among the nodes. -/
theorem Shaped.leaves_eq {tree : CTree} (h : Shaped tree) : ∀ addr : List Nat,
    (tree.listing arrayOrder addr).filterMap (fun n => n.2.leafRules) = tree.leaves := by
  induction h with
  | leaf rs =>
      intro addr
      simp [listing_leaf, CTree.leaves, CTree.leafRules]
  | @node d w childs hw hkids ih =>
      intro addr
      rw [listing_node, CTree.leaves, leavesOf_eq, List.filterMap_cons_none rfl,
        List.filterMap_flatMap, ← flatMap_range_getElem? CTree.leaves childs]
      refine List.flatMap_congr (fun s hs => ?_)
      have hs : s < childs.length := List.mem_range.mp hs
      rw [listingSlot, List.getElem?_eq_getElem hs]
      exact ih childs[s] (List.getElem_mem hs) (addr ++ [s])

/-- The counters after a list of nodes. -/
theorem getTreeInfoTraverse_fold (ns : List (List Nat × CTree)) : ∀ info : CTreeInfo,
    ∃ info', ns.foldlM (fun info n => getTreeInfoTraverse n.1 n.2 n.1.length info) info = .ok info' ∧
      info'.nodeCnt = info.nodeCnt + ns.length ∧
      info'.leafCnt = info.leafCnt + (ns.filterMap (fun n => n.2.leafRules)).length ∧
      info'.ruleCnt
        = info.ruleCnt + ((ns.filterMap (fun n => n.2.leafRules)).map Buffer.num).sum := by
  induction ns with
  | nil => exact fun info => ⟨info, rfl, rfl, rfl, rfl⟩
  | cons n ns ih =>
      intro info
      obtain ⟨addr, tree⟩ := n
      rw [List.foldlM_cons]
      cases tree with
      | leaf rs =>
          have hcons : ((addr, CTree.leaf rs) :: ns).filterMap (fun n => n.2.leafRules)
              = rs :: ns.filterMap (fun n => n.2.leafRules) := rfl
          obtain ⟨info', hrun, hnode, hleaf, hrule⟩ := ih _
          refine ⟨info', hrun, hnode.trans ?_, hleaf.trans ?_, hrule.trans ?_⟩
          · rw [List.length_cons]
            dsimp only
            omega
          · rw [hcons, List.length_cons]
            dsimp only
            omega
          · rw [hcons, List.map_cons, List.sum_cons]
            dsimp only
            omega
      | node d w childs =>
          obtain ⟨info', hrun, hnode, hleaf, hrule⟩ := ih _
          refine ⟨info', hrun, hnode.trans ?_, hleaf, hrule⟩
          rw [List.length_cons]
          dsimp only
          omega

/-- `traverse` calls its callback exactly once on every node, with the node's distance
from the root, and on nothing else. -/
def VisitsAll (tree : CTree) : Prop :=
  ∃ ns : List (List Nat × CTree), ns.Perm tree.nodes ∧
    ∀ (σ : Type) (f : TraverseFunc σ) (arg : σ),
      traverse f tree [] 0 arg = ns.foldlM (fun arg n => f n.1 n.2 n.1.length arg) arg

/-- `get_tree_info` counts every node, every leaf and every rule of a leaf once. -/
def CountsAll (tree : CTree) : Prop :=
  ∃ info, getTreeInfo tree = .ok info ∧ info.nodeCnt = tree.nodes.length ∧
    info.leafCnt = tree.leaves.length ∧ info.ruleCnt = (tree.leaves.map Buffer.num).sum

/-- Recording the calls of a walk. -/
def recordTraverse : TraverseFunc (List (List Nat × CTree)) :=
  fun addr n _ ns => .ok (ns ++ [(addr, n)])

theorem recordTraverse_fold (ns : List (List Nat × CTree)) : ∀ acc,
    ns.foldlM (fun acc n => recordTraverse n.1 n.2 n.1.length acc) acc
      = (.ok (acc ++ ns) : Except Fault _) := by
  induction ns with
  | nil => intro acc; simp [pure, Except.pure]
  | cons n ns ih =>
      intro acc
      rw [List.foldlM_cons]
      exact (ih _).trans (by simp)

theorem Shaped.visitsAll_iff {tree : CTree} (h : Shaped tree) :
    VisitsAll tree ↔ ∀ n ∈ tree.nodes, n.2.cutsHi = false := by
  constructor
  · rintro ⟨ns, hperm, hrun⟩ n hn
    -- the record of the walk is its listing, so the list given has to be that one
    have hrec := hrun _ recordTraverse []
    rw [show (0 : Nat) = ([] : List Nat).length from rfl, h.traverse_eq, recordTraverse_fold,
      recordTraverse_fold] at hrec
    have heq : tree.visited [] = ns := by simpa using hrec
    have hlen : (tree.visited []).length = tree.nodes.length := by rw [heq, hperm.length_eq]
    by_contra hcut
    have := (h.visited_length []).2 ⟨n, hn, by simpa using hcut⟩
    exact absurd hlen (Nat.ne_of_lt this)
  · intro hno
    exact ⟨tree.visited [], h.visited_perm [] hno, fun σ f arg => h.traverse_eq f [] arg⟩

theorem Shaped.countsAll {tree : CTree} (h : Shaped tree)
    (hno : ∀ n ∈ tree.nodes, n.2.cutsHi = false) : CountsAll tree := by
  obtain ⟨info, hrun, hnode, hleaf, hrule⟩ := getTreeInfoTraverse_fold (tree.visited []) .zero
  have hperm := h.visited_perm [] hno
  have hleaves := hperm.filterMap (fun n => n.2.leafRules)
  rw [h.leaves_eq] at hleaves
  refine ⟨info, (h.traverse_eq getTreeInfoTraverse [] .zero).trans hrun, ?_, ?_, ?_⟩
  · rw [hnode, hperm.length_eq]
    exact Nat.zero_add _
  · rw [hleaf, hleaves.length_eq]
    exact Nat.zero_add _
  · rw [hrule, (hleaves.map _).sum_eq]
    exact Nat.zero_add _

/-- **When the walk is complete.** For every tree a run of `cut` returns, `traverse` calls
its callback exactly once on every node, at its depth, and `get_tree_info` counts every
node, leaf and rule once, if and only if the tree has no hi node with children. -/
theorem traverse_complete_iff {K : Type} [CostArith K] {fuel : Nat} {aux aux' : CutAux}
    {rs : List Rule} {tree : CTree} (hrun : (cut K fuel aux rs).res = .ok (tree, aux')) :
    (VisitsAll tree ∧ CountsAll tree) ↔ ∀ n ∈ tree.nodes, n.2.cutsHi = false := by
  have hshaped := cut_shaped hrun
  exact ⟨fun h => hshaped.visitsAll_iff.mp h.1,
    fun hno => ⟨hshaped.visitsAll_iff.mpr hno, hshaped.countsAll hno⟩⟩

/-- The two groups are cut by bitmap only. -/
theorem pairRules_noHi (a b : RuleSet) :
    ∀ n ∈ (CTree.node 0 (.mb ⟨0x100000001#64, 0, 0⟩) [.leaf a, .leaf b]).nodes,
      n.2.cutsHi = false := by
  rw [CTree.nodes, listing_node]
  simp [arrayOrder, listingSlot, listing_leaf, List.range_succ, CTree.cutsHi]

/-- The two groups are cut by bitmap only, and their tree is walked completely. -/
theorem traverse_complete_pairRules :
    ∃ tree aux, (cut ℚ 2 .zero pairRules).res = .ok (tree, aux) ∧
      (∀ n ∈ tree.nodes, n.2.cutsHi = false) ∧ VisitsAll tree ∧ CountsAll tree := by
  obtain ⟨aux, a, b, hrun, -⟩ := pairRules_tree
  have hno : ∀ n ∈ (CTree.node 0 (.mb ⟨0x100000001#64, 0, 0⟩) [.leaf a, .leaf b]).nodes,
      n.2.cutsHi = false := by
    rw [CTree.nodes, listing_node]
    simp [arrayOrder, listingSlot, listing_leaf, List.range_succ, CTree.cutsHi]
  exact ⟨_, aux, hrun, hno, (traverse_complete_iff hrun).mpr hno⟩

/-- **A child is missed.** The tree of these rules is a hi node over six leaves, seven
nodes; the walk calls its callback six times and `get_tree_info` counts six nodes and
five leaves. -/
theorem gapRules_missed :
    runHas (cut ℚ 2 .zero gapRules)
      (fun tree => tree.nodes.length = 7 ∧ tree.leaves.length = 6 ∧
        (traverse recordTraverse tree [] 0 []).toOption.map List.length = some 6 ∧
        (getTreeInfo tree).toOption.map (fun info => (info.nodeCnt, info.leafCnt)) = some (6, 5))
      (fun c => c.dispatchFresh ℚ) = true := by
  obtain ⟨aux, l₀, l₁, l₂, l₃, l₅, hrun, hlog⟩ := gapRules_tree
  refine runHas_iff.mpr ⟨_, aux, hrun, ?_, hlog⟩
  have hshaped := cut_shaped hrun
  generalize htree : CTree.node 0 (.hi ⟨0, 7, 0x4f#64⟩)
    [.leaf l₀, .leaf l₁, .leaf l₂, .leaf l₃, .leaf ⟨1, 0, []⟩, .leaf l₅] = tree at hshaped
  -- the walk visits the root and the first five leaves
  have hslots : traverseSlots (.hi ⟨0, 7, 0x4f#64⟩) = [0, 1, 2, 3, 4] := by decide
  have hvisited : tree.visited [] = ([], tree) :: [([0], .leaf l₀), ([1], .leaf l₁),
      ([2], .leaf l₂), ([3], .leaf l₃), ([4], .leaf ⟨1, 0, []⟩)] := by
    simp [← htree, CTree.visited, listing_node, hslots, listingSlot, listing_leaf]
  have hwalk := hshaped.traverse_eq recordTraverse [] []
  have hinfo := hshaped.traverse_eq getTreeInfoTraverse [] .zero
  rw [recordTraverse_fold, hvisited] at hwalk
  obtain ⟨info, hfold, hnode, hleaf, -⟩ := getTreeInfoTraverse_fold (tree.visited []) .zero
  rw [decide_eq_true_eq]
  refine ⟨by rw [← htree]; rfl, by rw [← htree]; rfl, ?_, ?_⟩
  · rw [show (0 : Nat) = ([] : List Nat).length from rfl, hwalk]
    rfl
  · rw [getTreeInfo, show (0 : Nat) = ([] : List Nat).length from rfl, hinfo, hfold]
    rw [hvisited, ← htree] at hnode hleaf
    exact congrArg some (Prod.ext hnode hleaf)

/-! ### The cost of a lookup -/

/-- The nodes a lookup passes are nodes of the tree. -/
theorem walk_log_subset (tf : TreeFunction) (tree : CTree) (addr : List Nat) (f : Flow) :
    ∀ v ∈ (walk tf tree addr f).log, v ∈ tree.listing arrayOrder addr := by
  have hroot : ∀ (tree : CTree) (addr : List Nat), ∀ v ∈ [(addr, tree)],
      v ∈ tree.listing arrayOrder addr := by
    intro tree addr v hv
    rw [List.mem_singleton.mp hv]
    cases tree with
    | leaf rs => simp [listing_leaf]
    | node d w childs => simp [listing_node]
  refine walk_induct (P := fun tree addr _ t => ∀ v ∈ t.log, v ∈ tree.listing arrayOrder addr)
    ?_ ?_ ?_ ?_ tree addr f
  · exact fun rs addr f => hroot _ addr
  · exact fun d w childs addr f _ => hroot _ addr
  · exact fun d w childs addr f s f' _ _ => hroot _ addr
  · intro d w childs addr f s f' c _ hc ih v hv
    rcases List.mem_cons.mp hv with rfl | hv
    · exact hroot _ addr _ (List.mem_singleton_self _)
    · rw [listing_node]
      exact List.mem_cons_of_mem _ (mem_flatMap_listingSlot.mpr ⟨s, c, hc, ih v hv⟩)

/-- `max_depth` after a list of nodes: the greatest depth among them. -/
theorem getTreeInfoTraverse_maxDepth (ns : List (List Nat × CTree)) : ∀ info info' : CTreeInfo,
    ns.foldlM (fun info n => getTreeInfoTraverse n.1 n.2 n.1.length info) info = .ok info' →
    info.maxDepth ≤ info'.maxDepth ∧ (∀ n ∈ ns, n.1.length ≤ info'.maxDepth) ∧
      (info'.maxDepth = info.maxDepth ∨ ∃ n ∈ ns, n.1.length = info'.maxDepth) := by
  induction ns with
  | nil =>
      intro info info' h
      obtain rfl := Except.ok.inj h
      exact ⟨Nat.le_refl _, by simp, Or.inl rfl⟩
  | cons n ns ih =>
      intro info info' h
      rw [List.foldlM_cons] at h
      obtain ⟨mid, hmid, h⟩ := bind_eq_ok.mp h
      have hdepth : mid.maxDepth = max info.maxDepth n.1.length := by
        obtain ⟨addr, tree⟩ := n
        cases tree <;> (obtain rfl := Except.ok.inj hmid; dsimp only; split <;> omega)
      obtain ⟨hle, hall, hex⟩ := ih mid info' h
      refine ⟨by omega, ?_, ?_⟩
      · intro m hm
        rcases List.mem_cons.mp hm with rfl | hm
        · omega
        · exact hall m hm
      · rcases hex with hex | ⟨m, hm, hlen⟩
        · rcases Nat.le_total info.maxDepth n.1.length with hn | hn
          · exact Or.inr ⟨n, List.mem_cons_self, by omega⟩
          · exact Or.inl (by omega)
        · exact Or.inr ⟨m, List.mem_cons_of_mem _ hm, hlen⟩

end ChooseCut
