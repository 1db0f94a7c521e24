import ChooseCut.Traverse
import ChooseCut.Lib.Ledger

/-!
# ChooseCut.Memory

The heap blocks of a build: who holds them, and when they are given back.

`cut` works on four kinds of blocks. Every node has a rule list until it is cut, every cut
node an array with its children, and the scratch area has six blocks of its own. The
fourth kind are no blocks but copies of pointers: `split_match_expect` keeps the list of
the node in `strees[dim].root` and nothing ever clears it there, so that after a node was
cut the scratch area points to a released list.

The run here is that of `cutNode`, with the blocks of the allocations, accesses and
releases of the source at the places where the source has them. It computes the same tree
(`cutsCleanly`), so no access ever meets a released block, and it says what is left
when the build returns.
-/

namespace ChooseCut

/-! ### The run with its blocks -/

/-- The blocks of the scratch area. A heap is counted as one block. -/
structure ScratchBlocks where
  splitHeap : Nat
  splitRanges : Nat
  rightRules : Nat
  leftRules : Nat
  hiRanges : Nat
  hiHeap : Nat

/-- Those that were taken: `darray_growalloc` takes none for no items. -/
def ScratchBlocks.blocks (a : ScratchBlocks) : List Nat :=
  [a.splitHeap, a.splitRanges, a.rightRules, a.leftRules, a.hiRanges, a.hiHeap].filter (· ≠ 0)

/-- The heap, and the list pointers `strees[dim].root.ruleset.ruleList`. -/
structure Mem where
  heap : Ledger
  roots : Dim → Nat

/-- What a node holds: its rules, or the array of its children. -/
inductive Hold
  | rules
  | childs
  deriving Repr, DecidableEq

/-- A block, with the address of the node that holds it. -/
structure Holding where
  addr : List Nat
  hold : Hold
  block : Nat
  deriving Repr, DecidableEq

/-- A result of a run with blocks. -/
structure MemRun (α : Type) where
  out : α
  aux : CutAux
  mem : Mem
  own : List Holding

/-- The accesses of `cuts[t].match_expect` for dimension `d`, on a node with rule list
`list`. `left_rules` and `right_rules` are written only if the first split pays. -/
def matchExpectMem (a : ScratchBlocks) (list : Nat) (m : Mem) (t : CutType) (d : Dim) :
    Except (Stop Fault) Mem :=
  match t with
  | .bitmap => do
      m.heap.use list
      .ok m
  | .split => do
      let m := { m with roots := Function.update m.roots d list }
      m.heap.useAll [m.roots d, a.splitRanges, a.splitHeap, a.leftRules, a.rightRules]
      .ok m
  | .hi => do
      m.heap.useAll [list, a.hiRanges, a.hiHeap]
      .ok m

/-- The loops of `cut_node` over the methods and the dimensions. -/
def selectCutMem (a : ScratchBlocks) (list : Nat) (m : Mem) : Except (Stop Fault) Mem :=
  (cutTypes.flatMap fun t => [0, 1, 2, 3, 4].map fun d => (t, d)).foldlM
    (fun m p => matchExpectMem a list m p.1 p.2) m

/-- `even_cut`, `split_cut` and `hi_cut` up to the recursion, for `childs` children: the
array, which goes into the node word, the lists of the children, and the release of the
list of the node. -/
def cutIntoMem (a : ScratchBlocks) (home list : Nat) (t : CutType) (d : Dim) (childs : Nat)
    (m : Mem) : Except (Stop Fault) (Nat × List Nat × Mem) := do
  let array := m.heap.alloc
  array.2.use home
  let roots := if t = .split then Function.update m.roots d list else m.roots
  array.2.useAll (if t = .split then [roots d, a.leftRules, a.rightRules] else [])
  let lists := array.2.allocs childs
  lists.2.useAll (array.1 :: lists.1)
  lists.2.useAll (if t = .split then [a.leftRules, a.rightRules] else [list])
  let heap ← lists.2.free list
  .ok (array.1, lists.1, ⟨heap, roots⟩)

/-- `even_cut_recursive` and `cut_recursive`. -/
def visitChildsMem (rec : CutAux → Mem → Nat → List Nat → Nat → RuleSet →
      Except (Stop Fault) (MemRun CTree))
    (kids : List RuleSet) (array : Nat) (lists : List Nat) (addr : List Nat) :
    List Nat → MemRun (List CTree) → Except (Stop Fault) (MemRun (List CTree))
  | [], r => .ok r
  | s :: order, r =>
      match kids[s]?, lists[s]? with
      | some k, some l => do
          r.mem.heap.useAll [array, l]
          let p ← rec r.aux r.mem array (addr ++ [s]) l (removeRedund k)
          visitChildsMem rec kids array lists addr order
            ⟨r.out.set s p.out, p.aux, p.mem, r.own ++ p.own⟩
      | _, _ => .error (.own .wild)

/-- A fault of the program is one of the run. -/
def ownStop {α : Type} : Except Fault α → Except (Stop Fault) α
  | .ok a => .ok a
  | .error e => .error (.own e)

/-- `cut_node` on the node at `addr`, which lies in block `home` and has its rules in block
`list`. -/
def cutNodeMem (K : Type) [CostArith K] (a : ScratchBlocks) : Nat → CutAux → Mem → Nat →
    List Nat → Nat → RuleSet → Except (Stop Fault) (MemRun CTree)
  | 0, _, _, _, _, _, _ => .error (.own .fuel)
  | fuel + 1, aux, m, home, addr, list, rs => do
      m.heap.use home
      if rs.num ≤ bucketSize then .ok ⟨.leaf rs, aux, m, [⟨addr, .rules, list⟩]⟩
      else do
        let m ← selectCutMem a list m
        let c ← ownStop (selectCut K aux rs)
        let q ← ownStop (cutInto c.1 rs c.2.1 c.2.2)
        let b ← cutIntoMem a home list c.2.1 c.2.2 q.2.length m
        let p ← visitChildsMem (cutNodeMem K a fuel) q.2 b.1 b.2.1 addr
          (visitOrder q.1 q.2.length)
          ⟨List.replicate q.2.length CTree.blank, c.1, b.2.2, [⟨addr, .childs, b.1⟩]⟩
        .ok ⟨.node c.2.2 q.1 p.out, p.aux, p.mem, p.own⟩

/-- `darray_growalloc` on an empty array. -/
def growBlock (need : Nat) (h : Ledger) : Nat × Ledger := if need = 0 then (0, h) else h.alloc

/-- `split_aux_init` and `hi_init`, for a root with `num` rules. -/
def scratchInit (num : Nat) (h : Ledger) : ScratchBlocks × Ledger :=
  let splitHeap := h.alloc
  let splitRanges := growBlock num splitHeap.2
  let rightRules := splitRanges.2.alloc
  let leftRules := rightRules.2.alloc
  let hiRanges := growBlock num leftRules.2
  let hiHeap := hiRanges.2.alloc
  (⟨splitHeap.1, splitRanges.1, rightRules.1, leftRules.1, hiRanges.1, hiHeap.1⟩, hiHeap.2)

/-- The block of the root, which is a variable of `main`, and its copy of the rules. -/
def rootBlocks : Nat × Nat × Ledger :=
  let root := Ledger.empty.alloc
  let list := root.2.alloc
  (root.1, list.1, list.2)

/-- The scratch area of a build of `num` rules, with the heap it starts from. -/
def buildScratch (num : Nat) : ScratchBlocks × Ledger := scratchInit num rootBlocks.2.2

/-- `cut`, where `junk` are the pointers in the uninitialised scratch area. -/
def cutMem (K : Type) [CostArith K] (fuel : Nat) (aux : CutAux) (junk : Dim → Nat)
    (rs : List Rule) : Except (Stop Fault) (MemRun CTree) :=
  cutNodeMem K (buildScratch rs.length).1 fuel (auxInit aux rs.length)
    ⟨(buildScratch rs.length).2, junk⟩ rootBlocks.1 [] rootBlocks.2.1 (Buffer.ofList rs)

/-! ### One node -/

/-- All six blocks of the scratch area are there. -/
structure ScratchBlocks.In (a : ScratchBlocks) (own : List Nat) : Prop where
  splitHeap : a.splitHeap ∈ own
  splitRanges : a.splitRanges ∈ own
  rightRules : a.rightRules ∈ own
  leftRules : a.leftRules ∈ own
  hiRanges : a.hiRanges ∈ own
  hiHeap : a.hiHeap ∈ own

/-- The scratch area has no pointer to a live list. -/
def Mem.Stale (m : Mem) : Prop := ∀ d, m.heap.Dangling (m.roots d)

section Node

variable {a : ScratchBlocks} {m : Mem} {frame : List Nat} {home list : Nat}

theorem ScratchBlocks.In.mono {own own' : List Nat} (h : a.In own) (hsub : ∀ b ∈ own, b ∈ own') :
    a.In own' :=
  ⟨hsub _ h.splitHeap, hsub _ h.splitRanges, hsub _ h.rightRules, hsub _ h.leftRules,
    hsub _ h.hiRanges, hsub _ h.hiHeap⟩

/-- A cost is computed on live blocks. -/
theorem matchExpectMem_ok (hh : m.heap.Holds (list :: frame)) (ha : a.In frame) (t : CutType)
    (d : Dim) : matchExpectMem a list m t d =
      .ok { m with roots := if t = .split then Function.update m.roots d list else m.roots } := by
  cases t with
  | bitmap =>
      rw [matchExpectMem, hh.use List.mem_cons_self]
      rfl
  | split =>
      dsimp only [matchExpectMem]
      rw [Function.update_self,
        hh.useAll _ (by simp [ha.splitRanges, ha.splitHeap, ha.leftRules, ha.rightRules])]
      rfl
  | hi =>
      rw [matchExpectMem, hh.useAll _ (by simp [ha.hiRanges, ha.hiHeap])]
      rfl

/-- The costs of a node leave its list behind in all five roots. -/
theorem selectCutMem_ok (hh : m.heap.Holds (list :: frame)) (ha : a.In frame) :
    selectCutMem a list m = .ok { m with roots := fun _ => list } := by
  have hstep : ∀ (ps : List (CutType × Dim)) (r : Dim → Nat),
      ps.foldlM (fun m p => matchExpectMem a list m p.1 p.2) (Mem.mk m.heap r) = .ok ⟨m.heap,
        ps.foldl (fun r p => if p.1 = CutType.split then Function.update r p.2 list else r) r⟩ := by
    intro ps
    induction ps with
    | nil => exact fun r => rfl
    | cons p ps ih =>
        intro r
        rw [List.foldlM_cons, matchExpectMem_ok (m := ⟨m.heap, r⟩) hh ha]
        exact ih _
  refine (hstep _ m.roots).trans (congrArg Except.ok (congrArg _ ?_))
  funext d
  revert d
  simp [cutTypes, Function.update, Fin.forall_fin_succ]

/-- A cut takes its blocks, gives the list of the node back, and leaves the scratch area
with pointers to it. -/
theorem cutIntoMem_ok (hh : m.heap.Holds (list :: frame)) (hhome : home ∈ frame) (ha : a.In frame)
    (hroots : m.roots = fun _ => list) (t : CutType) (d : Dim) (childs : Nat) :
    ∃ array lists m', cutIntoMem a home list t d childs m = .ok (array, lists, m') ∧
      m'.heap.Holds (lists ++ array :: frame) ∧ lists.length = childs ∧ m'.Stale := by
  have harray := hh.alloc
  have hlists := harray.allocs childs
  have hheld : (m.heap.alloc.2.allocs childs).2.Holds
      (list :: ((m.heap.alloc.2.allocs childs).1 ++ m.heap.alloc.1 :: frame)) :=
    hlists.perm ((List.Perm.append_left _ (List.Perm.swap _ _ _)).trans List.perm_middle)
  obtain ⟨heap, hfree, hrest, hnext⟩ := @Ledger.Holds.free Fault _ _ _ hheld
  have hroots' : (if t = .split then Function.update m.roots d list else m.roots)
      = fun _ => list := by
    rw [hroots]
    split
    · exact Function.update_eq_self d (fun _ => list)
    · rfl
  refine ⟨_, _, ⟨heap, fun _ => list⟩, ?_, hrest, Ledger.length_allocs _ _, fun _ => ⟨?_, ?_⟩⟩
  · have hnode : ∀ b ∈ if t = .split then [list, a.leftRules, a.rightRules] else [],
        b ∈ m.heap.alloc.1 :: list :: frame := by
      split <;> simp [ha.leftRules, ha.rightRules]
    have hrules : ∀ b ∈ if t = .split then [a.leftRules, a.rightRules] else [list],
        b ∈ (m.heap.alloc.2.allocs childs).1 ++ m.heap.alloc.1 :: list :: frame := by
      split <;> simp [ha.leftRules, ha.rightRules]
    dsimp only [cutIntoMem]
    rw [hroots', harray.use (by simp [hhome]), harray.useAll _ hnode,
      hlists.useAll (_ :: _) (by simp +contextual), hlists.useAll _ hrules, hfree]
    rfl
  · -- the list was live before the array was taken
    have hlive := (m.heap.bound list (hh.mem_iff.mpr List.mem_cons_self)).2
    change list < heap.next
    rw [hnext, Ledger.next_allocs, Ledger.next_alloc]
    omega
  · -- no block is handed out twice
    exact fun hlive => (List.nodup_cons.mp hheld.nodup).1 (hrest.mem_iff.mp hlive)

end Node

/-! ### Whole runs -/

/-- What a node of the tree holds. -/
def CTree.hold : CTree → Hold
  | .leaf _ => .rules
  | .node _ _ _ => .childs

/-- The addresses of the nodes below `addr`, with what they hold. -/
def CTree.holds (tree : CTree) (addr : List Nat) : List (List Nat × Hold) :=
  (tree.listing arrayOrder addr).map (fun v => (v.1, v.2.hold))

/-- A run with blocks does what the run without them does, and ends with the blocks of the
tree it has built, next to those of `frame`. -/
def MemRun.Ends (frame addr : List Nat) (m : Mem) (plain : Except Fault (CTree × CutAux))
    (run : Except (Stop Fault) (MemRun CTree)) : Prop :=
  match plain with
  | .error e => run = .error (.own e)
  | .ok p => ∃ m' own, run = .ok ⟨p.1, p.2, m', own⟩ ∧
      m'.heap.Holds (own.map Holding.block ++ frame) ∧
      (own.map (fun o => (o.addr, o.hold))).Perm (p.1.holds addr) ∧
      (m.Stale ∨ p.1.hold = .childs → m'.Stale)

section Visit

variable {plain : CutAux → RuleSet → Trace Call (CTree × CutAux)}
  {rec : CutAux → Mem → Nat → List Nat → Nat → RuleSet → Except (Stop Fault) (MemRun CTree)}
  {kids : List RuleSet} {array : Nat} {lists : List Nat}

/-- The lists of the children that are still to be visited. -/
def pending (lists order : List Nat) : List Nat := order.filterMap (fun s => lists[s]?)

theorem pending_cons {s l : Nat} {order : List Nat} (h : lists[s]? = some l) :
    pending lists (s :: order) = l :: pending lists order := by
  rw [pending, List.filterMap_cons_some h, pending]

/-- The blocks of a child that has been built join those held before. -/
theorem pending_perm (new rest frame : List Nat) (old : List Nat) :
    (new ++ (rest ++ (old ++ frame))).Perm (rest ++ ((old ++ new) ++ frame)) := by
  have h : (new ++ (rest ++ old)).Perm ((rest ++ old) ++ new) := List.perm_append_comm
  simpa only [List.append_assoc] using h.append_right frame

/-- What the child in slot `s` holds. -/
def slotHolds (addr : List Nat) (childs : List CTree) (s : Nat) : List (List Nat × Hold) :=
  (listingSlot arrayOrder childs addr s).map (fun v => (v.1, v.2.hold))

theorem slotHolds_of {addr : List Nat} {childs : List CTree} {s : Nat} {c : CTree}
    (h : childs[s]? = some c) : slotHolds addr childs s = c.holds (addr ++ [s]) := by
  rw [slotHolds, listingSlot, h, CTree.holds]

/-- The loop over the slots of `order` does what the loop without blocks does: it leaves
the other slots alone and ends with the blocks of the children it has built. -/
def MemRun.VisitEnds (frame addr order : List Nat) (r : MemRun (List CTree))
    (plain : Except Fault (List CTree × CutAux))
    (run : Except (Stop Fault) (MemRun (List CTree))) : Prop :=
  match plain with
  | .error e => run = .error (.own e)
  | .ok p => ∃ m' own, run = .ok ⟨p.1, p.2, m', own⟩ ∧
      m'.heap.Holds (own.map Holding.block ++ frame) ∧ m'.Stale ∧
      p.1.length = r.out.length ∧ (∀ s, s ∉ order → p.1[s]? = r.out[s]?) ∧
      (own.map (fun o => (o.addr, o.hold))).Perm
        (r.own.map (fun o => (o.addr, o.hold)) ++ order.flatMap (slotHolds addr p.1))

/-- The child in slot `s`, then the slots of `order`. -/
theorem MemRun.VisitEnds.cons {frame addr order : List Nat} {s : Nat} {r : MemRun (List CTree)}
    {c : CTree} {aux : CutAux} {m : Mem} {own : List Holding}
    {plain : Except Fault (List CTree × CutAux)}
    {run : Except (Stop Fault) (MemRun (List CTree))} (hs : s ∉ order) (hlt : s < r.out.length)
    (hkeys : (own.map (fun o => (o.addr, o.hold))).Perm (c.holds (addr ++ [s])))
    (h : VisitEnds frame addr order ⟨r.out.set s c, aux, m, r.own ++ own⟩ plain run) :
    VisitEnds frame addr (s :: order) r plain run := by
  cases plain with
  | error e => exact h
  | ok q =>
      obtain ⟨m', own', hrun, hheld, hstale, hlen, hother, hkeys'⟩ := h
      refine ⟨m', own', hrun, hheld, hstale, hlen.trans (List.length_set ..), ?_, ?_⟩
      · intro i hi
        rw [List.mem_cons, not_or] at hi
        rw [hother i hi.2, List.getElem?_set_ne (Ne.symm hi.1)]
      · have hslot : q.1[s]? = some c := by
          rw [hother s hs, List.getElem?_set_self hlt]
        rw [List.flatMap_cons, slotHolds_of hslot, ← List.append_assoc]
        refine hkeys'.trans (List.Perm.append_right _ ?_)
        rw [List.map_append]
        exact List.Perm.append_left _ hkeys

/-- One turn of the loop, on live blocks. -/
theorem visitChildsMem_cons {addr order : List Nat} {s l : Nat} {kid : RuleSet}
    {r : MemRun (List CTree)} (hkid : kids[s]? = some kid) (hl : lists[s]? = some l)
    (huse : (r.mem.heap.useAll [array, l] : Except (Stop Fault) Unit) = .ok ()) :
    visitChildsMem rec kids array lists addr (s :: order) r = (do
      let p ← rec r.aux r.mem array (addr ++ [s]) l (removeRedund kid)
      visitChildsMem rec kids array lists addr order
        ⟨r.out.set s p.out, p.aux, p.mem, r.own ++ p.own⟩) := by
  simp only [visitChildsMem, hkid, hl, huse]
  rfl

/-- **The loop over the children.** Before each turn the lists of the children still to be
visited are live, and the list of the next one is handed to its call. -/
theorem visitChildsMem_spec (frame addr : List Nat) (hlen : lists.length = kids.length)
    (hrec : ∀ aux m l addr fr, ∀ k ∈ kids, array ∈ fr → (∀ b ∈ frame, b ∈ fr) →
      m.heap.Holds (l :: fr) → MemRun.Ends fr addr m (plain aux (removeRedund k)).res
        (rec aux m array addr l (removeRedund k))) :
    ∀ (order : List Nat) (r : MemRun (List CTree)), order.Nodup → (∀ s ∈ order, s < kids.length) →
      r.out.length = kids.length → array ∈ r.own.map Holding.block → r.mem.Stale →
      r.mem.heap.Holds (pending lists order ++ (r.own.map Holding.block ++ frame)) →
      MemRun.VisitEnds frame addr order r (visitChilds plain kids order r.aux r.out).res
        (visitChildsMem rec kids array lists addr order r) := by
  intro order
  induction order with
  | nil =>
      intro r _ _ _ _ hstale hh
      exact ⟨r.mem, r.own, rfl, hh, hstale, rfl, fun _ _ => rfl, by simp⟩
  | cons s order ih =>
      intro r hnd hlt hout harray hstale hh
      obtain ⟨hs, hnd⟩ := List.nodup_cons.mp hnd
      have hslt : s < kids.length := hlt s List.mem_cons_self
      have hk : kids[s]? = some kids[s] := List.getElem?_eq_getElem hslt
      obtain ⟨l, hl⟩ : ∃ l, lists[s]? = some l := ⟨_, List.getElem?_eq_getElem (hlen ▸ hslt)⟩
      rw [pending_cons hl] at hh
      have hin : array ∈ pending lists order ++ (r.own.map Holding.block ++ frame) :=
        List.mem_append_right _ (List.mem_append_left _ harray)
      have hend := hrec r.aux r.mem l (addr ++ [s]) _ _ (List.getElem_mem hslt) hin
        (fun b hb => List.mem_append_right _ (List.mem_append_right _ hb)) hh
      rw [visitChildsMem_cons hk hl
        (hh.useAll _ (List.forall_mem_cons.mpr ⟨List.mem_cons_of_mem l hin, by simp⟩))]
      simp only [visitChilds, hk]
      cases hres : (plain r.aux (removeRedund kids[s])).res with
      | error e =>
          rw [hres] at hend
          rw [Trace.bind_of_error hres, show rec _ _ _ _ _ _ = _ from hend]
          rfl
      | ok p =>
          rw [hres] at hend
          obtain ⟨m, own, hrun, hheld, hkeys, hst⟩ := hend
          have hjoin : m.heap.Holds
              (pending lists order ++ ((r.own ++ own).map Holding.block ++ frame)) := by
            rw [List.map_append]
            exact hheld.perm (pending_perm _ _ _ _)
          rw [Trace.bind_of_ok hres, hrun]
          exact .cons hs (hout ▸ hslt) hkeys
            (ih ⟨r.out.set s p.1, p.2, m, r.own ++ own⟩ hnd
              (fun i hi => hlt i (List.mem_cons_of_mem s hi)) (by simpa using hout)
              (by simpa using Or.inl (List.mem_map.mp harray)) (hst (Or.inl hstale)) hjoin)

end Visit

theorem pending_range (lists : List Nat) : pending lists (List.range lists.length) = lists := by
  have hget : ∀ s ∈ List.range lists.length, lists[s]? = (some ∘ fun s => lists.getD s 0) s := by
    intro s hs
    rw [List.getElem?_eq_getElem (List.mem_range.mp hs), Function.comp_apply,
      List.getD_eq_getElem?_getD, List.getElem?_eq_getElem (List.mem_range.mp hs), Option.getD_some]
  rw [pending, List.filterMap_congr hget, List.filterMap_eq_map]
  refine List.ext_getElem (by simp) fun i hi hi' => ?_
  rw [List.getElem_map, List.getElem_range, List.getD_eq_getElem?_getD,
    List.getElem?_eq_getElem hi', Option.getD_some]

/-- A node that is cut, step by step. -/
theorem cutNodeMem_node {K : Type} [CostArith K] {a : ScratchBlocks} {fuel : Nat} {aux : CutAux}
    {m m₁ : Mem} {home list : Nat} {addr : List Nat} {rs : RuleSet} {c : CutAux × CutType × Dim}
    {q : NodeWord × List RuleSet} {b : Nat × List Nat × Mem} (hbig : bucketSize < rs.num)
    (huse : m.heap.use home = (.ok () : Except (Stop Fault) Unit))
    (hsel' : selectCutMem a list m = .ok m₁) (hsel : selectCut K aux rs = .ok c)
    (hcut : cutInto c.1 rs c.2.1 c.2.2 = .ok q)
    (hcut' : cutIntoMem a home list c.2.1 c.2.2 q.2.length m₁ = .ok b) :
    cutNodeMem K a (fuel + 1) aux m home addr list rs = (do
      let p ← visitChildsMem (cutNodeMem K a fuel) q.2 b.1 b.2.1 addr (visitOrder q.1 q.2.length)
        ⟨List.replicate q.2.length CTree.blank, c.1, b.2.2, [⟨addr, .childs, b.1⟩]⟩
      .ok ⟨.node c.2.2 q.1 p.out, p.aux, p.mem, p.own⟩) := by
  rw [cutNodeMem, huse, if_neg (by omega), hsel', hsel]
  change (ownStop (cutInto c.1 rs c.2.1 c.2.2) >>= _) = _
  rw [hcut]
  change (cutIntoMem a home list c.2.1 c.2.2 q.2.length m₁ >>= _) = _
  rw [hcut']
  rfl

theorem CTree.holds_node (d : Dim) (w : NodeWord) (childs : List CTree) (addr : List Nat) :
    (CTree.node d w childs).holds addr =
      (addr, .childs) :: (List.range childs.length).flatMap (slotHolds addr childs) := by
  rw [CTree.holds, listing_node, List.map_cons, List.map_flatMap]
  rfl

section Run

variable {K : Type} [CostArith K] {a : ScratchBlocks} {fuel : Nat} {aux : CutAux} {m : Mem}
  {home list : Nat} {addr frame : List Nat} {rs : RuleSet}

/-- The specification of `cut_node` at one depth of the recursion. -/
def CutsCleanly (K : Type) [CostArith K] (a : ScratchBlocks) (fuel : Nat) : Prop :=
  ∀ (aux : CutAux) (m : Mem) (home : Nat) (addr : List Nat) (list : Nat) (rs : RuleSet)
    (frame : List Nat), home ∈ frame → (bucketSize < rs.num → a.In frame) →
    m.heap.Holds (list :: frame) →
    MemRun.Ends frame addr m (cutNode K fuel aux rs).res
      (cutNodeMem K a fuel aux m home addr list rs)

/-- A node whose children are built without a bad access is, too. -/
theorem CutsCleanly.node {c : CutAux × CutType × Dim} {q : NodeWord × List RuleSet}
    (ih : CutsCleanly K a fuel) (hbig : bucketSize < rs.num) (hhome : home ∈ frame)
    (ha : a.In frame) (hh : m.heap.Holds (list :: frame)) (hsel : selectCut K aux rs = .ok c)
    (hcut : cutInto c.1 rs c.2.1 c.2.2 = .ok q) :
    MemRun.Ends frame addr m (cutNode K (fuel + 1) aux rs).res
      (cutNodeMem K a (fuel + 1) aux m home addr list rs) := by
  obtain ⟨array, lists, m', hinto, hheld, hlen, hstale⟩ :=
    cutIntoMem_ok (m := ⟨m.heap, fun _ => list⟩) hh hhome ha rfl c.2.1 c.2.2 q.2.length
  have hperm := (cutInto_wordFits hcut).visitOrder_perm
  have hpend : lists.Perm (pending lists (visitOrder q.1 q.2.length)) := by
    have h := hperm.symm.filterMap (fun s => lists[s]?)
    rwa [← hlen, show List.filterMap _ (List.range lists.length) = lists from
      pending_range lists, hlen] at h
  have hloop := visitChildsMem_spec frame addr hlen
    (fun aux m l addr fr k _ hin hsub hh => ih aux m array addr l (removeRedund k) fr
      hin (fun _ => ha.mono hsub) hh)
    (visitOrder q.1 q.2.length)
    ⟨List.replicate q.2.length CTree.blank, c.1, m', [⟨addr, .childs, array⟩]⟩
    (hperm.nodup_iff.mpr List.nodup_range)
    (fun s hs => List.mem_range.mp (hperm.mem_iff.mp hs)) (by simp) (by simp) hstale
    (hheld.perm (List.Perm.append_right _ hpend))
  rw [(cutNode_node hbig hsel hcut).2, cutNodeMem_node hbig
    (hh.use (List.mem_cons_of_mem _ hhome)) (selectCutMem_ok hh ha) hsel hcut hinto]
  dsimp only at hloop
  cases hv : (visitChilds (cutNode K fuel) q.2 (visitOrder q.1 q.2.length) c.1
      (List.replicate q.2.length CTree.blank)).res with
  | error e =>
      rw [hv] at hloop
      rw [show visitChildsMem _ _ _ _ _ _ _ = _ from hloop]
      rfl
  | ok p =>
      rw [hv] at hloop
      obtain ⟨m'', own, hrun, hheld', hstale', hlen', -, hkeys⟩ := hloop
      rw [hrun]
      refine ⟨m'', own, rfl, hheld', hkeys.trans ?_, fun _ => hstale'⟩
      rw [CTree.holds_node, hlen', List.length_replicate]
      exact (hperm.flatMap_right _).cons _

/-- **A run with blocks is the plain run.** Whatever a node is cut into, no access meets a
released block and no block is released twice. -/
theorem cutsCleanly (a : ScratchBlocks) : ∀ fuel, CutsCleanly K a fuel := by
  intro fuel
  induction fuel with
  | zero =>
      intro aux m home addr list rs frame _ _ _
      rfl
  | succ fuel ih =>
      intro aux m home addr list rs frame hhome ha hh
      have huse : (m.heap.use home : Except (Stop Fault) Unit) = .ok () :=
        hh.use (List.mem_cons_of_mem _ hhome)
      by_cases hsmall : rs.num ≤ bucketSize
      · rw [cutNode_leaf hsmall, cutNodeMem, huse, if_pos hsmall]
        refine ⟨m, _, rfl, hh, ?_, ?_⟩
        · rw [CTree.holds, listing_leaf]
          exact List.Perm.refl _
        · rintro (hst | hnode)
          · exact hst
          · cases hnode
      · have hbig : bucketSize < rs.num := by omega
        have ha := ha hbig
        cases hsel : selectCut K aux rs with
        | error e =>
            rw [cutNode, Trace.tell_bind, if_neg hsmall, Trace.lift_bind_error hsel, cutNodeMem,
              huse, if_neg hsmall, selectCutMem_ok hh ha, hsel]
            rfl
        | ok c =>
            cases hcut : cutInto c.1 rs c.2.1 c.2.2 with
            | error e =>
                rw [cutNode, Trace.tell_bind, if_neg hsmall, Trace.lift_bind_ok hsel,
                  Trace.lift_bind_error hcut, cutNodeMem, huse, if_neg hsmall,
                  selectCutMem_ok hh ha, hsel]
                change (ownStop (cutInto c.1 rs c.2.1 c.2.2) >>= _) = _
                rw [hcut]
                rfl
            | ok q => exact ih.node hbig hhome ha hh hsel hcut

end Run

/-! ### The build -/

theorem buildScratch_of_ne {num : Nat} (h : num ≠ 0) : buildScratch num = buildScratch 1 := by
  simp only [buildScratch, scratchInit, growBlock, if_neg h, if_neg Nat.one_ne_zero]

/-- Before the first call the root, its rules and the scratch area are live. -/
theorem buildScratch_holds (num : Nat) : (buildScratch num).2.Holds
    (rootBlocks.2.1 :: ((buildScratch num).1.blocks ++ [rootBlocks.1])) := by
  unfold Ledger.Holds
  rcases Nat.eq_zero_or_pos num with rfl | h
  · decide
  · rw [buildScratch_of_ne h.ne']
    decide

theorem buildScratch_in {num : Nat} (h : num ≠ 0) :
    (buildScratch num).1.In ((buildScratch num).1.blocks ++ [rootBlocks.1]) := by
  rw [buildScratch_of_ne h]
  constructor <;> decide

/-- **The memory of a build.** For every rule set and every content of the scratch area,
`cut` ends as it does in the model without blocks: it never touches a released block and
releases none twice. When it returns, every node of the tree holds one block of its own, a
leaf its rules and any other node the array of its children; beyond these and the root
only the blocks of the scratch area are live, which no pointer reaches any more. Where the
root was cut, the five list pointers in the scratch area dangle. -/
theorem cut_blocks (K : Type) [CostArith K] (fuel : Nat) (aux : CutAux) (junk : Dim → Nat)
    (rs : List Rule) :
    match (cut K fuel aux rs).res with
    | .error e => cutMem K fuel aux junk rs = .error (.own e)
    | .ok p => ∃ m own, cutMem K fuel aux junk rs = .ok ⟨p.1, p.2, m, own⟩ ∧
        (own.map (fun o => (o.addr, o.hold))).Perm (p.1.nodes.map (fun v => (v.1, v.2.hold))) ∧
        m.heap.live.Perm (own.map Holding.block ++
          ((buildScratch rs.length).1.blocks ++ [rootBlocks.1])) ∧
        (p.1.hold = .childs → ∀ d, m.heap.Dangling (m.roots d)) := by
  have hend := cutsCleanly (K := K) (buildScratch rs.length).1 fuel (auxInit aux rs.length)
    ⟨(buildScratch rs.length).2, junk⟩ rootBlocks.1 [] rootBlocks.2.1 (Buffer.ofList rs) _
    (List.mem_append_right _ List.mem_cons_self)
    (fun hbig => buildScratch_in (by simp only [Buffer.ofList_num] at hbig; omega))
    (buildScratch_holds rs.length)
  unfold cut cutMem
  cases hres : (cutNode K fuel (auxInit aux rs.length) (Buffer.ofList rs)).res with
  | error e => rwa [hres] at hend
  | ok p =>
      rw [hres] at hend
      obtain ⟨m, own, hrun, hheld, hkeys, hstale⟩ := hend
      exact ⟨m, own, hrun, hkeys, hheld, fun hnode => hstale (Or.inr hnode)⟩

end ChooseCut
