import ChooseCut.Compact
import ChooseCut.Sizing

/-!
# ChooseCut.CompactOutcome

What `compact` leaves behind for the rest of `main`.

Element 0 of the array is the one node the program looks at, and it still points into the
original tree. A search that starts there therefore goes on in the original tree and
finds what a search from the original root finds: `searchFrom_first`.

The array itself takes an element for the copy of every node visited, and one more for
every child counted. The element that is patched is always behind the copies, so the one
node where it can lie outside the block is the first: `compact_ok_iff`.
-/

namespace ChooseCut

/-! ### Searching from element 0 -/

/-- The children of the node at an address. -/
theorem sub_snoc {root : CTree} {d : Dim} {w : NodeWord} {childs : List CTree} {addr : List Nat}
    (h : root.sub addr = some (.node d w childs)) (s : Nat) :
    root.sub (addr ++ [s]) = childs[s]? := by
  induction addr generalizing root with
  | nil =>
      obtain rfl := Option.some.inj h
      cases hs : childs[s]? <;> simp [CTree.sub, hs]
  | cons i addr ih =>
      cases root with
      | leaf rs => simp [CTree.sub] at h
      | node d' w' childs' =>
          rw [CTree.sub] at h
          obtain ⟨c, hc, h⟩ := Option.bind_eq_some_iff.mp h
          rw [List.cons_append, CTree.sub, hc]
          exact ih h

section Turn

variable {root : CTree} {ct : CtArray} {fuel : Nat} {p q : NodePtr} {f f' : Flow} {d : Dim}
  {w : NodeWord} {s : Nat}

theorem searchFrom_succ : searchFrom root ct (fuel + 1) p f = (do
    Trace.tell p
    let c ← Trace.lift (loadNode root ct p)
    match c.body with
    | none => Trace.lift (.error .overread)
    | some (.leaf rs) => Trace.lift (lsearch rs f)
    | some (.inner d w) =>
        match nextChild w d f with
        | none => pure (-1)
        | some (s, f') => searchFrom root ct fuel (c.childPtr.add (s - w.base)) f') := rfl

theorem searchFrom_fault {e : Fault} (h : loadNode root ct p = .error e) :
    searchFrom root ct (fuel + 1) p f = ⟨[p], .error e⟩ := by
  rw [searchFrom_succ, Trace.tell_bind, Trace.lift_bind_error h]

theorem searchFrom_leaf {rs : RuleSet} (h : loadNode root ct p = .ok ⟨some (.leaf rs), q⟩) :
    searchFrom root ct (fuel + 1) p f = ⟨[p], lsearch rs f⟩ := by
  rw [searchFrom_succ, Trace.tell_bind, Trace.lift_bind_ok h]
  rfl

theorem searchFrom_stop (h : loadNode root ct p = .ok ⟨some (.inner d w), q⟩)
    (hn : nextChild w d f = none) :
    searchFrom root ct (fuel + 1) p f = ⟨[p], .ok (-1)⟩ := by
  rw [searchFrom_succ, Trace.tell_bind, Trace.lift_bind_ok h]
  simp [hn]

theorem searchFrom_next (h : loadNode root ct p = .ok ⟨some (.inner d w), q⟩)
    (hn : nextChild w d f = some (s, f')) :
    searchFrom root ct (fuel + 1) p f =
      ⟨p :: (searchFrom root ct fuel (q.add (s - w.base)) f').log,
        (searchFrom root ct fuel (q.add (s - w.base)) f').res⟩ := by
  rw [searchFrom_succ, Trace.tell_bind, Trace.lift_bind_ok h]
  simp [hn]

end Turn

section Kid

variable {root t : CTree} {ct : CtArray} {owner : List Nat} {i : Nat}

theorem loadNode_kid (h : root.sub (owner ++ [i]) = some t) :
    loadNode root ct (.kid owner i) = .ok (t.cnode (owner ++ [i])) := by
  simp [loadNode, h]

theorem loadNode_kid_none (h : root.sub (owner ++ [i]) = none) :
    loadNode root ct (.kid owner i) = .error .wild := by
  simp [loadNode, h]

/-- The pointer to a child, from the pointer in its node. -/
theorem kid_add (addr : List Nat) (b s : Nat) :
    (NodePtr.kid addr b).add ((s : Int) - b) = .kid addr s := by
  rw [NodePtr.add]
  congr 1
  omega

/-- The pointer leads to an element of a child array of the original tree. -/
def NodePtr.Original (p : NodePtr) : Prop := ∃ owner : List Nat, ∃ i : Nat, p = .kid owner i

/-- **In the original tree a search through pointers is a search**, and stays there. The
nodes it passes bound its turns. -/
theorem searchFrom_kid (ct : CtArray) (hsub : root.sub (owner ++ [i]) = some t) (f : Flow) :
    ∀ fuel, (walk treeFunction t (owner ++ [i]) f).log.length < fuel →
      (searchFrom root ct fuel (.kid owner i) f).res = search t f ∧
        ∀ p ∈ (searchFrom root ct fuel (.kid owner i) f).log, p.Original := by
  have hself : ∀ (owner : List Nat) (i : Nat), ∀ p ∈ [NodePtr.kid owner i], p.Original :=
    fun owner i p hp => ⟨owner, i, List.mem_singleton.mp hp⟩
  refine walk_induct (P := fun t addr f tr => ∀ (owner : List Nat) (i : Nat), addr = owner ++ [i] →
    root.sub addr = some t → ∀ fuel, tr.log.length < fuel →
      (searchFrom root ct fuel (.kid owner i) f).res = search t f ∧
        ∀ p ∈ (searchFrom root ct fuel (.kid owner i) f).log, p.Original)
    ?_ ?_ ?_ ?_ t (owner ++ [i]) f owner i rfl hsub
  · rintro rs - f owner i rfl hsub (_ | fuel) hfuel
    · exact absurd hfuel (Nat.not_lt_zero _)
    rw [searchFrom_leaf (loadNode_kid hsub), search]
    exact ⟨rfl, hself owner i⟩
  · rintro d w childs - f hn owner i rfl hsub (_ | fuel) hfuel
    · exact absurd hfuel (Nat.not_lt_zero _)
    rw [nextChildWith_tables] at hn
    rw [searchFrom_stop (loadNode_kid hsub) hn, search, hn]
    exact ⟨rfl, hself owner i⟩
  · rintro d w childs - f s f' hn hc owner i rfl hsub (_ | _ | fuel) hfuel
    · exact absurd hfuel (Nat.not_lt_zero _)
    · exact absurd hfuel (Nat.lt_irrefl _)
    rw [nextChildWith_tables] at hn
    rw [searchFrom_next (loadNode_kid hsub) hn, kid_add,
      searchFrom_fault (loadNode_kid_none ((sub_snoc hsub s).trans hc)), search, hn]
    dsimp only
    rw [searchNth_eq, hc]
    refine ⟨rfl, fun p hp => ?_⟩
    rcases List.mem_cons.mp hp with rfl | hp
    · exact ⟨owner, i, rfl⟩
    · exact hself _ s p hp
  · rintro d w childs - f s f' c hn hc ih owner i rfl hsub (_ | fuel) hfuel
    · exact absurd hfuel (Nat.not_lt_zero _)
    rw [nextChildWith_tables] at hn
    obtain ⟨hres, hlog⟩ := ih (owner ++ [i]) s rfl ((sub_snoc hsub s).trans hc) fuel
      (Nat.lt_of_succ_lt_succ hfuel)
    rw [searchFrom_next (loadNode_kid hsub) hn, kid_add, search, hn]
    dsimp only
    rw [searchNth_eq, hc]
    refine ⟨hres, fun p hp => ?_⟩
    rcases List.mem_cons.mp hp with rfl | hp
    · exact ⟨owner, i, rfl⟩
    · exact hlog p hp

end Kid

/-- With a turn for every node of the walk, the search that starts at element 0 returns what
`search` returns on the tree, and after that element it is in the original tree. -/
theorem searchFrom_first {tree : CTree} {ct : CtArray} (h : compact tree = .ok ct) (f : Flow)
    {fuel : Nat} (hfuel : (walk treeFunction tree [] f).log.length < fuel) :
    (searchFrom tree ct fuel (.item ct.block 0) f).res = search tree f ∧
      ∃ ps, (searchFrom tree ct fuel (.item ct.block 0) f).log = .item ct.block 0 :: ps ∧
        ∀ p ∈ ps, p.Original := by
  obtain _ | fuel := fuel
  · exact absurd hfuel (Nat.not_lt_zero _)
  cases tree with
  | leaf rs =>
      rw [compact_leaf] at h
      obtain rfl := Except.ok.inj h
      rw [search]
      exact ⟨rfl, [], rfl, by simp⟩
  | node d w childs =>
      have hload : loadNode (.node d w childs) ct (.item ct.block 0)
          = .ok ⟨some (.inner d w), .kid [] w.base⟩ := by
        simp [loadNode, compact_first h]
      cases hn : nextChild w d f with
      | none =>
          rw [searchFrom_stop hload hn, search, hn]
          exact ⟨rfl, [], rfl, by simp⟩
      | some q =>
          obtain ⟨s, f'⟩ := q
          have hsub : (CTree.node d w childs).sub ([] ++ [s]) = childs[s]? := sub_snoc rfl s
          rw [searchFrom_next hload hn, kid_add, search, hn]
          dsimp only
          rw [searchNth_eq]
          rw [← nextChildWith_tables] at hn
          cases hc : childs[s]? with
          | none =>
              rw [walk_wild hn hc] at hfuel
              obtain _ | fuel := fuel
              · exact absurd hfuel (Nat.lt_irrefl _)
              rw [searchFrom_fault (loadNode_kid_none (hsub.trans hc))]
              exact ⟨rfl, _, rfl, fun p hp => ⟨[], s, List.mem_singleton.mp hp⟩⟩
          | some c =>
              rw [walk_next hn hc] at hfuel
              obtain ⟨hres, hlog⟩ := searchFrom_kid ct (hsub.trans hc) f' fuel
                (Nat.lt_of_succ_lt_succ hfuel)
              exact ⟨hres, _, rfl, hlog⟩

/-- **A search from element 0 is a search in the original tree.** Whatever tree `compact`
returned an array for: with enough turns, the search of any flow that starts at the first
element, as `sample_perf` does it, returns what `search` returns on the tree, and every node
it visits after that element is one of the original tree. -/
theorem searchFrom_original {tree : CTree} {ct : CtArray} (h : compact tree = .ok ct) :
    ∃ bound, ∀ turns, bound < turns → ∀ f,
      (searchFrom tree ct turns (.item ct.block 0) f).res = search tree f ∧
        ∃ ps, (searchFrom tree ct turns (.item ct.block 0) f).log = .item ct.block 0 :: ps ∧
          ∀ p ∈ ps, p.Original := by
  obtain ⟨bound, hbound⟩ := exists_walk_bound treeFunction tree
  exact ⟨bound, fun turns hturns f =>
    searchFrom_first h f (Nat.lt_of_le_of_lt (hbound [] f) hturns)⟩

/-- The array of the two groups, searched from element 0. -/
theorem searchFrom_original_pairRules :
    ∃ tree aux ct, (cut ℚ 2 .zero pairRules).res = .ok (tree, aux) ∧ compact tree = .ok ct ∧
      ∃ bound, ∀ turns, bound < turns → ∀ f,
        (searchFrom tree ct turns (.item ct.block 0) f).res = search tree f := by
  obtain ⟨aux, a, b, hrun, -⟩ := pairRules_tree
  obtain ⟨ct, hct⟩ : ∃ ct,
      compact (.node 0 (.mb ⟨0x100000001#64, 0, 0⟩) [.leaf a, .leaf b]) = .ok ct := ⟨_, rfl⟩
  obtain ⟨bound, hsearch⟩ := searchFrom_original hct
  exact ⟨_, aux, ct, hrun, hct, bound, fun turns hturns f => (hsearch turns hturns f).1⟩

/-! ### The room taken -/

/-- The children `count_childs` counts at a node. -/
def CTree.counted : CTree → Nat
  | .leaf _ => 0
  | .node _ w _ => countChilds w

section Room

variable {ct : CtArray}

theorem realloc_length {alloc : Nat} (h : ct.items.length ≤ alloc) :
    (ct.realloc alloc).items.length = alloc := by
  simp only [CtArray.realloc, List.length_append, List.length_replicate]
  omega

theorem append_within (ct : CtArray) (n : CNode) : (ct.append n).size ≤ (ct.append n).items.length := by
  rw [append_size]
  unfold CtArray.append
  dsimp only
  split
  · rename_i hfull
    have hgrow : ct.size + 1 ≤ nextAlloc ct.items.length (ct.size + 1) := by
      refine le_growLoop _ _ _ ?_ (by omega)
      split <;> omega
    rw [List.length_set, realloc_length (by omega)]
    exact hgrow
  · rw [List.length_set]
    omega

theorem makeRoom_within (ct : CtArray) (room : Nat) :
    ct.size + room ≤ (ct.makeRoom room).items.length := by
  unfold CtArray.makeRoom
  split
  · rw [realloc_length (by omega)]
  · omega

end Room

/-- The block holds the elements in use, and one of these is behind the copies. -/
structure Roomy (ci : CtInfo) : Prop where
  within : ci.ct.size ≤ ci.ct.items.length
  ahead : ci.copied < ci.ct.size

/-- What a call of `compact_traverse` does that finds the element it patches. -/
theorem compactTraverse_ok (addr : List Nat) (n : CTree) (depth : Nat) (ci : CtInfo)
    (h : ci.copied < ci.ct.size + n.counted) :
    ∃ ci', compactTraverse addr n depth ci = .ok ci' ∧ Roomy ci' ∧
      ci'.copied = ci.copied + 1 ∧ ci'.ct.size = ci.ct.size + 1 + n.counted := by
  have happ := append_within ci.ct (n.cnode addr)
  cases n with
  | leaf rs =>
      simp only [CTree.counted] at h
      exact ⟨_, rfl, ⟨happ, by rw [append_size]; dsimp only; omega⟩, rfl, append_size _⟩
  | node d w childs =>
      simp only [CTree.counted] at h ⊢
      have hroom := makeRoom_within (ci.ct.append ((CTree.node d w childs).cnode addr)) (countChilds w)
      rw [append_size] at hroom
      simp only [compactTraverse]
      rw [List.getElem?_eq_getElem (by omega)]
      refine ⟨_, rfl, ⟨?_, ?_⟩, rfl, ?_⟩
      · simp only [makeRoom_size, append_size, List.length_set]
        omega
      · simp only [makeRoom_size, append_size]
        omega
      · simp only [makeRoom_size, append_size]

/-- The calls for a list of nodes. -/
theorem compactTraverse_fold (ns : List (List Nat × CTree)) : ∀ ci : CtInfo, Roomy ci →
    ∃ ci', ns.foldlM (fun ci n => compactTraverse n.1 n.2 n.1.length ci) ci = .ok ci' ∧
      Roomy ci' ∧ ci'.ct.size = ci.ct.size + ns.length + (ns.map (fun n => n.2.counted)).sum := by
  induction ns with
  | nil => exact fun ci h => ⟨ci, rfl, h, rfl⟩
  | cons n ns ih =>
      intro ci h
      obtain ⟨mid, hmid, hroomy, -, hsize⟩ := compactTraverse_ok n.1 n.2 n.1.length ci
        (Nat.lt_add_right _ h.ahead)
      obtain ⟨ci', hrun, hroomy', hsize'⟩ := ih mid hroomy
      refine ⟨ci', ?_, hroomy', ?_⟩
      · rw [List.foldlM_cons, hmid]
        exact hrun
      · rw [hsize', hsize, List.length_cons, List.map_cons, List.sum_cons]
        omega

/-- The walk starts at the root. -/
theorem visited_eq_cons (tree : CTree) : ∃ ns, tree.visited [] = ([], tree) :: ns := by
  cases tree with
  | leaf rs => exact ⟨[], by rw [CTree.visited, listing_leaf]⟩
  | node d w childs => exact ⟨_, by rw [CTree.visited, listing_node]⟩

/-- A root without a child counted: the element to patch is behind the block. -/
theorem compact_overrun {d : Dim} {w : NodeWord} {childs : List CTree} (h : countChilds w = 0) :
    compact (.node d w childs) = .error .overrun := by
  have hstep : compactTraverse [] (.node d w childs) 0 ⟨⟨[], 0, 0⟩, 0⟩ = .error .overrun := by
    simp only [compactTraverse, h]
    rfl
  rw [compact, traverse, hstep]
  rfl

/-- `compact` on a shaped tree whose root is a leaf or has a child counted. -/
theorem Shaped.compact_ok {tree : CTree} (h : Shaped tree)
    (hroot : ∀ d w childs, tree = .node d w childs → countChilds w ≠ 0) :
    ∃ ct, compact tree = .ok ct ∧ ct.size ≤ ct.items.length ∧
      ct.size = (tree.visited []).length + ((tree.visited []).map (fun n => n.2.counted)).sum := by
  cases h with
  | leaf rs =>
      refine ⟨_, compact_leaf rs, Nat.le_refl _, ?_⟩
      rw [CTree.visited, listing_leaf]
      rfl
  | @node d w childs hw hkids =>
      obtain ⟨ns, hns⟩ := visited_eq_cons (.node d w childs)
      obtain ⟨ci, hci, hroomy, -, hsize⟩ := compactTraverse_ok [] (.node d w childs) 0
        ⟨⟨[], 0, 0⟩, 0⟩ (Nat.zero_lt_of_ne_zero (by simpa [CTree.counted] using hroot d w childs rfl))
      obtain ⟨ci', hrun, hroomy', hsize'⟩ := compactTraverse_fold ns ci hroomy
      have hwalk : traverse compactTraverse (.node d w childs) [] 0 ⟨⟨[], 0, 0⟩, 0⟩ = .ok ci' := by
        refine ((Shaped.node hw hkids).traverse_eq compactTraverse [] _).trans ?_
        rw [hns, List.foldlM_cons]
        exact bind_eq_ok.mpr ⟨ci, hci, hrun⟩
      refine ⟨ci'.ct, ?_, hroomy'.within, ?_⟩
      · rw [compact, hwalk]
        rfl
      · rw [hsize', hsize, hns, List.length_cons, List.map_cons, List.sum_cons]
        dsimp only
        omega

theorem sum_flatMap_add_length {α β : Type} {g : α → List β} {c : β → Nat} {l : List α}
    (h : ∀ a ∈ l, ((g a).map c).sum + 1 = (g a).length) :
    ((l.flatMap g).map c).sum + l.length = (l.flatMap g).length := by
  induction l with
  | nil => rfl
  | cons a l ih =>
      have ha := h a List.mem_cons_self
      have hl := ih (fun b hb => h b (List.mem_cons_of_mem a hb))
      rw [List.flatMap_cons, List.map_append, List.sum_append, List.length_append, List.length_cons]
      omega

/-- Without hi nodes every node but the root is counted at one node. -/
theorem Shaped.sum_counted {tree : CTree} (h : Shaped tree) : ∀ addr : List Nat,
    (∀ n ∈ tree.listing arrayOrder addr, n.2.cutsHi = false) →
    ((tree.listing arrayOrder addr).map (fun n => n.2.counted)).sum + 1
      = (tree.listing arrayOrder addr).length := by
  induction h with
  | leaf rs =>
      intro addr _
      rw [listing_leaf]
      rfl
  | @node d w childs hw hkids ih =>
      intro addr hno
      rw [listing_node] at hno ⊢
      have hroot : countChilds w = childs.length :=
        hw.countChilds_iff.mpr (hno _ List.mem_cons_self)
      have hslots := sum_flatMap_add_length (c := fun n : List Nat × CTree => n.2.counted)
        (g := listingSlot arrayOrder childs addr) (l := arrayOrder w childs.length) (by
          intro s hs
          have hs' : s < childs.length := List.mem_range.mp hs
          rw [listingSlot, List.getElem?_eq_getElem hs']
          refine ih childs[s] (List.getElem_mem hs') (addr ++ [s]) (fun n hn => hno n ?_)
          exact List.mem_cons_of_mem _
            (mem_flatMap_listingSlot.mpr ⟨s, _, List.getElem?_eq_getElem hs', hn⟩))
      rw [List.map_cons, List.sum_cons, List.length_cons,
        show (addr, CTree.node d w childs).2.counted = childs.length from hroot]
      rw [show (arrayOrder w childs.length).length = childs.length from List.length_range] at hslots
      omega

/-! ### The root -/

section Root

variable {K : Type} [CostArith K] {aux aux' : CutAux} {rs : RuleSet} {d : Dim} {w : NodeWord}
  {ks : List RuleSet}

/-- A split cut counts at least two children. -/
theorem cutInto_split_counts (h : cutInto aux rs .split d = .ok (w, ks)) : 2 ≤ countChilds w := by
  obtain ⟨q, hq, h⟩ := bind_eq_ok.mp h
  obtain ⟨p, -, hq⟩ := bind_eq_ok.mp hq
  obtain ⟨left, -, hq⟩ := bind_eq_ok.mp hq
  obtain ⟨right, -, hq⟩ := bind_eq_ok.mp hq
  obtain rfl := Except.ok.inj hq
  obtain ⟨rfl, -⟩ := Prod.mk.inj (Except.ok.inj h)
  rw [← length_traverseSlots _ (by simp [NodeWord.type]), traverseSlots, splitTraverse_splitFill,
    List.length_range, splitMemQuant]
  omega

/-- A bitmap cut of rules that were counted has a child. -/
theorem cutInto_bitmap_counts (hs : Sane rs) (hne : rs.items ≠ [])
    (he : EntryFor aux rs.items .bitmap d) (h : cutInto aux rs .bitmap d = .ok (w, ks)) :
    0 < countChilds w := by
  obtain ⟨r, hr⟩ := List.exists_mem_of_ne_nil _ hne
  obtain ⟨p, hp⟩ := List.exists_mem_of_ne_nil _
    (prefixes_ne_nil (dimBits_le d) (hs.fits r hr d).1 (hs.fits r hr d).2)
  have hslot := evenKids_getElem? hs.fits (prefixIdx_mem hr hp)
  have hwf := cutInto_wordFits h
  obtain ⟨kids, rfl, hto, htype⟩ := cutInto_ok he hs.fits h
  cases hto with
  | bitmap =>
      rw [← length_traverseSlots _ (by simp [NodeWord.type]), hwf.length_eq, List.length_range,
        List.length_map, List.length_map]
      exact Nat.zero_lt_of_lt (List.getElem?_eq_some_iff.mp hslot).1
  | split => cases htype
  | hi => cases htype

end Root

/-- How the root of a tree that is not a leaf was cut. -/
theorem cut_root {K : Type} [CostArith K] {fuel : Nat} {aux aux' : CutAux} {rs : List Rule} {d : Dim}
    {w : NodeWord} {childs : List CTree}
    (hrun : (cut K fuel aux rs).res = .ok (.node d w childs, aux')) :
    bucketSize < rs.length ∧ ∃ aux1 t ks,
      selectCut K (auxInit aux rs.length) (Buffer.ofList rs) = .ok (aux1, t, d) ∧
        cutInto aux1 (Buffer.ofList rs) t d = .ok (w, ks) := by
  have hbig : bucketSize < rs.length := by
    by_contra hsmall
    obtain ⟨l, hl⟩ := (cut_leaf_iff hrun).mpr (Nat.not_lt.mp hsmall)
    cases hl
  refine ⟨hbig, ?_⟩
  unfold cut at hrun
  obtain _ | fuel := fuel
  · cases hrun
  have hnum : bucketSize < (Buffer.ofList rs).num := hbig
  cases hsel : selectCut K (auxInit aux rs.length) (Buffer.ofList rs) with
  | error e =>
      rw [cutNode_fault hnum (Or.inl hsel)] at hrun
      cases hrun
  | ok c =>
      obtain ⟨aux1, t, d'⟩ := c
      cases hcut : cutInto aux1 (Buffer.ofList rs) t d' with
      | error e =>
          rw [cutNode_fault hnum (Or.inr ⟨aux1, t, d', hsel, hcut⟩)] at hrun
          cases hrun
      | ok q =>
          rw [(cutNode_node hnum hsel hcut).2] at hrun
          obtain ⟨p, -, hp⟩ := bind_eq_ok.mp hrun
          obtain ⟨htree, -⟩ := Prod.mk.inj (Except.ok.inj hp)
          obtain ⟨rfl, rfl, -⟩ := CTree.node.inj htree
          exact ⟨aux1, t, q.2, rfl, hcut⟩

/-- Only a hi root can be without a child counted. -/
theorem cut_root_counts {K : Type} [CostArith K] {fuel : Nat} {aux aux' : CutAux} {rs : List Rule}
    {d : Dim} {w : NodeWord} {childs : List CTree} (hwf : RulesWF rs)
    (hrun : (cut K fuel aux rs).res = .ok (.node d w childs, aux')) (hzero : countChilds w = 0) :
    ∃ n, w = .hi n := by
  obtain ⟨hbig, aux1, t, ks, hsel, hcut⟩ := cut_root hrun
  have hs : Sane (Buffer.ofList rs) := ⟨rfl, hwf⟩
  cases t with
  | bitmap =>
      have hown := (selectCut_ok hsel).ownScratch (show Fresh .bitmap rs d from trivial)
      have hpos := cutInto_bitmap_counts hs (hs.ne_nil hbig) (hown.entryFor hs (hs.ne_nil hbig)) hcut
      omega
  | split =>
      have hpos := cutInto_split_counts hcut
      omega
  | hi =>
      obtain ⟨q, -, hcut⟩ := bind_eq_ok.mp hcut
      obtain ⟨rfl, -⟩ := Prod.mk.inj (Except.ok.inj hcut)
      exact ⟨q.1, rfl⟩

/-- **What `compact` allocates.** For every tree a run of `cut` returns: `compact` writes
behind its block exactly when the root is a hi node with no separator in the low half of
its bitmap. In every other case it returns an array, and with no hi node in the tree that
array has two elements for every node but the root, of which it has one. -/
theorem compact_cut {K : Type} [CostArith K] {fuel : Nat} {aux aux' : CutAux} {rs : List Rule}
    {tree : CTree} (hwf : RulesWF rs) (hrun : (cut K fuel aux rs).res = .ok (tree, aux')) :
    (compact tree = .error .overrun ↔
        ∃ d n childs, tree = .node d (.hi n) childs ∧ popcount (n.bitmap.setWidth 32) = 0) ∧
      (compact tree ≠ .error .overrun → ∃ ct, compact tree = .ok ct ∧
        ct.size ≤ ct.items.length ∧
        ((∀ n ∈ tree.nodes, n.2.cutsHi = false) → ct.size + 1 = 2 * tree.nodes.length)) := by
  have hshaped := cut_shaped hrun
  by_cases hroot : ∃ d w childs, tree = .node d w childs ∧ countChilds w = 0
  · obtain ⟨d, w, childs, rfl, hzero⟩ := hroot
    obtain ⟨n, rfl⟩ := cut_root_counts hwf hrun hzero
    have hover : compact (.node d (.hi n) childs) = .error .overrun := compact_overrun hzero
    exact ⟨⟨fun _ => ⟨d, n, childs, rfl, hzero⟩, fun _ => hover⟩, fun h => absurd hover h⟩
  · obtain ⟨ct, hct, hwithin, hsize⟩ := hshaped.compact_ok
      (fun d w childs htree hzero => hroot ⟨d, w, childs, htree, hzero⟩)
    refine ⟨⟨fun h => ?_, ?_⟩, fun _ => ⟨ct, hct, hwithin, fun hno => ?_⟩⟩
    · rw [hct] at h
      cases h
    · rintro ⟨d, n, childs, htree, hzero⟩
      exact absurd ⟨d, _, childs, htree, hzero⟩ hroot
    · have hperm := hshaped.visited_perm [] hno
      have hsum := hshaped.sum_counted [] hno
      rw [hsize, hperm.length_eq, (hperm.map _).sum_eq, CTree.nodes]
      omega

/-- The tree of the two groups has three nodes, and its array five elements. -/
theorem compact_cut_pairRules :
    ∃ tree aux ct, (cut ℚ 2 .zero pairRules).res = .ok (tree, aux) ∧ compact tree = .ok ct ∧
      tree.nodes.length = 3 ∧ ct.size = 5 := by
  obtain ⟨aux, a, b, hrun, -⟩ := pairRules_tree
  obtain ⟨hiff, hok⟩ := compact_cut pairRules_wf hrun
  obtain ⟨ct, hct, -, hsize⟩ := hok (fun h => by
    obtain ⟨d, n, childs, htree, -⟩ := hiff.mp h
    cases htree)
  have hlen : (CTree.node 0 (.mb ⟨0x100000001#64, 0, 0⟩) [.leaf a, .leaf b]).nodes.length = 3 := by
    rw [CTree.nodes, listing_node]
    simp [arrayOrder, listingSlot, listing_leaf, List.range_succ]
  have hfive := hsize (pairRules_noHi a b)
  rw [hlen] at hfive
  exact ⟨_, aux, ct, hrun, hct, hlen, by omega⟩

end ChooseCut
