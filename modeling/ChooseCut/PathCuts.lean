import ChooseCut.Terminate
import ChooseCut.Traverse

/-!
# ChooseCut.PathCuts

How many bitmap nodes a lookup can pass.

A bitmap cut consumes six bits of its dimension, and the builder selects one only for a
gain. In a dimension whose bits are used up there is none, so that no path has more bitmap
nodes on a dimension than six goes into its width: 6 for the addresses, 3 for the ports and
2 for the protocol, 20 in all, whatever split and hi nodes lie between them.
-/

namespace ChooseCut

/-- The bitmap cuts that use up a dimension. -/
def bitmapCap (d : Dim) : Nat := (dimBits d + stride - 1) / stride

mutual

/-- The most bitmap nodes on dimension `e` that a path of the tree has. -/
def CTree.bitmaps (e : Dim) : CTree → Nat
  | .leaf _ => 0
  | .node d w childs => (if (CTree.node d w childs).shifts e then 1 else 0) + bitmapsOf e childs

/-- The same below an array of children. -/
def bitmapsOf (e : Dim) : List CTree → Nat
  | [] => 0
  | c :: cs => max (c.bitmaps e) (bitmapsOf e cs)

end

theorem bitmapsOf_le_iff {e : Dim} {cs : List CTree} {n : Nat} :
    bitmapsOf e cs ≤ n ↔ ∀ c ∈ cs, c.bitmaps e ≤ n := by
  induction cs with
  | nil => simp [bitmapsOf]
  | cons c cs ih => simp [bitmapsOf, ih]

/-- A lookup goes down one path. -/
theorem walk_bitmaps (tf : TreeFunction) (e : Dim) (tree : CTree) (addr : List Nat) (f : Flow) :
    (walk tf tree addr f).log.countP (fun v => v.2.shifts e) ≤ tree.bitmaps e := by
  have hnode : ∀ (d : Dim) (w : NodeWord) (childs : List CTree) (addr : List Nat),
      [(addr, CTree.node d w childs)].countP (fun v => v.2.shifts e)
        ≤ (CTree.node d w childs).bitmaps e := by
    intro d w childs addr
    rw [List.countP_singleton, CTree.bitmaps]
    exact Nat.le_add_right _ _
  refine walk_induct (P := fun tree _ _ t => t.log.countP (fun v => v.2.shifts e) ≤ tree.bitmaps e)
    ?_ ?_ ?_ ?_ tree addr f
  · intro rs addr f
    exact Nat.le_refl _
  · exact fun d w childs addr f _ => hnode d w childs addr
  · exact fun d w childs addr f s f' _ _ => hnode d w childs addr
  · intro d w childs addr f s f' c _ hc ih
    have hle : c.bitmaps e ≤ bitmapsOf e childs :=
      bitmapsOf_le_iff.mp (Nat.le_refl _) c (List.mem_of_getElem? hc)
    rw [List.countP_cons, CTree.bitmaps, Nat.add_comm]
    exact Nat.add_le_add_left (Nat.le_trans ih hle) _

theorem CTree.shifts_node (e d : Dim) (w : NodeWord) (childs : List CTree) :
    (CTree.node d w childs).shifts e = decide (w.type = .bitmap ∧ e = d) := by
  cases w <;> simp [CTree.shifts, NodeWord.type]

/-- A bitmap cut is paid for out of what its dimension has left. -/
theorem bump_spend {m : Dim → Nat} {t : CutType} {d e : Dim}
    (hleft : t = .bitmap → m d < bitmapCap d) :
    (if t = .bitmap ∧ e = d then 1 else 0) + (bitmapCap e - bump m t d e)
      ≤ bitmapCap e - m e := by
  by_cases h : t = .bitmap ∧ e = d
  · obtain ⟨ht, rfl⟩ := h
    have := hleft ht
    rw [if_pos ⟨ht, rfl⟩, bump, if_pos ht, Function.update_self]
    omega
  · rw [if_neg h, Nat.zero_add, bump]
    split
    next ht => rw [Function.update_of_ne (fun he => h ⟨ht, he⟩)]
    next => exact Nat.le_refl _

/-- What a node may still spend on a dimension, its subtree spends at most. -/
theorem bitmaps_rule (e : Dim) : RunRule ℚ (fun _ => True)
    (fun _ rs => bucketSize < rs.num → ∃ m, Stage m rs) (Call.Own ℚ)
    (fun rs tree => ∀ m, (bucketSize < rs.num → Stage m rs) → tree.bitmaps e ≤ bitmapCap e - m e)
    (fun _ => True) :=
  { fuel := fun _ _ => trivial
    leaf := fun _ _ _ _ _ _ _ _ => Nat.zero_le _
    select_error := fun _ _ _ _ _ _ _ _ => trivial
    cut_error := fun _ _ _ _ _ _ _ _ _ _ _ _ => trivial
    node := by
      intro n c aux t d w ks _ hI hQ hbig hsel hcut
      obtain ⟨m₀, hst₀⟩ := hI hbig
      have hown := hQ hbig aux t d hsel
      refine ⟨trivial, (cutInto_kids hst₀.sane hbig hown hcut).1,
        fun k hk hchild => ⟨_, hst₀.child hbig hown hcut hk hchild⟩, ?_⟩
      intro childs hlen hch m hm
      have hst := hm hbig
      have htype : w.type = t := by
        obtain ⟨-, -, -, htype⟩ := cutInto_ok
          (hown.entryFor hst.sane (hst.sane.ne_nil hbig)) hst.sane.fits hcut
        exact htype
      have hkids : bitmapsOf e childs ≤ bitmapCap e - bump m t d e := by
        rw [bitmapsOf_le_iff]
        intro ch hmem
        obtain ⟨s, hs, rfl⟩ := List.mem_iff_getElem.mp hmem
        have hk := List.getElem?_eq_getElem (hlen ▸ hs)
        exact hch s _ _ hk (List.getElem?_eq_getElem hs) _
          (fun hchild => hst.child hbig hown hcut (List.mem_of_getElem? hk) hchild)
      have hspend := bump_spend (m := m) (t := t) (d := d) (e := e) fun ht =>
        hst.bitmap_left hbig (selectCut_ok (ht ▸ hsel))
      rw [CTree.bitmaps, CTree.shifts_node, htype]
      simp only [decide_eq_true_eq]
      omega }

/-- No path of a built tree has more bitmap nodes on a dimension than use it up. -/
theorem cut_bitmaps {fuel : Nat} {aux aux' : CutAux} {rs : List Rule} {tree : CTree}
    (hwf : RulesWF rs) (hrun : (cut ℚ fuel aux rs).res = .ok (tree, aux'))
    (hown : ∀ c ∈ (cut ℚ fuel aux rs).log, c.Own ℚ) (e : Dim) : tree.bitmaps e ≤ bitmapCap e := by
  have hst : Stage (fun _ => 0) (Buffer.ofList rs) :=
    ⟨⟨rfl, hwf⟩, .zero _, Or.inl (fun _ => rfl)⟩
  have hend := ((bitmaps_rule e).cutNode fuel (auxInit aux rs.length) (Buffer.ofList rs) trivial
    (fun _ => ⟨_, hst⟩) hown).2
  exact (hend.of_ok hrun).1 _ (fun _ => hst)

/-- The node is a bitmap node, in whatever dimension. -/
def CTree.cutsBitmap : CTree → Bool
  | .node _ (.mb _) _ => true
  | _ => false

/-- A bitmap node shifts one dimension. -/
theorem CTree.cutsBitmap_sum (t : CTree) :
    (if t.cutsBitmap then 1 else 0) = ∑ e : Dim, if t.shifts e then 1 else 0 := by
  match t with
  | .leaf _ => simp [CTree.cutsBitmap, CTree.shifts]
  | .node d (.mb _) _ => simp [CTree.cutsBitmap, CTree.shifts]
  | .node d (.sp _) _ => simp [CTree.cutsBitmap, CTree.shifts]
  | .node d (.hi _) _ => simp [CTree.cutsBitmap, CTree.shifts]

theorem countP_cutsBitmap (log : List (List Nat × CTree)) :
    log.countP (fun v => v.2.cutsBitmap) = ∑ e : Dim, log.countP (fun v => v.2.shifts e) := by
  induction log with
  | nil => simp
  | cons v log ih =>
      simp only [List.countP_cons, Finset.sum_add_distrib, ih]
      rw [CTree.cutsBitmap_sum]

theorem sum_bitmapCap : ∑ e : Dim, bitmapCap e = 20 := by decide

/-- **How often a lookup consults a prefix bitmap.** With exact costs and every dispatch on
scratch data of the node itself, a lookup in the tree `cut` returns for well-formed rules
passes at most `bitmapCap e` bitmap nodes on dimension `e`, hence 20 in all. -/
theorem search_bitmap_bound {fuel : Nat} {aux aux' : CutAux} {rs : List Rule} {tree : CTree}
    (hwf : RulesWF rs) (hrun : (cut ℚ fuel aux rs).res = .ok (tree, aux'))
    (hown : ∀ c ∈ (cut ℚ fuel aux rs).log, c.Own ℚ) (f : Flow) :
    (∀ e, (walk treeFunction tree [] f).log.countP (fun v => v.2.shifts e) ≤ bitmapCap e) ∧
      (walk treeFunction tree [] f).log.countP (fun v => v.2.cutsBitmap) ≤ 20 := by
  have hdim : ∀ e,
      (walk treeFunction tree [] f).log.countP (fun v => v.2.shifts e) ≤ bitmapCap e :=
    fun e => (walk_bitmaps treeFunction e tree [] f).trans (cut_bitmaps hwf hrun hown e)
  refine ⟨hdim, ?_⟩
  rw [countP_cutsBitmap, ← sum_bitmapCap]
  exact Finset.sum_le_sum fun e _ => hdim e

/-- The tree of the two groups of rules, whose root is a bitmap node. -/
theorem search_bitmap_bound_pairRules :
    ∃ tree aux, (cut ℚ 2 .zero pairRules).res = .ok (tree, aux) ∧ tree.cutsBitmap = true ∧
      ∀ f, (walk treeFunction tree [] f).log.countP (fun v => v.2.cutsBitmap) ≤ 20 := by
  obtain ⟨aux, a, b, hrun, hlog⟩ := pairRules_tree
  have hown : ∀ c ∈ (cut ℚ 2 .zero pairRules).log, c.Own ℚ :=
    fun c hc => (Call.filled_of_check (hlog c hc)).own
  exact ⟨_, aux, hrun, rfl, fun f => (search_bitmap_bound pairRules_wf hrun hown f).2⟩

end ChooseCut
