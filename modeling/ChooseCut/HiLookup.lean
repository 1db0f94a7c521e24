import ChooseCut.Lookup

/-!
# ChooseCut.HiLookup

Which segment a lookup computes at a hi node.

The segments of a hi node are laid over the hull of its rules, but the flows that reach it
are bounded only by the cuts above it, and a key may lie behind the last segment. The
segment number is then too large for every interval of the node, and possibly for the
width of the separator word. `Reaches` is the path of a lookup; along it the node reached
has own rules and own scratch data, and a flow that matches a rule still matches one.
-/

namespace ChooseCut

/-- The lookup of `f` from `tree` comes to `tree'`, with the flow changed to `g`. -/
inductive Reaches : CTree → Flow → CTree → Flow → Prop
  | here (tree : CTree) (f : Flow) : Reaches tree f tree f
  | down {d : Dim} {w : NodeWord} {childs : List CTree} {f f' g : Flow} {s : Nat}
      {c tree : CTree} (hnext : nextChild w d f = some (s, f')) (hc : childs[s]? = some c)
      (h : Reaches c f' tree g) : Reaches (.node d w childs) f tree g

section Reached

variable {K : Type} [CostArith K]

/-- **What a lookup finds at an inner node it reaches**: the node was built for sane rules,
and it has a hit if the root had one. -/
theorem Build.reached {tree : CTree} {f : Flow} {d : Dim} {w : NodeWord} {childs : List CTree}
    {g : Flow} (hreach : Reaches tree f (.node d w childs) g) :
    ∀ {rs : RuleSet}, Build K rs tree → Sane rs → f.InRange →
      ∃ rs', Build K rs' (.node d w childs) ∧ Sane rs' ∧ g.InRange ∧
        (hits rs.items f ≠ [] → hits rs'.items g ≠ []) := by
  generalize hnode : CTree.node d w childs = target at hreach
  induction hreach with
  | here tree f =>
      intro rs hbuild hs hf
      exact ⟨rs, hbuild, hs, hf, id⟩
  | @down d' w' childs' f f' g s c target hnext hc hrest ih =>
      intro rs hbuild hs hf
      cases hbuild with
      | node hbig hown hcut hlen hkids =>
          have hspec := cutInto_next hs hbig hown hcut hf
          rw [hnext] at hspec
          obtain ⟨hf', k, hk, hwf, hhits⟩ := hspec
          have hchild := hkids s _ _ hk hc
          -- an empty child is a leaf, and below a leaf there is nothing
          have hne : k ≠ [] := by
            rintro rfl
            rw [hchild.of_small (by rw [removeRedund_nil rfl]; decide)] at hrest
            cases hrest
            cases hnode
          obtain ⟨rs', hbuild', hs', hg, hhit⟩ := ih hnode hchild (removeRedund_sane hne hwf) hf'
          exact ⟨rs', hbuild', hs', hg,
            fun h => hhit (hits_removeRedund_ne_nil hwf (hhits ▸ h))⟩

/-- Own scratch of a hi cut is the entry of one granularity. -/
theorem OwnScratch.hi_partitions {aux : CutAux} {rs : RuleSet} {d : Dim}
    (h : OwnScratch K aux rs .hi d) (hs : Sane rs) (hne : rs.items ≠ []) :
    ∃ div ∈ hiDivs, Partitions div (aux.hi.entries d).nodeR (aux.hi.entries d).hist.childs ∧
      (aux.hi.entries d).seg (hullHi rs.items d) < div := by
  obtain ⟨hlen, aux0, me, aux1, hme, hsame⟩ := h
  obtain ⟨u, us, hsw, div, hdiv, -, hentry⟩ := hiGetRuleHist_entry (matchExpect_hi hme) hne hlen
  rw [← (show aux1.hi.entries d = aux.hi.entries d from hsame), hentry]
  exact ⟨div, hdiv, (hiEntryAt_for hdiv hne hs.fits hsw).2⟩

end Reached

section Segment

variable {rs : List Rule} {d : Dim} {e : HiEntry} {div : Nat}

/-- The segment of a key is one of the node's exactly if the key is below the end of the
last one. -/
theorem HiEntry.seg_lt_iff (e : HiEntry) (div : Nat) {v : Nat} (hv : e.start ≤ v) :
    e.seg v < div ↔ v < e.start + div * 2 ^ e.shift := by
  have hle : div ≤ e.seg v ↔ e.start + div * 2 ^ e.shift ≤ v := le_seg_iff hv
  omega

/-- **The segment of a key is right exactly below the last segment's end**: only there is
it at most 63 and in the interval of the child selected. -/
theorem hiSearch_segment_iff (h64 : div ≤ 64) (h : Partitions div e.nodeR e.hist.childs) {f : Flow}
    (hf : e.start ≤ f.key d) :
    (e.seg (f.key d) ≤ 63 ∧ ∃ i < e.hist.childs,
      hiSearch ⟨e.start, e.shift, hiSetBitmap e⟩ d f = some i ∧
        (e.nodeR i).1 ≤ e.seg (f.key d) ∧ e.seg (f.key d) ≤ (e.nodeR i).2) ↔
      f.key d < e.start + div * 2 ^ e.shift := by
  rw [← e.seg_lt_iff div hf]
  constructor
  · rintro ⟨-, i, hi, -, hmem⟩
    exact (h.exact _).mpr ⟨i, hi, hmem⟩
  · intro hlt
    obtain ⟨i, hi, hmem⟩ := (h.exact _).mp hlt
    refine ⟨by omega, i, hi, ?_, hmem⟩
    rw [hiSearch, if_neg (Nat.not_lt.mpr hf)]
    have hnext := hiNext_eq_count h h64 e.start e.shift (show e.seg (f.key d) < 64 by omega)
    rw [(h.count_marks_iff hlt hi).mpr hmem] at hnext
    exact congrArg some hnext

/-- A flow with a hit is below that end. -/
theorem HiFor.key_lt (h : HiFor rs d e) (hseg : e.seg (hullHi rs d) < div) {f : Flow}
    (hhit : hits rs f ≠ []) : e.start ≤ f.key d ∧ f.key d < e.start + div * 2 ^ e.shift := by
  rw [Ne, hits_eq_nil] at hhit
  push Not at hhit
  obtain ⟨r, hr, hm⟩ := hhit
  have hlo : e.start ≤ f.key d := (h.start_le hr).trans (hm d).1
  refine ⟨hlo, (e.seg_lt_iff div hlo).mp ?_⟩
  exact (e.seg_mono ((hm d).2.trans (le_hullHi hr))).trans_lt hseg

end Segment

/-- **When the segment computed at a hi node is right.** At every hi node a lookup reaches,
in the tree of a run whose dispatches read their own scratch data: the node was cut by an
entry with at most 64 segments, and for a key not below its start the segment number is at
most 63 and in the interval of the child selected, if and only if the key is below the end
of the last segment. A flow that matches a rule has such a key. -/
theorem hiSearch_reached {K : Type} [CostArith K] {fuel : Nat} {aux aux' : CutAux}
    {rs : List Rule} {tree : CTree} (hwf : RulesWF rs)
    (hrun : (cut K fuel aux rs).res = .ok (tree, aux'))
    (hown : ∀ c ∈ (cut K fuel aux rs).log, c.Own K) {f : Flow} (hf : f.InRange) {d : Dim}
    {n : HiNode} {childs : List CTree} {g : Flow}
    (hreach : Reaches tree f (.node d (.hi n) childs) g) :
    ∃ (rs' : RuleSet) (aux1 : CutAux) (ks : List RuleSet) (div : Nat),
      OwnScratch K aux1 rs' .hi d ∧ cutInto aux1 rs' .hi d = .ok (.hi n, ks) ∧
      ks.length = childs.length ∧ div ∈ hiDivs ∧
      Partitions div (aux1.hi.entries d).nodeR childs.length ∧
      (n.start ≤ g.key d →
        (((g.key d - n.start) >>> n.shift ≤ 63 ∧ ∃ i < childs.length, hiSearch n d g = some i ∧
          ((aux1.hi.entries d).nodeR i).1 ≤ (g.key d - n.start) >>> n.shift ∧
          (g.key d - n.start) >>> n.shift ≤ ((aux1.hi.entries d).nodeR i).2) ↔
        g.key d < n.start + div * 2 ^ n.shift)) ∧
      ((∃ r ∈ rs, r.Matches f) →
        n.start ≤ g.key d ∧ g.key d < n.start + div * 2 ^ n.shift) := by
  obtain ⟨rs', hbuild, hs, -, hhit⟩ :=
    Build.reached hreach (cut_build hwf hrun hown) ⟨rfl, hwf⟩ hf
  cases hbuild with
  | @node _ aux1 t _ _ ks _ hbig hscratch hcut hlen hkids =>
      have hne := hs.ne_nil hbig
      obtain ⟨-, -, -, htype⟩ := cutInto_ok (hscratch.entryFor hs hne) hs.fits hcut
      obtain rfl : t = .hi := htype.symm
      have hfor : HiFor rs'.items d (aux1.hi.entries d) := hscratch.entryFor hs hne
      obtain ⟨div, hdiv, hpart, hseg⟩ := hscratch.hi_partitions hs hne
      have h64 := (hiDivs_bounds div hdiv).2
      -- the node word and the number of children are those of the entry
      obtain ⟨q, hq, hword⟩ := bind_eq_ok.mp hcut
      rw [hiCut_eq hfor hs.fits] at hq
      obtain rfl := Except.ok.inj hq
      obtain ⟨hn, rfl⟩ := Prod.mk.inj (Except.ok.inj hword)
      obtain rfl := NodeWord.hi.inj hn
      have hchilds : childs.length = (aux1.hi.entries d).hist.childs := by
        rw [hlen, List.length_map, hiKids, List.length_map, List.length_range]
      rw [hchilds] at hlen ⊢
      refine ⟨rs', aux1, _, div, hscratch, hcut, hlen.symm, hdiv, hpart,
        fun hge => hiSearch_segment_iff h64 hpart hge, fun hmatch => ?_⟩
      refine hfor.key_lt hseg (hhit ?_)
      obtain ⟨r, hr, hm⟩ := hmatch
      rw [Ne, hits_eq_nil]
      exact fun h => h r hr hm

/-- A flow in the second segment of the root. -/
theorem hiSearch_reached_gapRules :
    ∃ tree aux n childs, (cut ℚ 2 .zero gapRules).res = .ok (tree, aux) ∧
      Reaches tree (.onFirst 130) (.node 0 (.hi n) childs) (.onFirst 130) ∧
      ∃ div ∈ hiDivs, 130 < n.start + div * 2 ^ n.shift := by
  obtain ⟨aux, l₀, l₁, l₂, l₃, l₅, hrun, hlog⟩ := gapRules_tree
  have hown : ∀ c ∈ (cut ℚ 2 .zero gapRules).log, c.Own ℚ :=
    fun c hc hbig => (Call.own_iff hbig).mpr (hlog c hc) hbig
  have hreach := Reaches.here (.node 0 (.hi ⟨0, 7, 0x4f#64⟩)
    [.leaf l₀, .leaf l₁, .leaf l₂, .leaf l₃, .leaf ⟨1, 0, []⟩, .leaf l₅]) (.onFirst 130)
  obtain ⟨-, -, -, div, -, -, -, hdiv, -, -, hmatch⟩ :=
    hiSearch_reached gapRules_wf hrun hown (Flow.onFirst_inRange (by decide)) hreach
  have hmem : Rule.onFirst 0 0 511 ∈ gapRules :=
    List.mem_append_left _ (List.mem_map.mpr ⟨0, by decide, rfl⟩)
  exact ⟨_, aux, _, _, hrun, hreach, div, hdiv,
    (hmatch ⟨_, hmem, Rule.onFirst_matches.mpr (by decide)⟩).2⟩

/-- **A segment number above 63.** The flow with the greatest key comes to that root, and
its segment there is number 33554431. -/
theorem gapRules_segment :
    RulesWF gapRules ∧ (Flow.onFirst (2 ^ 32 - 1)).InRange ∧
      ∃ tree aux n childs, (cut ℚ 2 .zero gapRules).res = .ok (tree, aux) ∧
        Reaches tree (.onFirst (2 ^ 32 - 1)) (.node 0 (.hi n) childs) (.onFirst (2 ^ 32 - 1)) ∧
        ((Flow.onFirst (2 ^ 32 - 1)).key 0 - n.start) >>> n.shift = 33554431 := by
  obtain ⟨aux, l₀, l₁, l₂, l₃, l₅, hrun, -⟩ := gapRules_tree
  exact ⟨gapRules_wf, Flow.onFirst_inRange (by decide), _, aux, _, _, hrun, .here _ _, by decide⟩

end ChooseCut
