import ChooseCut.Cut
import ChooseCut.CutBitmapMatch
import ChooseCut.CutHiMatch
import ChooseCut.CutSplitSound

/-!
# ChooseCut.CutStep

One cut of a node, the three methods seen as one.

`CutsTo` is the abstract cut: a node word and the rule lists of the children, for some
scratch entry that was computed from the node's rules. Every fact about the tree that
does not depend on the method is stated over it. The connection to the code is
`cutInto_ok`: when the entry a method reads was computed from the node's own rules,
`cuts[t].cut_node` produces an abstract cut.

`match_expect` does not always write the entry. `Fresh` says when it does: always for
bitmap, for split when two rules differ in the dimension, for hi when the hull of the
rules has at least four values.
-/

namespace ChooseCut

/-! ### Scratch entries -/

/-- `match_expect` writes the entry of this method and dimension. -/
def Fresh (t : CutType) (rs : List Rule) (d : Dim) : Prop :=
  match t with
  | .bitmap => True
  | .split => ¬ SameRange rs d
  | .hi => 4 ≤ hullLen rs d

instance (t : CutType) (rs : List Rule) (d : Dim) : Decidable (Fresh t rs d) :=
  match t with
  | .bitmap => inferInstanceAs (Decidable True)
  | .split => inferInstanceAs (Decidable (¬ SameRange rs d))
  | .hi => inferInstanceAs (Decidable (4 ≤ hullLen rs d))

/-- The entry that `cuts[t].cut_node` reads for dimension `d` was computed from `rs`. -/
def EntryFor (aux : CutAux) (rs : List Rule) (t : CutType) (d : Dim) : Prop :=
  match t with
  | .bitmap => aux.hist d = getRuleHist rs d
  | .split => STreeFor rs d (aux.split.strees d)
  | .hi => HiFor rs d (aux.hi.entries d)

/-- Two scratch areas that hold the same entry for a method and a dimension. -/
def SameEntry (t : CutType) (d : Dim) (aux aux' : CutAux) : Prop :=
  match t with
  | .bitmap => aux.hist d = aux'.hist d
  | .split => aux.split.strees d = aux'.split.strees d
  | .hi => aux.hi.entries d = aux'.hi.entries d

/-- The scratch data a dispatch reads was computed by `match_expect` from the node's own
rules: some call on these rules wrote the entry, and it is still there. -/
def OwnScratch (K : Type) [CostArith K] (aux : CutAux) (rs : RuleSet) (t : CutType) (d : Dim) :
    Prop :=
  Fresh t rs.items d ∧
    ∃ aux0 me aux1, matchExpect K t aux0 rs d = .ok (me, aux1) ∧ SameEntry t d aux1 aux

/-- A rule set whose count is right and whose rules are well formed, as `cut_node` is
meant to get it. -/
structure Sane (rs : RuleSet) : Prop where
  num_eq : rs.num = rs.items.length
  wf : RulesWF rs.items

theorem Sane.fits {rs : RuleSet} (h : Sane rs) : ∀ r ∈ rs.items, r.Fits :=
  fun r hr => (h.wf r hr).fits

theorem Sane.ne_nil {rs : RuleSet} (h : Sane rs) (hbig : bucketSize < rs.num) : rs.items ≠ [] := by
  intro hnil
  have := h.num_eq
  rw [hnil, List.length_nil] at this
  simp only [bucketSize] at hbig
  omega

section MatchExpect

variable {K : Type} [CostArith K] {aux aux' : CutAux} {rs : RuleSet} {t : CutType} {d : Dim} {me : K}

/-- The histogram a call of `even_match_expect` stores, as long as it is still there. -/
theorem matchExpect_bitmap {aux1 : CutAux} (h : matchExpect K .bitmap aux rs d = .ok (me, aux1))
    (he : SameEntry .bitmap d aux1 aux') : aux'.hist d = getRuleHist rs.items d := by
  obtain ⟨-, rfl⟩ := Prod.mk.inj (Except.ok.inj h)
  rw [← (show _ = aux'.hist d from he)]
  exact Function.update_self _ _ _

/-- The tree a call of `split_match_expect` stores. -/
theorem matchExpect_split (h : matchExpect K .split aux rs d = .ok (me, aux')) :
    rs.num ≤ aux.split.rangesCap ∧
      splitMatchExpectTree K aux.split rs d = .ok (me, aux'.split.strees d) := by
  obtain ⟨q, hq, h⟩ := bind_eq_ok.mp h
  obtain ⟨rfl, rfl⟩ := Prod.mk.inj (Except.ok.inj h)
  obtain ⟨p, hp, hq⟩ := bind_eq_ok.mp hq
  obtain rfl := Except.ok.inj hq
  exact ⟨splitMatchExpectTree_room hp, by simpa using hp⟩

/-- The entry a call of `hi_match_expect` stores. -/
theorem matchExpect_hi (h : matchExpect K .hi aux rs d = .ok (me, aux')) :
    hiGetRuleHist K aux.hi.rangesCap (aux.hi.entries d) rs d = .ok (me, aux'.hi.entries d) := by
  obtain ⟨q, hq, h⟩ := bind_eq_ok.mp h
  obtain ⟨rfl, rfl⟩ := Prod.mk.inj (Except.ok.inj h)
  obtain ⟨p, hp, hq⟩ := bind_eq_ok.mp hq
  obtain rfl := Except.ok.inj hq
  simpa using hp

/-- A call of `match_expect` that writes its entry computes it from the rules. -/
theorem matchExpect_entry (h : matchExpect K t aux rs d = .ok (me, aux')) (hs : Sane rs)
    (hne : rs.items ≠ []) (hfresh : Fresh t rs.items d) : EntryFor aux' rs.items t d := by
  cases t with
  | bitmap => exact matchExpect_bitmap h rfl
  | split =>
      obtain ⟨hroom, htree⟩ := matchExpect_split h
      rcases splitMatchExpectTree_spec (K := K) hroom hs.num_eq hs.fits hfresh with
        ⟨-, herr⟩ | ⟨me', tree, hok, hfor, -⟩
      · rw [herr] at htree
        cases htree
      · rw [hok] at htree
        obtain ⟨-, rfl⟩ := Prod.mk.inj (Except.ok.inj htree)
        exact hfor
  | hi => exact (hiGetRuleHist_ok (matchExpect_hi h) hne hs.fits hfresh).2

theorem EntryFor.congr {l : List Rule} (h : EntryFor aux l t d) (he : SameEntry t d aux aux') :
    EntryFor aux' l t d := by
  cases t with
  | bitmap => exact (Eq.symm he).trans h
  | split =>
      simp only [SameEntry, EntryFor] at he h ⊢
      rwa [← he]
  | hi =>
      simp only [SameEntry, EntryFor] at he h ⊢
      rwa [← he]

/-- Own scratch is an entry computed from the rules. -/
theorem OwnScratch.entryFor (h : OwnScratch K aux rs t d) (hs : Sane rs) (hne : rs.items ≠ []) :
    EntryFor aux rs.items t d := by
  obtain ⟨hfresh, aux0, me, aux1, hme, hsame⟩ := h
  exact (matchExpect_entry hme hs hne hfresh).congr hsame

end MatchExpect

/-! ### The abstract cut -/

/-- A cut of the rules in dimension `d`: the node word, and the rules of the children in
array order. -/
inductive CutsTo (rs : List Rule) (d : Dim) : NodeWord → List (List Rule) → Prop
  | bitmap :
      CutsTo rs d (.mb (evenNode (getRuleHist rs d))) ((evenKids rs d).map Buffer.items)
  | split {t : STree} (h : STreeFor rs d t) :
      CutsTo rs d (.sp (splitFill t)) (splitKids rs d t)
  | hi {e : HiEntry} (h : HiFor rs d e) :
      CutsTo rs d (.hi ⟨e.start, e.shift, hiSetBitmap e⟩) (hiKids rs d e)

section CutInto

variable {aux : CutAux} {rs : RuleSet} {t : CutType} {d : Dim} {w : NodeWord} {ks : List RuleSet}

/-- The children of a bitmap cut are exactly full. -/
theorem evenKids_eq_ofList {l : List Rule} (hfit : ∀ r ∈ l, r.Fits) :
    evenKids l d = ((evenKids l d).map Buffer.items).map Buffer.ofList := by
  rw [List.map_map]
  conv_lhs => rw [← List.map_id (evenKids l d)]
  apply List.map_congr_left
  intro k hk
  obtain ⟨i, -, rfl⟩ := mem_evenKids hfit hk
  rfl

/-- **`cuts[t].cut_node` with an entry of the node's own rules is an abstract cut**, with
every child exactly full. -/
theorem cutInto_ok (he : EntryFor aux rs.items t d) (hfit : ∀ r ∈ rs.items, r.Fits)
    (h : cutInto aux rs t d = .ok (w, ks)) :
    ∃ kids, ks = kids.map Buffer.ofList ∧ CutsTo rs.items d w kids ∧ w.type = t := by
  cases t with
  | bitmap =>
      simp only [EntryFor] at he
      simp only [cutInto, he, evenCut_eq hfit, bind, Except.bind, Except.ok.injEq,
        Prod.mk.injEq] at h
      obtain ⟨rfl, rfl⟩ := h
      exact ⟨_, evenKids_eq_ofList hfit, .bitmap, rfl⟩
  | split =>
      obtain ⟨q, hq, h⟩ := bind_eq_ok.mp h
      rw [splitCut_eq he hfit] at hq
      split at hq
      · obtain rfl := Except.ok.inj hq
        simp only [Except.ok.injEq, Prod.mk.injEq] at h
        obtain ⟨rfl, rfl⟩ := h
        exact ⟨_, rfl, .split he, rfl⟩
      · cases hq
  | hi =>
      simp only [EntryFor] at he
      simp only [cutInto, hiCut_eq he hfit, bind, Except.bind, Except.ok.injEq,
        Prod.mk.injEq] at h
      obtain ⟨rfl, rfl⟩ := h
      exact ⟨_, rfl, .hi he, rfl⟩

/-- With room for both sides of a split in the scratch buffers, the cut does not fail. -/
theorem cutInto_of_room (he : EntryFor aux rs.items t d) (hs : Sane rs)
    (hroom : t = .split → (aux.split.strees d).root.r0.weight ≤ aux.split.rulesCap ∧
      (aux.split.strees d).root.r1.weight ≤ aux.split.rulesCap) :
    ∃ w ks, cutInto aux rs t d = .ok (w, ks) := by
  cases t with
  | bitmap =>
      simp only [EntryFor] at he
      simp only [cutInto, he, evenCut_eq hs.fits, bind, Except.bind]
      exact ⟨_, _, rfl⟩
  | split =>
      simp only [cutInto, splitCut_eq he hs.fits]
      rw [if_pos (hroom rfl)]
      exact ⟨_, _, rfl⟩
  | hi =>
      simp only [EntryFor] at he
      simp only [cutInto, hiCut_eq he hs.fits, bind, Except.bind]
      exact ⟨_, _, rfl⟩

/-- A bitmap cut is possible on every well-formed node and in every dimension, from any
scratch area. -/
theorem bitmap_own_cut (K : Type) [CostArith K] {l : List Rule} (hfit : ∀ r ∈ l, r.Fits)
    (aux : CutAux) (d : Dim) :
    ∃ aux', OwnScratch K aux' (Buffer.ofList l) .bitmap d ∧
      cutInto aux' (Buffer.ofList l) .bitmap d
        = .ok (.mb (evenNode (getRuleHist l d)), evenKids l d) := by
  refine ⟨{ aux with hist := Function.update aux.hist d (getRuleHist l d) },
    ⟨trivial, aux, _, _, rfl, rfl⟩, ?_⟩
  have heven := @evenCut_eq d (Buffer.ofList l) hfit
  simp only [Buffer.ofList_items] at heven
  simp only [cutInto, Function.update_self, heven, bind, Except.bind]

end CutInto

/-! ### Facts about every cut -/

section CutsTo

variable {rs : List Rule} {d : Dim} {w : NodeWord} {kids : List (List Rule)}

/-- One step of `search` with some `tree_function`. -/
def nextChildWith (tf : TreeFunction) (w : NodeWord) (d : Dim) (f : Flow) : Option (Nat × Flow) :=
  match w with
  | .mb n => evenSearchWith tf n d f
  | .sp n => some (splitSearch n d f, f)
  | .hi n => (hiSearch n d f).map (fun s => (s, f))

theorem nextChildWith_tables (w : NodeWord) (d : Dim) (f : Flow) :
    nextChildWith treeFunction w d f = nextChild w d f := by
  cases w <;> rfl

/-- **One step of the lookup**: it stops only for a flow no rule matches, and otherwise
reaches a child in which the flow it leaves has the hits it had in the node. -/
theorem CutsTo.nextChildWith_spec {tf : TreeFunction} (htf : FindsDeepest tf)
    (h : CutsTo rs d w kids) (hfit : ∀ r ∈ rs, r.Fits) {f : Flow} (hf : f.InRange) :
    match nextChildWith tf w d f with
    | none => hits rs f = []
    | some (s, f') => f'.InRange ∧ ∃ k, kids[s]? = some k ∧ hits k f' = hits rs f := by
  cases h with
  | bitmap =>
      have hspec := evenSearchWith_spec (d := d) htf hfit hf
      rw [nextChildWith]
      cases hn : evenSearchWith tf (evenNode (getRuleHist rs d)) d f with
      | none =>
          rw [hn] at hspec
          exact hspec
      | some q =>
          rw [hn] at hspec
          obtain ⟨hin, i, hi, hslot, hhits⟩ := hspec
          refine ⟨hin, _, ?_, hhits⟩
          rw [List.getElem?_map, hslot, evenKids_getElem? hfit hi]
          rfl
  | split h =>
      obtain ⟨k, hk, hhits⟩ := splitSearch_spec h f
      exact ⟨hf, k, hk, hhits⟩
  | @hi e h =>
      have hspec := hiSearch_spec h f
      rw [nextChildWith]
      cases hn : hiSearch ⟨e.start, e.shift, hiSetBitmap e⟩ d f with
      | none =>
          rw [hn] at hspec
          exact hspec
      | some s =>
          rw [hn] at hspec
          obtain ⟨k, hk, hhits⟩ := hspec
          exact ⟨hf, k, hk, hhits⟩

/-- Peeling the two bitmaps of a bitmap node visits every slot of its array once. -/
theorem evenOrder_perm (hist : RuleHist) :
    (visitOrder (.mb (evenNode hist)) (evenTotal hist)).Perm (List.range (evenTotal hist)) := by
  have hint : (peel (evenNode hist).internal 64 0#64).map (nextInl (evenNode hist))
      = (List.range (popcount (evenNode hist).internal)).map
          (fun r => (evenNode hist).childPtr - r - 1) := by
    rw [peel_eq_bitPositions, ← map_rank_bitPositions, List.map_map]
    rfl
  have hext : (peel (evenNode hist).external 64 0#64).map (nextExl (evenNode hist))
      = (List.range (popcount (evenNode hist).external)).map
          ((evenNode hist).childPtr + ·) := by
    rw [peel_eq_bitPositions, ← map_rank_bitPositions, List.map_map]
    rfl
  have hrev : (List.range (popcount (evenNode hist).internal)).map
      (fun r => popcount (evenNode hist).internal - r - 1)
        = (List.range (popcount (evenNode hist).internal)).reverse := by
    conv_rhs => rw [List.range_eq_range', List.reverse_range']
    apply List.map_congr_left
    intro r _
    omega
  unfold evenTotal
  rw [visitOrder_mb, show (0 : BitVec 64) = 0#64 from rfl, hint, hext, ← popcount_internal, hrev, List.range_add]
  exact (List.reverse_perm _).append_right _

/-- **The recursion visits every child once.** -/
theorem CutsTo.visitOrder_perm (h : CutsTo rs d w kids) :
    (visitOrder w kids.length).Perm (List.range kids.length) := by
  cases h with
  | bitmap =>
      rw [List.length_map, evenKids_length]
      exact evenOrder_perm _
  | split h => exact List.Perm.refl _
  | hi h => exact List.Perm.refl _

/-- Every child of a hi cut is a clipped copy of the node. -/
theorem mem_hiKids {e : HiEntry} {k : List Rule} (hk : k ∈ hiKids rs d e) :
    ∃ i < e.hist.childs, k = clipTo (hiInterval e i) d rs := by
  obtain ⟨i, hi, rfl⟩ := List.mem_map.mp hk
  exact ⟨i, List.mem_range.mp hi, rfl⟩

theorem HiFor.interval_le {e : HiEntry} (h : HiFor rs d e) {i : Nat} (hi : i < e.hist.childs) :
    (hiInterval e i).lo ≤ (hiInterval e i).hi := by
  have hle := h.part.le i hi
  have hmul : (e.nodeR i).1 * 2 ^ e.shift ≤ (e.nodeR i).2 * 2 ^ e.shift :=
    Nat.mul_le_mul_right _ hle
  have hpos := Nat.two_pow_pos e.shift
  unfold hiInterval
  dsimp only
  rw [Nat.succ_mul]
  omega

/-- The children of a well-formed rule list are well formed. -/
theorem CutsTo.wf (h : CutsTo rs d w kids) (hwf : RulesWF rs) : ∀ k ∈ kids, RulesWF k := by
  intro k hk
  cases h with
  | bitmap =>
      obtain ⟨b, hb, rfl⟩ := List.mem_map.mp hk
      obtain ⟨i, -, rfl⟩ := mem_evenKids (fun r hr => (hwf r hr).fits) hb
      exact childRules_wf hwf i
  | split h =>
      obtain ⟨k1, hk1, rfl | ⟨e, hk2⟩⟩ := mem_splitKids h hk
      · exact hk1.wf hwf
      · exact hk2.wf (hk1.wf hwf)
  | hi h =>
      obtain ⟨i, hi, rfl⟩ := mem_hiKids hk
      exact clipTo_wf hwf (h.interval_le hi)

/-- A child that is not empty is sane after `remove_redund`. -/
theorem removeRedund_sane {k : List Rule} (hne : k ≠ []) (hwf : RulesWF k) :
    Sane (removeRedund (Buffer.ofList k)) := by
  have hpri : ∀ r ∈ (Buffer.ofList k).items, r.pri ≠ uint32Max :=
    fun r hr => Nat.ne_of_lt (hwf r hr).pri_lt
  rw [removeRedund_eq hne hpri]
  exact ⟨rfl, fun r hr => hwf r (clean_sublist.subset hr)⟩

/-- Linear search does not see `remove_redund`. -/
theorem hits_removeRedund {k : List Rule} (hwf : RulesWF k) (f : Flow) :
    (hits (removeRedund (Buffer.ofList k)).items f).head? = (hits k f).head? := by
  by_cases hne : k = []
  · subst hne
    rw [removeRedund_nil rfl]
    rfl
  · rw [removeRedund_eq hne (fun r hr => Nat.ne_of_lt (hwf r hr).pri_lt)]
    exact hits_clean_head k f

theorem hits_removeRedund_ne_nil {k : List Rule} (hwf : RulesWF k) {f : Flow} (h : hits k f ≠ []) :
    hits (removeRedund (Buffer.ofList k)).items f ≠ [] := by
  intro hnil
  have hhead := hits_removeRedund hwf f
  rw [hnil] at hhead
  exact h (List.head?_eq_none_iff.mp hhead.symm)

end CutsTo

end ChooseCut
