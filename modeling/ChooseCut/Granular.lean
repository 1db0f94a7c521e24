import ChooseCut.Lookup

/-!
# ChooseCut.Granular

How far the bitmap cuts on a path have coarsened a dimension.

A bitmap cut shifts six key bits out, so after `m` of them in one dimension the ranges of
that dimension start and end at multiples of `2 ^ (6 * m)`, capped by the width of the
dimension. Split and hi cuts keep this: split points are rule end points, and a hi border
is either a multiple of the granularity, when the segments are coarser, or a point where
a rule starts or ends, when they are finer, because two segments without such a point
between them are merged into one child.

`NodeAt` are the nodes of the trees `Build` describes, with the number of bitmap cuts in
each dimension on the path to them.
-/

namespace ChooseCut

/-- The granularity after `m` bitmap cuts, as a power of two. -/
def gran (m : Dim → Nat) (d : Dim) : Nat := min (stride * m d) (dimBits d)

/-- The counts after one more cut. -/
def bump (m : Dim → Nat) (t : CutType) (d : Dim) : Dim → Nat :=
  if t = .bitmap then Function.update m d (m d + 1) else m

/-- The range starts and ends at multiples of `2 ^ g`. -/
def Range.Granular (x : Range) (g : Nat) : Prop := 2 ^ g ∣ x.lo ∧ 2 ^ g ∣ x.hi + 1

/-- All ranges of all rules have the granularity of their dimension. -/
def GranularAt (m : Dim → Nat) (rs : List Rule) : Prop :=
  ∀ r ∈ rs, ∀ d, (r.range d).Granular (gran m d)

theorem GranularAt.zero (rs : List Rule) : GranularAt (fun _ => 0) rs := by
  intro r _ d
  simp [Range.Granular, gran]

theorem GranularAt.sublist {m : Dim → Nat} {rs ss : List Rule} (h : GranularAt m rs)
    (hsub : ∀ r ∈ ss, r ∈ rs) : GranularAt m ss :=
  fun r hr => h r (hsub r hr)

section Cuts

variable {rs : List Rule} {d : Dim} {m : Dim → Nat}

/-! ### Clipping -/

/-- Clipping keeps granularity where the borders that cut something off are granular. -/
theorem GranularAt.clipTo {x : Range} (h : GranularAt m rs)
    (hlo : ∀ r ∈ rs, (r.range d).lo < x.lo → 2 ^ gran m d ∣ x.lo)
    (hhi : ∀ r ∈ rs, x.hi < (r.range d).hi → 2 ^ gran m d ∣ x.hi + 1) :
    GranularAt m (clipTo x d rs) := by
  intro q hq e
  obtain ⟨r, hr, -, rfl⟩ := mem_clipTo hq
  by_cases he : e = d
  · subst he
    rw [Rule.clip_range_same]
    refine ⟨?_, ?_⟩
    · rcases Nat.lt_or_ge (r.range e).lo x.lo with hlt | hge
      · rw [Nat.max_eq_right (Nat.le_of_lt hlt)]
        exact hlo r hr hlt
      · rw [Nat.max_eq_left hge]
        exact (h r hr e).1
    · dsimp only
      rcases Nat.lt_or_ge x.hi (r.range e).hi with hlt | hge
      · rw [Nat.min_eq_right (Nat.le_of_lt hlt)]
        exact hhi r hr hlt
      · rw [Nat.min_eq_left hge]
        exact (h r hr e).2
  · rw [Rule.clip_range_of_ne r he]
    exact h r hr e

/-! ### The three cuts -/

/-- A split point is a rule end point. -/
theorem IsSplit.granular {r0 r1 : Range1d} (hs : IsSplit rs d r0 r1) (h : GranularAt m rs) :
    2 ^ gran m d ∣ r0.high + 1 := by
  obtain ⟨r, hr, hend | hstart⟩ := hs.border
  · rw [← hend]
    exact (h r hr d).2
  · rw [← hstart]
    exact (h r hr d).1

theorem HalfOf.granular {k : List Rule} (hk : HalfOf rs d k) (h : GranularAt m rs) :
    GranularAt m k := by
  obtain ⟨r0, r1, hs, rfl | rfl⟩ := hk
  · refine h.clipTo (fun r hr hlt => ?_) (fun _ _ _ => hs.granular h)
    have := hullLo_le (d := d) hr
    rw [← hs.low] at this
    exact absurd hlt (Nat.not_lt.mpr this)
  · refine h.clipTo (fun _ _ _ => ?_) (fun r hr hlt => ?_)
    · have := hs.granular h
      rwa [← hs.next] at this
    · have := le_hullHi (d := d) hr
      rw [← hs.high] at this
      exact absurd hlt (Nat.not_lt.mpr this)

/-- A multiple of `2 ^ g` that lies in a segment of a finer grid is the start of it. -/
theorem eq_mul_of_dvd {g s a x : Nat} (hsg : s ≤ g) (hx : 2 ^ g ∣ x) (hlo : a * 2 ^ s ≤ x)
    (hhi : x < (a + 1) * 2 ^ s) : x = a * 2 ^ s := by
  obtain ⟨y, rfl⟩ := Nat.dvd_trans (Nat.pow_dvd_pow 2 hsg) hx
  rw [Nat.mul_comm (2 ^ s) y] at hlo hhi ⊢
  have h1 := Nat.le_of_mul_le_mul_right hlo (Nat.two_pow_pos s)
  have h2 := Nat.lt_of_mul_lt_mul_right hhi
  rw [show y = a by omega]

/-- **A border between two hi children is granular.** -/
theorem HiFor.border_granular {e : HiEntry} (he : HiFor rs d e) (hfit : ∀ r ∈ rs, r.Fits)
    (h : GranularAt m rs) {i : Nat} (hi : i + 1 < e.hist.childs) :
    2 ^ gran m d ∣ e.start + (e.nodeR (i + 1)).1 * 2 ^ e.shift := by
  have hne : rs ≠ [] := by
    rintro rfl
    exact he.border i hi (fun r hr => absurd hr (List.not_mem_nil))
  have hstart : 2 ^ gran m d ∣ e.start := by
    obtain ⟨r, hr, hlo⟩ := exists_hullLo (d := d) hne
    rw [he.start_eq, ← hlo]
    exact (h r hr d).1
  refine (Nat.dvd_add_iff_right hstart).mp ?_
  rcases Nat.lt_or_ge e.shift (gran m d) with hfine | hcoarse
  swap
  · exact Dvd.dvd.mul_left (Nat.pow_dvd_pow 2 hcoarse) _
  -- segments finer than the granularity: some rule starts or ends at the border
  rw [he.part.next i hi]
  have hb := he.border i hi
  unfold HiEntry.QuietAt at hb
  push Not at hb
  obtain ⟨r, hr, hq⟩ := hb
  have hlo := he.start_le hr
  have hlohi := (hfit r hr d).1
  by_cases hseg : e.seg (r.range d).lo = (e.nodeR i).2 + 1
  · have hin := (seg_eq_iff hlo).mp hseg
    unfold edge at hin
    have hdvd : 2 ^ gran m d ∣ (r.range d).lo - e.start := Nat.dvd_sub (h r hr d).1 hstart
    have heq := eq_mul_of_dvd (Nat.le_of_lt hfine) hdvd
      (a := (e.nodeR i).2 + 1) (by omega) (by omega)
    rwa [← heq]
  · have hin := (seg_eq_iff (Nat.le_trans hlo hlohi)).mp (hq hseg)
    unfold edge at hin
    have hdvd : 2 ^ gran m d ∣ (r.range d).hi + 1 - e.start := Nat.dvd_sub (h r hr d).2 hstart
    -- the end lies in the segment before, so the value after it is at most the border
    rcases Nat.lt_or_ge ((r.range d).hi + 1 - e.start) (((e.nodeR i).2 + 1) * 2 ^ e.shift) with
      hlt | hge
    · have heq := eq_mul_of_dvd (Nat.le_of_lt hfine) hdvd (a := (e.nodeR i).2) (by omega) hlt
      omega
    · have heq : (r.range d).hi + 1 - e.start = ((e.nodeR i).2 + 1) * 2 ^ e.shift := by omega
      rwa [← heq]

theorem HiFor.granular {e : HiEntry} (he : HiFor rs d e) (hfit : ∀ r ∈ rs, r.Fits)
    (h : GranularAt m rs) {i : Nat} (hi : i < e.hist.childs) :
    GranularAt m (clipTo (hiInterval e i) d rs) := by
  refine h.clipTo (fun r hr hlt => ?_) (fun r hr hlt => ?_)
  · cases i with
    | zero =>
        have hzero : (hiInterval e 0).lo = e.start := by
          simp [hiInterval, he.part.first he.pos]
        rw [hzero] at hlt
        exact absurd hlt (Nat.not_lt.mpr (he.start_le hr))
    | succ i => exact he.border_granular hfit h hi
  · rcases Nat.lt_or_ge (i + 1) e.hist.childs with hnext | hlast
    · have hb := he.border_granular hfit h hnext
      rw [he.part.next i hnext] at hb
      have hpos : 0 < ((e.nodeR i).2 + 1) * 2 ^ e.shift :=
        Nat.mul_pos (Nat.succ_pos _) (Nat.two_pow_pos _)
      have hsucc : (hiInterval e i).hi + 1 = e.start + ((e.nodeR i).2 + 1) * 2 ^ e.shift := by
        unfold hiInterval
        dsimp only
        omega
      rwa [hsucc]
    · -- the last child reaches past the hull
      obtain rfl : i = e.hist.childs - 1 := by omega
      have hmax := le_hullHi (d := d) hr
      have hge : e.start ≤ hullHi rs d :=
        Nat.le_trans (he.start_le hr) (Nat.le_trans (hfit r hr d).1 hmax)
      have hcover := (seg_le_iff hge).mp he.cover
      unfold edge at hcover
      unfold hiInterval at hlt
      dsimp only at hlt
      omega

/-- A prefix of a granular range is granular, and six bits coarser after the shift. -/
theorem childRules_granular (hwf : RulesWF rs) (h : GranularAt m rs) (i : Nat) :
    GranularAt (bump m .bitmap d) (childRules rs d i) := by
  intro q hq e
  obtain ⟨r, hr, p, hp, -, rfl⟩ := mem_childRules hq
  unfold prefixRule bump
  rw [if_pos rfl]
  by_cases he : e = d
  · subst he
    obtain ⟨hlen, hdvd, -⟩ := prefix_facts (fun r hr => (hwf r hr).fits) hr hp
    obtain ⟨hle, hlt⟩ := (hwf r hr).fits e
    have hg : gran m e ≤ dimBits e - p.len :=
      prefixes_granular (dimBits_le e) hle hlt (Nat.min_le_right _ _) (h r hr e).1 (h r hr e).2 hp
    have hgran := prefixRange_granular hlen hdvd hg
    have hmin : min (gran m e + stride) (dimBits e)
        = gran (Function.update m e (m e + 1)) e := by
      unfold gran
      rw [Function.update_self, Nat.mul_add, Nat.mul_one]
      omega
    rw [hmin] at hgran
    rw [Rule.setRange_range, Function.update_self]
    exact hgran
  · have hsame : gran (Function.update m d (m d + 1)) e = gran m e := by
      unfold gran
      rw [Function.update_of_ne he]
    rw [hsame, Rule.setRange_range, Function.update_of_ne he]
    exact h r hr e

/-- **Every cut keeps the granularity, and a bitmap cut raises it.** -/
theorem CutsTo.granular {w : NodeWord} {kids : List (List Rule)} (hto : CutsTo rs d w kids)
    (hwf : RulesWF rs) (h : GranularAt m rs) :
    ∀ k ∈ kids, GranularAt (bump m w.type d) k := by
  intro k hk
  have hfit : ∀ r ∈ rs, r.Fits := fun r hr => (hwf r hr).fits
  cases hto with
  | bitmap =>
      obtain ⟨b, hb, rfl⟩ := List.mem_map.mp hk
      obtain ⟨i, -, rfl⟩ := mem_evenKids hfit hb
      exact childRules_granular hwf h i
  | split hs =>
      obtain ⟨k1, hk1, rfl | ⟨e, hk2⟩⟩ := mem_splitKids hs hk
      · exact hk1.granular h
      · exact hk2.granular (hk1.granular h)
  | hi he =>
      obtain ⟨i, hi, rfl⟩ := mem_hiKids hk
      exact he.granular hfit h hi

/-- Once the granularity is the width of the dimension, every range is the whole of it. -/
theorem GranularAt.covers (h : GranularAt m rs) (hfit : ∀ r ∈ rs, r.Fits)
    (hm : dimBits d ≤ stride * m d) {r : Rule} (hr : r ∈ rs) :
    r.range d = ⟨0, 2 ^ dimBits d - 1⟩ := by
  obtain ⟨hlo, hhi⟩ := h r hr d
  obtain ⟨hle, hlt⟩ := hfit r hr d
  rw [gran, Nat.min_eq_right hm] at hlo hhi
  have h0 : (r.range d).lo = 0 := Nat.eq_zero_of_dvd_of_lt hlo (by omega)
  have h1 := Nat.le_of_dvd (Nat.succ_pos _) hhi
  have h2 : (r.range d).hi = 2 ^ dimBits d - 1 := by omega
  rw [← h0, ← h2]

end Cuts

/-! ### Nodes of a tree -/

/-- A node of a tree built for `root`: the number of bitmap cuts in each dimension on the
path to it, the rules as the cut of its parent appended them, and the rules it is itself
cut with. -/
inductive NodeAt (K : Type) [CostArith K] (root : List Rule) :
    (Dim → Nat) → RuleSet → RuleSet → Prop
  | root : NodeAt K root (fun _ => 0) (Buffer.ofList root) (Buffer.ofList root)
  | child {m : Dim → Nat} {appended rs k : RuleSet} {aux : CutAux} {t : CutType} {d : Dim}
      {w : NodeWord} {ks : List RuleSet} (h : NodeAt K root m appended rs)
      (hbig : bucketSize < rs.num) (hown : OwnScratch K aux rs t d)
      (hcut : cutInto aux rs t d = .ok (w, ks)) (hk : k ∈ ks) :
      NodeAt K root (bump m t d) k (removeRedund k)

section Nodes

variable {K : Type} [CostArith K] {root : List Rule} {m : Dim → Nat} {appended rs : RuleSet}

/-- What holds along every path. -/
structure NodeOk (m : Dim → Nat) (appended rs : RuleSet) : Prop where
  wf : RulesWF appended.items
  granular : GranularAt m appended.items
  sub : ∀ r ∈ rs.items, r ∈ appended.items
  sane : bucketSize < rs.num → Sane rs

/-- **The rules of every node are well formed and granular.** -/
theorem NodeAt.ok (hwf : RulesWF root) (h : NodeAt K root m appended rs) :
    NodeOk m appended rs := by
  induction h with
  | root => exact ⟨hwf, .zero _, fun r hr => hr, fun _ => ⟨rfl, hwf⟩⟩
  | child h hbig hown hcut hk ih =>
      have hs := ih.sane hbig
      obtain ⟨kids, rfl, hto, rfl⟩ := cutInto_ok (hown.entryFor hs (hs.ne_nil hbig)) hs.fits hcut
      obtain ⟨l, hl, rfl⟩ := List.mem_map.mp hk
      have hlwf := hto.wf hs.wf l hl
      refine ⟨hlwf, hto.granular hs.wf (ih.granular.sublist ih.sub) l hl, ?_,
        removeRedund_sane_of_big hlwf⟩
      by_cases hne : l = []
      · subst hne
        rw [removeRedund_nil rfl]
        exact fun r hr => hr
      · rw [removeRedund_eq hne (fun r hr => Nat.ne_of_lt (hlwf r hr).pri_lt)]
        exact fun r hr => clean_sublist.subset hr

/-- Every call of a run of `cut` on own scratch data is such a node. -/
theorem cut_nodeAt {fuel : Nat} {aux : CutAux} (hwf : RulesWF root)
    (hown : ∀ c ∈ (cut K fuel aux root).log, c.Own K) :
    ∀ c ∈ (cut K fuel aux root).log, ∃ m appended, NodeAt K root m appended c.rs := by
  have hrule : RunRule K (fun _ => True) (fun _ rs => ∃ m appended, NodeAt K root m appended rs)
      (Call.Own K) (fun _ _ => True) (fun _ => True) :=
    { fuel := fun _ _ => trivial
      leaf := fun _ _ _ _ _ _ => trivial
      select_error := fun _ _ _ _ _ _ _ _ => trivial
      cut_error := fun _ _ _ _ _ _ _ _ _ _ _ _ => trivial
      node := by
        rintro n c aux t d w ks - ⟨m, appended, hat⟩ hQ hbig hsel hcut
        have ho := hQ hbig aux t d hsel
        have hs := (hat.ok hwf).sane hbig
        exact ⟨trivial, (cutInto_kids hs hbig ho hcut).1,
          fun k hk => ⟨_, _, .child hat hbig ho hcut hk⟩, fun _ _ _ => trivial⟩ }
  intro c hc
  obtain ⟨-, n, h⟩ := (hrule.cutNode fuel _ _ trivial ⟨_, _, .root⟩ hown).1 c hc
  exact h

/-- **Granularity along every path.** At a node reached after `m d` bitmap cuts in
dimension `d`, in any order with other cuts, every rule that was appended to it has
ranges that fit, and they start and end at multiples of `2 ^ min (6 * m d) (dim_bits d)`.
After enough bitmap cuts in `d` every rule covers the whole dimension. -/
theorem NodeAt.rules_granular (hwf : RulesWF root) (h : NodeAt K root m appended rs) :
    ∀ r ∈ appended.items, ∀ d,
      ((r.range d).lo ≤ (r.range d).hi ∧ (r.range d).hi < 2 ^ dimBits d) ∧
        (2 ^ min (stride * m d) (dimBits d) ∣ (r.range d).lo ∧
          2 ^ min (stride * m d) (dimBits d) ∣ (r.range d).hi + 1) ∧
        ((dimBits d + stride - 1) / stride ≤ m d → r.range d = ⟨0, 2 ^ dimBits d - 1⟩) := by
  intro r hr d
  have hok := h.ok hwf
  refine ⟨(hok.wf r hr).fits d, hok.granular r hr d, fun hm => ?_⟩
  refine hok.granular.covers (fun r hr => (hok.wf r hr).fits) ?_ hr
  simp only [stride] at hm ⊢
  omega

end Nodes

/-- Every occupied child of a bitmap cut of the root is a node. -/
theorem NodeAt.bitmap_child {K : Type} [CostArith K] {root : List Rule} (hwf : RulesWF root)
    (hbig : bucketSize < root.length) (d : Dim) {i : Nat} (hi : i ∈ prefixIdxs root d) :
    NodeAt K root (bump (fun _ => 0) .bitmap d) (Buffer.ofList (childRules root d i))
      (removeRedund (Buffer.ofList (childRules root d i))) := by
  have hfit : ∀ r ∈ root, r.Fits := fun r hr => (hwf r hr).fits
  obtain ⟨aux, hown, hcut⟩ := bitmap_own_cut K hfit .zero d
  exact .child .root hbig hown hcut (List.mem_of_getElem? (evenKids_getElem? hfit hi))

/-- The root of `pairRules` cut by bitmap in the first dimension: the first child holds
rules, and its ranges start at multiples of 64. -/
theorem NodeAt.rules_granular_pairRules :
    RulesWF pairRules ∧ ∃ appended rs,
      NodeAt ℚ pairRules (bump (fun _ => 0) .bitmap 0) appended rs ∧ appended.items ≠ [] ∧
        ∀ r ∈ appended.items, 2 ^ min (stride * bump (fun _ => 0) .bitmap 0 0) (dimBits 0) ∣
          (r.range 0).lo := by
  have hmem : 63 ∈ prefixIdxs pairRules 0 := by decide
  have hat := NodeAt.bitmap_child (K := ℚ) pairRules_wf (by decide) 0 hmem
  exact ⟨pairRules_wf, _, _, hat, childRules_ne_nil hmem,
    fun r hr => (NodeAt.rules_granular pairRules_wf hat r hr 0).2.1.1⟩

end ChooseCut
