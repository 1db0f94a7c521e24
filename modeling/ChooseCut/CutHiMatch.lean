import ChooseCut.CutHiSound

/-!
# ChooseCut.CutHiMatch

The children and the lookup of a hi node.

With an entry of the node's own rules, `hi_push_rule` hands every child the rules that
meet its interval, clipped to it, so `hi_cut` fills every child exactly; and the
separator bitmap counts a key's segment to the child whose interval contains it. A
child may end up without rules, when a gap between the rules fills whole segments.
-/

namespace ChooseCut

/-! ### Lists of consecutive numbers -/

theorem filter_range_between (a b n : Nat) :
    (List.range n).filter (fun i => a ≤ i ∧ i ≤ b) = List.range' a (min n (b + 1) - a) := by
  induction n with
  | zero => simp
  | succ n ih =>
      rw [List.range_succ, List.filter_append, ih, List.filter_singleton]
      by_cases h : a ≤ n ∧ n ≤ b
      · have h1 : min (n + 1) (b + 1) - a = (n - a) + 1 := by omega
        have h2 : min n (b + 1) - a = n - a := by omega
        have h3 : a + (n - a) = n := by omega
        rw [h1, h2, List.range'_1_concat, h3]
        simp [h]
      · have h1 : min (n + 1) (b + 1) - a = min n (b + 1) - a := by omega
        rw [h1]
        simp [h]

theorem find?_eq_some_of_unique {p : Nat → Bool} {l : List Nat} {i : Nat} (hi : i ∈ l)
    (hp : p i = true) (hunique : ∀ j ∈ l, p j = true → j = i) : l.find? p = some i := by
  cases hf : l.find? p with
  | none => exact absurd hp (List.find?_eq_none.mp hf i hi)
  | some j => rw [hunique j (List.mem_of_find?_eq_some hf) (List.find?_some hf)]

/-! ### Distribution -/

section Cut

variable {rs : List Rule} {d : Dim} {e : HiEntry}

/-- The rules of the children, in array order. -/
def hiKids (rs : List Rule) (d : Dim) (e : HiEntry) : List (List Rule) :=
  (List.range e.hist.childs).map (fun i => clipTo (hiInterval e i) d rs)

theorem hiKids_getElem? {i : Nat} {k : List Rule} :
    (hiKids rs d e)[i]? = some k ↔ i < e.hist.childs ∧ k = clipTo (hiInterval e i) d rs := by
  rw [hiKids, List.getElem?_map]
  by_cases hi : i < e.hist.childs
  · simp [hi, eq_comm]
  · simp [hi]

/-- The writes for one rule. -/
def hiEntries (e : HiEntry) (d : Dim) (r : Rule) : List (Nat × Rule) :=
  ((List.range e.hist.childs).filter (fun i => (r.range d).Meets (hiInterval e i))).map
    (fun i => (i, r.clip d (hiInterval e i)))

theorem HiFor.start_le (h : HiFor rs d e) {r : Rule} (hr : r ∈ rs) :
    e.start ≤ (r.range d).lo := h.start_eq ▸ hullLo_le hr

theorem HiEntry.seg_mono (e : HiEntry) {v w : Nat} (h : v ≤ w) : e.seg v ≤ e.seg w := by
  unfold HiEntry.seg
  rw [Nat.shiftRight_eq_div_pow, Nat.shiftRight_eq_div_pow]
  exact Nat.div_le_div_right (by omega)

/-- The values of segment `j`. -/
def HiEntry.segment (e : HiEntry) (j : Nat) : Range :=
  ⟨e.start + j * 2 ^ e.shift, e.start + (j + 1) * 2 ^ e.shift - 1⟩

/-- Meeting a run of segments, in terms of their numbers. -/
theorem HiEntry.meets_run (e : HiEntry) {x : Range} (hlo : e.start ≤ x.lo) (hfit : x.lo ≤ x.hi)
    (a b : Nat) :
    x.Meets ⟨e.start + a * 2 ^ e.shift, e.start + (b + 1) * 2 ^ e.shift - 1⟩ ↔
      e.seg x.lo ≤ b ∧ a ≤ e.seg x.hi := by
  unfold HiEntry.seg
  rw [seg_le_iff hlo, le_seg_iff (Nat.le_trans hlo hfit)]
  unfold Range.Meets edge
  dsimp only
  have hpos : 0 < (b + 1) * 2 ^ e.shift := Nat.mul_pos (Nat.succ_pos _) (Nat.two_pow_pos _)
  omega

/-- Meeting the interval of a child, in terms of segments. -/
theorem HiFor.meets_iff (h : HiFor rs d e) {r : Rule} (hr : r ∈ rs)
    (hfit : (r.range d).lo ≤ (r.range d).hi) (i : Nat) :
    (r.range d).Meets (hiInterval e i) ↔
      e.seg (r.range d).lo ≤ (e.nodeR i).2 ∧ (e.nodeR i).1 ≤ e.seg (r.range d).hi :=
  e.meets_run (h.start_le hr) hfit (e.nodeR i).1 (e.nodeR i).2

/-- A quiet border has the same rules on both sides. -/
theorem HiFor.meets_succ (h : HiFor rs d e) {j : Nat} (hq : e.QuietAt rs d j) {r : Rule}
    (hr : r ∈ rs) (hfit : (r.range d).lo ≤ (r.range d).hi) :
    (r.range d).Meets (e.segment j) ↔ (r.range d).Meets (e.segment (j + 1)) := by
  unfold HiEntry.segment
  rw [e.meets_run (h.start_le hr) hfit, e.meets_run (h.start_le hr) hfit]
  obtain ⟨hlo, hhi⟩ := hq r hr
  omega

/-- The segments of a child have the same rules, from any of them on to a later one in the
hull. -/
theorem HiFor.meets_add (h : HiFor rs d e) {i : Nat} (hi : i < e.hist.childs) {r : Rule}
    (hr : r ∈ rs) (hfit : (r.range d).lo ≤ (r.range d).hi) {j : Nat} (hj : (e.nodeR i).1 ≤ j) :
    ∀ n, j + n ≤ (e.nodeR i).2 → j + n ≤ e.seg (hullHi rs d) →
      ((r.range d).Meets (e.segment j) ↔ (r.range d).Meets (e.segment (j + n))) := by
  intro n
  induction n with
  | zero => intro _ _; rfl
  | succ n ih =>
      intro hle hhull
      have hq : e.QuietAt rs d (j + n) :=
        h.merged i hi (j + n) (by omega) (by omega) (by omega)
      exact (ih (by omega) (by omega)).trans (h.meets_succ hq hr hfit)

/-- **Merged segments see the same rules.** -/
theorem HiFor.meets_congr (h : HiFor rs d e) {i : Nat} (hi : i < e.hist.childs) {r : Rule}
    (hr : r ∈ rs) (hfit : (r.range d).lo ≤ (r.range d).hi) {j k : Nat}
    (hj : (e.nodeR i).1 ≤ j ∧ j ≤ (e.nodeR i).2) (hk : (e.nodeR i).1 ≤ k ∧ k ≤ (e.nodeR i).2)
    (hjh : j ≤ e.seg (hullHi rs d)) (hkh : k ≤ e.seg (hullHi rs d)) :
    (r.range d).Meets (e.segment j) ↔ (r.range d).Meets (e.segment k) := by
  have hfirst : ∀ j, (e.nodeR i).1 ≤ j ∧ j ≤ (e.nodeR i).2 → j ≤ e.seg (hullHi rs d) →
      ((r.range d).Meets (e.segment (e.nodeR i).1) ↔ (r.range d).Meets (e.segment j)) := by
    intro j hj hjh
    have hadd := h.meets_add hi hr hfit (Nat.le_refl _) (j - (e.nodeR i).1)
    rw [Nat.add_sub_cancel' hj.1] at hadd
    exact hadd hj.2 hjh
  exact (hfirst j hj hjh).symm.trans (hfirst k hk hkh)

/-- The child of a rule's end. -/
theorem HiFor.childOf (h : HiFor rs d e) {v : Nat} (hv : v ≤ hullHi rs d) :
    ∃ i < e.hist.childs, ((e.nodeR i).1 ≤ e.seg v ∧ e.seg v ≤ (e.nodeR i).2) ∧
      hiChildOf e (e.seg v) = some i := by
  obtain ⟨i, hi, hmem⟩ := h.part.exists_index h.pos
    (Nat.le_trans (e.seg_mono hv) h.cover)
  refine ⟨i, hi, hmem, find?_eq_some_of_unique (List.mem_range.mpr hi) (by simpa using hmem) ?_⟩
  intro j hj hp
  exact h.part.unique (List.mem_range.mp hj) hi (by simpa using hp) hmem

theorem wrap_sub {v start : Nat} (h : start ≤ v) (hv : v < 2 ^ 32) :
    (v + 2 ^ 32 - start) % 2 ^ 32 = v - start := by omega

/-- The trimmed copy is the clipped one. -/
theorem hiTrim_eq {r : Rule} {i : Nat} (hhi : (r.range d).hi < 2 ^ 32)
    (hm : (r.range d).Meets (hiInterval e i)) : hiTrim e d r i = r.clip d (hiInterval e i) := by
  unfold hiTrim Rule.clip
  unfold Range.Meets hiInterval at hm
  unfold hiInterval
  dsimp only at hm ⊢
  generalize e.start + (e.nodeR i).1 * 2 ^ e.shift = trimS at hm ⊢
  have hpos : 0 < ((e.nodeR i).2 + 1) * 2 ^ e.shift :=
    Nat.mul_pos (Nat.succ_pos _) (Nat.two_pow_pos _)
  have hpos' : 0 < e.start + ((e.nodeR i).2 + 1) * 2 ^ e.shift := Nat.add_pos_right _ hpos
  generalize e.start + ((e.nodeR i).2 + 1) * 2 ^ e.shift = trimE at hm hpos' ⊢
  have hlo : (if (r.range d).lo < trimS then trimS % 2 ^ 32 else (r.range d).lo)
      = max (r.range d).lo trimS := by
    split
    · rw [Nat.mod_eq_of_lt (by omega)]; omega
    · omega
  have hhi' : (if trimE ≤ (r.range d).hi then (trimE - 1) % 2 ^ 32 else (r.range d).hi)
      = min (r.range d).hi (trimE - 1) := by
    split
    · rw [Nat.mod_eq_of_lt (by omega)]; omega
    · omega
  rw [hlo, hhi']

/-- **`hi_push_rule`** appends the clipped rule to the children it meets. -/
theorem hiPushRule_eq (h : HiFor rs d e) {r : Rule} (hr : r ∈ rs) (hfit : r.Fits)
    (kids : List RuleSet) : hiPushRule e d kids r = pushAll kids (hiEntries e d r) := by
  have hw : 2 ^ dimBits d ≤ 2 ^ 32 := Nat.pow_le_pow_right (by norm_num) (dimBits_le d)
  have hlohi := (hfit d).1
  have hhi32 := Nat.lt_of_lt_of_le (hfit d).2 hw
  have hstart := h.start_le hr
  have hmax := le_hullHi (d := d) hr
  obtain ⟨cs, hcs, hcsm, hcsf⟩ := h.childOf (Nat.le_trans hlohi hmax)
  obtain ⟨ce, hce, hcem, hcef⟩ := h.childOf hmax
  have hle : cs ≤ ce := by
    by_contra hlt
    have h1 := h.part.lt (Nat.not_le.mp hlt) hcs
    have h2 := e.seg_mono hlohi
    omega
  have hlist : (List.range e.hist.childs).filter (fun i => (r.range d).Meets (hiInterval e i))
      = List.range' cs (ce + 1 - cs) := by
    have := filter_range_between cs ce e.hist.childs
    rw [show min e.hist.childs (ce + 1) = ce + 1 by omega] at this
    rw [← this]
    apply List.filter_congr
    intro i hi
    rw [decide_eq_decide, h.meets_iff hr hlohi, h.part.meets_iff (List.mem_range.mp hi) hcs hce
      hcsm hcem]
  unfold hiPushRule hiEntries
  dsimp only
  rw [wrap_sub hstart (by omega), wrap_sub (Nat.le_trans hstart hlohi) hhi32]
  unfold HiEntry.seg at hcsf hcef
  rw [hcsf, hcef, hlist]
  dsimp only
  rw [assertThat, if_pos hle]
  have hmap : (List.range' cs (ce + 1 - cs)).map (fun i => (i, hiTrim e d r i))
      = (List.range' cs (ce + 1 - cs)).map (fun i => (i, r.clip d (hiInterval e i))) := by
    apply List.map_congr_left
    intro i hi
    rw [← hlist] at hi
    rw [hiTrim_eq hhi32 (by simpa using (List.mem_filter.mp hi).2)]
  rw [hmap]
  rfl

theorem sentTo_hiEntries (s : Nat) :
    sentTo (rs.flatMap (hiEntries e d)) s
      = if s < e.hist.childs then clipTo (hiInterval e s) d rs else [] := by
  rw [sentTo_flatMap]
  have hone : ∀ r, sentTo (hiEntries e d r) s =
      if s < e.hist.childs then clipTo (hiInterval e s) d [r] else [] := by
    intro r
    rw [hiEntries, sentTo_map_nodup (List.nodup_range.filter _)]
    simp only [List.mem_filter, List.mem_range, decide_eq_true_eq, clipTo_cons]
    by_cases hs : s < e.hist.childs <;> by_cases hm : (r.range d).Meets (hiInterval e s) <;>
      simp [hs, hm, clipTo]
  simp only [hone]
  induction rs with
  | nil => simp [clipTo]
  | cons r rs ih =>
      rw [List.flatMap_cons, ih]
      split
      · rw [clipTo_cons, clipTo_cons]
        simp [clipTo]
      · rfl

/-- The rule loop performs the writes of all rules. -/
theorem foldlM_hiPushRule (h : HiFor rs d e) (hfit : ∀ r ∈ rs, r.Fits) :
    ∀ (l : List Rule), (∀ r ∈ l, r ∈ rs) → ∀ kids : List RuleSet,
      l.foldlM (hiPushRule e d) kids = pushAll kids (l.flatMap (hiEntries e d)) := by
  intro l
  induction l with
  | nil => intro _ kids; rfl
  | cons r l ih =>
      intro hl kids
      have hr := hl r List.mem_cons_self
      rw [List.foldlM_cons, hiPushRule_eq h hr (hfit r hr), List.flatMap_cons]
      unfold pushAll
      rw [List.foldlM_append]
      congr 1
      funext kids'
      exact ih (fun s hs => hl s (List.mem_cons_of_mem r hs)) kids'

/-- **A hi cut with the node's own entry succeeds**, and its children hold exactly the
rules predicted. -/
theorem hiCut_eq {b : RuleSet} (h : HiFor b.items d e) (hfit : ∀ r ∈ b.items, r.Fits) :
    hiCut e b d = .ok (⟨e.start, e.shift, hiSetBitmap e⟩, (hiKids b.items d e).map Buffer.ofList) := by
  have hkids : extendAll ((List.range e.hist.childs).map
        (fun i => (Buffer.alloc (e.hist.childRulecount i) : RuleSet)))
      (b.items.flatMap (hiEntries e d)) = (hiKids b.items d e).map Buffer.ofList := by
    apply List.ext_getElem?
    intro s
    rw [extendAll_getElem?, sentTo_hiEntries, hiKids, List.map_map, List.getElem?_map,
      List.getElem?_map, Option.map_map]
    by_cases hs : s < e.hist.childs
    · rw [List.getElem?_range hs, if_pos hs]
      simp [Buffer.extend, Buffer.ofList, Buffer.alloc, h.count s hs]
    · rw [List.getElem?_eq_none (by simpa using hs)]
      rfl
  have hroom : pushAll ((List.range e.hist.childs).map
        (fun i => (Buffer.alloc (e.hist.childRulecount i) : RuleSet)))
      (b.items.flatMap (hiEntries e d)) = .ok ((hiKids b.items d e).map Buffer.ofList) := by
    rw [← hkids]
    apply pushAll_of_room
    · intro w hw
      obtain ⟨r, -, hw⟩ := List.mem_flatMap.mp hw
      obtain ⟨i, hi, rfl⟩ := List.mem_map.mp hw
      simpa using List.mem_range.mp (List.mem_filter.mp hi).1
    · intro s k hk
      rw [List.getElem?_map] at hk
      by_cases hs : s < e.hist.childs
      · rw [List.getElem?_range hs, Option.map_some] at hk
        obtain rfl := Option.some.inj hk
        rw [sentTo_hiEntries, if_pos hs, Buffer.alloc_num, Buffer.alloc_cap, h.count s hs,
          Nat.zero_add]
      · rw [List.getElem?_eq_none (by simpa using hs)] at hk
        cases hk
  have hnums : ((hiKids b.items d e).map Buffer.ofList).map Buffer.num
      = (List.range e.hist.childs).map e.hist.childRulecount := by
    rw [hiKids, List.map_map, List.map_map]
    apply List.map_congr_left
    intro i hi
    rw [h.count i (List.mem_range.mp hi)]
    rfl
  unfold hiCut
  dsimp only
  rw [foldlM_hiPushRule h hfit b.items (fun _ hr => hr), hroom]
  simp only [bind, Except.bind]
  rw [assertThat, if_pos hnums]

/-! ### Lookup -/

/-- The bitmap marks the last segment of every child but the last. -/
theorem getLsbD_hiSetBitmap {div : Nat} (h : Partitions div e.nodeR e.hist.childs) (h64 : div ≤ 64)
    (j : Nat) : (hiSetBitmap e).getLsbD j = Partition.marks e.nodeR e.hist.childs j := by
  unfold hiSetBitmap Partition.marks
  rw [getLsbD_foldl_setBit (f := fun i => (e.nodeR i).2)]
  · simp
  · intro i hi
    rw [List.mem_range] at hi
    have hlt : (e.nodeR i).2 < div :=
      (h.exact _).mpr ⟨i, by omega, h.le i (by omega), Nat.le_refl _⟩
    omega

/-- Ranking a segment in the bitmap counts the marks below it. -/
theorem hiNext_eq_count {div : Nat} (h : Partitions div e.nodeR e.hist.childs) (h64 : div ≤ 64)
    (start shift : Nat) {s : Nat} (hs : s < 64) :
    hiNext ⟨start, shift, hiSetBitmap e⟩ s
      = count (Partition.marks e.nodeR e.hist.childs) s := by
  rw [hiNext, Nat.mod_eq_of_lt hs, rank_eq _ hs]
  exact count_congr (fun j _ => getLsbD_hiSetBitmap h h64 j)

/-- **The separator bitmap encodes the partition.** For every partition of at most 64
segments into consecutive non-empty intervals, the lookup decodes a segment to exactly the
child whose interval contains it, and a segment behind the last one to the last child. -/
theorem hiNext_partition {div : Nat} (h64 : div ≤ 64) (h : Partitions div e.nodeR e.hist.childs)
    (start shift : Nat) :
    (∀ idx < div, ∀ i < e.hist.childs, hiNext ⟨start, shift, hiSetBitmap e⟩ idx = i ↔
      (e.nodeR i).1 ≤ idx ∧ idx ≤ (e.nodeR i).2) ∧
    ∀ idx, div ≤ idx → idx ≤ 63 →
      hiNext ⟨start, shift, hiSetBitmap e⟩ idx = e.hist.childs - 1 := by
  constructor
  · intro idx hidx i hi
    rw [hiNext_eq_count h h64 start shift (by omega)]
    exact h.count_marks_iff hidx hi
  · intro idx hidx hle
    rw [hiNext_eq_count h h64 start shift (by omega)]
    exact h.count_marks_behind hidx

/-- Three children over four segments: the second and the third segment are one child. -/
theorem hiNext_partition_three :
    let e : HiEntry := ⟨⟨fun _ => 0, 3, 0⟩, 0, 0,
      fun i => if i = 0 then (0, 0) else if i = 1 then (1, 2) else (3, 3)⟩
    Partitions 4 e.nodeR 3 ∧ hiNext ⟨0, 0, hiSetBitmap e⟩ 2 = 1 ∧
      hiNext ⟨0, 0, hiSetBitmap e⟩ 63 = 2 := by
  intro e
  have hnext : ∀ i < 2, (e.nodeR (i + 1)).1 = (e.nodeR i).2 + 1 := by decide
  have hpart : Partitions 4 e.nodeR 3 :=
    .of_last ⟨fun _ => rfl, by decide, fun i hi => hnext i (by omega)⟩ (by decide) rfl
  obtain ⟨hin, hbehind⟩ := hiNext_partition (e := e) (show 4 ≤ 64 by decide) hpart 0 0
  exact ⟨hpart, (hin 2 (by decide) 1 (by decide)).mpr (by decide),
    hbehind 63 (by decide) (by decide)⟩

/-- The slot computed for a segment is the child that holds it, and the last child past
the end. -/
theorem rank_hiSetBitmap (h : HiFor rs d e) {s : Nat} (hs : s < 64) :
    ∃ i < e.hist.childs, rank (hiSetBitmap e) s = i ∧ (e.nodeR i).1 ≤ s ∧
      (s ≤ (e.nodeR (e.hist.childs - 1)).2 → s ≤ (e.nodeR i).2) := by
  have hpart : Partitions ((e.nodeR (e.hist.childs - 1)).2 + 1) e.nodeR e.hist.childs :=
    .of_last h.part h.pos rfl
  have hrank := hiNext_eq_count hpart h.bound e.start e.shift hs
  rw [hiNext, Nat.mod_eq_of_lt hs] at hrank
  dsimp only at hrank
  rw [hrank]
  by_cases hle : s ≤ (e.nodeR (e.hist.childs - 1)).2
  · obtain ⟨i, hi, h1, h2⟩ := h.part.exists_index h.pos hle
    exact ⟨i, hi, h.part.count_marks hi h1 (fun _ => h2), h1, fun _ => h2⟩
  · have hpos := h.pos
    have hlast := h.part.le (e.hist.childs - 1) (by omega)
    exact ⟨e.hist.childs - 1, by omega, hpart.count_marks_behind (by omega), by omega,
      fun hs => absurd hs hle⟩

/-- **The lookup of a hi node**: no child below the hull, and otherwise a child that has
the hits of the node. -/
theorem hiSearch_spec (h : HiFor rs d e) (f : Flow) :
    match hiSearch ⟨e.start, e.shift, hiSetBitmap e⟩ d f with
    | none => hits rs f = []
    | some slot => ∃ k, (hiKids rs d e)[slot]? = some k ∧ hits k f = hits rs f := by
  unfold hiSearch
  by_cases hlow : f.key d < e.start
  · rw [if_pos hlow]
    dsimp only
    rw [hits_eq_nil]
    intro r hr hm
    have := h.start_le hr
    have := (hm d).1
    omega
  · rw [if_neg hlow]
    dsimp only [hiNext]
    have hge : e.start ≤ f.key d := Nat.not_lt.mp hlow
    obtain ⟨i, hi, hslot, h1, h2⟩ := rank_hiSetBitmap h
      (Nat.mod_lt ((f.key d - e.start) >>> e.shift) (by decide : 0 < 64))
    refine ⟨clipTo (hiInterval e i) d rs, ?_, ?_⟩
    · rw [hslot]
      exact hiKids_getElem?.mpr ⟨hi, rfl⟩
    · by_cases hhull : e.seg (f.key d) ≤ (e.nodeR (e.hist.childs - 1)).2
      · -- inside the partition the segment is the key's own
        have hb := h.bound
        have hmod : ((f.key d - e.start) >>> e.shift) % 64 = e.seg (f.key d) :=
          Nat.mod_eq_of_lt (by unfold HiEntry.seg at hhull; omega)
        rw [hmod] at h1 h2
        have h2 := h2 hhull
        unfold HiEntry.seg at h1 h2
        rw [le_seg_iff hge] at h1
        rw [seg_le_iff hge] at h2
        apply hits_clipTo
        unfold Range.Has hiInterval
        dsimp only
        unfold edge at h1 h2
        omega
      · -- behind the hull nothing matches
        have hnil : hits rs f = [] := by
          rw [hits_eq_nil]
          intro r hr hm
          have hkey : f.key d ≤ hullHi rs d := Nat.le_trans (hm d).2 (le_hullHi hr)
          exact hhull (Nat.le_trans (e.seg_mono hkey) h.cover)
        rw [hnil, hits_clipTo_nil hnil]

end Cut

end ChooseCut
