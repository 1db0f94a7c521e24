import ChooseCut.CutBitmapSlots

/-!
# ChooseCut.CutBitmapSound

What a bitmap cut does to a rule list.

`childRules rs d i` is the list child `i` receives: for every rule, in order, one
copy for each of its prefixes whose child is `i` or an ancestor of `i`. The
histogram counts exactly these copies, so the distribution fills every child to
its capacity and no assertion can fail (`evenCut_eq`). The lookup reaches the
deepest occupied node on the path of the key, and there each matching rule of the
node has exactly one matching copy (`hits_childRules`).
-/

namespace ChooseCut

/-! ### Child indices as heap positions -/

theorem two_pow_add_shiftRight {w j b : Nat} (h : j ≤ w) :
    (2 ^ w + b) >>> (w - j) = 2 ^ j + b >>> (w - j) := by
  have hpow : 2 ^ w = 2 ^ (w - j) * 2 ^ j := by rw [← pow_add]; congr 1; omega
  rw [Nat.shiftRight_eq_div_pow, Nat.shiftRight_eq_div_pow, hpow,
    Nat.mul_add_div (Nat.two_pow_pos _)]

theorem shiftRight_lt {w j b : Nat} (h : j ≤ w) (hb : b < 2 ^ w) : b >>> (w - j) < 2 ^ j := by
  rw [Nat.shiftRight_eq_div_pow, Nat.div_lt_iff_lt_mul (Nat.two_pow_pos _), ← pow_add]
  rwa [show j + (w - j) = w by omega]

/-- The position of a prefix, counted from one, is its address with a leading one
bit, cut to at most six address bits. -/
theorem prefixIdx_succ (d : Dim) {p : Pfx} (hlen : p.len ≤ dimBits d) :
    prefixIdx d p + 1 = (2 ^ dimBits d + p.bits) >>> (dimBits d - min p.len stride) := by
  have hw := stride_lt_dimBits d
  unfold prefixIdx
  split
  · next h =>
    rw [Nat.min_eq_right h, two_pow_add_shiftRight (Nat.le_of_lt hw), inlOffset]
    have := Nat.two_pow_pos stride
    omega
  · next h =>
    rw [Nat.min_eq_left (by omega), two_pow_add_shiftRight hlen, countInlBitmap]
    exact Nat.sub_add_cancel (Nat.le_add_right_of_le (Nat.two_pow_pos p.len))

theorem prefixIdx_lt (d : Dim) {p : Pfx} (hlen : p.len ≤ dimBits d)
    (hbits : p.bits < 2 ^ dimBits d) : prefixIdx d p < childCount := by
  have hw := stride_lt_dimBits d
  have hj : min p.len stride ≤ dimBits d := by omega
  have hsucc := prefixIdx_succ d hlen
  rw [two_pow_add_shiftRight hj] at hsucc
  have hlt := shiftRight_lt hj hbits
  have hpow : 2 ^ min p.len stride ≤ 2 ^ stride :=
    Nat.pow_le_pow_right (by norm_num) (by omega)
  unfold childCount
  omega

/-- The external child on the path of a key. -/
def keyIdx (d : Dim) (k : Nat) : Nat := inlOffset + k >>> (dimBits d - stride)

theorem keyIdx_succ (d : Dim) (k : Nat) :
    keyIdx d k + 1 = (2 ^ dimBits d + k) >>> (dimBits d - stride) := by
  rw [two_pow_add_shiftRight (Nat.le_of_lt (stride_lt_dimBits d)), keyIdx, inlOffset]
  have := Nat.two_pow_pos stride
  omega

theorem keyIdx_lt (d : Dim) {k : Nat} (hk : k < 2 ^ dimBits d) : keyIdx d k < childCount := by
  have := shiftRight_lt (Nat.le_of_lt (stride_lt_dimBits d)) hk
  simp only [keyIdx, inlOffset, childCount, stride] at *
  omega

/-- An ancestor of an external child other than itself is internal. -/
theorem mem_ancestors_keyIdx {d : Dim} {k i : Nat} (hk : k < 2 ^ dimBits d)
    (hi : i ∈ ancestors (keyIdx d k)) : i = keyIdx d k ∨ i < inlOffset := by
  have hlt := keyIdx_lt d hk
  have hge : inlOffset ≤ keyIdx d k := Nat.le_add_right _ _
  simp only [childCount, inlOffset, stride] at hlt hge ⊢
  rw [ancestors_pos (by omega), List.mem_cons] at hi
  rcases hi with rfl | hi
  · exact Or.inl rfl
  · have := le_of_mem_ancestors hi
    right
    omega

theorem pow_bracket {a b x : Nat} (ha : 2 ^ a ≤ x) (ha' : x < 2 ^ (a + 1)) (hb : 2 ^ b ≤ x)
    (hb' : x < 2 ^ (b + 1)) : a = b := by
  have h1 : a < b + 1 := (Nat.pow_lt_pow_iff_right (by norm_num)).mp (Nat.lt_of_le_of_lt ha hb')
  have h2 : b < a + 1 := (Nat.pow_lt_pow_iff_right (by norm_num)).mp (Nat.lt_of_le_of_lt hb ha')
  omega

/-- A short prefix lies on the path of a key iff it contains the key. -/
theorem prefixIdx_mem_ancestors {d : Dim} {p : Pfx} {k : Nat} (hlen : p.len < stride)
    (hdvd : 2 ^ (dimBits d - p.len) ∣ p.bits) (hbits : p.bits < 2 ^ dimBits d)
    (hk : k < 2 ^ dimBits d) :
    prefixIdx d p ∈ ancestors (keyIdx d k) ↔ p.Has (dimBits d) k := by
  have hw := stride_lt_dimBits d
  have hle : p.len ≤ dimBits d := by omega
  have hsucc := prefixIdx_succ d hle
  rw [Nat.min_eq_left (by omega), two_pow_add_shiftRight hle] at hsucc
  rw [mem_ancestors, hsucc, keyIdx_succ, Pfx.Has, mem_block_iff hdvd]
  have hb := shiftRight_lt hle hbits
  constructor
  · rintro ⟨t, ht⟩
    rw [← Nat.shiftRight_add] at ht
    -- both sides have their leading one at the same place
    have ht6 : t ≤ stride := by
      by_contra hcon
      have h0 : (2 ^ dimBits d + k) >>> (dimBits d - stride + t) = 0 := by
        rw [Nat.shiftRight_eq_div_pow]
        apply Nat.div_eq_of_lt
        have : 2 ^ (dimBits d + 1) ≤ 2 ^ (dimBits d - stride + t) :=
          Nat.pow_le_pow_right (by norm_num) (by omega)
        rw [pow_succ] at this
        omega
      have := Nat.two_pow_pos p.len
      omega
    have hj : stride - t ≤ dimBits d := by omega
    rw [show dimBits d - stride + t = dimBits d - (stride - t) by omega,
      two_pow_add_shiftRight hj] at ht
    have hk' := shiftRight_lt hj hk
    have hlevel : stride - t = p.len := by
      refine pow_bracket (x := 2 ^ p.len + p.bits >>> (dimBits d - p.len)) ?_ ?_ ?_ ?_
      · rw [← ht]; exact Nat.le_add_right _ _
      · rw [pow_succ]; omega
      · exact Nat.le_add_right _ _
      · rw [pow_succ]; omega
    rw [hlevel] at ht
    omega
  · intro h
    refine ⟨stride - p.len, ?_⟩
    rw [← Nat.shiftRight_add, show dimBits d - stride + (stride - p.len) = dimBits d - p.len by omega,
      two_pow_add_shiftRight hle, h]

/-! ### The histogram -/

/-- The child index of every prefix of every rule, in program order. -/
def prefixIdxs (rs : List Rule) (d : Dim) : List Nat :=
  rs.flatMap (fun r => (prefixes (r.range d) (dimBits d)).map (prefixIdx d))

theorem foldl_update_count (l : List Nat) : ∀ (c : Nat → Nat) (i : Nat),
    (l.foldl (fun c x => Function.update c x (c x + 1)) c) i = c i + l.count i := by
  induction l with
  | nil => intro c i; simp
  | cons x l ih =>
      intro c i
      rw [List.foldl_cons, ih, List.count_cons]
      by_cases h : i = x
      · subst h; simp; omega
      · rw [Function.update_of_ne h]
        simp [Ne.symm h]

theorem countPrefixes_eq (rs : List Rule) (d : Dim) (i : Nat) :
    countPrefixes rs d i = (prefixIdxs rs d).count i := by
  have hgen : ∀ (rs : List Rule) (c : Nat → Nat),
      (rs.foldl (fun c r => (prefixes (r.range d) (dimBits d)).foldl
        (fun c p => Function.update c (prefixIdx d p) (c (prefixIdx d p) + 1)) c) c) i
        = c i + (prefixIdxs rs d).count i := by
    intro rs
    induction rs with
    | nil => intro c; simp [prefixIdxs]
    | cons r rs ih =>
        intro c
        have hinner := foldl_update_count ((prefixes (r.range d) (dimBits d)).map (prefixIdx d)) c i
        rw [List.foldl_map] at hinner
        rw [List.foldl_cons, ih, hinner, prefixIdxs, prefixIdxs, List.flatMap_cons,
          List.count_append, Nat.add_assoc]
  rw [countPrefixes, hgen, Nat.zero_add]

/-- The second loop of `get_rule_hist`, one field at a time. -/
theorem histLoop_eq (c : Nat → Nat) (n : Nat) :
    (List.range n).foldl histStep ⟨c, 0, 0⟩ =
      ⟨accumulate c n, count (fun i => c i ≠ 0) n,
        ((List.range n).map (fun i => if c i = 0 then 0 else pathSum c i)).sum⟩ := by
  induction n with
  | zero => rfl
  | succ n ih =>
      have hn : accumulate c n n = c n := by rw [accumulate_eq, if_neg (by omega)]
      have hnew : accumulate c (n + 1) n = if c n = 0 then 0 else pathSum c n := by
        rw [accumulate_eq, if_pos (by omega)]
      rw [List.range_succ, List.foldl_append, ih, List.foldl_cons, List.foldl_nil, histStep,
        accumulate_succ, accumulateStep, count_succ, List.map_append, List.sum_append]
      rw [accumulate_succ, accumulateStep, hn] at hnew
      by_cases hc : c n = 0
      · simp [hn, hc]
      · rw [if_pos hc, Function.update_self, if_neg hc] at hnew
        simp [hn, hc, hnew]

section Fits

variable {rs : List Rule} {d : Dim}

/-- Every prefix of a fitting rule is an aligned block of its dimension. -/
theorem prefix_facts (hfit : ∀ r ∈ rs, r.Fits) {r : Rule} (hr : r ∈ rs) {p : Pfx}
    (hp : p ∈ prefixes (r.range d) (dimBits d)) :
    p.len ≤ dimBits d ∧ 2 ^ (dimBits d - p.len) ∣ p.bits ∧
      p.bits + 2 ^ (dimBits d - p.len) ≤ 2 ^ dimBits d := by
  obtain ⟨hle, hlt⟩ := hfit r hr d
  obtain ⟨h1, -, h3⟩ := prefixes_mem (dimBits_le d) hle hlt hp
  exact ⟨prefixes_len_le (dimBits_le d) hle hlt hp, h1, by omega⟩

theorem prefix_bits_lt (hfit : ∀ r ∈ rs, r.Fits) {r : Rule} (hr : r ∈ rs) {p : Pfx}
    (hp : p ∈ prefixes (r.range d) (dimBits d)) : p.bits < 2 ^ dimBits d := by
  obtain ⟨-, -, h⟩ := prefix_facts hfit hr hp
  have := Nat.two_pow_pos (dimBits d - p.len)
  omega

theorem prefixIdxs_lt (hfit : ∀ r ∈ rs, r.Fits) {i : Nat} (hi : i ∈ prefixIdxs rs d) :
    i < childCount := by
  obtain ⟨r, hr, hi⟩ := List.mem_flatMap.mp hi
  obtain ⟨p, hp, rfl⟩ := List.mem_map.mp hi
  exact prefixIdx_lt d (prefix_facts hfit hr hp).1 (prefix_bits_lt hfit hr hp)

theorem prefixIdx_mem {r : Rule} (hr : r ∈ rs) {p : Pfx}
    (hp : p ∈ prefixes (r.range d) (dimBits d)) : prefixIdx d p ∈ prefixIdxs rs d :=
  List.mem_flatMap.mpr ⟨r, hr, List.mem_map_of_mem hp⟩

/-- **The histogram**: an unoccupied child counts zero, an occupied one the
prefixes on its root path. -/
theorem getRuleHist_count (hfit : ∀ r ∈ rs, r.Fits) (i : Nat) :
    (getRuleHist rs d).childRulecount i =
      if i ∈ prefixIdxs rs d then (prefixIdxs rs d).countP (fun a => a ∈ ancestors i) else 0 := by
  have hc : countPrefixes rs d = fun a => (prefixIdxs rs d).count a :=
    funext (countPrefixes_eq rs d)
  rw [getRuleHist, histLoop_eq, hc]
  dsimp only
  rw [accumulate_eq, pathSum_count]
  by_cases hi : i ∈ prefixIdxs rs d
  · rw [if_pos (prefixIdxs_lt hfit hi), if_pos hi, if_neg (List.count_pos_iff.mpr hi).ne']
  · have h0 : (prefixIdxs rs d).count i = 0 := List.count_eq_zero_of_not_mem hi
    simp [hi, h0]

theorem getRuleHist_ne_zero (hfit : ∀ r ∈ rs, r.Fits) {i : Nat} :
    (getRuleHist rs d).childRulecount i ≠ 0 ↔ i ∈ prefixIdxs rs d := by
  rw [getRuleHist_count hfit]
  by_cases hi : i ∈ prefixIdxs rs d
  · rw [if_pos hi]
    have : 0 < (prefixIdxs rs d).countP (fun a => a ∈ ancestors i) :=
      List.countP_pos_iff.mpr ⟨i, hi, by simpa using self_mem_ancestors i⟩
    simp only [hi, iff_true]
    omega
  · simp [hi]

/-! ### What a child receives -/

/-- The rules child `i` receives. -/
def childRules (rs : List Rule) (d : Dim) (i : Nat) : List Rule :=
  rs.flatMap (fun r =>
    ((prefixes (r.range d) (dimBits d)).filter (fun p => prefixIdx d p ∈ ancestors i)).map
      (prefixRule d r))

theorem length_childRules (rs : List Rule) (d : Dim) (i : Nat) :
    (childRules rs d i).length = (prefixIdxs rs d).countP (fun a => a ∈ ancestors i) := by
  induction rs with
  | nil => rfl
  | cons r rs ih =>
      rw [childRules, List.flatMap_cons, List.length_append, prefixIdxs, List.flatMap_cons,
        List.countP_append, List.length_map, List.countP_map, List.countP_eq_length_filter]
      exact congrArg _ ih

/-- One prefix reaches the occupied child `i` once if it lies on the path to `i`,
and otherwise not at all. -/
theorem sentTo_pushPrefix {hist : RuleHist} {r : Rule} {p : Pfx} {i : Nat}
    (hi : hist.childRulecount i ≠ 0) (hlt : i < childCount) :
    sentTo (pushPrefix hist d r p) i =
      if prefixIdx d p ∈ ancestors i then [prefixRule d r p] else [] := by
  have hdesc : ∀ idx, descRows childCount (stride + 1) (idx * 2 + 1) 2 = descendants 7 idx := by
    intro idx
    rw [descendants, Nat.mul_comm]
    rfl
  have hmem : i ∈ descendants 7 (prefixIdx d p) ↔
      i ≠ prefixIdx d p ∧ prefixIdx d p ∈ ancestors i := by
    rw [mem_descendants]
    exact ⟨fun h => h.2, fun h => ⟨hlt, h⟩⟩
  -- the rows list `i` at most once
  have hrows : sentTo (((descendants 7 (prefixIdx d p)).filter
      (fun i => hist.childRulecount i ≠ 0)).map (fun i => (i, prefixRule d r p))) i
      = if i ∈ descendants 7 (prefixIdx d p) then [prefixRule d r p] else [] := by
    rw [sentTo_map_nodup ((descendants_nodup 7 (prefixIdx d p)).filter _)]
    simp only [List.mem_filter, decide_eq_true_eq, and_iff_left hi]
  rw [pushPrefix, sentTo_cons]
  dsimp only
  by_cases hself : prefixIdx d p = i
  · subst hself
    rw [if_pos rfl, if_pos (self_mem_ancestors _)]
    split
    · rw [hdesc, hrows, if_neg (by rw [hmem]; exact fun h => h.1 rfl)]
      rfl
    · rfl
  · rw [if_neg hself, List.nil_append]
    by_cases hanc : prefixIdx d p ∈ ancestors i
    · have hin : prefixIdx d p < inlOffset := by
        rw [ancestors_pos (by
          rcases Nat.eq_zero_or_pos i with h0 | h0
          · subst h0
            rw [ancestors_zero, List.mem_singleton] at hanc
            exact absurd hanc hself
          · exact h0), List.mem_cons] at hanc
        rcases hanc with h | h
        · exact absurd h hself
        · have := le_of_mem_ancestors h
          simp only [childCount, inlOffset, stride] at hlt ⊢
          omega
      rw [if_pos hin, hdesc, hrows, if_pos (hmem.mpr ⟨Ne.symm hself, hanc⟩), if_pos hanc]
    · rw [if_neg hanc]
      split
      · rw [hdesc, hrows, if_neg (fun h => hanc (hmem.mp h).2)]
      · rfl

/-- The whole distribution sends to an occupied child exactly its rules. -/
theorem sentTo_evenEntries {hist : RuleHist} {i : Nat} (hi : hist.childRulecount i ≠ 0)
    (hlt : i < childCount) :
    sentTo (evenEntries hist rs d) i = childRules rs d i := by
  rw [evenEntries, sentTo_flatMap, childRules]
  congr 1
  funext r
  rw [sentTo_flatMap]
  induction prefixes (r.range d) (dimBits d) with
  | nil => rfl
  | cons p ps ih =>
      rw [List.flatMap_cons, sentTo_pushPrefix hi hlt, ih, List.filter_cons]
      by_cases h : prefixIdx d p ∈ ancestors i <;> simp [h]

/-! ### The cut never fails -/

/-- The children after the distribution. -/
def evenKids (rs : List Rule) (d : Dim) : List RuleSet :=
  extendAll (evenAlloc (getRuleHist rs d))
    ((evenEntries (getRuleHist rs d) rs d).map
      (fun e => (evenSlot (evenNode (getRuleHist rs d)) e.1, e.2)))

/-- Only occupied children are written to. -/
theorem evenEntries_occupied (hfit : ∀ r ∈ rs, r.Fits) {e : Nat × Rule}
    (he : e ∈ evenEntries (getRuleHist rs d) rs d) :
    (getRuleHist rs d).childRulecount e.1 ≠ 0 ∧ e.1 < childCount := by
  obtain ⟨r, hr, he⟩ := List.mem_flatMap.mp he
  obtain ⟨p, hp, he⟩ := List.mem_flatMap.mp he
  have hidx : prefixIdx d p ∈ prefixIdxs rs d := prefixIdx_mem hr hp
  rw [pushPrefix, List.mem_cons] at he
  rcases he with rfl | he
  · exact ⟨(getRuleHist_ne_zero hfit).mpr hidx, prefixIdxs_lt hfit hidx⟩
  · split at he
    · obtain ⟨i, hi, rfl⟩ := List.mem_map.mp he
      have hocc : (getRuleHist rs d).childRulecount i ≠ 0 := by
        simpa using (List.mem_filter.mp hi).2
      have hlt : i < childCount := prefixIdxs_lt hfit ((getRuleHist_ne_zero hfit).mp hocc)
      dsimp only
      exact ⟨hocc, hlt⟩
    · simp at he

theorem sentTo_map_slot {ws : List (Nat × Rule)} {σ : Nat → Nat} {i : Nat}
    (hinj : ∀ w ∈ ws, σ w.1 = σ i → w.1 = i) :
    sentTo (ws.map (fun e => (σ e.1, e.2))) (σ i) = sentTo ws i := by
  induction ws with
  | nil => rfl
  | cons w ws ih =>
      rw [List.map_cons, sentTo_cons, sentTo_cons,
        ih (fun v hv => hinj v (List.mem_cons_of_mem w hv))]
      congr 1
      by_cases h : w.1 = i
      · simp [h]
      · rw [if_neg h, if_neg (fun hs => h (hinj w List.mem_cons_self hs))]

theorem sentTo_slot (hfit : ∀ r ∈ rs, r.Fits) {i : Nat} (hi : i ∈ prefixIdxs rs d) :
    sentTo ((evenEntries (getRuleHist rs d) rs d).map
      (fun e => (evenSlot (evenNode (getRuleHist rs d)) e.1, e.2)))
        (evenSlot (evenNode (getRuleHist rs d)) i) = childRules rs d i := by
  have hocc := (getRuleHist_ne_zero hfit).mpr hi
  have hlt := prefixIdxs_lt hfit hi
  rw [sentTo_map_slot, sentTo_evenEntries hocc hlt]
  intro w hw heq
  obtain ⟨h1, h2⟩ := evenEntries_occupied hfit hw
  exact evenSlot_inj h1 hocc h2 hlt heq

/-- Every child is filled exactly to its capacity. -/
theorem evenKids_getElem? (hfit : ∀ r ∈ rs, r.Fits) {i : Nat} (hi : i ∈ prefixIdxs rs d) :
    (evenKids rs d)[evenSlot (evenNode (getRuleHist rs d)) i]?
      = some (Buffer.ofList (childRules rs d i)) := by
  have hocc := (getRuleHist_ne_zero hfit).mpr hi
  rw [evenKids, extendAll_getElem?, evenAlloc_spec.2 i (prefixIdxs_lt hfit hi) hocc,
    sentTo_slot hfit hi, Option.map_some, getRuleHist_count hfit, if_pos hi, ← length_childRules]
  simp [Buffer.extend, Buffer.ofList, Buffer.alloc]

theorem evenKids_length : (evenKids rs d).length = evenTotal (getRuleHist rs d) := by
  rw [evenKids, extendAll_length, evenAlloc_spec.1]

/-- Every child of the array is the child of some occupied index. -/
theorem mem_evenKids (hfit : ∀ r ∈ rs, r.Fits) {k : RuleSet} (hk : k ∈ evenKids rs d) :
    ∃ i ∈ prefixIdxs rs d, k = Buffer.ofList (childRules rs d i) := by
  obtain ⟨s, hs, rfl⟩ := List.mem_iff_getElem.mp hk
  obtain ⟨i, hlt, hocc, rfl⟩ := exists_evenSlot (by rw [evenKids_length] at hs; exact hs)
  have hi := (getRuleHist_ne_zero hfit).mp hocc
  refine ⟨i, hi, ?_⟩
  have := evenKids_getElem? hfit hi
  rw [List.getElem?_eq_getElem hs] at this
  exact Option.some.inj this

/-- **A bitmap cut with the node's own histogram succeeds**: no child runs over its
capacity. -/
theorem evenCut_eq {b : RuleSet} (hfit : ∀ r ∈ b.items, r.Fits) :
    evenCut b d (getRuleHist b.items d)
      = .ok (evenNode (getRuleHist b.items d), evenKids b.items d) := by
  unfold evenCut
  rw [pushAll_of_room]
  · rfl
  · intro w hw
    obtain ⟨e, he, rfl⟩ := List.mem_map.mp hw
    obtain ⟨hocc, hlt⟩ := evenEntries_occupied hfit he
    rw [evenAlloc_spec.1]
    exact evenSlot_lt hocc hlt
  · intro s k hk
    have hs : s < evenTotal (getRuleHist b.items d) := by
      rw [← evenAlloc_spec.1]
      exact (List.getElem?_eq_some_iff.mp hk).1
    obtain ⟨i, hlt, hocc, rfl⟩ := exists_evenSlot hs
    have hi := (getRuleHist_ne_zero hfit).mp hocc
    rw [evenAlloc_spec.2 i hlt hocc] at hk
    obtain rfl := Option.some.inj hk
    rw [sentTo_slot hfit hi, length_childRules, Buffer.alloc_num, Buffer.alloc_cap,
      getRuleHist_count hfit, if_pos hi, Nat.zero_add]

end Fits

end ChooseCut
