import ChooseCut.CutBitmapSound

/-!
# ChooseCut.CutBitmapMatch

A bitmap cut preserves matching.

A key and the prefixes of a rule lose the same six bits on the way into an
external child, so a long prefix contains the key iff its shifted copy contains
the shifted key. The copies in an internal child cover the whole dimension, so
there the amount the key is shifted by does not matter; the table `pos2cidr`
stores one more than the prefix length, and nothing below depends on it.
-/

namespace ChooseCut

section Prefix

variable {d : Dim} {p : Pfx}

theorem add_le_of_dvd {a b c : Nat} (hlt : a < b) (ha : c ∣ a) (hb : c ∣ b) : a + c ≤ b := by
  obtain ⟨x, rfl⟩ := ha
  obtain ⟨y, rfl⟩ := hb
  have hxy : x < y := Nat.lt_of_mul_lt_mul_left hlt
  calc c * x + c = c * (x + 1) := by ring
    _ ≤ c * y := Nat.mul_le_mul_left c hxy

/-- Shifting six bits out keeps the lower part of the address. -/
theorem shiftLeft_mod (d : Dim) (b : Nat) :
    (b <<< stride) % 2 ^ dimBits d = b % 2 ^ (dimBits d - stride) * 2 ^ stride := by
  have hw := stride_lt_dimBits d
  have hpow : 2 ^ dimBits d = 2 ^ (dimBits d - stride) * 2 ^ stride := by
    rw [← pow_add]; congr 1; omega
  rw [Nat.shiftLeft_eq, hpow, Nat.mul_mod_mul_right]

/-- A short prefix stands for the whole dimension in its child. -/
theorem prefixRange_short (h : p.len < stride) :
    prefixToRange (shiftPrefix d p) (dimBits d) = ⟨0, 2 ^ dimBits d - 1⟩ := by
  have hw32 : 2 ^ dimBits d ≤ 2 ^ 32 := Nat.pow_le_pow_right (by norm_num) (dimBits_le d)
  have hpos := Nat.two_pow_pos (dimBits d)
  rw [shiftPrefix, if_neg (by omega), prefixToRange]
  simp only [Nat.sub_zero, Nat.zero_add]
  rw [Nat.mod_eq_of_lt (by omega)]

/-- Inside the six-bit region of a long prefix its block does not run over. -/
theorem prefix_low_add_le (h : stride ≤ p.len) (hlen : p.len ≤ dimBits d)
    (hdvd : 2 ^ (dimBits d - p.len) ∣ p.bits) :
    p.bits % 2 ^ (dimBits d - stride) + 2 ^ (dimBits d - p.len) ≤ 2 ^ (dimBits d - stride) := by
  have hpow : 2 ^ (dimBits d - p.len) ∣ 2 ^ (dimBits d - stride) :=
    Nat.pow_dvd_pow 2 (by omega)
  exact add_le_of_dvd (Nat.mod_lt _ (Nat.two_pow_pos _))
    ((Nat.dvd_mod_iff hpow).mpr hdvd) hpow

/-- A long prefix keeps its block, scaled by the six bits shifted out. -/
theorem prefixRange_long (h : stride ≤ p.len) (hlen : p.len ≤ dimBits d)
    (hdvd : 2 ^ (dimBits d - p.len) ∣ p.bits) :
    prefixToRange (shiftPrefix d p) (dimBits d) =
      ⟨p.bits % 2 ^ (dimBits d - stride) * 2 ^ stride,
        p.bits % 2 ^ (dimBits d - stride) * 2 ^ stride + 2 ^ (dimBits d - p.len) * 2 ^ stride - 1⟩ := by
  have hw := stride_lt_dimBits d
  have hw32 : 2 ^ dimBits d ≤ 2 ^ 32 := Nat.pow_le_pow_right (by norm_num) (dimBits_le d)
  have hpow : 2 ^ dimBits d = 2 ^ (dimBits d - stride) * 2 ^ stride := by
    rw [← pow_add]; congr 1; omega
  have hsize : 2 ^ (dimBits d - (p.len - stride)) = 2 ^ (dimBits d - p.len) * 2 ^ stride := by
    rw [← pow_add]; congr 1; omega
  have hpos := Nat.two_pow_pos (dimBits d - p.len)
  have hfit := Nat.mul_le_mul_right (2 ^ stride) (prefix_low_add_le h hlen hdvd)
  rw [Nat.add_mul, ← hpow] at hfit
  have hpos' : 0 < 2 ^ (dimBits d - p.len) * 2 ^ stride :=
    Nat.mul_pos hpos (Nat.two_pow_pos _)
  rw [shiftPrefix, if_pos h, prefixToRange]
  dsimp only
  rw [shiftLeft_mod, hsize]
  generalize p.bits % 2 ^ (dimBits d - stride) * 2 ^ stride = lo at hfit ⊢
  generalize 2 ^ (dimBits d - p.len) * 2 ^ stride = size at hfit hpos' ⊢
  rw [Nat.mod_eq_of_lt (by omega), Nat.add_sub_assoc (by omega)]

/-- The range a prefix leaves in its child fits the dimension. -/
theorem prefixRange_fits (hlen : p.len ≤ dimBits d)
    (hdvd : 2 ^ (dimBits d - p.len) ∣ p.bits) :
    (prefixToRange (shiftPrefix d p) (dimBits d)).Fits d := by
  have hpos := Nat.two_pow_pos (dimBits d)
  rcases Nat.lt_or_ge p.len stride with h | h
  · rw [prefixRange_short h]
    exact ⟨Nat.zero_le _, by dsimp only; omega⟩
  · have hw := stride_lt_dimBits d
    have hpow : 2 ^ dimBits d = 2 ^ (dimBits d - stride) * 2 ^ stride := by
      rw [← pow_add]; congr 1; omega
    have hfit := Nat.mul_le_mul_right (2 ^ stride) (prefix_low_add_le h hlen hdvd)
    have hpos' : 0 < 2 ^ (dimBits d - p.len) * 2 ^ stride :=
      Nat.mul_pos (Nat.two_pow_pos _) (Nat.two_pow_pos _)
    rw [Nat.add_mul, ← hpow] at hfit
    rw [prefixRange_long h hlen hdvd]
    exact ⟨by dsimp only; omega, by dsimp only; omega⟩

/-- A block of at least `2 ^ g` values leaves borders that are multiples of
`2 ^ min (g + 6) bits`. -/
theorem prefixRange_granular {g : Nat} (hlen : p.len ≤ dimBits d)
    (hdvd : 2 ^ (dimBits d - p.len) ∣ p.bits) (hg : g ≤ dimBits d - p.len) :
    2 ^ min (g + stride) (dimBits d) ∣ (prefixToRange (shiftPrefix d p) (dimBits d)).lo ∧
      2 ^ min (g + stride) (dimBits d) ∣ (prefixToRange (shiftPrefix d p) (dimBits d)).hi + 1 := by
  rcases Nat.lt_or_ge p.len stride with h | h
  · rw [prefixRange_short h]
    refine ⟨Nat.dvd_zero _, ?_⟩
    rw [Nat.sub_add_cancel (Nat.two_pow_pos _)]
    exact Nat.pow_dvd_pow 2 (min_le_right _ _)
  · have hpow : 2 ^ (dimBits d - p.len) ∣ 2 ^ (dimBits d - stride) :=
      Nat.pow_dvd_pow 2 (by omega)
    have hlow : 2 ^ (dimBits d - p.len) ∣ p.bits % 2 ^ (dimBits d - stride) :=
      (Nat.dvd_mod_iff hpow).mpr hdvd
    have hblock : 2 ^ min (g + stride) (dimBits d) ∣ 2 ^ (dimBits d - p.len) * 2 ^ stride := by
      rw [← pow_add]
      exact Nat.pow_dvd_pow 2 (by omega)
    have hpos' : 0 < 2 ^ (dimBits d - p.len) * 2 ^ stride :=
      Nat.mul_pos (Nat.two_pow_pos _) (Nat.two_pow_pos _)
    rw [prefixRange_long h hlen hdvd]
    dsimp only
    have hlo : 2 ^ min (g + stride) (dimBits d) ∣
        p.bits % 2 ^ (dimBits d - stride) * 2 ^ stride :=
      hblock.trans (Nat.mul_dvd_mul_right hlow _)
    refine ⟨hlo, ?_⟩
    rw [Nat.sub_add_cancel (by omega)]
    exact Nat.dvd_add hlo hblock

/-- In the child of its own region, a shifted prefix contains the shifted key iff
the prefix contained the key. -/
theorem prefixRange_has {k : Nat} (h : stride ≤ p.len) (hlen : p.len ≤ dimBits d)
    (hdvd : 2 ^ (dimBits d - p.len) ∣ p.bits)
    (hregion : p.bits >>> (dimBits d - stride) = k >>> (dimBits d - stride)) :
    (prefixToRange (shiftPrefix d p) (dimBits d)).Has
        (evenSearchLshift k (dimBits d) stride) ↔ p.Has (dimBits d) k := by
  have hpos := Nat.two_pow_pos (dimBits d - p.len)
  rw [prefixRange_long h hlen hdvd, evenSearchLshift, shiftLeft_mod, Range.Has, Pfx.Has]
  rw [Nat.shiftRight_eq_div_pow, Nat.shiftRight_eq_div_pow] at hregion
  have hb := Nat.div_add_mod p.bits (2 ^ (dimBits d - stride))
  have hk := Nat.div_add_mod k (2 ^ (dimBits d - stride))
  rw [hregion] at hb
  rw [show 2 ^ stride = 64 from rfl]
  dsimp only
  generalize 2 ^ (dimBits d - stride) * (k / 2 ^ (dimBits d - stride)) = t at hb hk
  generalize p.bits % 2 ^ (dimBits d - stride) = b0 at hb ⊢
  generalize k % 2 ^ (dimBits d - stride) = k0 at hk ⊢
  omega

end Prefix

/-! ### The child reached -/

section Match

variable {rs : List Rule} {d : Dim}

/-- What the lookup guarantees about the child it selects: it is the deepest
occupied node on the key's path, and the new key still fits. -/
structure Reached (rs : List Rule) (d : Dim) (k i k' : Nat) : Prop where
  onPath : i ∈ ancestors (keyIdx d k)
  occupied : i ∈ prefixIdxs rs d
  deepest : ∀ a ∈ ancestors (keyIdx d k), a ∈ prefixIdxs rs d → a ≤ i
  fits : k' < 2 ^ dimBits d
  shifted : i = keyIdx d k → k' = evenSearchLshift k (dimBits d) stride

/-- In the child reached, the copies of a prefix that lie there and match the new
key are those of the prefixes that contain the old one. -/
theorem Reached.prefix_iff (hfit : ∀ r ∈ rs, r.Fits) {k i k' : Nat} (hk : k < 2 ^ dimBits d)
    (hr : Reached rs d k i k') {r : Rule} (hmem : r ∈ rs) {p : Pfx}
    (hp : p ∈ prefixes (r.range d) (dimBits d)) :
    (prefixIdx d p ∈ ancestors i ∧ (prefixToRange (shiftPrefix d p) (dimBits d)).Has k') ↔
      p.Has (dimBits d) k := by
  obtain ⟨hlen, hdvd, -⟩ := prefix_facts hfit hmem hp
  have hbits := prefix_bits_lt hfit hmem hp
  have hocc : prefixIdx d p ∈ prefixIdxs rs d := prefixIdx_mem hmem hp
  have hpath : prefixIdx d p ∈ ancestors i ↔ prefixIdx d p ∈ ancestors (keyIdx d k) :=
    ⟨fun h => ancestors_trans h hr.onPath,
      fun h => mem_ancestors_of_le h hr.onPath (hr.deepest _ h hocc)⟩
  rw [hpath]
  rcases Nat.lt_or_ge p.len stride with hs | hs
  · -- short: the copy covers the dimension
    rw [prefixRange_short hs, prefixIdx_mem_ancestors hs hdvd hbits hk]
    have hfull : (⟨0, 2 ^ dimBits d - 1⟩ : Range).Has k' :=
      ⟨Nat.zero_le _, by have := hr.fits; dsimp only; omega⟩
    exact ⟨fun h => h.1, fun h => ⟨h, hfull⟩⟩
  · have hidx : prefixIdx d p = inlOffset + p.bits >>> (dimBits d - stride) := by
      rw [prefixIdx, if_pos hs, Nat.add_comm]
    -- long: the prefix is on the path iff it shares the first six bits with the key
    have hon : prefixIdx d p ∈ ancestors (keyIdx d k) ↔
        p.bits >>> (dimBits d - stride) = k >>> (dimBits d - stride) := by
      constructor
      · intro h
        rcases mem_ancestors_keyIdx hk h with h | h
        · rw [hidx, keyIdx] at h; exact Nat.add_left_cancel h
        · rw [hidx] at h; exact absurd h (Nat.not_lt.mpr (Nat.le_add_right _ _))
      · intro h
        rw [hidx, h]
        exact self_mem_ancestors _
    rw [hon]
    constructor
    · rintro ⟨hreg, hhas⟩
      have hkey : i = keyIdx d k := by
        have hin := hon.mpr hreg
        have h1 := hr.deepest _ hin hocc
        have h2 := le_of_mem_ancestors hr.onPath
        rw [hidx, hreg] at h1
        unfold keyIdx at h2 ⊢
        omega
      rw [hr.shifted hkey] at hhas
      exact (prefixRange_has hs hlen hdvd hreg).mp hhas
    · intro hhas
      have hreg : p.bits >>> (dimBits d - stride) = k >>> (dimBits d - stride) := by
        have h1 := (mem_block_iff hdvd).mp hhas
        rw [show dimBits d - stride = dimBits d - p.len + (p.len - stride) by omega,
          Nat.shiftRight_add, Nat.shiftRight_add, h1]
      have hkey : i = keyIdx d k := by
        have h1 := hr.deepest _ (hon.mpr hreg) hocc
        have h2 := le_of_mem_ancestors hr.onPath
        rw [hidx, hreg] at h1
        unfold keyIdx at h2 ⊢
        omega
      refine ⟨hreg, ?_⟩
      rw [hr.shifted hkey]
      exact (prefixRange_has hs hlen hdvd hreg).mpr hhas

/-- **Matching is preserved**: the matching rules of the child reached, with
multiplicity and order, are the matching rules of the node. -/
theorem hits_childRules (hfit : ∀ r ∈ rs, r.Fits) {f : Flow} {i k' : Nat}
    (hk : f.key d < 2 ^ dimBits d) (hr : Reached rs d (f.key d) i k') :
    hits (childRules rs d i) (f.setKey d k') = hits rs f := by
  have hone : ∀ r ∈ rs,
      hits (((prefixes (r.range d) (dimBits d)).filter
        (fun p => prefixIdx d p ∈ ancestors i)).map (prefixRule d r)) (f.setKey d k')
        = if r.Matches f then [r.pri] else [] := by
    intro r hmem
    by_cases hother : ∀ e, e ≠ d → (r.range e).Has (f.key e)
    · -- the other dimensions match, so a copy matches iff its prefix holds the key
      have hfilter : ((prefixes (r.range d) (dimBits d)).filter
            (fun p => prefixIdx d p ∈ ancestors i)).filter
              ((fun q : Rule => decide (q.Matches (f.setKey d k'))) ∘ prefixRule d r)
          = (prefixes (r.range d) (dimBits d)).filter (fun p => p.Has (dimBits d) (f.key d)) := by
        rw [List.filter_filter]
        apply List.filter_congr
        intro p hp
        have hiff := hr.prefix_iff hfit hk hmem hp
        have hm : (prefixRule d r p).Matches (f.setKey d k') ↔
            (prefixToRange (shiftPrefix d p) (dimBits d)).Has k' := by
          rw [prefixRule, Rule.matches_setRange]
          exact ⟨fun h => h.1, fun h => ⟨h, hother⟩⟩
        simp only [Function.comp_apply, ← Bool.decide_and]
        rw [decide_eq_decide, hm, and_comm]
        exact hiff
      have hlen := prefixes_filter_length (dimBits_le d) (hfit r hmem d).1 (hfit r hmem d).2
        (f.key d)
      unfold hits
      rw [List.filter_map, hfilter, List.map_map]
      have hpri : (Rule.pri ∘ prefixRule d r) = fun _ => r.pri := rfl
      rw [hpri, List.map_const', hlen]
      by_cases hd : (r.range d).Has (f.key d)
      · rw [if_pos hd, if_pos ((Rule.matches_iff_dim d).mpr ⟨hd, hother⟩)]
        rfl
      · rw [if_neg hd, if_neg (fun h => hd (h d))]
        rfl
    · rw [if_neg (fun h => hother ((Rule.matches_iff_dim d).mp h).2), hits_eq_nil]
      intro q hq hmatch
      obtain ⟨p, -, rfl⟩ := List.mem_map.mp hq
      rw [prefixRule, Rule.matches_setRange] at hmatch
      exact hother hmatch.2
  rw [childRules, hits_flatMap]
  clear hr
  induction rs with
  | nil => rfl
  | cons r rs ih =>
      rw [List.flatMap_cons, hits_cons, hone r List.mem_cons_self,
        ih (fun s hs => hfit s (List.mem_cons_of_mem r hs))
          (fun s hs => hone s (List.mem_cons_of_mem r hs))]

/-- A flow that matches a rule of the node has an occupied node on its path. -/
theorem exists_occupied (hfit : ∀ r ∈ rs, r.Fits) {f : Flow} (hk : f.key d < 2 ^ dimBits d)
    (h : hits rs f ≠ []) : ∃ a ∈ ancestors (keyIdx d (f.key d)), a ∈ prefixIdxs rs d := by
  rw [Ne, hits_eq_nil] at h
  push Not at h
  obtain ⟨r, hmem, hmatch⟩ := h
  have hlen := prefixes_filter_length (dimBits_le d) (hfit r hmem d).1 (hfit r hmem d).2 (f.key d)
  rw [if_pos (hmatch d)] at hlen
  obtain ⟨p, hp⟩ := List.exists_mem_of_length_pos (hlen ▸ Nat.one_pos)
  obtain ⟨hp, hhas⟩ := List.mem_filter.mp hp
  have hhas : p.Has (dimBits d) (f.key d) := by simpa using hhas
  refine ⟨prefixIdx d p, ?_, prefixIdx_mem hmem hp⟩
  obtain ⟨hplen, hdvd, -⟩ := prefix_facts hfit hmem hp
  rcases Nat.lt_or_ge p.len stride with hs | hs
  · exact (prefixIdx_mem_ancestors hs hdvd (prefix_bits_lt hfit hmem hp) hk).mpr hhas
  · have h1 := (mem_block_iff hdvd).mp hhas
    have hreg : p.bits >>> (dimBits d - stride) = f.key d >>> (dimBits d - stride) := by
      rw [show dimBits d - stride = dimBits d - p.len + (p.len - stride) by omega,
        Nat.shiftRight_add, Nat.shiftRight_add, h1]
    rw [prefixIdx, if_pos hs, hreg, Nat.add_comm]
    exact self_mem_ancestors _

theorem evenSearchLshift_lt (k w c : Nat) : evenSearchLshift k w c < 2 ^ w :=
  Nat.mod_lt _ (Nat.two_pow_pos w)

/-! ### The lookup -/

/-- The path of the key: the external child, then the row of the lookup table. -/
theorem mem_ancestors_key {k a : Nat} : a ∈ ancestors (keyIdx d k) ↔
    a = keyIdx d k ∨ a ∈ ancestors (31 + (k >>> (dimBits d - stride)) >>> 1) := by
  have htail := ancestors_tail (s := k >>> (dimBits d - stride))
  rw [show 63 + k >>> (dimBits d - stride) = keyIdx d k from rfl] at htail
  rw [htail, List.mem_cons]

theorem external_iff (hfit : ∀ r ∈ rs, r.Fits) {k : Nat} (hk : k < 2 ^ dimBits d) :
    (evenNode (getRuleHist rs d)).external.getLsbD (k >>> (dimBits d - stride)) = true ↔
      keyIdx d k ∈ prefixIdxs rs d := by
  rw [evenNode_external, ← getRuleHist_ne_zero hfit, keyIdx, Nat.add_comm]
  simp only [Bool.and_eq_true, decide_eq_true_eq, and_iff_left_iff_imp]
  exact fun _ => shiftRight_lt (Nat.le_of_lt (stride_lt_dimBits d)) hk

theorem internal_iff (hfit : ∀ r ∈ rs, r.Fits) {i : Nat} (hi : i < inlOffset) :
    (evenNode (getRuleHist rs d)).internal.getLsbD i = true ↔ i ∈ prefixIdxs rs d := by
  rw [evenNode_internal, ← getRuleHist_ne_zero hfit]
  simp [hi]

/-- An occupied external child is the one reached. -/
theorem Reached.external {k : Nat} (hocc : keyIdx d k ∈ prefixIdxs rs d) :
    Reached rs d k (keyIdx d k) (evenSearchLshift k (dimBits d) stride) where
  onPath := self_mem_ancestors _
  occupied := hocc
  deepest := fun _ ha _ => le_of_mem_ancestors ha
  fits := evenSearchLshift_lt _ _ _
  shifted := fun _ => rfl

/-- Without it, the deepest occupied node of the table row is, whatever the key is
shifted by. -/
theorem Reached.internal {k pos : Nat} (hnot : keyIdx d k ∉ prefixIdxs rs d)
    (hpos : pos ∈ ancestors (31 + (k >>> (dimBits d - stride)) >>> 1))
    (hocc : pos ∈ prefixIdxs rs d)
    (hmax : ∀ a ∈ ancestors (31 + (k >>> (dimBits d - stride)) >>> 1),
      a ∈ prefixIdxs rs d → a ≤ pos) (cidr : Nat) :
    Reached rs d k pos (evenSearchLshift k (dimBits d) cidr) where
  onPath := mem_ancestors_key.mpr (Or.inr hpos)
  occupied := hocc
  deepest := by
    intro a ha haocc
    rcases mem_ancestors_key.mp ha with rfl | ha
    · exact absurd haocc hnot
    · exact hmax a ha haocc
  fits := evenSearchLshift_lt _ _ _
  shifted := fun h => absurd (h ▸ hocc) hnot

/-- `even_search` with some `tree_function`: the header has two of them. -/
def evenSearchWith (tf : TreeFunction) (n : MbNode) (d : Dim) (f : Flow) : Option (Nat × Flow) :=
  let s := (f.key d >>> (dimBits d - stride)) % 2 ^ 8
  if n.external.getLsbD s then
    some (nextExl n s, f.setKey d (evenSearchLshift (f.key d) (dimBits d) stride))
  else
    match tf n.internal s with
    | none => none
    | some (pos, cidr) =>
        some (nextInl n pos, f.setKey d (evenSearchLshift (f.key d) (dimBits d) cidr))

/-- **The lookup of a bitmap node**: no child iff no rule matches on the path, and
otherwise the child reached has the hits of the node. -/
theorem evenSearchWith_spec {tf : TreeFunction} (htf : FindsDeepest tf)
    (hfit : ∀ r ∈ rs, r.Fits) {f : Flow} (hf : f.InRange) :
    match evenSearchWith tf (evenNode (getRuleHist rs d)) d f with
    | none => hits rs f = []
    | some (slot, f') => f'.InRange ∧ ∃ i ∈ prefixIdxs rs d,
        slot = evenSlot (evenNode (getRuleHist rs d)) i ∧ hits (childRules rs d i) f' = hits rs f := by
  have hk := hf d
  have hs := shiftRight_lt (Nat.le_of_lt (stride_lt_dimBits d)) hk
  rw [show 2 ^ stride = 64 from rfl] at hs
  have hrow : ∀ i ∈ ancestors (31 + (f.key d >>> (dimBits d - stride)) >>> 1), i < inlOffset := by
    intro i hi
    have hle := le_of_mem_ancestors hi
    rw [Nat.shiftRight_eq_div_pow, pow_one] at hle
    simp only [inlOffset, stride]
    omega
  unfold evenSearchWith
  rw [Nat.mod_eq_of_lt (by omega : f.key d >>> (dimBits d - stride) < 2 ^ 8)]
  dsimp only
  by_cases he : (evenNode (getRuleHist rs d)).external.getLsbD
      (f.key d >>> (dimBits d - stride)) = true
  · rw [if_pos he]
    have hocc := (external_iff hfit hk).mp he
    refine ⟨hf.setKey (evenSearchLshift_lt _ _ _), keyIdx d (f.key d), hocc, ?_,
      hits_childRules hfit hk (Reached.external hocc)⟩
    have hge : ¬ keyIdx d (f.key d) < inlOffset := Nat.not_lt.mpr (Nat.le_add_right _ _)
    rw [evenSlot, if_neg hge, keyIdx, Nat.add_sub_cancel_left]
  · rw [if_neg he]
    have hnot : keyIdx d (f.key d) ∉ prefixIdxs rs d :=
      fun h => he ((external_iff hfit hk).mpr h)
    have hspec := htf (evenNode (getRuleHist rs d)).internal _ hs
    cases ht : tf (evenNode (getRuleHist rs d)).internal
        (f.key d >>> (dimBits d - stride)) with
    | none =>
        rw [ht] at hspec
        dsimp only at hspec ⊢
        by_contra hne
        obtain ⟨a, ha, haocc⟩ := exists_occupied hfit hk hne
        rcases mem_ancestors_key.mp ha with rfl | ha
        · exact hnot haocc
        · have hbit := (internal_iff hfit (hrow a ha)).mpr haocc
          rw [hspec a ha] at hbit
          exact Bool.noConfusion hbit
    | some q =>
        obtain ⟨pos, cidr⟩ := q
        rw [ht] at hspec
        dsimp only at hspec ⊢
        obtain ⟨hpos, hbit, hmax⟩ := hspec
        have hocc := (internal_iff hfit (hrow pos hpos)).mp hbit
        have hreach := Reached.internal hnot hpos hocc
          (fun a ha haocc => hmax a ha ((internal_iff hfit (hrow a ha)).mpr haocc)) cidr
        refine ⟨hf.setKey (evenSearchLshift_lt _ _ _), pos, hocc, ?_,
          hits_childRules hfit hk hreach⟩
        rw [evenSlot, if_pos (hrow pos hpos)]

/-- The lookup with the tables. -/
theorem evenSearch_spec (hfit : ∀ r ∈ rs, r.Fits) {f : Flow} (hf : f.InRange) :
    match evenSearch (evenNode (getRuleHist rs d)) d f with
    | none => hits rs f = []
    | some (slot, f') => f'.InRange ∧ ∃ i ∈ prefixIdxs rs d,
        slot = evenSlot (evenNode (getRuleHist rs d)) i ∧ hits (childRules rs d i) f' = hits rs f :=
  evenSearchWith_spec treeFunction_findsDeepest hfit hf

/-! ### Rules in a child -/

/-- Where a rule of a child comes from. -/
theorem mem_childRules {i : Nat} {q : Rule} (h : q ∈ childRules rs d i) :
    ∃ r ∈ rs, ∃ p ∈ prefixes (r.range d) (dimBits d),
      prefixIdx d p ∈ ancestors i ∧ q = prefixRule d r p := by
  obtain ⟨r, hr, hq⟩ := List.mem_flatMap.mp h
  obtain ⟨p, hp, rfl⟩ := List.mem_map.mp hq
  obtain ⟨hp, hanc⟩ := List.mem_filter.mp hp
  exact ⟨r, hr, p, hp, by simpa using hanc, rfl⟩

theorem childRules_wf (hwf : RulesWF rs) (i : Nat) : RulesWF (childRules rs d i) := by
  intro q hq
  obtain ⟨r, hr, p, hp, -, rfl⟩ := mem_childRules hq
  obtain ⟨hlen, hdvd, -⟩ := prefix_facts (fun r hr => (hwf r hr).fits) hr hp
  exact ⟨Rule.setRange_fits (hwf r hr).fits (prefixRange_fits hlen hdvd), (hwf r hr).pri_lt⟩

theorem childRules_ne_nil {i : Nat} (hi : i ∈ prefixIdxs rs d) : childRules rs d i ≠ [] := by
  intro h
  have hlen := length_childRules rs d i
  rw [h, List.length_nil] at hlen
  have : 0 < (prefixIdxs rs d).countP (fun a => a ∈ ancestors i) :=
    List.countP_pos_iff.mpr ⟨i, hi, by simpa using self_mem_ancestors i⟩
  omega

end Match

end ChooseCut
