import Mathlib.Data.List.Perm.Subperm
import Mathlib.Tactic.Choose
import ChooseCut.Lib.Dyadic

/-!
# ChooseCut.Lib.DyadicCover

How many aligned blocks an interval needs.

Two aligned blocks are nested or disjoint. A tiling whose every block is as large as
its start and the end of the interval allow (`Greedy`) consists of the maximal aligned
blocks of the interval, so every other cover by aligned blocks has one inside each of
them and is at least as long. How short that is, is shown by a tiling built from the
binary expansions of the two borders.
-/

namespace ChooseCut

variable {l c : List (Nat × Nat)} {a b : Nat}

/-- The aligned blocks of the list, in any order and with any overlap, have the union
`[a, b)`. -/
structure Covers (c : List (Nat × Nat)) (a b : Nat) : Prop where
  aligned : ∀ p ∈ c, 2 ^ p.2 ∣ p.1
  exact : ∀ v, (∃ p ∈ c, p.1 ≤ v ∧ v < p.1 + 2 ^ p.2) ↔ a ≤ v ∧ v < b

/-- No block could be larger at its start. -/
def Greedy (l : List (Nat × Nat)) (b : Nat) : Prop :=
  ∀ p ∈ l, ∀ j, 2 ^ j ∣ p.1 → p.1 + 2 ^ j ≤ b → j ≤ p.2

/-- The exponent `leap` takes is the largest that alignment and count allow. -/
theorem le_leap_of_fits {w left start j : Nat} (hfit : left ≤ 2 ^ w) (hdvd : 2 ^ j ∣ start)
    (hle : 2 ^ j ≤ left) : j ≤ leap w left start := by
  have hpos := Nat.two_pow_pos j
  have hjw : j ≤ w := (Nat.pow_le_pow_iff_right (by decide)).mp (hle.trans hfit)
  exact le_min ((Nat.le_log2 (Nat.ne_of_gt (hpos.trans_le hle))).mpr hle) (le_ctz hjw hdvd)

/-- Of two aligned blocks with a common value, the larger contains the smaller. -/
theorem block_nested {s t j k x : Nat} (hs : 2 ^ j ∣ s) (ht : 2 ^ k ∣ t) (hjk : j ≤ k)
    (hxs : s ≤ x ∧ x < s + 2 ^ j) (hxt : t ≤ x ∧ x < t + 2 ^ k) :
    t ≤ s ∧ s + 2 ^ j ≤ t + 2 ^ k := by
  have hpos := Nat.two_pow_pos j
  -- a value of the smaller block has the high bits of `x`
  have hin : ∀ y, s ≤ y ∧ y < s + 2 ^ j → t ≤ y ∧ y < t + 2 ^ k := by
    intro y hy
    have hshift : ∀ z : Nat, z >>> k = z >>> j >>> (k - j) := fun z => by
      rw [← Nat.shiftRight_add, Nat.add_sub_cancel' hjk]
    rw [mem_block_iff ht, hshift, (mem_block_iff hs).mp hy, ← (mem_block_iff hs).mp hxs,
      ← hshift]
    exact (mem_block_iff ht).mp hxt
  have hfirst := hin s (by omega)
  have hlast := hin (s + 2 ^ j - 1) (by omega)
  omega

namespace Tiles

/-- Two tilings side by side. -/
theorem append {m : List (Nat × Nat)} {e : Nat} (hl : Tiles l a b) (hm : Tiles m b e) :
    Tiles (l ++ m) a e := by
  induction hl with
  | nil a => exact hm
  | cons hdvd _ ih => exact Tiles.cons hdvd (ih hm)

theorem single {k : Nat} (hdvd : 2 ^ k ∣ a) : Tiles [(a, k)] a (a + 2 ^ k) :=
  Tiles.cons hdvd (Tiles.nil _)

/-- Each block starts where the one before it ends. -/
theorem isChain (h : Tiles l a b) : l.IsChain (fun p q => q.1 = p.1 + 2 ^ p.2) := by
  induction h with
  | nil a => exact List.IsChain.nil
  | cons _ htail ih =>
      cases htail with
      | nil => exact List.IsChain.singleton _
      | cons hdvd htail => exact List.isChain_cons_cons.mpr ⟨rfl, ih⟩

/-- Each block ends before every later one starts. -/
theorem pairwise (h : Tiles l a b) : l.Pairwise (fun p q => p.1 + 2 ^ p.2 ≤ q.1) := by
  induction h with
  | nil a => exact List.Pairwise.nil
  | cons _ htail ih => exact List.pairwise_cons.mpr ⟨fun q hq => (htail.mem hq).2.1, ih⟩

/-- A tiling is a cover. -/
theorem covers (h : Tiles l a b) : Covers l a b := by
  refine ⟨fun p hp => (h.mem hp).1, fun v => ?_⟩
  have hlen := h.filter_length v
  constructor
  · intro hv
    obtain ⟨p, hp, hpv⟩ := hv
    obtain ⟨-, h1, h2⟩ := h.mem hp
    exact ⟨h1.trans hpv.1, hpv.2.trans_le h2⟩
  · intro hv
    rw [if_pos hv] at hlen
    obtain ⟨p, hp⟩ := List.exists_mem_of_length_eq_add_one hlen
    rw [List.mem_filter, decide_eq_true_eq] at hp
    exact ⟨p, hp⟩

/-- Two blocks of a tiling that share a value are the same. -/
theorem unique (h : Tiles l a b) {p q : Nat × Nat} (hp : p ∈ l) (hq : q ∈ l) {x : Nat}
    (hxp : p.1 ≤ x ∧ x < p.1 + 2 ^ p.2) (hxq : q.1 ≤ x ∧ x < q.1 + 2 ^ q.2) : p = q := by
  have hlen := h.filter_length x
  rw [if_pos ((h.covers.exact x).mp ⟨p, hp, hxp⟩)] at hlen
  obtain ⟨r, hr⟩ := List.length_eq_one_iff.mp hlen
  have hmem : ∀ s ∈ l, s.1 ≤ x ∧ x < s.1 + 2 ^ s.2 → s = r := by
    intro s hs hxs
    rw [← List.mem_singleton, ← hr, List.mem_filter, decide_eq_true_eq]
    exact ⟨hs, hxs⟩
  rw [hmem p hp hxp, hmem q hq hxq]

/-- **The blocks of a greedy tiling are maximal**: an aligned block inside the interval
that meets one of them lies inside it. -/
theorem maximal (h : Tiles l a b) (hg : Greedy l b) {p : Nat × Nat} (hp : p ∈ l) {s j x : Nat}
    (hs : 2 ^ j ∣ s) (has : a ≤ s) (hsb : s + 2 ^ j ≤ b) (hxp : p.1 ≤ x ∧ x < p.1 + 2 ^ p.2)
    (hxs : s ≤ x ∧ x < s + 2 ^ j) : p.1 ≤ s ∧ s + 2 ^ j ≤ p.1 + 2 ^ p.2 := by
  rcases Nat.le_total j p.2 with hjp | hpj
  · exact block_nested hs (h.mem hp).1 hjp hxs hxp
  · -- the tile at `s` is at least as large, so it already contains `x`
    obtain ⟨q, hq, hqs⟩ := (h.covers.exact s).mpr ⟨has, by omega⟩
    have hself : s ≤ s ∧ s < s + 2 ^ j := ⟨Nat.le_refl s, by omega⟩
    have hjq : j ≤ q.2 := by
      rcases Nat.le_total j q.2 with hjq | hqj
      · exact hjq
      · have hsq := (block_nested (h.mem hq).1 hs hqj hqs hself).1
        have hstart : q.1 = s := Nat.le_antisymm hqs.1 hsq
        exact hg q hq j (by rw [hstart]; exact hs) (by rw [hstart]; exact hsb)
    have hin := block_nested hs (h.mem hq).1 hjq hself hqs
    have hpq : p = q := h.unique hp hq hxp ⟨by omega, by omega⟩
    rw [hpq]
    exact hin

/-- **A greedy tiling is a shortest cover.** -/
theorem length_le_of_covers (h : Tiles l a b) (hg : Greedy l b) (hc : Covers c a b) :
    l.length ≤ c.length := by
  -- a block of the cover inside each tile
  have hex : ∀ p : Nat × Nat, ∃ q : Nat × Nat, p ∈ l →
      q ∈ c ∧ p.1 ≤ q.1 ∧ q.1 + 2 ^ q.2 ≤ p.1 + 2 ^ p.2 := by
    intro p
    by_cases hp : p ∈ l
    · have hself : p.1 ≤ p.1 ∧ p.1 < p.1 + 2 ^ p.2 :=
        ⟨Nat.le_refl _, Nat.lt_add_of_pos_right (Nat.two_pow_pos _)⟩
      obtain ⟨q, hq, hqp⟩ := (hc.exact p.1).mpr ((h.covers.exact p.1).mp ⟨p, hp, hself⟩)
      have hpos := Nat.two_pow_pos q.2
      have hlow := ((hc.exact q.1).mp ⟨q, hq, by omega⟩).1
      have hhigh := ((hc.exact (q.1 + 2 ^ q.2 - 1)).mp ⟨q, hq, by omega⟩).2
      exact ⟨q, fun _ => ⟨hq, h.maximal hg hp (hc.aligned q hq) hlow (by omega) hself hqp⟩⟩
    · exact ⟨p, fun hmem => absurd hmem hp⟩
  choose f hf using hex
  -- disjoint tiles have different blocks inside
  have hnodup : (l.map f).Nodup := by
    rw [List.nodup_iff_pairwise_ne, List.pairwise_map]
    refine h.pairwise.imp_of_mem ?_
    intro p q hp hq hpq heq
    obtain ⟨-, -, h1⟩ := hf p hp
    obtain ⟨-, h2, -⟩ := hf q hq
    have hpos := Nat.two_pow_pos (f p).2
    rw [← heq] at h2
    omega
  have hsub : l.map f ⊆ c := by
    intro q hq
    obtain ⟨p, hp, rfl⟩ := List.mem_map.mp hq
    exact (hf p hp).1
  have hle := (hnodup.subperm hsub).length_le
  rwa [List.length_map] at hle

end Tiles

/-! ### Short tilings -/

/-- An initial part of an aligned block of `2 ^ w` values needs at most `w` blocks. -/
theorem exists_tiles_initial : ∀ (w : Nat) {base x : Nat}, 2 ^ w ∣ base → x ≤ 2 ^ w →
    ∃ l, Tiles l base (base + x) ∧ l.length ≤ max 1 w
  | 0, base, x, hdvd, hx => by
      rcases Nat.eq_zero_or_pos x with rfl | hpos
      · exact ⟨[], Tiles.nil _, Nat.zero_le _⟩
      · obtain rfl : x = 1 := Nat.le_antisymm hx hpos
        exact ⟨[(base, 0)], Tiles.single hdvd, Nat.le_refl _⟩
  | w + 1, base, x, hdvd, hx => by
      have hhalf : 2 ^ w ∣ base := (Nat.pow_dvd_pow 2 (Nat.le_succ w)).trans hdvd
      have hpow : 2 ^ (w + 1) = 2 ^ w + 2 ^ w := by ring
      by_cases hlow : x ≤ 2 ^ w
      · obtain ⟨l, hl, hlen⟩ := exists_tiles_initial w hhalf hlow
        exact ⟨l, hl, by omega⟩
      by_cases hfull : x = 2 ^ (w + 1)
      · rw [hfull]
        exact ⟨[(base, w + 1)], Tiles.single hdvd, le_max_left _ _⟩
      · -- the lower half, and an initial part of the upper one
        obtain ⟨l, hl, hlen⟩ := exists_tiles_initial w (Nat.dvd_add hhalf (Nat.dvd_refl _))
          (show x - 2 ^ w ≤ 2 ^ w by omega)
        rw [show base + 2 ^ w + (x - 2 ^ w) = base + x by omega] at hl
        refine ⟨(base, w) :: l, Tiles.cons hhalf hl, ?_⟩
        have hw : w ≠ 0 := by
          rintro rfl
          omega
        rw [List.length_cons]
        omega

/-- A final part of an aligned block of `2 ^ w` values needs at most `w` blocks. -/
theorem exists_tiles_final : ∀ (w : Nat) {base x : Nat}, 2 ^ w ∣ base → x ≤ 2 ^ w →
    ∃ l, Tiles l (base + (2 ^ w - x)) (base + 2 ^ w) ∧ l.length ≤ max 1 w
  | 0, base, x, hdvd, hx => by
      rcases Nat.eq_zero_or_pos x with rfl | hpos
      · exact ⟨[], Tiles.nil _, Nat.zero_le _⟩
      · obtain rfl : x = 1 := Nat.le_antisymm hx hpos
        exact ⟨[(base, 0)], Tiles.single hdvd, Nat.le_refl _⟩
  | w + 1, base, x, hdvd, hx => by
      have hhalf : 2 ^ w ∣ base := (Nat.pow_dvd_pow 2 (Nat.le_succ w)).trans hdvd
      have hupper : 2 ^ w ∣ base + 2 ^ w := Nat.dvd_add hhalf (Nat.dvd_refl _)
      have hpow : 2 ^ (w + 1) = 2 ^ w + 2 ^ w := by ring
      by_cases hlow : x ≤ 2 ^ w
      · obtain ⟨l, hl, hlen⟩ := exists_tiles_final w hupper hlow
        rw [show base + 2 ^ w + (2 ^ w - x) = base + (2 ^ (w + 1) - x) by omega,
          show base + 2 ^ w + 2 ^ w = base + 2 ^ (w + 1) by omega] at hl
        exact ⟨l, hl, by omega⟩
      by_cases hfull : x = 2 ^ (w + 1)
      · rw [hfull, Nat.sub_self]
        exact ⟨[(base, w + 1)], Tiles.single hdvd, le_max_left _ _⟩
      · -- a final part of the lower half, and the upper one
        obtain ⟨l, hl, hlen⟩ := exists_tiles_final w hhalf (show x - 2 ^ w ≤ 2 ^ w by omega)
        rw [show base + (2 ^ w - (x - 2 ^ w)) = base + (2 ^ (w + 1) - x) by omega] at hl
        have hsingle := Tiles.single hupper
        rw [show base + 2 ^ w + 2 ^ w = base + 2 ^ (w + 1) by omega] at hsingle
        refine ⟨l ++ [(base + 2 ^ w, w)], hl.append hsingle, ?_⟩
        have hw : w ≠ 0 := by
          rintro rfl
          omega
        rw [List.length_append, List.length_singleton]
        omega

/-- **A part of an aligned block of `2 ^ w` values needs at most `2 * w - 2` blocks**, and
one at the least. -/
theorem exists_tiles_short : ∀ (w : Nat) {base a b : Nat}, 2 ^ w ∣ base → base ≤ a → a < b →
    b ≤ base + 2 ^ w → ∃ l, Tiles l a b ∧ l.length ≤ max 1 (2 * w - 2)
  | 0, base, a, b, hdvd, hlo, hlt, hhi => by
      obtain rfl : a = base := by omega
      obtain rfl : b = a + 2 ^ 0 := by omega
      exact ⟨[(a, 0)], Tiles.single hdvd, Nat.le_refl _⟩
  | w + 1, base, a, b, hdvd, hlo, hlt, hhi => by
      have hhalf : 2 ^ w ∣ base := (Nat.pow_dvd_pow 2 (Nat.le_succ w)).trans hdvd
      have hupper : 2 ^ w ∣ base + 2 ^ w := Nat.dvd_add hhalf (Nat.dvd_refl _)
      have hpow : 2 ^ (w + 1) = 2 ^ w + 2 ^ w := by ring
      by_cases hleft : b ≤ base + 2 ^ w
      · obtain ⟨l, hl, hlen⟩ := exists_tiles_short w hhalf hlo hlt hleft
        exact ⟨l, hl, by omega⟩
      by_cases hright : base + 2 ^ w ≤ a
      · obtain ⟨l, hl, hlen⟩ := exists_tiles_short w hupper hright hlt (by omega)
        exact ⟨l, hl, by omega⟩
      by_cases hw : w = 0
      · -- two values, both in
        obtain rfl := hw
        obtain rfl : a = base := by omega
        obtain rfl : b = a + 2 ^ 1 := by omega
        exact ⟨[(a, 1)], Tiles.single hdvd, Nat.le_refl _⟩
      · obtain ⟨l, hl, hllen⟩ := exists_tiles_final w hhalf
          (show base + 2 ^ w - a ≤ 2 ^ w by omega)
        obtain ⟨m, hm, hmlen⟩ := exists_tiles_initial w hupper
          (show b - (base + 2 ^ w) ≤ 2 ^ w by omega)
        rw [show base + (2 ^ w - (base + 2 ^ w - a)) = a by omega] at hl
        rw [show base + 2 ^ w + (b - (base + 2 ^ w)) = b by omega] at hm
        refine ⟨l ++ m, hl.append hm, ?_⟩
        rw [List.length_append]
        omega

end ChooseCut
