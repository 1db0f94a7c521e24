import Mathlib.Tactic.IntervalCases
import Mathlib.Tactic.Ring
import ChooseCut.FilterFile

/-!
# ChooseCut.FilterFileAddr

The address arithmetic of the reader (`utils.c`, `ReadIPRange`).

The mask is applied octet by octet: whole octets are overwritten in a loop, the octet the
mask ends in is masked by itself, and the end of the range is computed from the octets
left by the start. `ipRange_eq` settles this once: with a mask length of at most 32 the
range is an aligned block of `2 ^ (32 - len)` addresses that does not leave the 32-bit
space, whatever the octets are. If they are octets, it is the block of the address
(`maskBlock`).

`ipRange` looks at the mask first and fails if the code would leave the array of octets.
That this is when an access does leave it is `ipRangeSteps_eq`.
-/

namespace ChooseCut

/-! ### The block of a mask -/

/-- The value of four octets, without a bound on them. -/
def ipSum (o : Fin 4 → Nat) : Nat := ((o 0 * 256 + o 1) * 256 + o 2) * 256 + o 3

theorem joinOctets_eq (o : Fin 4 → Nat) : joinOctets o = ipSum o % 2 ^ 32 := by
  simp only [joinOctets, ipSum, List.foldl_cons, List.foldl_nil, Nat.shiftLeft_eq]
  omega

/-- Clearing the low bits of a word. -/
theorem and_high {x r : Nat} (hx : x < 2 ^ 32) (hr : r ≤ 32) :
    x &&& (2 ^ 32 - 1 - (2 ^ r - 1)) = x / 2 ^ r * 2 ^ r := by
  have hpow : 2 ^ r ≤ 2 ^ 32 := Nat.pow_le_pow_right (by decide) hr
  have hpos := Nat.two_pow_pos r
  rw [← Nat.shiftRight_eq_div_pow, ← Nat.shiftLeft_eq,
    show 2 ^ 32 - 1 - (2 ^ r - 1) = 2 ^ 32 - (2 ^ r - 1 + 1) by omega]
  apply Nat.eq_of_testBit_eq
  intro i
  rw [Nat.testBit_and, Nat.testBit_two_pow_sub_succ (by omega), Nat.testBit_two_pow_sub_one,
    Nat.testBit_shiftLeft, Nat.testBit_shiftRight]
  by_cases hi : r ≤ i
  · rw [show r + (i - r) = i by omega]
    by_cases hi32 : i < 32
    · simp [hi, hi32]
    · have hbit : x.testBit i = false :=
        Nat.testBit_lt_two_pow (Nat.lt_of_lt_of_le hx (Nat.pow_le_pow_right (by decide) (by omega)))
      simp [hbit]
  · simp [hi, Nat.lt_of_not_le hi]

/-- Setting the low bits of a word whose low bits are clear. -/
theorem or_low (a r : Nat) : a * 2 ^ r ||| (2 ^ r - 1) = a * 2 ^ r + (2 ^ r - 1) := by
  have hpos := Nat.two_pow_pos r
  rw [Nat.mul_comm a, ← Nat.two_pow_add_eq_or_of_lt (show 2 ^ r - 1 < 2 ^ r by omega)]

/-- A block that is aligned before the reduction modulo a multiple of its size stays in one
piece. -/
theorem aligned_mod {x m n : Nat} (hm : 0 < m) (hn : 0 < n) (hx : m ∣ x) (hmn : m ∣ n) :
    x % n + m ≤ n ∧ (x + (m - 1)) % n = x % n + (m - 1) := by
  have hlt : x % n < n := Nat.mod_lt _ hn
  have hdvd : m ∣ n - x % n := Nat.dvd_sub hmn ((Nat.dvd_mod_iff hmn).mpr hx)
  have hle : m ≤ n - x % n := Nat.le_of_dvd (by omega) hdvd
  refine ⟨by omega, ?_⟩
  rw [Nat.add_mod, Nat.mod_eq_of_lt (show m - 1 < n by omega), Nat.mod_eq_of_lt (by omega)]

/-- The octets after the first half of the arithmetic. -/
def startOctets (q r : Nat) (o : Fin 4 → Nat) : Fin 4 → Nat :=
  fun i => if 3 < i.val + q then 0 else if i.val + q = 3 then o i / 2 ^ r * 2 ^ r else o i

/-- The octets after the second half. -/
def stopOctets (q r : Nat) (o : Fin 4 → Nat) : Fin 4 → Nat :=
  fun i => if 3 < i.val + q then 255
    else if i.val + q = 3 then o i / 2 ^ r * 2 ^ r + (2 ^ r - 1) else o i

theorem ipRange_octets {f : IpFields} (hoct : ∀ i, f.octet i < 2 ^ 32) (hlen : f.len ≤ 32) :
    ipRange f = .ok ⟨joinOctets (startOctets ((32 - f.len) / 8) ((32 - f.len) % 8) f.octet),
      joinOctets (stopOctets ((32 - f.len) / 8) ((32 - f.len) % 8) f.octet)⟩ := by
  have hmask : (32 + 2 ^ 32 - f.len) % 2 ^ 32 = 32 - f.len := by omega
  have hr : (32 - f.len) % 8 ≤ 32 := by omega
  unfold ipRange
  dsimp only
  rw [hmask, if_neg (by omega)]
  generalize (32 - f.len) % 8 = r at hr
  generalize (32 - f.len) / 8 = q
  have hstart : (if r ≠ 0 then changeOctet q (fun x => x &&& (2 ^ 32 - 1 - (2 ^ r - 1)))
      (fillOctets q 0 f.octet) else fillOctets q 0 f.octet) = startOctets q r f.octet := by
    funext i
    by_cases hr0 : r = 0
    · subst hr0
      simp [fillOctets, startOctets]
    · simp only [ne_eq, hr0, not_false_eq_true, if_true, changeOctet, fillOctets, startOctets]
      by_cases hi : i.val + q = 3
      · simp only [hi, Nat.lt_irrefl, if_true, if_false, and_high (hoct i) hr]
      · simp only [hi, if_false]
  have hstop : (if r ≠ 0 then changeOctet q (fun x => x ||| (2 ^ r - 1))
      (fillOctets q 255 (startOctets q r f.octet)) else fillOctets q 255 (startOctets q r f.octet))
        = stopOctets q r f.octet := by
    funext i
    by_cases hr0 : r = 0
    · subst hr0
      by_cases hi : 3 < i.val + q
      · simp [fillOctets, stopOctets, hi]
      · simp [fillOctets, startOctets, stopOctets, hi]
    · simp only [ne_eq, hr0, not_false_eq_true, if_true, changeOctet, fillOctets, startOctets,
        stopOctets]
      by_cases hi : i.val + q = 3
      · simp only [hi, Nat.lt_irrefl, if_true, if_false, or_low]
      · by_cases hi' : 3 < i.val + q
        · simp only [hi, hi', if_true, if_false]
        · simp only [hi, hi', if_false]
  rw [hstart, hstop]

/-- The second half adds the block size less one. -/
theorem ipSum_stopOctets (o : Fin 4 → Nat) {q r : Nat} (hm : 8 * q + r ≤ 32) :
    ipSum (stopOctets q r o) = ipSum (startOctets q r o) + (2 ^ (8 * q + r) - 1) := by
  have hpos := Nat.two_pow_pos r
  rcases Nat.lt_or_ge q 4 with hq | hq
  · rw [Nat.pow_add]
    interval_cases q
    all_goals simp [ipSum, startOctets, stopOctets]
    all_goals omega
  · obtain ⟨rfl, rfl⟩ : q = 4 ∧ r = 0 := by omega
    simp [ipSum, startOctets, stopOctets]

/-- What is left after the first half is a multiple of the block size. -/
theorem dvd_ipSum_startOctets (o : Fin 4 → Nat) {q r : Nat} (hm : 8 * q + r ≤ 32) (hr : r < 8) :
    2 ^ (8 * q + r) ∣ ipSum (startOctets q r o) := by
  have hoct : 2 ^ r ∣ 256 := Nat.pow_dvd_pow 2 (show r ≤ 8 by omega)
  have hbase : ∀ a i, 2 ^ r ∣ a * 256 + o i / 2 ^ r * 2 ^ r :=
    fun a i => Nat.dvd_add (hoct.mul_left a) (Nat.dvd_mul_left _ _)
  have hq : q ≤ 4 := by omega
  rw [Nat.add_comm, Nat.pow_add]
  interval_cases q
  · simpa [ipSum, startOctets] using hbase ((o 0 * 256 + o 1) * 256 + o 2) 3
  · have hsum : ipSum (startOctets 1 r o) = ((o 0 * 256 + o 1) * 256 + o 2 / 2 ^ r * 2 ^ r) * 2 ^ 8 := by
      simp [ipSum, startOctets]
    rw [hsum]
    exact Nat.mul_dvd_mul_right (hbase _ _) _
  · have hsum : ipSum (startOctets 2 r o) = (o 0 * 256 + o 1 / 2 ^ r * 2 ^ r) * 2 ^ 16 := by
      simp [ipSum, startOctets]
      omega
    rw [hsum]
    exact Nat.mul_dvd_mul_right (hbase _ _) _
  · have hsum : ipSum (startOctets 3 r o) = (0 * 256 + o 0 / 2 ^ r * 2 ^ r) * 2 ^ 24 := by
      simp [ipSum, startOctets]
      omega
    rw [hsum]
    exact Nat.mul_dvd_mul_right (hbase _ _) _
  · have hsum : ipSum (startOctets 4 r o) = 0 := by
      simp [ipSum, startOctets]
    rw [hsum]
    exact Nat.dvd_zero _

/-- The value read is at most a block above what is left, if the octets are octets. -/
theorem ipSum_startOctets_le {o : Fin 4 → Nat} (ho : ∀ i, o i < 256) {q r : Nat}
    (hm : 8 * q + r ≤ 32) :
    ipSum (startOctets q r o) ≤ ipSum o ∧
      ipSum o < ipSum (startOctets q r o) + 2 ^ (8 * q + r) := by
  have hpos := Nat.two_pow_pos r
  have h0 := ho 0
  have h1 := ho 1
  have h2 := ho 2
  have h3 := ho 3
  have hdiv : ∀ i, o i / 2 ^ r * 2 ^ r ≤ o i ∧ o i < o i / 2 ^ r * 2 ^ r + 2 ^ r := by
    intro i
    have hmod := Nat.mod_lt (o i) hpos
    have heq := Nat.div_add_mod' (o i) (2 ^ r)
    omega
  rcases Nat.lt_or_ge q 4 with hq | hq
  · rw [Nat.pow_add]
    have hd0 := hdiv 0
    have hd1 := hdiv 1
    have hd2 := hdiv 2
    have hd3 := hdiv 3
    interval_cases q
    all_goals simp [ipSum, startOctets]
    all_goals omega
  · obtain ⟨rfl, rfl⟩ : q = 4 ∧ r = 0 := by omega
    simp [ipSum, startOctets]
    omega

/-- **The address arithmetic.** With a mask length of at most 32, the range is an aligned
block of `2 ^ (32 - len)` addresses, whatever the octets are. -/
theorem ipRange_eq {f : IpFields} (hoct : ∀ i, f.octet i < 2 ^ 32) (hlen : f.len ≤ 32) :
    ∃ x, ipRange f = .ok ⟨x % 2 ^ 32, x % 2 ^ 32 + (2 ^ (32 - f.len) - 1)⟩ ∧
      2 ^ (32 - f.len) ∣ x ∧ x % 2 ^ 32 + 2 ^ (32 - f.len) ≤ 2 ^ 32 ∧
      ((∀ i, f.octet i < 256) → x ≤ ipSum f.octet ∧ ipSum f.octet < x + 2 ^ (32 - f.len)) := by
  have hsize : 8 * ((32 - f.len) / 8) + (32 - f.len) % 8 = 32 - f.len := Nat.div_add_mod _ _
  have hm : 8 * ((32 - f.len) / 8) + (32 - f.len) % 8 ≤ 32 := by omega
  have hdvd := dvd_ipSum_startOctets f.octet hm (Nat.mod_lt _ (by decide))
  have hstop := ipSum_stopOctets f.octet hm
  rw [hsize] at hdvd hstop
  obtain ⟨hroom, hmod⟩ := aligned_mod (Nat.two_pow_pos (32 - f.len)) (Nat.two_pow_pos 32) hdvd
    (Nat.pow_dvd_pow 2 (Nat.sub_le _ _))
  refine ⟨_, ?_, hdvd, hroom, fun ho => ?_⟩
  · rw [ipRange_octets hoct hlen, joinOctets_eq, joinOctets_eq, hstop, hmod]
  · have hle := ipSum_startOctets_le ho hm
    rwa [hsize] at hle

theorem ipRange_wild {f : IpFields} (hfit : f.len < 2 ^ 32) (hlen : 32 < f.len) :
    ipRange f = .error .wild := by
  unfold ipRange
  dsimp only
  rw [if_pos (by omega)]

/-- The addresses that agree with `ip` in the first `len` bits. -/
def maskBlock (ip len : Nat) : Range :=
  ⟨ip - ip % 2 ^ (32 - len), ip - ip % 2 ^ (32 - len) + 2 ^ (32 - len) - 1⟩

/-- An aligned block starts at the multiple of its size below any of its members. -/
theorem eq_sub_mod {x ip m : Nat} (hdvd : m ∣ x) (hle : x ≤ ip) (hlt : ip < x + m) :
    x = ip - ip % m := by
  obtain ⟨a, rfl⟩ := hdvd
  have hmod : ip % m = ip - m * a := by
    rw [← Nat.mod_eq_of_lt (show ip - m * a < m by omega), Nat.sub_mul_mod hle]
  omega

/-- The range of four octets is the block of their address. -/
theorem ipRange_eq_maskBlock {f : IpFields} (hoct : ∀ i, f.octet i < 256) (hlen : f.len ≤ 32) :
    ipRange f = .ok (maskBlock (ipSum f.octet) f.len) := by
  obtain ⟨x, heq, hdvd, -, hmem⟩ := ipRange_eq (fun i => Nat.lt_trans (hoct i) (by decide)) hlen
  obtain ⟨hle, hlt⟩ := hmem hoct
  have hip : ipSum f.octet < 2 ^ 32 := by
    have h0 := hoct 0
    have h1 := hoct 1
    have h2 := hoct 2
    have h3 := hoct 3
    unfold ipSum
    omega
  have hpos := Nat.two_pow_pos (32 - f.len)
  rw [heq, Nat.mod_eq_of_lt (Nat.lt_of_le_of_lt hle hip), maskBlock, ← eq_sub_mod hdvd hle hlt,
    Nat.add_sub_assoc hpos]

/-! ### The accesses to the array -/

theorem accessOctet_eq {n : Nat} (h : n ≤ 3) (g : Nat → Nat) (o : Fin 4 → Nat) :
    accessOctet (3 - n) g o = .ok (changeOctet n g o) := by
  have hi : (0 : Int) ≤ 3 - n ∧ (3 : Int) - n < 4 := by omega
  rw [accessOctet, dif_pos hi]
  refine congrArg Except.ok (funext fun j => ?_)
  by_cases hj : j.val + n = 3
  · have hk : (⟨(3 - n : Int).toNat, by omega⟩ : Fin 4) = j := Fin.ext (by dsimp only; omega)
    rw [hk, Function.update_self, changeOctet, if_pos hj]
  · have hk : j ≠ ⟨(3 - n : Int).toNat, by omega⟩ := fun heq => hj (by rw [heq]; dsimp only; omega)
    rw [Function.update_of_ne hk, changeOctet, if_neg hj]

theorem accessOctet_wild {n : Nat} (h : 3 < n) (g : Nat → Nat) (o : Fin 4 → Nat) :
    accessOctet (3 - n) g o = .error .wild :=
  dif_neg (by omega)

/-- One more turn overwrites one more octet. -/
theorem changeOctet_fillOctets (n v : Nat) (o : Fin 4 → Nat) :
    changeOctet n (fun _ => v) (fillOctets n v o) = fillOctets (n + 1) v o := by
  funext i
  unfold changeOctet fillOctets
  split_ifs <;> first | rfl | omega

/-- The turns left after `k` turns: they stay in the array iff there are four in all. -/
theorem fillLoop_rest (v : Nat) (o : Fin 4 → Nat) : ∀ (n k : Nat), k ≤ 4 →
    fillLoop v n (3 - k) (fillOctets k v o)
      = if k + n ≤ 4 then .ok (fillOctets (k + n) v o) else .error .wild := by
  intro n
  induction n with
  | zero =>
      intro k hk
      rw [fillLoop, Nat.add_zero, if_pos hk]
  | succ n ih =>
      intro k hk
      rw [fillLoop]
      rcases Nat.lt_or_ge 3 k with hlt | hle
      · rw [accessOctet_wild hlt, if_neg (by omega)]
        rfl
      · rw [accessOctet_eq hle, changeOctet_fillOctets]
        have hnext : (3 - k - 1 : Int) = 3 - (k + 1 : Nat) := by omega
        have hturns : k + 1 + n = k + (n + 1) := by omega
        rw [hnext, ← hturns]
        exact ih (k + 1) (by omega)

theorem fillLoop_eq (n v : Nat) (o : Fin 4 → Nat) :
    fillLoop v n 3 o = if n ≤ 4 then .ok (fillOctets n v o) else .error .wild := by
  have h := fillLoop_rest v o n 0 (Nat.zero_le _)
  have hzero : fillOctets 0 v o = o := by
    funext i
    exact if_neg (by omega)
  rw [hzero, Nat.zero_add] at h
  exact h

/-- **`ipRange` fails exactly when an access leaves the array**, and otherwise computes
what the accesses do. -/
theorem ipRangeSteps_eq (f : IpFields) : ipRangeSteps f = ipRange f := by
  unfold ipRangeSteps ipRange
  dsimp only
  generalize (32 + 2 ^ 32 - f.len) % 2 ^ 32 / 8 = q
  generalize (32 + 2 ^ 32 - f.len) % 2 ^ 32 % 8 = r
  rcases Nat.lt_or_ge 4 q with hq | hq
  · rw [fillLoop_eq, if_neg (by omega), if_pos (Or.inl hq)]
    rfl
  simp only [fillLoop_eq, if_pos hq]
  by_cases hr : r = 0
  · rw [if_neg (show ¬ (4 < q ∨ q = 4 ∧ r ≠ 0) by omega)]
    simp only [hr, ne_eq, not_true_eq_false, if_false]
    rfl
  · -- the octet the mask ends in is in the array unless all four were overwritten
    simp only [ne_eq, hr, not_false_eq_true, if_true]
    rcases Nat.lt_or_ge 3 q with hq3 | hq3
    · simp only [accessOctet_wild hq3]
      rw [if_pos (Or.inr ⟨Nat.le_antisymm hq hq3, trivial⟩)]
      rfl
    · simp only [accessOctet_eq hq3]
      rw [if_neg (by omega)]
      rfl

/-! ### Reading an address -/

theorem toUnsigned_natCast {n : Nat} (h : n < 2 ^ 32) : toUnsigned (n : Int) = n := by
  unfold toUnsigned
  omega

/-- **`ReadIPRange`.** For four octets and a mask length of at most 32 every access is to an
octet of the array, and the range is the block of the address; a mask length that is not in
the file is 32. -/
theorem readIPRange_maskBlock {a b c d m : Nat} (ha : a ≤ 255) (hb : b ≤ 255) (hc : c ≤ 255)
    (hd : d ≤ 255) (hm : m ≤ 32) :
    ipRangeSteps ⟨![a, b, c, d], m⟩
        = .ok (maskBlock (((a * 256 + b) * 256 + c) * 256 + d) m) ∧
      ∀ s s1 : Stream, fscanf [.dec, .lit '.', .dec, .lit '.', .dec, .lit '.', .dec] s
          = ([(a : Int), b, c, d], s1) →
        (∀ s2 s3, fscanf [.chr] s1 = ([('/'.toNat : Int)], s2) →
          fscanf [.dec] s2 = ([(m : Int)], s3) →
          readIPRange s = .ok (maskBlock (((a * 256 + b) * 256 + c) * 256 + d) m, s3)) ∧
        ∀ s2 ch, fscanf [.chr] s1 = ([ch], s2) → ch ≠ '/'.toNat →
          readIPRange s = .ok (maskBlock (((a * 256 + b) * 256 + c) * 256 + d) 32, s2) := by
  have hoct : ∀ i, ![a, b, c, d] i < 256 := by
    intro i
    match i with
    | 0 => exact Nat.lt_succ_of_le ha
    | 1 => exact Nat.lt_succ_of_le hb
    | 2 => exact Nat.lt_succ_of_le hc
    | 3 => exact Nat.lt_succ_of_le hd
  have hrange : ∀ {len : Nat}, len ≤ 32 → ipRange ⟨![a, b, c, d], len⟩
      = .ok (maskBlock (((a * 256 + b) * 256 + c) * 256 + d) len) :=
    fun hlen => ipRange_eq_maskBlock hoct hlen
  have hread : ∀ {n : Nat}, n ≤ 255 → toUnsigned (n : Int) = n :=
    fun hn => toUnsigned_natCast (by omega)
  refine ⟨(ipRangeSteps_eq _).trans (hrange hm), fun s s1 hs => ⟨?_, ?_⟩⟩
  · intro s2 s3 hslash hmask
    have hfields : readIpFields s = .ok (⟨![a, b, c, d], m⟩, s3) := by
      simp only [readIpFields, hs, hslash, hmask, hread ha, hread hb, hread hc, hread hd,
        toUnsigned_natCast (show m < 2 ^ 32 by omega), ne_eq, not_true_eq_false, if_false]
    simp only [readIPRange, hfields, bind, Except.bind, hrange hm]
  · intro s2 ch hch hne
    have hfields : readIpFields s = .ok (⟨![a, b, c, d], 32⟩, s2) := by
      simp only [readIpFields, hs, hch, hread ha, hread hb, hread hc, hread hd, ne_eq, hne,
        not_false_eq_true, if_true]
    simp only [readIPRange, hfields, bind, Except.bind, hrange (Nat.le_refl 32)]

/-- `192.168.37.5/20` is the block of 4096 addresses from `192.168.32.0` on, and without the
slash the address alone. -/
theorem readIPRange_maskBlock_twenty :
    ipRangeSteps ⟨![192, 168, 37, 5], 20⟩ = .ok ⟨3232243712, 3232247807⟩ ∧
      readIPRange ⟨"192.168.37.5/20\t".toList, false⟩
        = .ok (⟨3232243712, 3232247807⟩, ⟨['\t'], false⟩) ∧
      readIPRange ⟨"192.168.37.5\t".toList, false⟩
        = .ok (⟨3232244997, 3232244997⟩, ⟨[], false⟩) := by
  obtain ⟨hsteps, hread⟩ := @readIPRange_maskBlock 192 168 37 5 20
    (by decide) (by decide) (by decide) (by decide) (by decide)
  refine ⟨hsteps, ?_, ?_⟩
  · exact (hread ⟨"192.168.37.5/20\t".toList, false⟩ ⟨"/20\t".toList, false⟩ (by decide)).1
      ⟨"20\t".toList, false⟩ ⟨['\t'], false⟩ (by decide) (by decide)
  · exact (hread ⟨"192.168.37.5\t".toList, false⟩ ⟨['\t'], false⟩ (by decide)).2
      ⟨[], false⟩ '\t'.toNat (by decide) (by decide)

end ChooseCut
