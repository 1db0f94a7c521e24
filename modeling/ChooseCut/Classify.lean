import Mathlib.Tactic.FinCases
import ChooseCut.FilterFileFits
import ChooseCut.Lookup

/-!
# ChooseCut.Classify

What the program is for: a packet is answered with the number of the first filter of the
file that accepts it.

`FilterFields.Accepts` is that purpose, said of the numbers that stand in the file: the
addresses agree in as many leading bits as the mask says, the ports lie in their ranges
and the protocol is the one given. Three facts connect the program to it. The ranges made
of a filter contain the packets it accepts (`Stored.matches_iff`); the priority of a rule
is the number of its filter in the file, whatever else stands between the filters
(`loadFilters_cost`); and the tree answers as linear search does (`Build.search_spec`).
-/

namespace ChooseCut

/-! ### What a filter accepts -/

/-- The key agrees with the address in its first `len` bits. -/
def IpFields.Accepts (f : IpFields) (key : Nat) : Prop :=
  key / 2 ^ (32 - f.len) = ipSum f.octet / 2 ^ (32 - f.len)

instance (f : IpFields) (key : Nat) : Decidable (f.Accepts key) :=
  inferInstanceAs (Decidable (_ = _))

/-- The key is the protocol, unless that is masked out. -/
def ProtoFields.Accepts (f : ProtoFields) (key : Nat) : Prop := f.len = 0xff → key = f.proto

instance (f : ProtoFields) (key : Nat) : Decidable (f.Accepts key) :=
  inferInstanceAs (Decidable (_ → _))

/-- The packets a filter is for. -/
def FilterFields.Accepts (f : FilterFields) (p : Flow) : Prop :=
  f.src.Accepts (p.key 0) ∧ f.dst.Accepts (p.key 1) ∧ f.sport.Has (p.key 2) ∧
    f.dport.Has (p.key 3) ∧ f.proto.Accepts (p.key 4)

instance (f : FilterFields) (p : Flow) : Decidable (f.Accepts p) :=
  inferInstanceAs (Decidable (_ ∧ _ ∧ _ ∧ _ ∧ _))

/-- The numbers are those of a filter: octets of 8 bits, and ports and protocol that fit. -/
structure FilterFields.Clean (f : FilterFields) : Prop where
  src : ∀ i, f.src.octet i < 256
  dst : ∀ i, f.dst.octet i < 256
  fits : f.Fits

instance (f : FilterFields) : Decidable f.Clean :=
  decidable_of_iff ((∀ i, f.src.octet i < 256) ∧ (∀ i, f.dst.octet i < 256) ∧ f.Fits)
    ⟨fun h => ⟨h.1, h.2.1, h.2.2⟩, fun h => ⟨h.src, h.dst, h.fits⟩⟩

/-- The block of an address holds the keys that agree with it. -/
theorem maskBlock_has (ip len key : Nat) :
    (maskBlock ip len).Has key ↔ key / 2 ^ (32 - len) = ip / 2 ^ (32 - len) := by
  have hpos := Nat.two_pow_pos (32 - len)
  unfold maskBlock Range.Has
  dsimp only
  generalize 2 ^ (32 - len) = m at hpos ⊢
  have hdiv := Nat.div_add_mod ip m
  have hstart : ip - ip % m = m * (ip / m) := by omega
  rw [hstart]
  constructor
  · rintro ⟨hlo, hhi⟩
    refine Nat.div_eq_of_lt_le ?_ ?_
    · rw [Nat.mul_comm]
      exact hlo
    · rw [Nat.succ_mul, Nat.mul_comm]
      omega
  · intro heq
    have hkey := Nat.div_add_mod key m
    have hlt := Nat.mod_lt key hpos
    rw [heq] at hkey
    omega

/-- The range stored for an address holds the keys it accepts. -/
theorem ipRange_has {f : IpFields} {r : Range} (hoct : ∀ i, f.octet i < 256)
    (hlt : f.len < 2 ^ 32) (h : ipRange f = .ok r) (key : Nat) : r.Has key ↔ f.Accepts key := by
  rcases Nat.lt_or_ge 32 f.len with hlen | hlen
  · rw [ipRange_wild hlt hlen] at h
    cases h
  · rw [ipRange_eq_maskBlock hoct hlen] at h
    obtain rfl := Except.ok.inj h
    exact maskBlock_has _ _ _

/-- **The rule made of a filter matches the packets the filter accepts.** -/
theorem Stored.matches_iff {f : FilterFields} {g : Filter} (h : Stored f g) (hclean : f.Clean)
    {p : Flow} (hp : p.InRange) : g.toRule.Matches p ↔ f.Accepts p := by
  have h0 := ipRange_has hclean.src h.src_lt.2 h.src (p.key 0)
  have h1 := ipRange_has hclean.dst h.dst_lt.2 h.dst (p.key 1)
  have h4 : (g.dim 4).Has (p.key 4) ↔ f.proto.Accepts (p.key 4) := by
    have hlt : p.key 4 < 2 ^ 8 := hp 4
    rw [h.proto, protoRange, Range.Has, ProtoFields.Accepts]
    split
    · rename_i hm
      exact ⟨fun hk _ => Nat.le_antisymm hk.2 hk.1, fun hk => ⟨(hk hm).ge, (hk hm).le⟩⟩
    · rename_i hm
      exact ⟨fun _ hm' => absurd hm' hm, fun _ => ⟨Nat.zero_le _, Nat.le_of_lt_succ hlt⟩⟩
  rw [Rule.Matches, FilterFields.Accepts, ← h0, ← h1, ← h4, ← h.sport, ← h.dport]
  constructor
  · exact fun hm => ⟨hm 0, hm 1, hm 2, hm 3, hm 4⟩
  · rintro ⟨m0, m1, m2, m3, m4⟩ d
    fin_cases d
    exacts [m0, m1, m2, m3, m4]

/-! ### Priorities -/

/-- **The cost of a filter is its number in the file.** `line` counts the calls of
`ReadFilter`; one that stores nothing has met the end of the file, so that up to then the
calls and the filters stored are in step. -/
theorem loadFilters_cost (junk : Nat → Char) : ∀ (fuel : Nat) (s : Stream)
    (filtset gs : List Filter), filtset.map Filter.cost = List.range filtset.length →
    loadFilters junk fuel s filtset.length filtset = .ok gs →
    gs.map Filter.cost = List.range gs.length := by
  intro fuel
  induction fuel with
  | zero =>
      intro s filtset gs _ h
      cases h
  | succ fuel ih =>
      intro s filtset gs hcost h
      rw [loadFilters] at h
      split at h
      · obtain rfl := Except.ok.inj h
        exact hcost
      · obtain ⟨p, hp, h⟩ := bind_eq_ok.mp h
        rcases readFilter_cases (junk filtset.length) s filtset filtset.length with
          ⟨-, hread⟩ | ⟨s', -, ⟨e, -, hread⟩ | ⟨f, dims, t, -, -, hread⟩⟩
        · -- the end of the file: the next turn of the loop is the last
          rw [hread] at hp
          obtain rfl := Except.ok.inj hp
          cases fuel with
          | zero => cases h
          | succ fuel =>
              rw [loadFilters, if_pos rfl] at h
              obtain rfl := Except.ok.inj h
              exact hcost
        · rw [hread] at hp
          cases hp
        · rw [hread] at hp
          split at hp
          · obtain rfl := Except.ok.inj hp
            refine ih t (filtset ++ [⟨filtset.length, dims⟩]) gs ?_ ?_
            · rw [List.map_append, hcost, List.length_append, List.length_singleton,
                List.range_succ]
              rfl
            · rw [List.length_append, List.length_singleton]
              exact h
          · cases hp

/-- What `ReadFilterFile` returns: one rule for every filter of the text, in order. -/
theorem readFilterFile_ok {junk : Nat → Char} {text : List Char} {rs : RuleSet}
    (h : readFilterFile junk text = .ok rs) :
    ∃ gs : List Filter, rs = Buffer.ofList (gs.map Filter.toRule) ∧
      List.Forall₂ Stored (textFields junk text) gs ∧ gs.length ≤ maxFilters ∧
      gs.map Filter.cost = List.range gs.length := by
  obtain ⟨gs, hgs, h⟩ := bind_eq_ok.mp h
  obtain rfl := Except.ok.inj h
  have hcost := loadFilters_cost junk _ _ [] gs rfl hgs
  rcases loadFilters_cases junk (text.length + 2) ⟨text, false⟩ 0 [] (by simp) (by simp) with
    ⟨e, -, hrun⟩ | ⟨-, hrun⟩ | ⟨gs', hrun, hall, hroom⟩
  · rw [hrun] at hgs
    cases hgs
  · rw [hrun] at hgs
    cases hgs
  · rw [hrun] at hgs
    obtain rfl := Except.ok.inj hgs
    refine ⟨gs', ?_, hall, by simpa using hroom, hcost⟩
    simp [Buffer.ofList]

/-- Rules made of clean filters are well formed: a number of a filter is far below the mark
of `remove_redund`. -/
theorem readFilterFile_wf {junk : Nat → Char} {text : List Char} {rs : RuleSet}
    (h : readFilterFile junk text = .ok rs) (hfits : ∀ f ∈ textFields junk text, f.Fits) :
    RulesWF rs.items := by
  obtain ⟨gs, rfl, hall, hroom, hcost⟩ := readFilterFile_ok h
  intro r hr
  refine ⟨(forall_fits_iff hall).mpr hfits r hr, ?_⟩
  obtain ⟨g, hg, rfl⟩ := List.mem_map.mp hr
  have hmem : g.cost ∈ List.range gs.length := hcost ▸ List.mem_map_of_mem hg
  have hlt := List.mem_range.mp hmem
  rw [maxFilters] at hroom
  rw [uint32Max]
  change g.cost < 2 ^ 32 - 1
  omega

/-! ### Classification -/

/-- The number of the first filter that accepts a packet, or -1. -/
def firstFilter (fs : List FilterFields) (p : Flow) : Int :=
  match fs.findIdx? (fun f => f.Accepts p) with
  | some i => i
  | none => -1

/-- The first hit among rules numbered from `n` on. -/
theorem head?_hits_stored {fs : List FilterFields} {gs : List Filter} {p : Flow} (hp : p.InRange)
    (hall : List.Forall₂ Stored fs gs) : ∀ n : Nat, (∀ f ∈ fs, f.Clean) →
      gs.map Filter.cost = List.range' n gs.length →
      (hits (gs.map Filter.toRule) p).head?
        = (fs.findIdx? (fun f => f.Accepts p)).map (fun i => i + n) := by
  induction hall with
  | nil => exact fun _ _ _ => rfl
  | @cons f g fs gs hstored _ ih =>
      intro n hclean hcost
      rw [List.map_cons, List.length_cons, List.range'_succ, List.cons.injEq] at hcost
      have hiff := hstored.matches_iff (hclean f List.mem_cons_self) hp
      rw [List.map_cons, hits_cons, List.findIdx?_cons]
      by_cases hm : f.Accepts p
      · rw [if_pos (hiff.mpr hm), decide_eq_true hm]
        simpa [Filter.toRule] using hcost.1
      · rw [if_neg (fun h => hm (hiff.mp h)), decide_eq_false hm, List.nil_append,
          ih (n + 1) (fun f hf => hclean f (List.mem_cons_of_mem _ hf)) hcost.2]
        simp [Option.map_map, Function.comp_def, Nat.add_comm, Nat.add_left_comm]

/-- Linear search over the rules of a file finds the first filter. -/
theorem answer_hits_firstFilter {junk : Nat → Char} {text : List Char} {rs : RuleSet}
    (h : readFilterFile junk text = .ok rs) (hclean : ∀ f ∈ textFields junk text, f.Clean)
    {p : Flow} (hp : p.InRange) :
    answer (hits rs.items p) = firstFilter (textFields junk text) p := by
  obtain ⟨gs, rfl, hall, hroom, hcost⟩ := readFilterFile_ok h
  have hhead := head?_hits_stored hp hall 0 hclean (by rw [hcost, List.range_eq_range'])
  rw [Buffer.ofList_items, firstFilter]
  cases hidx : (textFields junk text).findIdx? (fun f => f.Accepts p) with
  | none =>
      rw [hidx] at hhead
      rw [List.head?_eq_none_iff.mp hhead]
      rfl
  | some i =>
      rw [hidx] at hhead
      obtain ⟨l, hl⟩ : ∃ l, hits (gs.map Filter.toRule) p = i :: l := by
        cases hh : hits (gs.map Filter.toRule) p with
        | nil =>
            rw [hh] at hhead
            cases hhead
        | cons q l =>
            rw [hh] at hhead
            exact ⟨l, by rw [Option.some.inj hhead]; rfl⟩
      have hi : i < maxFilters := by
        have hlt := (List.findIdx?_eq_some_iff_getElem.mp hidx).1
        rw [hall.length_eq] at hlt
        omega
      rw [maxFilters] at hi
      rw [hl, answer, toInt, if_pos (by omega)]

/-- Both searches find the first filter of a packet that some filter accepts, and with no
empty leaf of any packet. -/
theorem Build.firstFilter {K : Type} [CostArith K] {junk : Nat → Char} {text : List Char}
    {rs : RuleSet} {tree : CTree} (hread : readFilterFile junk text = .ok rs)
    (hclean : ∀ f ∈ textFields junk text, f.Clean) (hbuild : Build K rs tree) {p : Flow}
    (hp : p.InRange) (hok : (∃ f ∈ textFields junk text, f.Accepts p) ∨
      ∀ l ∈ tree.leaves, l.num ≤ l.items.length) :
    lsearch rs p = .ok (firstFilter (textFields junk text) p) ∧
      search tree p = .ok (firstFilter (textFields junk text) p) := by
  have hwf := readFilterFile_wf hread (fun f hf => (hclean f hf).fits)
  have hnum : rs.num = rs.items.length := by
    obtain ⟨gs, rfl, -⟩ := readFilterFile_ok hread
    rfl
  have hanswer := answer_hits_firstFilter hread hclean hp
  rw [← hanswer]
  refine ⟨lsearch_ok hnum p, hbuild.search_spec ⟨hnum, hwf⟩ hp (hok.imp_left ?_)⟩
  rintro ⟨f, hf, hacc⟩ hnil
  -- without a hit the answer would be -1, and the packet has a first filter
  rw [hnil, answer, ChooseCut.firstFilter] at hanswer
  cases hidx : (textFields junk text).findIdx? (fun f => f.Accepts p) with
  | none =>
      have hno := List.findIdx?_eq_none_iff.mp hidx f hf
      rw [decide_eq_true hacc] at hno
      cases hno
  | some i =>
      rw [hidx] at hanswer
      dsimp only at hanswer
      omega

/-- A run of `cut` on the rules of a file is a build for them. -/
theorem cut_build_file {K : Type} [CostArith K] {junk : Nat → Char} {text : List Char} {rs : RuleSet}
    {fuel : Nat} {aux aux' : CutAux} {tree : CTree} (hread : readFilterFile junk text = .ok rs)
    (hclean : ∀ f ∈ textFields junk text, f.Clean)
    (hrun : (cut K fuel aux rs.items).res = .ok (tree, aux'))
    (hown : ∀ c ∈ (cut K fuel aux rs.items).log, c.Own K) : Build K rs tree := by
  have hbuild := cut_build (readFilterFile_wf hread (fun f hf => (hclean f hf).fits)) hrun hown
  obtain ⟨gs, rfl, -⟩ := readFilterFile_ok hread
  exact hbuild

/-- Two filters; the second takes what the first leaves of its network. -/
def netText : List Char :=
  ("@10.1.0.0/16\t0.0.0.0/0\t0 : 65535\t80 : 80\t0x06/0xFF\n" ++
    "@10.0.0.0/8\t0.0.0.0/0\t0 : 65535\t0 : 65535\t0x00/0x00\n").toList

end ChooseCut
