import ChooseCut.Lookup

/-!
# ChooseCut.Sizing

How many rules a child holds.

`split_aux_init` and `hi_init` size the scratch buffers once, from the rule count of the
root. Split and hi cuts append every rule at most once to a child. The bitmap cut appends
one entry for every prefix of a range: several prefixes of one range can lie under the
same child, and after the shift they are different ranges that do not contain each other,
so redundancy removal keeps them.
-/

namespace ChooseCut

/-- The entries of child `i` of a bitmap cut that no earlier entry contains. An entry is a
rule together with one of its prefixes on the path to the child. -/
def prefixLoad (rs : List Rule) (d : Dim) (i : Nat) : Nat := (clean [] (childRules rs d i)).length

section Child

variable {K : Type} [CostArith K] {aux : CutAux} {rs : RuleSet} {t : CutType} {d : Dim}
  {w : NodeWord} {ks : List RuleSet}

theorem removeRedund_num {l : List Rule} (hne : l ≠ []) (hwf : RulesWF l) :
    (removeRedund (Buffer.ofList l)).num = (clean [] l).length := by
  rw [removeRedund_eq hne (fun r hr => Nat.ne_of_lt (hwf r hr).pri_lt)]
  rfl

/-- A child with no more rules than its parent stays so. -/
theorem removeRedund_num_le {l : List Rule} {n : Nat} (hwf : RulesWF l) (hlen : l.length ≤ n)
    (hn : 0 < n) : (removeRedund (Buffer.ofList l)).num ≤ n := by
  by_cases hne : l = []
  · subst hne
    rw [removeRedund_nil rfl]
    exact hn
  · rw [removeRedund_num hne hwf]
    exact Nat.le_trans clean_sublist.length_le hlen

/-- Split and hi cuts append every rule at most once to a child. -/
theorem CutsTo.length_le {l : List Rule} {kids : List (List Rule)} (h : CutsTo l d w kids)
    (hw : w.type ≠ .bitmap) : ∀ k ∈ kids, k.length ≤ l.length := by
  intro k hk
  cases h with
  | bitmap => exact absurd rfl hw
  | split h =>
      obtain ⟨k1, hk1, rfl | ⟨e, hk2⟩⟩ := mem_splitKids h hk
      · exact hk1.length_le
      · exact Nat.le_trans hk2.length_le hk1.length_le
  | hi h =>
      obtain ⟨i, -, rfl⟩ := mem_hiKids hk
      exact length_clipTo_le

/-- **When no child outgrows its parent**: always for split and hi, and for bitmap exactly
when no child keeps more entries than the parent has rules. -/
theorem kids_num_le_iff (hs : Sane rs) (hne : rs.items ≠ []) (hown : OwnScratch K aux rs t d)
    (hcut : cutInto aux rs t d = .ok (w, ks)) :
    (∀ k ∈ ks, (removeRedund k).num ≤ rs.num) ↔
      (t = .bitmap → ∀ i ∈ prefixIdxs rs.items d, prefixLoad rs.items d i ≤ rs.num) := by
  have hentry := hown.entryFor hs hne
  have hpos : 0 < rs.num := by
    rw [hs.num_eq]
    exact List.length_pos_of_ne_nil hne
  by_cases ht : t = .bitmap
  · subst ht
    have hhist : aux.hist d = getRuleHist rs.items d := hentry
    simp only [cutInto, hhist, evenCut_eq hs.fits, bind, Except.bind, Except.ok.injEq,
      Prod.mk.injEq] at hcut
    obtain ⟨-, rfl⟩ := hcut
    have hload : ∀ i ∈ prefixIdxs rs.items d,
        (removeRedund (Buffer.ofList (childRules rs.items d i))).num = prefixLoad rs.items d i :=
      fun i hi => removeRedund_num (childRules_ne_nil hi) (childRules_wf hs.wf i)
    constructor
    · intro h _ i hi
      rw [← hload i hi]
      exact h _ (List.mem_of_getElem? (evenKids_getElem? hs.fits hi))
    · intro h k hk
      obtain ⟨i, hi, rfl⟩ := mem_evenKids hs.fits hk
      rw [hload i hi]
      exact h rfl i hi
  · obtain ⟨kids, rfl, hto, hwt⟩ := cutInto_ok hentry hs.fits hcut
    refine iff_of_true (fun k hk => ?_) (fun h => absurd h ht)
    obtain ⟨l, hl, rfl⟩ := List.mem_map.mp hk
    exact removeRedund_num_le (hto.wf hs.wf l hl)
      (hs.num_eq ▸ hto.length_le (hwt ▸ ht) l hl) hpos

end Child

/-! ### The scratch buffers -/

theorem le_growLoop : ∀ (fuel alloc need : Nat), 0 < alloc → need ≤ alloc + fuel →
    need ≤ growLoop fuel alloc need
  | 0, alloc, need, _, h => h
  | fuel + 1, alloc, need, hpos, h => by
      rw [growLoop]
      split
      · exact le_growLoop fuel (alloc * 2) need (by omega) (by omega)
      · omega

/-- The room made at the start is enough for the root. -/
theorem room_auxInit (aux : CutAux) (n : Nat) : Room (auxInit aux n) n := by
  have hgrow : n ≤ growAlloc n := by
    unfold growAlloc
    split
    · exact le_growLoop n 1 n (by decide) (by omega)
    · omega
  exact ⟨hgrow, Nat.le_refl n, hgrow⟩

theorem Room.mono {aux : CutAux} {n m : Nat} (h : Room aux n) (hle : m ≤ n) : Room aux m :=
  ⟨Nat.le_trans hle h.splitRanges, Nat.le_trans hle h.splitRules, Nat.le_trans hle h.hiRanges⟩

/-- The dispatch of this call is on the node's own scratch data, and no child of a bitmap
cut keeps more entries than the node has rules. -/
def Call.Sized (K : Type) [CostArith K] (c : Call) : Prop :=
  bucketSize < c.rs.num → ∀ aux t d, selectCut K c.aux c.rs = .ok (aux, t, d) →
    OwnScratch K aux c.rs t d ∧
      (t = .bitmap → ∀ i ∈ prefixIdxs c.rs.items d, prefixLoad c.rs.items d i ≤ c.rs.num)

/-- A run in which no child outgrows its parent stays within the buffers. -/
theorem sized_rule {K : Type} [CostArith K] (n : Nat) :
    RunRule K (fun aux => Room aux n) (fun _ rs => rs.num ≤ n ∧ (bucketSize < rs.num → Sane rs))
      (Call.Sized K) (fun _ _ => True) (fun e => e ≠ .overrun) :=
  { fuel := by
      intro rs _ h
      cases h
    leaf := fun _ _ _ _ _ _ => trivial
    select_error := by
      intro _ c e hroom hI _ hbig hsel
      have hs := hI.2 hbig
      obtain ⟨aux', t, d, hok⟩ := selectCut_total (fun t d =>
        matchExpect_of_room (K := K) t d hs (hs.ne_nil hbig) (hroom.mono hI.1))
      rw [hok] at hsel
      cases hsel
    cut_error := by
      intro _ c aux' t d e hroom hI hQ hbig hsel hcut
      have hs := hI.2 hbig
      have hentry := (hQ hbig aux' t d hsel).1.entryFor hs (hs.ne_nil hbig)
      have hroom' := (hroom.mono hI.1).congr (selectCut_ok hsel).caps
      obtain ⟨w, ks, hok⟩ := cutInto_of_room hentry hs (by
        rintro rfl
        have hle := (hentry : STreeFor _ _ _).root.weight_le
        have := hs.num_eq
        have := hroom'.splitRules
        omega)
      rw [hok] at hcut
      cases hcut
    node := by
      intro _ c aux' t d w ks hroom hI hQ hbig hsel hcut
      have hs := hI.2 hbig
      obtain ⟨hown, hload⟩ := hQ hbig aux' t d hsel
      obtain ⟨hperm, hkids⟩ := cutInto_kids hs hbig hown hcut
      have hle := (kids_num_le_iff hs (hs.ne_nil hbig) hown hcut).mpr hload
      refine ⟨hroom.congr (selectCut_ok hsel).caps, hperm, fun k hk => ?_, fun _ _ _ => trivial⟩
      obtain ⟨l, rfl, hl⟩ := hkids k hk
      exact ⟨Nat.le_trans (hle _ hk) hI.1, removeRedund_sane_of_big hl⟩ }

/-- `Call.Sized`, evaluated. -/
def Call.sizedCheck (K : Type) [CostArith K] (c : Call) : Bool :=
  match selectCut K c.aux c.rs with
  | .ok (_, t, d) => decide (Fresh t c.rs.items d) &&
      (t ≠ .bitmap || (prefixIdxs c.rs.items d).dedup.all
        (fun i => prefixLoad c.rs.items d i ≤ c.rs.num))
  | .error _ => true

theorem Call.sized_of_check {K : Type} [CostArith K] {c : Call} (h : c.sizedCheck K = true) :
    c.Sized K := by
  intro _ aux t d hsel
  rw [Call.sizedCheck, hsel] at h
  simp only [Bool.and_eq_true, decide_eq_true_eq, Bool.or_eq_true, List.all_eq_true] at h
  refine ⟨(selectCut_ok hsel).ownScratch h.1, fun ht i hi => ?_⟩
  exact h.2.resolve_left (fun hne => hne ht) i (List.mem_dedup.mpr hi)

/-- Rules on the range `[1, 2]`, which is two prefixes, told apart by the second
dimension. -/
def spanRules : List Rule :=
  (List.range 17).map (fun i =>
    ⟨i, fun d => if d = 0 then ⟨1, 2⟩ else if d = 1 then ⟨i, i⟩ else ⟨0, 2 ^ dimBits d - 1⟩⟩)

end ChooseCut
