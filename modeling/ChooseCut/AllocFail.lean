import ChooseCut.Traverse

/-!
# ChooseCut.AllocFail

What becomes of a build when the allocator refuses a request.

The source treats its requests in three ways. The arrays of children and the lists of
`even_cut` are checked, and the program exits. `rule_set_init` leaves the zeroed rule set
of its node as it is, and its callers `split_cut` and `hi_cut` do not look at what it
returns; the first `append_rules` then fails its assertion, for a set without capacity.
`rule_set_copy` is not checked either, and here nothing is appended: the child of a split
stays without rules, `remove_redund` gives it the count 1, and the build goes on.

The requests of a build are numbered in the order in which they are made, and `g` says
which of them are granted. Those for the scratch area come before any node is cut and are
taken to be granted.
-/

namespace ChooseCut

/-! ### Cuts whose requests may be refused -/

/-- `rule_set_init` on the rule set of a zeroed node. -/
def ruleSetInit (ok : Bool) (num : Nat) : RuleSet := if ok then Buffer.alloc num else Buffer.alloc 0

/-- `rule_set_copy` into the rule set of a zeroed node. -/
def ruleSetCopyTry (ok : Bool) (src : RuleSet) : RuleSet :=
  if ok then { src with cap := src.num } else Buffer.alloc 0

/-- `even_cut` up to the recursion, from request `k` on: the array and one list for each
child, all of them checked before a rule is moved. -/
def evenCutTry (g : Nat → Bool) (k : Nat) (rs : RuleSet) (d : Dim) (hist : RuleHist) :
    Except Fault (MbNode × List RuleSet) :=
  if (List.range ((evenAlloc hist).length + 1)).all (fun i => g (k + i)) then evenCut rs d hist
  else .error .exit

/-- A side of `split_cut`. -/
def splitSideTry (g : Nat → Bool) (k : Nat) (n : SNode) (rs : RuleSet) :
    Except Fault (List RuleSet) :=
  if n.enabled then do
    let p ← splitCut1dInto rs n.dim n.r0 n.r1 (ruleSetInit (g k) n.r0.weight)
      (ruleSetInit (g (k + 1)) n.r1.weight)
    .ok [p.1, p.2]
  else .ok [ruleSetCopyTry (g k) rs]

/-- `split_cut` up to the recursion. -/
def splitCutTry (g : Nat → Bool) (k : Nat) (rulesCap : Nat) (t : STree) (rs : RuleSet) (d : Dim) :
    Except Fault (SpNode × List RuleSet) :=
  if g k then do
    let p ← splitCut1d rulesCap t.root rs d
    let left ← splitSideTry g (k + 1) t.left p.1
    let right ← splitSideTry g (k + 1 + left.length) t.right p.2
    .ok (splitFill t, left ++ right)
  else .error .exit

/-- `hi_cut` up to the recursion. -/
def hiCutTry (g : Nat → Bool) (k : Nat) (e : HiEntry) (rs : RuleSet) (d : Dim) :
    Except Fault (HiNode × List RuleSet) :=
  if g k then do
    let childs := (List.range e.hist.childs).map
      (fun i => ruleSetInit (g (k + 1 + i)) (e.hist.childRulecount i))
    let kids ← rs.items.foldlM (hiPushRule e d) childs
    assertThat (kids.map Buffer.num = (List.range e.hist.childs).map e.hist.childRulecount)
    .ok (⟨e.start, e.shift, hiSetBitmap e⟩, kids)
  else .error .exit

/-- `cuts[t].cut_node` up to the recursion. -/
def cutIntoTry (g : Nat → Bool) (k : Nat) (aux : CutAux) (rs : RuleSet) (t : CutType) (d : Dim) :
    Except Fault (NodeWord × List RuleSet) :=
  match t with
  | .bitmap => do
      let q ← evenCutTry g k rs d (aux.hist d)
      .ok (.mb q.1, q.2)
  | .split => do
      let q ← splitCutTry g k aux.split.rulesCap (aux.split.strees d) rs d
      .ok (.sp q.1, q.2)
  | .hi => do
      let q ← hiCutTry g k (aux.hi.entries d) rs d
      .ok (.hi q.1, q.2)

/-- The loop over the children, with the number of the next request. -/
def visitChildsTry (rec : Nat → CutAux → RuleSet → Except Fault (CTree × CutAux × Nat))
    (kids : List RuleSet) :
    List Nat → Nat → CutAux → List CTree → Except Fault (List CTree × CutAux × Nat)
  | [], k, aux, cs => .ok (cs, aux, k)
  | s :: order, k, aux, cs =>
      match kids[s]? with
      | none => .error .wild
      | some kid => do
          let p ← rec k aux (removeRedund kid)
          visitChildsTry rec kids order p.2.2 p.2.1 (cs.set s p.1)

/-- `cut_node`, from request `k` on. Every cut makes one request for its array and one for
each child. -/
def cutNodeTry (K : Type) [CostArith K] (g : Nat → Bool) :
    Nat → Nat → CutAux → RuleSet → Except Fault (CTree × CutAux × Nat)
  | 0, _, _, _ => .error .fuel
  | fuel + 1, k, aux, rs =>
      if rs.num ≤ bucketSize then .ok (.leaf rs, aux, k)
      else do
        let c ← selectCut K aux rs
        let q ← cutIntoTry g k c.1 rs c.2.1 c.2.2
        let p ← visitChildsTry (cutNodeTry K g fuel) q.2 (visitOrder q.1 q.2.length)
          (k + 1 + q.2.length) c.1 (List.replicate q.2.length CTree.blank)
        .ok (.node c.2.2 q.1 p.1, p.2)

/-- The build of `main`: request 0 is for its copy of the rules, which it does not check
either. -/
def buildTry (K : Type) [CostArith K] (g : Nat → Bool) (fuel : Nat) (aux : CutAux)
    (rs : List Rule) : Except Fault (CTree × CutAux × Nat) :=
  let root := ruleSetCopyTry (g 0) (Buffer.ofList rs)
  cutNodeTry K g fuel 1 (auxInit aux root.num) root

/-! ### One cut -/

section Cuts

variable {g : Nat → Bool} {k : Nat} {rs : RuleSet} {d : Dim}

/-- A bitmap cut that returns had all its requests granted. -/
theorem evenCutTry_ok {hist : RuleHist} {q : MbNode × List RuleSet}
    (h : evenCutTry g k rs d hist = .ok q) : evenCut rs d hist = .ok q := by
  unfold evenCutTry at h
  split at h
  · exact h
  · cases h

/-- Every buffer has as many items as it counts, and room for them. -/
def Roomed (b : RuleSet) : Prop := b.items.length = b.num ∧ b.num ≤ b.cap

theorem ruleSetInit_roomed (ok : Bool) (num : Nat) : Roomed (ruleSetInit ok num) := by
  unfold ruleSetInit
  split <;> simp [Roomed]

/-- A list with room for what was asked was granted, or nothing was asked. -/
theorem ruleSetInit_eq {ok : Bool} {num : Nat} (h : num ≤ (ruleSetInit ok num).cap) :
    ruleSetInit ok num = Buffer.alloc num := by
  cases ok with
  | true => rfl
  | false =>
      obtain rfl : num = 0 := Nat.le_zero.mp h
      rfl

/-- A list that was refused takes no rule. -/
theorem ruleSetInit_refused {num : Nat} {l : List Rule}
    (h : (ruleSetInit false num).num + l.length ≤ (ruleSetInit false num).cap) :
    ((ruleSetInit false num).extend l).items = [] := by
  have hlen : 0 + l.length ≤ 0 := h
  obtain rfl : l = [] := List.length_eq_zero_iff.mp (by omega)
  rfl

/-- Writes keep the capacities and respect them. -/
theorem pushAll_roomed {ws : List (Nat × Rule)} {bs bs' : List RuleSet}
    (hroom : ∀ b ∈ bs, Roomed b) (h : pushAll bs ws = .ok bs') :
    bs'.map Buffer.cap = bs.map Buffer.cap ∧ ∀ b ∈ bs', Roomed b := by
  refine @foldlM_inv _ _ _ (fun bs' => bs'.map Buffer.cap = bs.map Buffer.cap ∧
    ∀ b ∈ bs', Roomed b) ?_ _ _ _ ⟨rfl, hroom⟩ h
  rintro cs w cs' ⟨hcaps, hroom⟩ hpush
  obtain ⟨b, hb, hlt, rfl⟩ := pushAt_eq_ok.mp hpush
  refine ⟨?_, ?_⟩
  · rw [List.map_set, ← hcaps]
    refine List.ext_getElem? fun i => ?_
    rw [List.getElem?_set]
    split
    · next hi =>
        obtain ⟨hlt, hget⟩ := List.getElem?_eq_some_iff.mp hb
        subst hi
        simp [hlt, hget]
    · rfl
  · intro c hc
    rcases List.mem_or_eq_of_mem_set hc with hc | rfl
    · exact hroom c hc
    · have := hroom b (List.mem_of_getElem? hb)
      simp only [Roomed, Buffer.extend_items, Buffer.extend_num, Buffer.extend_cap,
        List.length_append, List.length_singleton] at this ⊢
      omega

theorem hiPushRule_roomed {e : HiEntry} {r : Rule} {bs bs' : List RuleSet}
    (hroom : ∀ b ∈ bs, Roomed b) (h : hiPushRule e d bs r = .ok bs') :
    bs'.map Buffer.cap = bs.map Buffer.cap ∧ ∀ b ∈ bs', Roomed b := by
  unfold hiPushRule at h
  dsimp only at h
  split at h
  · obtain ⟨-, -, h⟩ := bind_eq_ok.mp h
    exact pushAll_roomed hroom h
  · cases h
  · cases h

/-- **A hi cut that returns made the same children as with all requests granted**: its last
assertion counts them, and a child without capacity counts nothing. -/
theorem hiCutTry_ok {e : HiEntry} {q : HiNode × List RuleSet} (h : hiCutTry g k e rs d = .ok q) :
    hiCut e rs d = .ok q := by
  unfold hiCutTry at h
  dsimp only at h
  split at h
  · obtain ⟨kids, hkids, h⟩ := bind_eq_ok.mp h
    obtain ⟨_, hnum, hq⟩ := bind_eq_ok.mp h
    rw [assertThat_eq_ok] at hnum
    set childs := (List.range e.hist.childs).map
      (fun i => ruleSetInit (g (k + 1 + i)) (e.hist.childRulecount i)) with hchilds
    have hinit : ∀ b ∈ childs, Roomed b := by
      intro b hb
      obtain ⟨i, -, rfl⟩ := List.mem_map.mp hb
      exact ruleSetInit_roomed _ _
    obtain ⟨hcaps, hroom⟩ : kids.map Buffer.cap = childs.map Buffer.cap ∧ ∀ b ∈ kids, Roomed b := by
      refine @foldlM_inv _ _ _ (fun bs => bs.map Buffer.cap = childs.map Buffer.cap ∧
        ∀ b ∈ bs, Roomed b) ?_ _ _ _ ⟨rfl, hinit⟩ hkids
      rintro bs r bs' ⟨hcaps, hroom⟩ hpush
      obtain ⟨hcaps', hroom'⟩ := hiPushRule_roomed hroom hpush
      exact ⟨hcaps'.trans hcaps, hroom'⟩
    have hsame : childs = (List.range e.hist.childs).map
        (fun i => Buffer.alloc (e.hist.childRulecount i)) := by
      refine List.map_congr_left fun i hi => ?_
      have hnum := congrArg (·[i]?) hnum
      have hcap := congrArg (·[i]?) hcaps
      simp only [hchilds, List.getElem?_map, List.getElem?_range (List.mem_range.mp hi),
        Option.map_some, Option.map_eq_some_iff] at hnum hcap
      obtain ⟨b, hb, hnum⟩ := hnum
      obtain ⟨b', hb', hcap⟩ := hcap
      obtain rfl := Option.some.inj (hb.symm.trans hb')
      have hle := (hroom b (List.mem_of_getElem? hb)).2
      rw [hnum, hcap] at hle
      exact ruleSetInit_eq hle
    rw [hiCut, ← hsame]
    simp only [hkids, bind_eq_ok]
    exact ⟨kids, rfl, (), assertThat_eq_ok.mpr hnum, hq⟩
  · cases h

/-- A side of a split that returns made the same children as with all requests granted, or
has left one without rules. -/
theorem splitSideTry_ok {n : SNode} {ks : List RuleSet} (h : splitSideTry g k n rs = .ok ks) :
    splitSide n rs = .ok ks ∨ ∃ kid ∈ ks, kid.items = [] := by
  unfold splitSideTry at h
  split at h
  · next hen =>
      obtain ⟨p, hp, h⟩ := bind_eq_ok.mp h
      obtain rfl := Except.ok.inj h
      have hroom := hp
      rw [splitCut1dInto, splitCut1dInto_eq _ (ruleSetInit_roomed _ _).2
        (ruleSetInit_roomed _ _).2] at hroom
      split at hroom
      · next hle =>
          obtain rfl := Except.ok.inj hroom
          cases h0 : g k with
          | false => exact Or.inr ⟨_, List.mem_cons_self, ruleSetInit_refused (h0 ▸ hle.1)⟩
          | true =>
              cases h1 : g (k + 1) with
              | false =>
                  exact Or.inr ⟨_, List.mem_cons_of_mem _ (List.mem_singleton_self _),
                    ruleSetInit_refused (h1 ▸ hle.2)⟩
              | true =>
                  left
                  rw [h0, h1] at hp
                  rw [splitSide, if_pos hen]
                  exact congrArg (· >>= _) hp
      · cases hroom
  · next hen =>
      obtain rfl := Except.ok.inj h
      cases h0 : g k with
      | true =>
          left
          rw [splitSide, if_neg hen]
          rfl
      | false => exact Or.inr ⟨_, List.mem_singleton_self _, rfl⟩

theorem splitSideTry_length {n : SNode} {ks : List RuleSet} (h : splitSideTry g k n rs = .ok ks) :
    ks.length = 1 + if n.enabled then 1 else 0 := by
  unfold splitSideTry at h
  split at h
  · obtain ⟨p, -, h⟩ := bind_eq_ok.mp h
    rw [← Except.ok.inj h]
    simp [*]
  · rw [← Except.ok.inj h]
    simp [*]

/-- **A cut that returns** made the children it makes with all requests granted, or has
left one without rules. -/
theorem cutIntoTry_ok {aux : CutAux} {t : CutType} {q : NodeWord × List RuleSet}
    (h : cutIntoTry g k aux rs t d = .ok q) :
    WordFits q.1 q.2.length ∧
      (cutInto aux rs t d = .ok q ∨ ∃ kid ∈ q.2, kid.items = []) := by
  cases t with
  | bitmap =>
      obtain ⟨p, hp, hq⟩ := bind_eq_ok.mp h
      have hcut : cutInto aux rs .bitmap d = .ok q := bind_eq_ok.mpr ⟨p, evenCutTry_ok hp, hq⟩
      exact ⟨cutInto_wordFits hcut, Or.inl hcut⟩
  | hi =>
      obtain ⟨p, hp, hq⟩ := bind_eq_ok.mp h
      have hcut : cutInto aux rs .hi d = .ok q := bind_eq_ok.mpr ⟨p, hiCutTry_ok hp, hq⟩
      exact ⟨cutInto_wordFits hcut, Or.inl hcut⟩
  | split =>
      obtain ⟨p, hp, hq⟩ := bind_eq_ok.mp h
      unfold splitCutTry at hp
      split at hp
      · obtain ⟨sides, hsides, hp⟩ := bind_eq_ok.mp hp
        obtain ⟨left, hleft, hp⟩ := bind_eq_ok.mp hp
        obtain ⟨right, hright, hp⟩ := bind_eq_ok.mp hp
        obtain rfl := Except.ok.inj hp
        obtain rfl := Except.ok.inj hq
        have hlen : (left ++ right).length = splitMemQuant (aux.split.strees d) := by
          rw [List.length_append, splitSideTry_length hleft, splitSideTry_length hright,
            splitMemQuant]
          omega
        refine ⟨?_, ?_⟩
        · show (splitTraverse _).Perm _
          rw [splitTraverse_splitFill, hlen]
        · rcases splitSideTry_ok hleft with hl | ⟨kid, hkid, hnil⟩
          · rcases splitSideTry_ok hright with hr | ⟨kid, hkid, hnil⟩
            · left
              refine bind_eq_ok.mpr ⟨_, bind_eq_ok.mpr ⟨sides, hsides,
                bind_eq_ok.mpr ⟨left, hl, bind_eq_ok.mpr ⟨right, hr, rfl⟩⟩⟩, rfl⟩
            · exact Or.inr ⟨kid, List.mem_append_right _ hkid, hnil⟩
          · exact Or.inr ⟨kid, List.mem_append_left _ hkid, hnil⟩
      · cases hp

end Cuts

/-! ### Whole runs -/

/-- A leaf counts a rule it does not have. -/
def CTree.Unreadable (tree : CTree) : Prop :=
  ∃ l ∈ tree.leaves, l.num = 1 ∧ l.items = []

theorem CTree.Unreadable.node {d : Dim} {w : NodeWord} {childs : List CTree} {s : Nat} {c : CTree}
    (hc : childs[s]? = some c) (h : c.Unreadable) : (CTree.node d w childs).Unreadable := by
  obtain ⟨l, hl, h⟩ := h
  refine ⟨l, ?_, h⟩
  rw [CTree.leaves, mem_leavesOf]
  exact ⟨c, List.mem_of_getElem? hc, hl⟩

section Run

variable {K : Type} [CostArith K] {g : Nat → Bool}

/-- **The loop over the children.** Each slot holds what its call has returned; the loop
did what it does with all requests granted, or one of the calls did not. -/
theorem visitChildsTry_ok {plain : CutAux → RuleSet → Trace Call (CTree × CutAux)}
    {rec : Nat → CutAux → RuleSet → Except Fault (CTree × CutAux × Nat)} {kids : List RuleSet}
    (hrec : ∀ k aux rs p, rec k aux rs = .ok p →
      (plain aux rs).res = .ok (p.1, p.2.1) ∨ p.1.Unreadable) :
    ∀ (order : List Nat) (k : Nat) (aux : CutAux) (cs : List CTree) (p : List CTree × CutAux × Nat),
      order.Nodup → (∀ s ∈ order, s < cs.length) →
      visitChildsTry rec kids order k aux cs = .ok p →
      p.1.length = cs.length ∧ (∀ s, s ∉ order → p.1[s]? = cs[s]?) ∧
        (∀ s ∈ order, ∃ k aux kid r, kids[s]? = some kid ∧ rec k aux (removeRedund kid) = .ok r ∧
          p.1[s]? = some r.1) ∧
        ((visitChilds plain kids order aux cs).res = .ok (p.1, p.2.1) ∨
          ∃ s ∈ order, ∃ c, p.1[s]? = some c ∧ c.Unreadable) := by
  intro order
  induction order with
  | nil =>
      intro k aux cs p _ _ h
      obtain rfl := Except.ok.inj h
      exact ⟨rfl, fun _ _ => rfl, by simp, Or.inl rfl⟩
  | cons s order ih =>
      intro k aux cs p hnd hlt h
      obtain ⟨hs, hnd⟩ := List.nodup_cons.mp hnd
      have hslt := hlt s List.mem_cons_self
      rw [visitChildsTry] at h
      split at h
      · cases h
      · next kid hkid =>
          obtain ⟨r, hr, h⟩ := bind_eq_ok.mp h
          obtain ⟨hlen, hother, hdone, hsame⟩ := ih _ _ _ _ hnd
            (fun i hi => by simpa using hlt i (List.mem_cons_of_mem s hi)) h
          have hslot : p.1[s]? = some r.1 := by
            rw [hother s hs, List.getElem?_set_self hslt]
          refine ⟨hlen.trans (List.length_set ..), ?_, ?_, ?_⟩
          · intro i hi
            rw [List.mem_cons, not_or] at hi
            rw [hother i hi.2, List.getElem?_set_ne (Ne.symm hi.1)]
          · intro i hi
            rcases List.mem_cons.mp hi with rfl | hi
            · exact ⟨k, aux, kid, r, hkid, hr, hslot⟩
            · exact hdone i hi
          · rcases hsame with hsame | ⟨i, hi, hbad⟩
            · rcases hrec _ _ _ _ hr with hres | hbad
              · left
                simp only [visitChilds, hkid]
                rw [Trace.bind_of_ok hres]
                exact hsame
              · exact Or.inr ⟨s, List.mem_cons_self, r.1, hslot, hbad⟩
            · exact Or.inr ⟨i, List.mem_cons_of_mem s hi, hbad⟩

/-- A node with at most a bucket of rules makes no request. -/
theorem cutNodeTry_leaf {fuel k : Nat} {aux : CutAux} {rs : RuleSet} {p : CTree × CutAux × Nat}
    (hsmall : rs.num ≤ bucketSize) (h : cutNodeTry K g fuel k aux rs = .ok p) :
    p.1 = .leaf rs := by
  cases fuel with
  | zero => cases h
  | succ fuel =>
      rw [cutNodeTry, if_pos hsmall] at h
      rw [← Except.ok.inj h]

/-- **A refused request is noticed, or does no harm, or leaves a leaf that cannot be
read.** -/
theorem cutNodeTry_ok (K : Type) [CostArith K] (g : Nat → Bool) : ∀ (fuel k : Nat) (aux : CutAux)
    (rs : RuleSet) (p : CTree × CutAux × Nat), cutNodeTry K g fuel k aux rs = .ok p →
    (cutNode K fuel aux rs).res = .ok (p.1, p.2.1) ∨ p.1.Unreadable := by
  intro fuel
  induction fuel with
  | zero =>
      intro k aux rs p h
      cases h
  | succ fuel ih =>
      intro k aux rs p h
      rw [cutNodeTry] at h
      split at h
      · next hsmall =>
          obtain rfl := Except.ok.inj h
          rw [cutNode_leaf hsmall]
          exact Or.inl rfl
      · next hbig =>
          obtain ⟨c, hsel, h⟩ := bind_eq_ok.mp h
          obtain ⟨q, hcut, h⟩ := bind_eq_ok.mp h
          obtain ⟨r, hvisit, h⟩ := bind_eq_ok.mp h
          obtain rfl := Except.ok.inj h
          obtain ⟨hfits, hsame⟩ := cutIntoTry_ok hcut
          have hperm := hfits.visitOrder_perm
          obtain ⟨-, -, hdone, hloop⟩ := visitChildsTry_ok ih _ _ _ _ _
            (hperm.nodup_iff.mpr List.nodup_range)
            (fun s hs => by simpa using hperm.mem_iff.mp hs) hvisit
          rcases hloop with hloop | ⟨s, -, ch, hch, hbad⟩
          · rcases hsame with hsame | ⟨kid, hkid, hnil⟩
            · left
              rw [(cutNode_node (by omega) hsel hsame).2, hloop]
              rfl
            · -- the child without rules is a leaf with the count 1
              right
              obtain ⟨s, hs, rfl⟩ := List.mem_iff_getElem.mp hkid
              obtain ⟨k', aux', kid, r', hkid, hr, hslot⟩ :=
                hdone s (hperm.mem_iff.mpr (List.mem_range.mpr hs))
              obtain rfl := Option.some.inj ((List.getElem?_eq_getElem hs).symm.trans hkid)
              refine CTree.Unreadable.node hslot ?_
              rw [removeRedund_nil hnil] at hr
              rw [cutNodeTry_leaf (by decide : 1 ≤ bucketSize) hr]
              exact ⟨_, List.mem_singleton_self _, rfl, hnil⟩
          · exact Or.inr (CTree.Unreadable.node hch hbad)

/-! ### All requests granted -/

/-- The result without the number of requests. -/
def dropCount {α : Type} (x : Except Fault (α × CutAux × Nat)) : Except Fault (α × CutAux) :=
  x.map (fun p => (p.1, p.2.1))

theorem cutIntoTry_granted (hg : ∀ i, g i = true) (k : Nat) (aux : CutAux) (rs : RuleSet)
    (t : CutType) (d : Dim) : cutIntoTry g k aux rs t d = cutInto aux rs t d := by
  have hside : ∀ k n rs, splitSideTry g k n rs = splitSide n rs := by
    intro k n rs
    simp [splitSideTry, splitSide, hg, ruleSetInit, ruleSetCopyTry]
  cases t with
  | bitmap => simp [cutIntoTry, cutInto, evenCutTry, hg]
  | split => simp [cutIntoTry, cutInto, splitCutTry, splitCut, hside, hg]
  | hi => simp [cutIntoTry, cutInto, hiCutTry, hiCut, hg, ruleSetInit]

theorem visitChildsTry_granted {plain : CutAux → RuleSet → Trace Call (CTree × CutAux)}
    {rec : Nat → CutAux → RuleSet → Except Fault (CTree × CutAux × Nat)} (kids : List RuleSet)
    (hrec : ∀ k aux rs, dropCount (rec k aux rs) = (plain aux rs).res) :
    ∀ (order : List Nat) (k : Nat) (aux : CutAux) (cs : List CTree),
      dropCount (visitChildsTry rec kids order k aux cs)
        = (visitChilds plain kids order aux cs).res := by
  intro order
  induction order with
  | nil => exact fun k aux cs => rfl
  | cons s order ih =>
      intro k aux cs
      rw [visitChildsTry, visitChilds]
      cases kids[s]? with
      | none => rfl
      | some kid =>
          have h := hrec k aux (removeRedund kid)
          cases hr : rec k aux (removeRedund kid) with
          | error e =>
              rw [hr] at h
              dsimp only
              rw [Trace.bind_of_error h.symm, hr]
              rfl
          | ok p =>
              rw [hr] at h
              dsimp only
              rw [Trace.bind_of_ok h.symm, hr]
              exact ih p.2.2 p.2.1 (cs.set s p.1)

/-- **With all requests granted this is the build of the plain model.** -/
theorem cutNodeTry_granted (hg : ∀ i, g i = true) : ∀ (fuel k : Nat) (aux : CutAux) (rs : RuleSet),
    dropCount (cutNodeTry K g fuel k aux rs) = (cutNode K fuel aux rs).res := by
  intro fuel
  induction fuel with
  | zero => exact fun k aux rs => rfl
  | succ fuel ih =>
      intro k aux rs
      rw [cutNodeTry]
      split
      · next hsmall =>
          rw [cutNode_leaf hsmall]
          rfl
      · next hbig =>
          cases hsel : selectCut K aux rs with
          | error e =>
              rw [cutNode, Trace.tell_bind, if_neg hbig, Trace.lift_bind_error hsel]
              rfl
          | ok c =>
              cases hcut : cutInto c.1 rs c.2.1 c.2.2 with
              | error e =>
                  rw [cutNode, Trace.tell_bind, if_neg hbig, Trace.lift_bind_ok hsel,
                    Trace.lift_bind_error hcut]
                  change dropCount (cutIntoTry g k c.1 rs c.2.1 c.2.2 >>= _) = _
                  rw [cutIntoTry_granted hg, hcut]
                  rfl
              | ok q =>
                  have hloop := visitChildsTry_granted q.2 ih
                    (visitOrder q.1 q.2.length) (k + 1 + q.2.length) c.1
                    (List.replicate q.2.length CTree.blank)
                  rw [(cutNode_node (by omega) hsel hcut).2, ← hloop]
                  change dropCount (cutIntoTry g k c.1 rs c.2.1 c.2.2 >>= _) = _
                  rw [cutIntoTry_granted hg, hcut]
                  change dropCount (visitChildsTry (cutNodeTry K g fuel) q.2 _ _ _ _ >>= _) = _
                  cases visitChildsTry (cutNodeTry K g fuel) q.2 (visitOrder q.1 q.2.length)
                    (k + 1 + q.2.length) c.1 (List.replicate q.2.length CTree.blank) <;> rfl

/-- With the copy of the rules and every other request granted, `main` builds what `cut`
builds. -/
theorem buildTry_granted (hg : ∀ i, g i = true) (fuel : Nat) (aux : CutAux) (rs : List Rule) :
    dropCount (buildTry K g fuel aux rs) = (cut K fuel aux rs).res := by
  have hroot : ruleSetCopyTry (g 0) (Buffer.ofList rs) = Buffer.ofList rs := by
    rw [hg]
    rfl
  rw [buildTry, hroot]
  exact cutNodeTry_granted hg fuel 1 _ _

/-- A lookup that comes to a leaf that cannot be read stops there. -/
theorem walk_unreadable {l : RuleSet} (hl : ∀ f, lsearch l f = .error .overread)
    (tf : TreeFunction) (tree : CTree) (addr : List Nat) (f : Flow) :
    (∃ v ∈ (walk tf tree addr f).log, v.2.leafRules = some l) →
      (walk tf tree addr f).res = .error .overread := by
  refine walk_induct (P := fun _ _ _ t => (∃ v ∈ t.log, v.2.leafRules = some l) →
    t.res = .error .overread) ?_ ?_ ?_ ?_ tree addr f
  · rintro rs addr f ⟨v, hv, hrs⟩
    obtain rfl := List.mem_singleton.mp hv
    obtain rfl := Option.some.inj hrs
    rw [hl]
    rfl
  · rintro d w childs addr f - ⟨v, hv, hrs⟩
    obtain rfl := List.mem_singleton.mp hv
    cases hrs
  · rintro d w childs addr f s f' - - ⟨v, hv, hrs⟩
    obtain rfl := List.mem_singleton.mp hv
    cases hrs
  · rintro d w childs addr f s f' c - - ih ⟨v, hv, hrs⟩
    rcases List.mem_cons.mp hv with rfl | hv
    · cases hrs
    · exact ih ⟨v, hv, hrs⟩

end Run

/-- Three groups of rules on three values of the first dimension. -/
def tripleRules : List Rule :=
  (List.range 6).map (fun i => .onFirst i 5 5) ++
    (List.range 6).map (fun i => .onFirst (i + 6) (2 ^ 26) (2 ^ 26)) ++
    (List.range 5).map (fun i => .onFirst (i + 12) (2 ^ 27) (2 ^ 27))

end ChooseCut
