import ChooseCut.Select

/-!
# ChooseCut.CutRun

The proof rule for runs of `cut_node`.

A run is the recursion over the nodes, with the scratch area threaded through it and a
record of every call. `RunRule` collects what has to be shown at one node: a property
`A` of the scratch area and one `I` of the rule sets are kept by a cut, a property `P`
relates a rule set to the tree built for it, `E` holds of the faults a node can end in,
and `Q` is what the steps of the run are assumed to satisfy. `RunRule.cutNode` is the
induction that makes this a statement about whole runs. The index of `I` is the depth
of recursion still allowed, so that a measure of the rules can be carried along.
-/

namespace ChooseCut

section Visit

variable {rec : CutAux → RuleSet → Trace Call (CTree × CutAux)} {kids : List RuleSet}
  {A : CutAux → Prop} {L Q : Call → Prop} {P : RuleSet → CTree → Prop} {E : Fault → Prop}

/-- **The loop over the children.** If every child can be cut, then after the loop each
visited slot holds the tree of its child and the other slots are as before. -/
theorem visitChilds_spec
    (hrec : ∀ aux, ∀ k ∈ kids, A aux → (∀ c ∈ (rec aux (removeRedund k)).log, Q c) →
      (∀ c ∈ (rec aux (removeRedund k)).log, L c) ∧
        Ends (fun p => P (removeRedund k) p.1 ∧ A p.2) E (rec aux (removeRedund k)).res) :
    ∀ (order : List Nat) (aux : CutAux) (cs : List CTree), order.Nodup →
      (∀ s ∈ order, s < kids.length) → cs.length = kids.length → A aux →
      (∀ c ∈ (visitChilds rec kids order aux cs).log, Q c) →
      (∀ c ∈ (visitChilds rec kids order aux cs).log, L c) ∧
        Ends (fun p => A p.2 ∧ p.1.length = kids.length ∧ (∀ s, s ∉ order → p.1[s]? = cs[s]?) ∧
            ∀ s ∈ order, ∃ k ch, kids[s]? = some k ∧ p.1[s]? = some ch ∧ P (removeRedund k) ch)
          E (visitChilds rec kids order aux cs).res := by
  intro order
  induction order with
  | nil =>
      intro aux cs _ _ hlen hA _
      exact ⟨by simp [visitChilds], by simp [visitChilds, hA, hlen]⟩
  | cons s order ih =>
      intro aux cs hnd hlt hlen hA hQ
      obtain ⟨hs, hnd⟩ := List.nodup_cons.mp hnd
      have hslt : s < kids.length := hlt s List.mem_cons_self
      have hk : kids[s]? = some kids[s] := List.getElem?_eq_getElem hslt
      have hmem : kids[s] ∈ kids := List.getElem_mem hslt
      simp only [visitChilds, hk] at hQ ⊢
      cases hres : (rec aux (removeRedund kids[s])).res with
      | error e =>
          rw [Trace.bind_of_error hres] at hQ ⊢
          obtain ⟨hL, hE⟩ := hrec aux _ hmem hA hQ
          exact ⟨hL, hE.of_error hres⟩
      | ok p =>
          rw [Trace.bind_of_ok hres] at hQ ⊢
          dsimp only at hQ ⊢
          obtain ⟨hL, hP⟩ := hrec aux _ hmem hA (fun c hc => hQ c (List.mem_append_left _ hc))
          obtain ⟨hPp, hAp⟩ := hP.of_ok hres
          obtain ⟨hL', hrest⟩ := ih p.2 (cs.set s p.1) hnd
            (fun i hi => hlt i (List.mem_cons_of_mem s hi)) (by simpa using hlen) hAp
            (fun c hc => hQ c (List.mem_append_right _ hc))
          refine ⟨fun c hc => (List.mem_append.mp hc).elim (hL c) (hL' c), ?_⟩
          cases hv : (visitChilds rec kids order p.2 (cs.set s p.1)).res with
          | error e => exact hrest.of_error hv
          | ok r =>
              obtain ⟨hAr, hrlen, hother, hdone⟩ := hrest.of_ok hv
              refine ⟨hAr, hrlen, ?_, ?_⟩
              · intro i hi
                rw [List.mem_cons, not_or] at hi
                rw [hother i hi.2, List.getElem?_set_ne (Ne.symm hi.1)]
              · intro i hi
                rcases List.mem_cons.mp hi with rfl | hi
                · refine ⟨kids[i], p.1, hk, ?_, hPp⟩
                  rw [hother i hs, List.getElem?_set_self (by omega)]
                · exact hdone i hi

end Visit

/-- The proof obligations of a property of runs, one for every way `cut_node` goes on at
a node. -/
structure RunRule (K : Type) [CostArith K] (A : CutAux → Prop) (I : Nat → RuleSet → Prop)
    (Q : Call → Prop) (P : RuleSet → CTree → Prop) (E : Fault → Prop) : Prop where
  fuel : ∀ rs, I 0 rs → E .fuel
  leaf : ∀ n c, A c.aux → I (n + 1) c.rs → Q c → c.rs.num ≤ bucketSize → P c.rs (.leaf c.rs)
  select_error : ∀ n c e, A c.aux → I (n + 1) c.rs → Q c → bucketSize < c.rs.num →
    selectCut K c.aux c.rs = .error e → E e
  cut_error : ∀ n c aux t d e, A c.aux → I (n + 1) c.rs → Q c → bucketSize < c.rs.num →
    selectCut K c.aux c.rs = .ok (aux, t, d) → cutInto aux c.rs t d = .error e → E e
  node : ∀ n c aux t d w ks, A c.aux → I (n + 1) c.rs → Q c → bucketSize < c.rs.num →
    selectCut K c.aux c.rs = .ok (aux, t, d) → cutInto aux c.rs t d = .ok (w, ks) →
    A aux ∧ (visitOrder w ks.length).Perm (List.range ks.length) ∧
      (∀ k ∈ ks, I n (removeRedund k)) ∧
      ∀ childs : List CTree, childs.length = ks.length →
        (∀ (s : Nat) k ch, ks[s]? = some k → childs[s]? = some ch → P (removeRedund k) ch) →
        P c.rs (.node d w childs)

section Rule

variable {K : Type} [CostArith K] {A : CutAux → Prop} {I : Nat → RuleSet → Prop}
  {Q : Call → Prop} {P : RuleSet → CTree → Prop} {E : Fault → Prop}

theorem cutNode_succ (fuel : Nat) (aux : CutAux) (rs : RuleSet) :
    cutNode K (fuel + 1) aux rs = (do
      Trace.tell ⟨aux, rs⟩
      if rs.num ≤ bucketSize then pure (.leaf rs, aux)
      else do
        let c ← Trace.lift (selectCut K aux rs)
        let q ← Trace.lift (cutInto c.1 rs c.2.1 c.2.2)
        let p ← visitChilds (cutNode K fuel) q.2 (visitOrder q.1 q.2.length) c.1
          (List.replicate q.2.length CTree.blank)
        pure (.node c.2.2 q.1 p.1, p.2)) := rfl

/-- A node with at most a bucket of rules becomes a leaf. -/
theorem cutNode_leaf {fuel : Nat} {aux : CutAux} {rs : RuleSet} (h : rs.num ≤ bucketSize) :
    cutNode K (fuel + 1) aux rs = ⟨[⟨aux, rs⟩], .ok (.leaf rs, aux)⟩ := by
  rw [cutNode_succ, Trace.tell_bind, if_pos h]
  rfl

/-- Any other node is cut and its children are visited. -/
theorem cutNode_node {fuel : Nat} {aux aux' : CutAux} {rs : RuleSet} {t : CutType} {d : Dim}
    {w : NodeWord} {ks : List RuleSet} (h : bucketSize < rs.num)
    (hsel : selectCut K aux rs = .ok (aux', t, d)) (hcut : cutInto aux' rs t d = .ok (w, ks)) :
    (cutNode K (fuel + 1) aux rs).log = ⟨aux, rs⟩ :: (visitChilds (cutNode K fuel) ks
        (visitOrder w ks.length) aux' (List.replicate ks.length CTree.blank)).log ∧
      (cutNode K (fuel + 1) aux rs).res = (do
        let p ← (visitChilds (cutNode K fuel) ks (visitOrder w ks.length) aux'
          (List.replicate ks.length CTree.blank)).res
        .ok (.node d w p.1, p.2)) := by
  rw [cutNode_succ, Trace.tell_bind, if_neg (by omega), Trace.lift_bind_ok hsel]
  dsimp only
  rw [Trace.lift_bind_ok hcut]
  dsimp only
  cases hv : (visitChilds (cutNode K fuel) ks (visitOrder w ks.length) aux'
      (List.replicate ks.length CTree.blank)).res with
  | ok p =>
      rw [Trace.bind_of_ok hv]
      exact ⟨by simp, rfl⟩
  | error e =>
      rw [Trace.bind_of_error hv]
      exact ⟨rfl, rfl⟩

/-- A fault while choosing or cutting ends the run. -/
theorem cutNode_fault {fuel : Nat} {aux : CutAux} {rs : RuleSet} {e : Fault}
    (h : bucketSize < rs.num)
    (he : selectCut K aux rs = .error e ∨
      ∃ aux' t d, selectCut K aux rs = .ok (aux', t, d) ∧ cutInto aux' rs t d = .error e) :
    cutNode K (fuel + 1) aux rs = ⟨[⟨aux, rs⟩], .error e⟩ := by
  rw [cutNode_succ, Trace.tell_bind, if_neg (by omega)]
  rcases he with hsel | ⟨aux', t, d, hsel, hcut⟩
  · rw [Trace.lift_bind_error hsel]
  · rw [Trace.lift_bind_ok hsel]
    dsimp only
    rw [Trace.lift_bind_error hcut]

/-- **The rule for runs.** From a node that satisfies the invariants, in a run whose steps
satisfy `Q`, every call satisfies the invariants and the run ends in `P` or in `E`. -/
theorem RunRule.cutNode (h : RunRule K A I Q P E) : ∀ (fuel : Nat) (aux : CutAux) (rs : RuleSet),
    A aux → I fuel rs → (∀ c ∈ (cutNode K fuel aux rs).log, Q c) →
    (∀ c ∈ (cutNode K fuel aux rs).log, A c.aux ∧ ∃ n, I n c.rs) ∧
      Ends (fun p => P rs p.1 ∧ A p.2) E (cutNode K fuel aux rs).res := by
  intro fuel
  induction fuel with
  | zero =>
      intro aux rs _ hI _
      exact ⟨fun c hc => absurd hc List.not_mem_nil, h.fuel rs hI⟩
  | succ fuel ih =>
      intro aux rs hA hI hQ
      -- the first call, which is all of the log unless children are visited
      have hself : ∀ c ∈ [(⟨aux, rs⟩ : Call)], A c.aux ∧ ∃ n, I n c.rs := by
        intro c hc
        obtain rfl := List.mem_singleton.mp hc
        exact ⟨hA, _, hI⟩
      by_cases hsmall : rs.num ≤ bucketSize
      · rw [cutNode_leaf hsmall] at hQ ⊢
        have hQ0 := hQ _ List.mem_cons_self
        exact ⟨hself, h.leaf fuel ⟨aux, rs⟩ hA hI hQ0 hsmall, hA⟩
      · have hbig : bucketSize < rs.num := by omega
        cases hsel : selectCut K aux rs with
        | error e =>
            rw [cutNode_fault hbig (Or.inl hsel)] at hQ ⊢
            exact ⟨hself,
              h.select_error fuel ⟨aux, rs⟩ e hA hI (hQ _ List.mem_cons_self) hbig hsel⟩
        | ok s =>
            obtain ⟨aux', t, d⟩ := s
            cases hcut : cutInto aux' rs t d with
            | error e =>
                rw [cutNode_fault hbig (Or.inr ⟨aux', t, d, hsel, hcut⟩)] at hQ ⊢
                exact ⟨hself, h.cut_error fuel ⟨aux, rs⟩ aux' t d e hA hI
                  (hQ _ List.mem_cons_self) hbig hsel hcut⟩
            | ok q =>
                obtain ⟨w, ks⟩ := q
                obtain ⟨hlog, hres⟩ := @cutNode_node K _ fuel _ _ _ _ _ _ _ hbig hsel hcut
                rw [hlog] at hQ ⊢
                obtain ⟨hA', hperm, hkids, htree⟩ := h.node fuel ⟨aux, rs⟩ aux' t d w ks hA hI
                  (hQ _ List.mem_cons_self) hbig hsel hcut
                have hlt : ∀ s ∈ visitOrder w ks.length, s < ks.length :=
                  fun s hs => List.mem_range.mp (hperm.mem_iff.mp hs)
                obtain ⟨hcalls, hend⟩ := @visitChilds_spec (ChooseCut.cutNode K fuel) ks A
                  (fun c => A c.aux ∧ ∃ n, I n c.rs) Q P E
                  (fun aux k hk hA hQ => ih aux (removeRedund k) hA (hkids k hk) hQ)
                  (visitOrder w ks.length) aux' (List.replicate ks.length CTree.blank)
                  (hperm.nodup_iff.mpr List.nodup_range) hlt (by simp) hA'
                  (fun c hc => hQ c (List.mem_cons_of_mem _ hc))
                refine ⟨fun c hc => ?_, ?_⟩
                · rcases List.mem_cons.mp hc with rfl | hc
                  · exact ⟨hA, _, hI⟩
                  · exact hcalls c hc
                · rw [hres]
                  cases hv : (visitChilds (ChooseCut.cutNode K fuel) ks (visitOrder w ks.length)
                      aux' (List.replicate ks.length CTree.blank)).res with
                  | error e => exact hend.of_error hv
                  | ok p =>
                      obtain ⟨hAp, hlen, -, hdone⟩ := hend.of_ok hv
                      refine ⟨htree p.1 hlen ?_, hAp⟩
                      intro s k ch hk hch
                      have hs : s ∈ visitOrder w ks.length := hperm.mem_iff.mpr
                        (List.mem_range.mpr (List.getElem?_eq_some_iff.mp hk).1)
                      obtain ⟨k', ch', hk', hch', hP⟩ := hdone s hs
                      rw [hk] at hk'
                      rw [hch] at hch'
                      obtain rfl := Option.some.inj hk'
                      obtain rfl := Option.some.inj hch'
                      exact hP

end Rule

end ChooseCut
