import ChooseCut.CutRun
import ChooseCut.Walk

/-!
# ChooseCut.Lookup

Looking up a flow in a finished tree.

`Build` is the abstract builder: at every node any method and any dimension may be
chosen, as long as the dispatch reads scratch data computed from the node's own rules.
A run of `cut` whose dispatches do is an instance (`cut_build`). The lookup theorem is
an induction over `Build`: the hits of the flow in the node reached, in the coordinates
of that node, are the hits of the original flow in the original list, and redundancy
removal keeps the first of them.

An empty child is the exception. `remove_redund` leaves it with a count of one and no
rule, and a flow that reaches it reads past its capacity. No flow that matches a rule
does.
-/

namespace ChooseCut

/-! ### The abstract builder -/

/-- A tree built for a rule set, whatever was selected at its nodes. -/
inductive Build (K : Type) [CostArith K] : RuleSet → CTree → Prop
  | leaf {rs : RuleSet} (hsmall : rs.num ≤ bucketSize) : Build K rs (.leaf rs)
  | node {rs : RuleSet} {aux : CutAux} {t : CutType} {d : Dim} {w : NodeWord} {ks : List RuleSet}
      {childs : List CTree} (hbig : bucketSize < rs.num) (hown : OwnScratch K aux rs t d)
      (hcut : cutInto aux rs t d = .ok (w, ks)) (hlen : childs.length = ks.length)
      (hkids : ∀ (s : Nat) k ch, ks[s]? = some k → childs[s]? = some ch →
        Build K (removeRedund k) ch) :
      Build K rs (.node d w childs)

/-- The dispatch of this call, if it makes one, reads scratch data computed from the
node's own rules. -/
def Call.Own (K : Type) [CostArith K] (c : Call) : Prop :=
  bucketSize < c.rs.num → ∀ aux t d, selectCut K c.aux c.rs = .ok (aux, t, d) →
    OwnScratch K aux c.rs t d

section Step

variable {K : Type} [CostArith K] {aux : CutAux} {rs : RuleSet} {t : CutType} {d : Dim}
  {w : NodeWord} {ks : List RuleSet}

/-- The children of a cut are exactly full, with well-formed rules, and the recursion
visits each of them once. -/
theorem cutInto_kids (hs : Sane rs) (hbig : bucketSize < rs.num) (hown : OwnScratch K aux rs t d)
    (hcut : cutInto aux rs t d = .ok (w, ks)) :
    (visitOrder w ks.length).Perm (List.range ks.length) ∧
      ∀ k ∈ ks, ∃ l, k = Buffer.ofList l ∧ RulesWF l := by
  obtain ⟨kids, rfl, hto, -⟩ := cutInto_ok (hown.entryFor hs (hs.ne_nil hbig)) hs.fits hcut
  refine ⟨by simpa using hto.visitOrder_perm, fun k hk => ?_⟩
  obtain ⟨l, hl, rfl⟩ := List.mem_map.mp hk
  exact ⟨l, rfl, hto.wf hs.wf l hl⟩

/-- One step of the lookup at a node that was cut: it stops only for a flow no rule
matches, and otherwise reaches a child with the hits of the node. -/
theorem cutInto_nextWith {tf : TreeFunction} (htf : FindsDeepest tf) (hs : Sane rs)
    (hbig : bucketSize < rs.num) (hown : OwnScratch K aux rs t d)
    (hcut : cutInto aux rs t d = .ok (w, ks)) {f : Flow} (hf : f.InRange) :
    match nextChildWith tf w d f with
    | none => hits rs.items f = []
    | some (s, f') => f'.InRange ∧ ∃ k, ks[s]? = some (Buffer.ofList k) ∧ RulesWF k ∧
        hits k f' = hits rs.items f := by
  obtain ⟨kids, rfl, hto, -⟩ := cutInto_ok (hown.entryFor hs (hs.ne_nil hbig)) hs.fits hcut
  have hspec := hto.nextChildWith_spec htf hs.fits hf
  cases hn : nextChildWith tf w d f with
  | none =>
      rw [hn] at hspec
      exact hspec
  | some q =>
      rw [hn] at hspec
      obtain ⟨hf', k, hk, hhits⟩ := hspec
      exact ⟨hf', k, by rw [List.getElem?_map, hk]; rfl, hto.wf hs.wf k (List.mem_of_getElem? hk),
        hhits⟩

/-- The step with the tables. -/
theorem cutInto_next (hs : Sane rs) (hbig : bucketSize < rs.num) (hown : OwnScratch K aux rs t d)
    (hcut : cutInto aux rs t d = .ok (w, ks)) {f : Flow} (hf : f.InRange) :
    match nextChild w d f with
    | none => hits rs.items f = []
    | some (s, f') => f'.InRange ∧ ∃ k, ks[s]? = some (Buffer.ofList k) ∧ RulesWF k ∧
        hits k f' = hits rs.items f := by
  rw [← nextChildWith_tables]
  exact cutInto_nextWith treeFunction_findsDeepest hs hbig hown hcut hf

/-- Only an empty child is not sane after `remove_redund`, and that one is a leaf. -/
theorem removeRedund_sane_of_big {l : List Rule} (hwf : RulesWF l)
    (hbig : bucketSize < (removeRedund (Buffer.ofList l)).num) :
    Sane (removeRedund (Buffer.ofList l)) := by
  apply removeRedund_sane ?_ hwf
  rintro rfl
  rw [removeRedund_nil rfl] at hbig
  exact absurd hbig (by decide)

end Step

/-- **Runs of `cut` are builds.** -/
theorem cut_build {K : Type} [CostArith K] {fuel : Nat} {aux aux' : CutAux} {rs : List Rule}
    {tree : CTree} (hwf : RulesWF rs) (hrun : (cut K fuel aux rs).res = .ok (tree, aux'))
    (hown : ∀ c ∈ (cut K fuel aux rs).log, c.Own K) : Build K (Buffer.ofList rs) tree := by
  have hrule : RunRule K (fun _ => True) (fun _ rs => bucketSize < rs.num → Sane rs) (Call.Own K)
      (Build K) (fun _ => True) :=
    { fuel := fun _ _ => trivial
      leaf := fun _ _ _ _ _ hsmall => .leaf hsmall
      select_error := fun _ _ _ _ _ _ _ _ => trivial
      cut_error := fun _ _ _ _ _ _ _ _ _ _ _ _ => trivial
      node := by
        intro n c aux t d w ks _ hI hQ hbig hsel hcut
        have hs := hI hbig
        have ho := hQ hbig aux t d hsel
        obtain ⟨hperm, hkids⟩ := cutInto_kids hs hbig ho hcut
        refine ⟨trivial, hperm, fun k hk => ?_, fun childs hlen hch => .node hbig ho hcut hlen hch⟩
        obtain ⟨l, rfl, hl⟩ := hkids k hk
        exact removeRedund_sane_of_big hl }
  exact ((hrule.cutNode fuel _ _ trivial (fun _ => ⟨rfl, hwf⟩) hown).2.of_ok hrun).1

/-! ### The lookup -/

mutual

/-- The rule sets of the leaves. -/
def CTree.leaves : CTree → List RuleSet
  | .leaf rs => [rs]
  | .node _ _ childs => leavesOf childs

/-- The rule sets of the leaves below an array of children. -/
def leavesOf : List CTree → List RuleSet
  | [] => []
  | c :: cs => c.leaves ++ leavesOf cs

end

theorem mem_leavesOf {cs : List CTree} {l : RuleSet} :
    l ∈ leavesOf cs ↔ ∃ c ∈ cs, l ∈ c.leaves := by
  induction cs with
  | nil => simp [leavesOf]
  | cons c cs ih => simp [leavesOf, ih]

section Search

variable {K : Type} [CostArith K] {rs : RuleSet} {tree : CTree}

theorem Build.of_small (h : Build K rs tree) (hsmall : rs.num ≤ bucketSize) : tree = .leaf rs := by
  cases h with
  | leaf _ => rfl
  | node hbig => exact absurd hsmall (by omega)

/-- **The lookup follows linear search** as long as it does not end in an empty child:
because the flow matches a rule, or because no leaf counts more rules than it has. -/
theorem Build.walk_spec {tf : TreeFunction} (htf : FindsDeepest tf) (h : Build K rs tree) :
    ∀ (addr : List Nat) {f : Flow}, Sane rs → f.InRange →
      (hits rs.items f ≠ [] ∨ ∀ l ∈ tree.leaves, l.num ≤ l.items.length) →
      ∃ f', (walk tf tree addr f).res = .ok (answer (hits rs.items f), f') := by
  induction h with
  | leaf hsmall =>
      intro addr f hs _ _
      rw [walk_leaf, lsearch_ok hs.num_eq f]
      exact ⟨f, rfl⟩
  | @node rs aux t d w ks childs hbig hown hcut hlen hkids ih =>
      intro addr f hs hf hok
      have hspec := cutInto_nextWith htf hs hbig hown hcut hf
      cases hn : nextChildWith tf w d f with
      | none =>
          rw [hn] at hspec
          rw [walk_stop hn, show hits rs.items f = [] from hspec]
          exact ⟨f, rfl⟩
      | some q =>
          obtain ⟨s, f'⟩ := q
          rw [hn] at hspec
          obtain ⟨hf', k, hkb, hwf, hhits⟩ := hspec
          have hslt : s < childs.length := by
            rw [hlen]
            exact (List.getElem?_eq_some_iff.mp hkb).1
          have hch : childs[s]? = some childs[s] := List.getElem?_eq_getElem hslt
          rw [walk_next hn hch]
          -- an empty child has no hits, and is a leaf that counts a rule it does not have
          have hne : k ≠ [] := by
            rintro rfl
            rcases hok with hok | hok
            · exact hok hhits.symm
            · have hleaf := (hkids s _ _ hkb hch).of_small (by rw [removeRedund_nil rfl]; decide)
              have hmem : removeRedund (Buffer.ofList ([] : List Rule)) ∈
                  (CTree.node d w childs).leaves := by
                rw [CTree.leaves, mem_leavesOf]
                exact ⟨childs[s], List.getElem_mem hslt, by rw [hleaf, CTree.leaves]; simp⟩
              have := hok _ hmem
              rw [removeRedund_nil rfl] at this
              exact absurd this (by decide)
          rw [← hhits, ← answer_eq_of_head? (hits_removeRedund hwf f')]
          refine ih s _ _ hkb hch _ (removeRedund_sane hne hwf) hf' ?_
          rcases hok with hok | hok
          · exact Or.inl (hits_removeRedund_ne_nil hwf (hhits ▸ hok))
          · right
            intro l hl
            refine hok l ?_
            rw [CTree.leaves, mem_leavesOf]
            exact ⟨childs[s], List.getElem_mem hslt, hl⟩

/-- The same for the number `search` returns. -/
theorem Build.search_spec (h : Build K rs tree) {f : Flow} (hs : Sane rs) (hf : f.InRange)
    (hok : hits rs.items f ≠ [] ∨ ∀ l ∈ tree.leaves, l.num ≤ l.items.length) :
    search tree f = .ok (answer (hits rs.items f)) := by
  obtain ⟨f', hres⟩ := h.walk_spec treeFunction_findsDeepest [] hs hf hok
  rw [← walk_search tree [] f, hres]
  rfl

/-- **The tree answers as linear search does.** For well-formed rules, whatever methods
and dimensions were selected, a flow that matches a rule is answered with the priority
of the first rule of the original list that it matches. -/
theorem search_eq_lsearch {rs : List Rule} {tree : CTree} (hwf : RulesWF rs)
    (hbuild : Build K (Buffer.ofList rs) tree) {f : Flow} (hf : f.InRange)
    (hmatch : ∃ r ∈ rs, r.Matches f) :
    search tree f = lsearch (Buffer.ofList rs) f ∧
      ∃ r, rs.find? (fun r => r.Matches f) = some r ∧ search tree f = .ok (toInt r.pri) := by
  have hs : Sane (Buffer.ofList rs) := ⟨rfl, hwf⟩
  have hne : hits rs f ≠ [] := by
    obtain ⟨r, hr, hm⟩ := hmatch
    rw [Ne, hits_eq_nil]
    exact fun h => h r hr hm
  have hsearch := hbuild.search_spec hs hf (Or.inl hne)
  refine ⟨by rw [hsearch, lsearch_ok hs.num_eq f], ?_⟩
  have hhead := head?_hits rs f
  cases hh : hits rs f with
  | nil => exact absurd hh hne
  | cons p l =>
      rw [hh] at hhead
      obtain ⟨r, hr, hpri⟩ := Option.map_eq_some_iff.mp hhead.symm
      refine ⟨r, hr, ?_⟩
      rw [hsearch]
      change Except.ok (answer (hits rs f)) = _
      rw [hh, hpri]
      rfl

/-- `search` in the build whose `tree_function` probes the lengths one by one. -/
def searchProbe (tree : CTree) (f : Flow) : Except Fault Int :=
  (walk treeFunctionProbe tree [] f).res.map Prod.fst

/-- **The two builds look up the same rule.** They store different lengths for a prefix
of the stride and shift the key by different amounts, but no rule below such a child asks
anything of that dimension any more: wherever a lookup does not end in an empty child,
both answer as linear search does. -/
theorem searchProbe_eq_search {rs : List Rule} {tree : CTree} (hwf : RulesWF rs)
    (hbuild : Build K (Buffer.ofList rs) tree) {f : Flow} (hf : f.InRange)
    (hok : (∃ r ∈ rs, r.Matches f) ∨ ∀ l ∈ tree.leaves, l.num ≤ l.items.length) :
    searchProbe tree f = search tree f ∧ search tree f = lsearch (Buffer.ofList rs) f := by
  have hs : Sane (Buffer.ofList rs) := ⟨rfl, hwf⟩
  have hhits : hits rs f ≠ [] ∨ ∀ l ∈ tree.leaves, l.num ≤ l.items.length := by
    refine hok.imp_left ?_
    rintro ⟨r, hr, hm⟩ hnil
    exact hits_eq_nil.mp hnil r hr hm
  obtain ⟨f', hprobe⟩ := hbuild.walk_spec treeFunctionProbe_findsDeepest [] hs hf hhits
  have hsearch := hbuild.search_spec hs hf hhits
  refine ⟨?_, by rw [hsearch, lsearch_ok hs.num_eq f]⟩
  rw [searchProbe, hprobe, hsearch]
  rfl

end Search

/-! ### Runs that can be evaluated -/

/-- The dispatch of a call is on an entry `match_expect` writes. -/
def Call.dispatchFresh (K : Type) [CostArith K] (c : Call) : Bool :=
  match selectCut K c.aux c.rs with
  | .ok (_, t, d) => Fresh t c.rs.items d
  | .error _ => true

/-- A call that dispatches has own scratch exactly when it has fresh scratch. -/
theorem Call.own_iff {K : Type} [CostArith K] {c : Call} (hbig : bucketSize < c.rs.num) :
    c.Own K ↔ c.dispatchFresh K = true := by
  unfold Call.dispatchFresh Call.Own
  cases hsel : selectCut K c.aux c.rs with
  | error e => simp
  | ok s =>
      obtain ⟨aux, t, d⟩ := s
      constructor
      · exact fun h => by simpa using (h hbig aux t d rfl).1
      · rintro h - aux' t' d' heq
        obtain ⟨rfl, rfl, rfl⟩ := by simpa using heq
        exact (selectCut_ok hsel).ownScratch (by simpa using h)

/-- The dispatch of this call is on the node's own scratch data, and no segment run of a
hi cut is without rules. -/
def Call.Filled (K : Type) [CostArith K] (c : Call) : Prop :=
  bucketSize < c.rs.num → ∀ aux t d, selectCut K c.aux c.rs = .ok (aux, t, d) →
    OwnScratch K aux c.rs t d ∧
      (t = .hi → ∀ i < (aux.hi.entries d).hist.childs,
        (aux.hi.entries d).hist.childRulecount i ≠ 0)

theorem Call.Filled.own {K : Type} [CostArith K] {c : Call} (h : c.Filled K) : c.Own K :=
  fun hbig aux t d hsel => (h hbig aux t d hsel).1

/-- `Call.Filled`, evaluated. -/
def Call.filledCheck (K : Type) [CostArith K] (c : Call) : Bool :=
  match selectCut K c.aux c.rs with
  | .ok (aux, t, d) => decide (Fresh t c.rs.items d) && (t ≠ .hi ||
      (List.range (aux.hi.entries d).hist.childs).all
        (fun i => (aux.hi.entries d).hist.childRulecount i ≠ 0))
  | .error _ => c.rs.num ≤ bucketSize

theorem Call.filled_of_check {K : Type} [CostArith K] {c : Call} (h : c.filledCheck K = true) :
    c.Filled K := by
  intro _ aux t d hsel
  rw [Call.filledCheck, hsel] at h
  simp only [Bool.and_eq_true, decide_eq_true_eq, Bool.or_eq_true, List.all_eq_true,
    List.mem_range] at h
  refine ⟨(selectCut_ok hsel).ownScratch h.1, fun ht i hi => ?_⟩
  exact h.2.resolve_left (fun hne => hne ht) i hi

/-- A run that returns a tree with the property `p`, and whose steps all have `q`. -/
def runHas (r : Trace Call (CTree × CutAux)) (p : CTree → Bool) (q : Call → Bool) : Bool :=
  match r.res with
  | .ok x => p x.1 && r.log.all q
  | .error _ => false

theorem runHas_iff {r : Trace Call (CTree × CutAux)} {p : CTree → Bool} {q : Call → Bool} :
    runHas r p q = true ↔
      ∃ tree aux, r.res = .ok (tree, aux) ∧ p tree = true ∧ ∀ c ∈ r.log, q c = true := by
  unfold runHas
  cases hr : r.res with
  | error e => simp
  | ok x =>
      rw [Bool.and_eq_true, List.all_eq_true]
      constructor
      · exact fun h => ⟨x.1, x.2, rfl, h⟩
      · rintro ⟨tree, aux, hx, h⟩
        obtain rfl := Except.ok.inj hx
        exact h

/-- The scratch area with every byte zero. -/
def CutAux.zero : CutAux :=
  { hist := fun _ => RuleHist.zero
    split := ⟨0, 0, fun _ => ⟨⟨0, false, ⟨0, 0, 0⟩, ⟨0, 0, 0⟩⟩, ⟨0, false, ⟨0, 0, 0⟩, ⟨0, 0, 0⟩⟩,
      ⟨0, false, ⟨0, 0, 0⟩, ⟨0, 0, 0⟩⟩⟩⟩
    hi := ⟨0, fun _ => ⟨RuleHist.zero, 0, 0, fun _ => (0, 0)⟩⟩ }

/-- A rule that asks something of the first dimension only. -/
def Rule.onFirst (pri lo hi : Nat) : Rule :=
  ⟨pri, fun d => if d = 0 then ⟨lo, hi⟩ else ⟨0, 2 ^ dimBits d - 1⟩⟩

/-- A flow with a given key in the first dimension. -/
def Flow.onFirst (key : Nat) : Flow := ⟨fun d => if d = 0 then key else 0⟩

theorem Rule.onFirst_wf {pri lo hi : Nat} (hpri : pri < uint32Max) (hle : lo ≤ hi)
    (hhi : hi < 2 ^ 32) : (Rule.onFirst pri lo hi).WF := by
  refine ⟨fun d => ?_, hpri⟩
  by_cases hd : d = 0
  · subst hd
    exact ⟨hle, hhi⟩
  · simp [Rule.onFirst, Range.Fits, hd]

theorem Flow.onFirst_inRange {key : Nat} (h : key < 2 ^ 32) : (Flow.onFirst key).InRange := by
  intro d
  by_cases hd : d = 0
  · subst hd
    exact h
  · simp [Flow.onFirst, hd]

theorem Rule.onFirst_matches {pri lo hi key : Nat} :
    (Rule.onFirst pri lo hi).Matches (.onFirst key) ↔ lo ≤ key ∧ key ≤ hi := by
  constructor
  · exact fun h => h 0
  · intro h d
    by_cases hd : d = 0
    · subst hd
      exact h
    · simp [Rule.onFirst, Flow.onFirst, Range.Has, hd]

/-- Two groups of rules, in the two halves of the first dimension. -/
def pairRules : List Rule :=
  (List.range 8).map (fun i => .onFirst i 5 5) ++
    (List.range 9).map (fun i => .onFirst (i + 8) (2 ^ 31) (2 ^ 31))

theorem mem_pairRules {r : Rule} : r ∈ pairRules ↔
    (∃ i < 8, Rule.onFirst i 5 5 = r) ∨ ∃ i < 9, Rule.onFirst (i + 8) (2 ^ 31) (2 ^ 31) = r := by
  simp only [pairRules, List.mem_append, List.mem_map, List.mem_range]

theorem pairRules_wf : RulesWF pairRules := by
  intro r hr
  rw [mem_pairRules] at hr
  rcases hr with ⟨i, hi, rfl⟩ | ⟨i, hi, rfl⟩
  · exact Rule.onFirst_wf (Nat.lt_trans hi (by decide)) (by decide) (by decide)
  · exact Rule.onFirst_wf (Nat.lt_trans (Nat.add_lt_add_right hi 8) (by decide)) (by decide)
      (by decide)

theorem pairRules_sane : Sane (Buffer.ofList pairRules) := ⟨rfl, pairRules_wf⟩

/-- The first rules of the two groups. -/
theorem pairRules_firsts :
    Rule.onFirst 0 5 5 ∈ pairRules ∧ Rule.onFirst 8 (2 ^ 31) (2 ^ 31) ∈ pairRules := by
  rw [mem_pairRules, mem_pairRules]
  exact ⟨Or.inl ⟨0, by decide, rfl⟩, Or.inr ⟨0, by decide, rfl⟩⟩

theorem pairRules_matched : ∃ r ∈ pairRules, r.Matches (Flow.onFirst (2 ^ 31)) := by
  refine ⟨_, pairRules_firsts.2, ?_⟩
  rw [Rule.onFirst_matches]
  exact ⟨Nat.le_refl _, Nat.le_refl _⟩

theorem pairRules_differ : ¬ SameRange pairRules 0 := by
  intro h
  obtain ⟨hlow, hhigh⟩ := pairRules_firsts
  exact absurd (h _ hlow _ hhigh) (by decide)

/-- The builder cuts them once, by bitmap, and no child is empty. -/
theorem pairRules_run :
    runHas (cut ℚ 2 .zero pairRules)
      (fun tree => match tree with
        | .node d (.mb n) [.leaf _, .leaf _] => d = 0 ∧ n = ⟨0x100000001#64, 0, 0⟩
        | _ => false)
      (fun c => c.filledCheck ℚ) = true := by
  decide +kernel

/-- The tree of that run. -/
theorem pairRules_tree :
    ∃ aux a b, (cut ℚ 2 .zero pairRules).res
        = .ok (.node 0 (.mb ⟨0x100000001#64, 0, 0⟩) [.leaf a, .leaf b], aux) ∧
      ∀ c ∈ (cut ℚ 2 .zero pairRules).log, c.filledCheck ℚ = true := by
  obtain ⟨tree, aux, hrun, hroot, hlog⟩ := runHas_iff.mp pairRules_run
  split at hroot
  · next d n a b =>
    obtain ⟨rfl, rfl⟩ : d = 0 ∧ n = ⟨0x100000001#64, 0, 0⟩ := by simpa using hroot
    exact ⟨aux, a, b, hrun, hlog⟩
  · cases hroot

/-- The lookup theorem applies to that run: the flow of the second group is answered
with the first priority of that group. -/
theorem search_eq_lsearch_pairRules :
    RulesWF pairRules ∧ (Flow.onFirst (2 ^ 31)).InRange ∧
      ∃ tree aux, (cut ℚ 2 .zero pairRules).res = .ok (tree, aux) ∧
        Build ℚ (Buffer.ofList pairRules) tree ∧
        search tree (.onFirst (2 ^ 31)) = lsearch (Buffer.ofList pairRules) (.onFirst (2 ^ 31)) := by
  have hf : (Flow.onFirst (2 ^ 31)).InRange := Flow.onFirst_inRange (by decide)
  obtain ⟨aux, a, b, hrun, hlog⟩ := pairRules_tree
  have hbuild := cut_build pairRules_wf hrun (fun c hc => (Call.filled_of_check (hlog c hc)).own)
  exact ⟨pairRules_wf, hf, _, aux, hrun, hbuild,
    (search_eq_lsearch pairRules_wf hbuild hf pairRules_matched).1⟩

/-- In that tree the probing build finds the second group as well. -/
theorem searchProbe_pairRules :
    ∃ tree aux, (cut ℚ 2 .zero pairRules).res = .ok (tree, aux) ∧
      searchProbe tree (.onFirst (2 ^ 31)) = search tree (.onFirst (2 ^ 31)) := by
  obtain ⟨aux, a, b, hrun, hlog⟩ := pairRules_tree
  have hbuild := cut_build pairRules_wf hrun (fun c hc => (Call.filled_of_check (hlog c hc)).own)
  exact ⟨_, aux, hrun, (searchProbe_eq_search pairRules_wf hbuild
    (Flow.onFirst_inRange (by decide)) (Or.inl pairRules_matched)).1⟩

/-! ### Empty children -/

section Empty

variable {K : Type} [CostArith K] {aux : CutAux} {rs : RuleSet} {t : CutType} {d : Dim}
  {w : NodeWord} {ks : List RuleSet}

/-- Bitmap and split cuts have no empty child; a hi cut has none when its histogram has
no zero. -/
theorem cutInto_ne_nil (hs : Sane rs) (he : EntryFor aux rs.items t d)
    (hcut : cutInto aux rs t d = .ok (w, ks))
    (hhi : t = .hi → ∀ i < (aux.hi.entries d).hist.childs,
      (aux.hi.entries d).hist.childRulecount i ≠ 0) :
    ∀ k ∈ ks, k.items ≠ [] := by
  intro k hk
  cases t with
  | bitmap =>
      simp only [EntryFor] at he
      simp only [cutInto, he, evenCut_eq hs.fits, bind, Except.bind, Except.ok.injEq,
        Prod.mk.injEq] at hcut
      obtain ⟨-, rfl⟩ := hcut
      obtain ⟨i, hi, rfl⟩ := mem_evenKids hs.fits hk
      exact childRules_ne_nil hi
  | split =>
      obtain ⟨q, hq, hcut⟩ := bind_eq_ok.mp hcut
      rw [splitCut_eq he hs.fits] at hq
      split at hq
      · obtain rfl := Except.ok.inj hq
        simp only [Except.ok.injEq, Prod.mk.injEq] at hcut
        obtain ⟨-, rfl⟩ := hcut
        obtain ⟨l, hl, rfl⟩ := List.mem_map.mp hk
        obtain ⟨k1, hk1, rfl | ⟨e, hk2⟩⟩ := mem_splitKids he hl
        · exact hk1.ne_nil hs.fits
        · exact hk2.ne_nil (fun r hr => (hk1.wf hs.wf r hr).fits)
      · cases hq
  | hi =>
      simp only [EntryFor] at he
      simp only [cutInto, hiCut_eq he hs.fits, bind, Except.bind, Except.ok.injEq,
        Prod.mk.injEq] at hcut
      obtain ⟨-, rfl⟩ := hcut
      obtain ⟨l, hl, rfl⟩ := List.mem_map.mp hk
      obtain ⟨i, hi, rfl⟩ := mem_hiKids hl
      intro hnil
      have hcount := he.count i hi
      rw [show clipTo (hiInterval (aux.hi.entries d) i) d rs.items = [] from hnil] at hcount
      exact hhi rfl i hi hcount

/-- A sane rule set whose count is within its capacity. -/
def Bounded (rs : RuleSet) : Prop := Sane rs ∧ rs.num ≤ rs.cap

theorem removeRedund_bounded {l : List Rule} (hne : l ≠ []) (hwf : RulesWF l) :
    Bounded (removeRedund (Buffer.ofList l)) := by
  refine ⟨removeRedund_sane hne hwf, ?_⟩
  rw [removeRedund_eq hne (fun r hr => Nat.ne_of_lt (hwf r hr).pri_lt)]
  exact clean_sublist.length_le

/-- A run without empty children: every node is bounded, and so is every leaf. -/
theorem filled_rule : RunRule K (fun _ => True) (fun _ rs => Bounded rs) (Call.Filled K)
    (fun _ tree => ∀ l ∈ tree.leaves, Bounded l) (fun _ => True) :=
  { fuel := fun _ _ => trivial
    leaf := fun _ _ _ hI _ _ l hl => by
      rw [CTree.leaves, List.mem_singleton] at hl
      exact hl ▸ hI
    select_error := fun _ _ _ _ _ _ _ _ => trivial
    cut_error := fun _ _ _ _ _ _ _ _ _ _ _ _ => trivial
    node := by
      intro n c aux t d w ks _ hI hQ hbig hsel hcut
      obtain ⟨hown, hhi⟩ := hQ hbig aux t d hsel
      obtain ⟨hperm, hkids⟩ := cutInto_kids hI.1 hbig hown hcut
      have hne := cutInto_ne_nil hI.1 (hown.entryFor hI.1 (hI.1.ne_nil hbig)) hcut hhi
      refine ⟨trivial, hperm, fun k hk => ?_, fun childs hlen hch l hl => ?_⟩
      · obtain ⟨l, rfl, hl⟩ := hkids k hk
        exact removeRedund_bounded (hne _ hk) hl
      · rw [CTree.leaves, mem_leavesOf] at hl
        obtain ⟨ch, hmem, hl⟩ := hl
        obtain ⟨s, hs, rfl⟩ := List.mem_iff_getElem.mp hmem
        exact hch s _ _ (List.getElem?_eq_getElem (hlen ▸ hs)) (List.getElem?_eq_getElem hs) l hl }

end Empty

/-- **A run without empty children keeps every count within its capacity**, and its tree
answers -1 for every flow that no rule matches. -/
theorem cut_unmatched {K : Type} [CostArith K] {fuel : Nat} {aux aux' : CutAux} {rs : List Rule}
    {tree : CTree} (hwf : RulesWF rs) (hrun : (cut K fuel aux rs).res = .ok (tree, aux'))
    (hsteps : ∀ c ∈ (cut K fuel aux rs).log, c.Filled K) :
    (∀ c ∈ (cut K fuel aux rs).log, c.rs.num ≤ c.rs.cap) ∧
      ∀ f : Flow, f.InRange → (∀ r ∈ rs, ¬ r.Matches f) → search tree f = .ok (-1) := by
  have hs : Sane (Buffer.ofList rs) := ⟨rfl, hwf⟩
  obtain ⟨hcalls, hend⟩ := filled_rule.cutNode fuel _ _ trivial ⟨hs, Nat.le_refl _⟩ hsteps
  refine ⟨fun c hc => ?_, fun f hf hno => ?_⟩
  · obtain ⟨-, -, hb⟩ := hcalls c hc
    exact hb.2
  · have hbuild := cut_build hwf hrun (fun c hc => (hsteps c hc).own)
    have hleaves := (hend.of_ok hrun).1
    rw [hbuild.search_spec hs hf (Or.inr fun l hl => Nat.le_of_eq (hleaves l hl).1.num_eq)]
    change Except.ok (answer (hits rs f)) = _
    rw [hits_eq_nil.mpr hno]
    rfl

/-- The two groups leave no empty child, and a flow between them is answered -1. -/
theorem cut_unmatched_pairRules :
    RulesWF pairRules ∧ ∃ tree aux, (cut ℚ 2 .zero pairRules).res = .ok (tree, aux) ∧
      (∀ c ∈ (cut ℚ 2 .zero pairRules).log, c.Filled ℚ) ∧
      search tree (.onFirst 6) = .ok (-1) := by
  obtain ⟨aux, a, b, hrun, hlog⟩ := pairRules_tree
  have hfilled := fun c hc => Call.filled_of_check (hlog c hc)
  have hno : ∀ r ∈ pairRules, ¬ r.Matches (.onFirst 6) := by
    intro r hr
    rw [mem_pairRules] at hr
    rcases hr with ⟨i, -, rfl⟩ | ⟨i, -, rfl⟩ <;> rw [Rule.onFirst_matches] <;> decide
  exact ⟨pairRules_wf, _, aux, hrun, hfilled, (cut_unmatched pairRules_wf hrun hfilled).2
    (.onFirst 6) (Flow.onFirst_inRange (by decide)) hno⟩

/-- Fifteen wide rules with four narrow ones inside, a gap, and one more rule. The four
parts of a split cannot bring every child down to a bucket; a hi cut can, and it gives
the gap a child of its own. -/
def gapRules : List Rule :=
  (List.range 15).map (fun i => .onFirst i 0 511) ++
    [.onFirst 15 0 63, .onFirst 16 128 191, .onFirst 17 256 319, .onFirst 18 384 447,
      .onFirst 19 896 959]

/-- The rules lie on both sides of the gap. -/
theorem mem_gapRules {r : Rule} (h : r ∈ gapRules) : ∃ pri lo hi, Rule.onFirst pri lo hi = r ∧
    pri < 20 ∧ lo ≤ hi ∧ hi < 960 ∧ (hi < 512 ∨ 896 ≤ lo) := by
  rcases List.mem_append.mp h with h | h
  · obtain ⟨i, hi, rfl⟩ := List.mem_map.mp h
    exact ⟨i, 0, 511, rfl, Nat.lt_trans (List.mem_range.mp hi) (by decide), by decide⟩
  · simp only [List.mem_cons, List.not_mem_nil, or_false] at h
    rcases h with rfl | rfl | rfl | rfl | rfl <;> exact ⟨_, _, _, rfl, by decide⟩

theorem gapRules_wf : RulesWF gapRules := by
  intro r hr
  obtain ⟨pri, lo, hi, rfl, hpri, hle, hhi, -⟩ := mem_gapRules hr
  exact Rule.onFirst_wf (Nat.lt_trans hpri (by decide)) hle (Nat.lt_trans hhi (by decide))

theorem gapRules_sane : Sane (Buffer.ofList gapRules) := ⟨rfl, gapRules_wf⟩

/-- The builder cuts them once, by hi, into segments of 128 values. -/
theorem gapRules_run :
    runHas (cut ℚ 2 .zero gapRules)
      (fun tree => match tree with
        | .node d (.hi n) [.leaf _, .leaf _, .leaf _, .leaf _, .leaf l, .leaf _] =>
            d = 0 ∧ n = ⟨0, 7, 0x4f#64⟩ ∧ l = ⟨1, 0, []⟩
        | _ => false)
      (fun c => c.dispatchFresh ℚ) = true := by
  decide +kernel

/-- The tree of that run: the fifth child is empty. -/
theorem gapRules_tree :
    ∃ aux l₀ l₁ l₂ l₃ l₅, (cut ℚ 2 .zero gapRules).res
        = .ok (.node 0 (.hi ⟨0, 7, 0x4f#64⟩)
            [.leaf l₀, .leaf l₁, .leaf l₂, .leaf l₃, .leaf ⟨1, 0, []⟩, .leaf l₅], aux) ∧
      ∀ c ∈ (cut ℚ 2 .zero gapRules).log, c.dispatchFresh ℚ = true := by
  obtain ⟨tree, aux, hrun, hroot, hlog⟩ := runHas_iff.mp gapRules_run
  split at hroot
  · next d n l₀ l₁ l₂ l₃ l₄ l₅ =>
    obtain ⟨rfl, rfl, rfl⟩ : d = 0 ∧ n = ⟨0, 7, 0x4f#64⟩ ∧ l₄ = ⟨1, 0, []⟩ := by simpa using hroot
    exact ⟨aux, l₀, l₁, l₂, l₃, l₅, hrun, hlog⟩
  · cases hroot

/-- **An empty child is reached.** The build of these rules completes, every dispatch is
on the node's own scratch data, some node leaves `remove_redund` with more rules than
its capacity, and the lookup of a flow in the gap, which matches no rule, reads past the
capacity of its leaf. -/
theorem gapRules_overread :
    RulesWF gapRules ∧ (Flow.onFirst 600).InRange ∧
      (∀ r ∈ gapRules, ¬ r.Matches (.onFirst 600)) ∧
      runHas (cut ℚ 2 .zero gapRules)
        (fun tree => search tree (.onFirst 600) = .error .overread ∧
          ∃ l ∈ tree.leaves, l.cap < l.num)
        (fun c => c.dispatchFresh ℚ) = true := by
  have hno : ∀ r ∈ gapRules, ¬ r.Matches (.onFirst 600) := by
    intro r hr
    obtain ⟨pri, lo, hi, rfl, -, -, -, hside⟩ := mem_gapRules hr
    rw [Rule.onFirst_matches]
    omega
  refine ⟨gapRules_wf, Flow.onFirst_inRange (by decide), hno, ?_⟩
  obtain ⟨aux, l₀, l₁, l₂, l₃, l₅, hrun, hlog⟩ := gapRules_tree
  refine runHas_iff.mpr ⟨_, aux, hrun, ?_, hlog⟩
  rw [decide_eq_true_eq]
  exact ⟨rfl, ⟨1, 0, []⟩, by simp [CTree.leaves, leavesOf], by decide⟩

end ChooseCut
