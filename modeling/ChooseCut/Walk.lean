import ChooseCut.CutStep

/-!
# ChooseCut.Walk

The lookup with what it leaves behind (`cut.c`: `search`).

`search` returns a number, but it also shifts the keys of the flow it was given, and the
nodes it passes are what a lookup costs. `walk` is the same loop with both: its log are
the nodes passed, each with its address, and its result is the number with the flow as
it is then. The `tree_function` is a parameter, since the header has two builds of it;
with the tables the number is the one `search` returns (`walk_search`).
-/

namespace ChooseCut

/-- Induction over a tree, with the hypothesis for every child of the array. -/
theorem CTree.induct {P : CTree → Prop} (leaf : ∀ rs, P (.leaf rs))
    (node : ∀ d w childs, (∀ c ∈ childs, P c) → P (.node d w childs)) : ∀ tree, P tree
  | .leaf rs => leaf rs
  | .node d w childs => node d w childs (fun c hc =>
      have := List.sizeOf_lt_of_mem hc
      CTree.induct leaf node c)

/-! ### The walk -/

mutual

/-- `search` from a node at an address. -/
def walk (tf : TreeFunction) : CTree → List Nat → Flow → Trace (List Nat × CTree) (Int × Flow)
  | .leaf rs, addr, f => do
      Trace.tell (addr, .leaf rs)
      let v ← Trace.lift (lsearch rs f)
      pure (v, f)
  | .node d w childs, addr, f => do
      Trace.tell (addr, .node d w childs)
      match nextChildWith tf w d f with
      | none => pure (-1, f)
      | some (s, f') => walkNth tf childs s (addr ++ [s]) f'

/-- `search` from slot `s` of an array; `addr` is the address of that slot. -/
def walkNth (tf : TreeFunction) :
    List CTree → Nat → List Nat → Flow → Trace (List Nat × CTree) (Int × Flow)
  | [], _, _, _ => Trace.lift (.error .wild)
  | c :: _, 0, addr, f => walk tf c addr f
  | _ :: cs, s + 1, addr, f => walkNth tf cs s addr f

end

section Equations

variable {tf : TreeFunction} {addr : List Nat} {f f' : Flow} {d : Dim} {w : NodeWord}
  {childs : List CTree} {s : Nat}

theorem walkNth_eq (cs : List CTree) (s : Nat) : walkNth tf cs s addr f =
    match cs[s]? with | some c => walk tf c addr f | none => Trace.lift (.error .wild) := by
  induction cs generalizing s with
  | nil => rfl
  | cons c cs ih =>
      cases s with
      | zero => rfl
      | succ s => exact ih s

theorem walk_leaf (rs : RuleSet) : walk tf (.leaf rs) addr f =
    ⟨[(addr, .leaf rs)], (lsearch rs f).map (·, f)⟩ := by
  rw [walk, Trace.tell_bind]
  cases lsearch rs f <;> rfl

theorem walk_node : walk tf (.node d w childs) addr f = (do
    Trace.tell (addr, .node d w childs)
    match nextChildWith tf w d f with
    | none => pure (-1, f)
    | some (s, f') => walkNth tf childs s (addr ++ [s]) f') := rfl

/-- No child for the flow: the walk ends at the node. -/
theorem walk_stop (h : nextChildWith tf w d f = none) :
    walk tf (.node d w childs) addr f = ⟨[(addr, .node d w childs)], .ok (-1, f)⟩ := by
  rw [walk_node, Trace.tell_bind, h]
  rfl

/-- A slot outside the array. -/
theorem walk_wild (h : nextChildWith tf w d f = some (s, f')) (hs : childs[s]? = none) :
    walk tf (.node d w childs) addr f = ⟨[(addr, .node d w childs)], .error .wild⟩ := by
  rw [walk_node, Trace.tell_bind, h]
  dsimp only
  rw [walkNth_eq, hs]
  rfl

/-- A child for the flow: the walk goes on there with the flow the step leaves. -/
theorem walk_next {c : CTree} (h : nextChildWith tf w d f = some (s, f')) (hs : childs[s]? = some c) :
    walk tf (.node d w childs) addr f =
      ⟨(addr, .node d w childs) :: (walk tf c (addr ++ [s]) f').log,
        (walk tf c (addr ++ [s]) f').res⟩ := by
  rw [walk_node, Trace.tell_bind, h]
  dsimp only
  rw [walkNth_eq, hs]

end Equations

/-- What holds of every walk: the four ways a walk can go on from a node. -/
theorem walk_induct {tf : TreeFunction}
    {P : CTree → List Nat → Flow → Trace (List Nat × CTree) (Int × Flow) → Prop}
    (leaf : ∀ rs addr f, P (.leaf rs) addr f ⟨[(addr, .leaf rs)], (lsearch rs f).map (·, f)⟩)
    (stop : ∀ d w childs addr f, nextChildWith tf w d f = none →
      P (.node d w childs) addr f ⟨[(addr, .node d w childs)], .ok (-1, f)⟩)
    (wild : ∀ d w childs addr f s f', nextChildWith tf w d f = some (s, f') → childs[s]? = none →
      P (.node d w childs) addr f ⟨[(addr, .node d w childs)], .error .wild⟩)
    (next : ∀ d w childs addr f s f' c, nextChildWith tf w d f = some (s, f') →
      childs[s]? = some c →
      P c (addr ++ [s]) f' (walk tf c (addr ++ [s]) f') →
      P (.node d w childs) addr f
        ⟨(addr, .node d w childs) :: (walk tf c (addr ++ [s]) f').log,
          (walk tf c (addr ++ [s]) f').res⟩) :
    ∀ tree addr f, P tree addr f (walk tf tree addr f) := by
  intro tree
  induction tree using CTree.induct with
  | leaf rs =>
      intro addr f
      rw [walk_leaf]
      exact leaf rs addr f
  | node d w childs ih =>
      intro addr f
      cases hn : nextChildWith tf w d f with
      | none =>
          rw [walk_stop hn]
          exact stop d w childs addr f hn
      | some q =>
          obtain ⟨s, f'⟩ := q
          cases hc : childs[s]? with
          | none =>
              rw [walk_wild hn hc]
              exact wild d w childs addr f s f' hn hc
          | some c =>
              rw [walk_next hn hc]
              exact next d w childs addr f s f' c hn hc
                (ih c (List.mem_of_getElem? hc) (addr ++ [s]) f')

/-- **With the tables, the number is the one `search` returns.** -/
theorem walk_search (tree : CTree) (addr : List Nat) (f : Flow) :
    (walk treeFunction tree addr f).res.map Prod.fst = search tree f := by
  refine walk_induct (P := fun tree _ f t => t.res.map Prod.fst = search tree f) ?_ ?_ ?_ ?_
    tree addr f
  · intro rs addr f
    rw [search]
    cases lsearch rs f <;> rfl
  · intro d w childs addr f hn
    rw [nextChildWith_tables] at hn
    rw [search, hn]
    rfl
  · intro d w childs addr f s f' hn hc
    rw [nextChildWith_tables] at hn
    rw [search, hn]
    dsimp only
    rw [searchNth_eq, hc]
    rfl
  · intro d w childs addr f s f' c hn hc ih
    rw [nextChildWith_tables] at hn
    rw [search, hn]
    dsimp only
    rw [searchNth_eq, hc]
    exact ih

/-! ### The nodes passed -/

/-- The nodes passed lie one below the other, from the first one on. -/
theorem walk_log_length (tf : TreeFunction) (tree : CTree) (addr : List Nat) (f : Flow) :
    ∀ i v, (walk tf tree addr f).log[i]? = some v → v.1.length = addr.length + i := by
  have hone : ∀ (addr : List Nat) (n : CTree) i (v : List Nat × CTree), [(addr, n)][i]? = some v →
      v.1.length = addr.length + i := by
    intro addr n i v hv
    obtain ⟨rfl, rfl⟩ : i = 0 ∧ (addr, n) = v := by
      simpa [List.getElem?_singleton] using hv
    rfl
  refine walk_induct (P := fun _ addr _ t => ∀ i v, t.log[i]? = some v →
    v.1.length = addr.length + i) ?_ ?_ ?_ ?_ tree addr f
  · exact fun rs addr f => hone addr _
  · exact fun d w childs addr f _ => hone addr _
  · exact fun d w childs addr f s f' _ _ => hone addr _
  · intro d w childs addr f s f' c _ _ ih i v hv
    cases i with
    | zero =>
        obtain rfl := Option.some.inj hv
        rfl
    | succ i =>
        have hlen := ih i v hv
        rw [List.length_append, List.length_singleton] at hlen
        omega

/-- A tree bounds its walks. -/
theorem exists_walk_bound (tf : TreeFunction) (tree : CTree) :
    ∃ n, ∀ addr f, (walk tf tree addr f).log.length ≤ n := by
  induction tree using CTree.induct with
  | leaf rs => exact ⟨1, fun addr f => by rw [walk_leaf]; exact Nat.le_refl 1⟩
  | node d w childs ih =>
      -- one bound for all children
      obtain ⟨n, hn⟩ : ∃ n, ∀ c ∈ childs, ∀ addr f, (walk tf c addr f).log.length ≤ n := by
        clear d w
        induction childs with
        | nil => exact ⟨0, by simp⟩
        | cons c cs ihcs =>
            obtain ⟨m, hm⟩ := ih c List.mem_cons_self
            obtain ⟨n, hn⟩ := ihcs (fun c' hc' => ih c' (List.mem_cons_of_mem c hc'))
            refine ⟨max m n, fun c' hc' addr f => ?_⟩
            rcases List.mem_cons.mp hc' with rfl | hc'
            · exact Nat.le_trans (hm addr f) (Nat.le_max_left m n)
            · exact Nat.le_trans (hn c' hc' addr f) (Nat.le_max_right m n)
      refine ⟨n + 1, fun addr f => ?_⟩
      cases hnext : nextChildWith tf w d f with
      | none =>
          rw [walk_stop hnext]
          exact Nat.succ_le_succ (Nat.zero_le n)
      | some q =>
          cases hc : childs[q.1]? with
          | none =>
              rw [walk_wild hnext hc]
              exact Nat.succ_le_succ (Nat.zero_le n)
          | some c =>
              rw [walk_next hnext hc]
              exact Nat.succ_le_succ (hn c (List.mem_of_getElem? hc) _ _)

/-! ### The flow left behind -/

theorem evenSearchLshift_zero {k b : Nat} (h : k < 2 ^ b) : evenSearchLshift k b 0 = k :=
  Nat.mod_eq_of_lt h

/-- Two shifts are one. -/
theorem evenSearchLshift_add (k b m n : Nat) :
    evenSearchLshift (evenSearchLshift k b m) b n = evenSearchLshift k b (m + n) := by
  unfold evenSearchLshift
  rw [Nat.shiftLeft_eq, Nat.shiftLeft_eq, Nat.shiftLeft_eq, Nat.mod_mul_mod, Nat.mul_assoc, ← Nat.pow_add]

/-- The length stored in the tables is at most the stride. -/
theorem treeFunction_le_stride {b : BitVec 64} {s pos cidr : Nat} (hs : s < 64)
    (h : treeFunction b s = some (pos, cidr)) : cidr ≤ stride := by
  have hspec := treeFunction_spec b hs
  rw [h] at hspec
  obtain ⟨j, hj, rfl⟩ := (mem_path_iff hs).mp hspec.1
  obtain rfl : cidr = pos2cidr (prefixPos s j) := congrArg Prod.snd (treeFunction_snd h)
  rw [pos2cidr_prefixPos hs hj]
  exact hj

/-- The bitmap nodes on a dimension: only they change a key. -/
def CTree.shifts (d : Dim) : CTree → Bool
  | .node e (.mb _) _ => d = e
  | _ => false

theorem setKey_lshift {f : Flow} (hf : f.InRange) (d e : Dim) (c : Nat) :
    (f.setKey d (evenSearchLshift (f.key d) (dimBits d) c)).key e
      = evenSearchLshift (f.key e) (dimBits e) (if e = d then c else 0) := by
  by_cases he : e = d
  · subst he
    simp
  · simp [he, evenSearchLshift_zero (hf e)]

/-- One step keeps the keys in range, and shifts at most that of a bitmap node's own
dimension, by at most a stride. -/
theorem nextChild_shift {w : NodeWord} {d : Dim} {f f' : Flow} {s : Nat} (hf : f.InRange)
    (h : nextChild w d f = some (s, f')) (childs : List CTree) :
    f'.InRange ∧ ∀ e, ∃ n ≤ (if (CTree.node d w childs).shifts e then stride else 0),
      f'.key e = evenSearchLshift (f.key e) (dimBits e) n := by
  have hsame : f.InRange ∧ ∀ e, ∃ n ≤ (if (CTree.node d w childs).shifts e then stride else 0),
      f.key e = evenSearchLshift (f.key e) (dimBits e) n :=
    ⟨hf, fun e => ⟨0, Nat.zero_le _, (evenSearchLshift_zero (hf e)).symm⟩⟩
  cases w with
  | mb m =>
      have hset : ∀ c ≤ stride,
          (f.setKey d (evenSearchLshift (f.key d) (dimBits d) c)).InRange ∧
            ∀ e, ∃ n ≤ (if (CTree.node d (.mb m) childs).shifts e then stride else 0),
              (f.setKey d (evenSearchLshift (f.key d) (dimBits d) c)).key e
                = evenSearchLshift (f.key e) (dimBits e) n := by
        intro c hc
        refine ⟨hf.setKey (evenSearchLshift_lt _ _ _), fun e => ⟨_, ?_, setKey_lshift hf d e c⟩⟩
        by_cases he : e = d <;> simp [CTree.shifts, he, hc]
      have hs := shiftRight_lt (Nat.le_of_lt (stride_lt_dimBits d)) (hf d)
      rw [show 2 ^ stride = 64 from rfl] at hs
      rw [nextChild_mb, evenSearch, Nat.mod_eq_of_lt (by omega)] at h
      split at h
      · obtain ⟨-, rfl⟩ := Prod.mk.inj (Option.some.inj h)
        exact hset stride (Nat.le_refl _)
      · split at h
        · cases h
        · next pos cidr ht =>
          obtain ⟨-, rfl⟩ := Prod.mk.inj (Option.some.inj h)
          exact hset cidr (treeFunction_le_stride hs ht)
  | sp m =>
      obtain ⟨-, rfl⟩ := Prod.mk.inj (Option.some.inj h)
      exact hsame
  | hi m =>
      rw [nextChild_hi] at h
      obtain ⟨i, -, hi⟩ := Option.map_eq_some_iff.mp h
      obtain ⟨-, rfl⟩ := Prod.mk.inj hi
      exact hsame

/-- **The flow a lookup leaves behind.** Every key stays within its dimension: it is the
key of the caller shifted left, by at most a stride for every bitmap node passed that
cuts its dimension, and so unchanged where there is none. -/
theorem walk_flow (tree : CTree) (addr : List Nat) (f : Flow) (hf : f.InRange) :
    Ends (fun p => p.2.InRange ∧
        ∀ e, ∃ n ≤ stride * (walk treeFunction tree addr f).log.countP (fun v => v.2.shifts e),
          p.2.key e = evenSearchLshift (f.key e) (dimBits e) n)
      (fun _ => True) (walk treeFunction tree addr f).res := by
  refine walk_induct (P := fun _ _ f t => f.InRange → Ends (fun p => p.2.InRange ∧
      ∀ e, ∃ n ≤ stride * t.log.countP (fun v => v.2.shifts e),
        p.2.key e = evenSearchLshift (f.key e) (dimBits e) n) (fun _ => True) t.res)
    ?_ ?_ ?_ ?_ tree addr f hf
  · intro rs addr f hf
    cases lsearch rs f with
    | error e => trivial
    | ok v => exact ⟨hf, fun e => ⟨0, Nat.zero_le _, (evenSearchLshift_zero (hf e)).symm⟩⟩
  · intro d w childs addr f _ hf
    exact ⟨hf, fun e => ⟨0, Nat.zero_le _, (evenSearchLshift_zero (hf e)).symm⟩⟩
  · exact fun _ _ _ _ _ _ _ _ _ _ => trivial
  · intro d w childs addr f s f' c hn _ ih hf
    rw [nextChildWith_tables] at hn
    obtain ⟨hf', hstep⟩ := nextChild_shift hf hn childs
    dsimp only
    cases hres : (walk treeFunction c (addr ++ [s]) f').res with
    | error e => trivial
    | ok p =>
        obtain ⟨hp, hkeys⟩ := (ih hf').of_ok hres
        refine ⟨hp, fun e => ?_⟩
        obtain ⟨m, hm, hkey⟩ := hstep e
        obtain ⟨n, hn, hkey'⟩ := hkeys e
        refine ⟨m + n, ?_, by rw [hkey', hkey, evenSearchLshift_add]⟩
        rw [List.countP_cons, Nat.mul_add, Nat.add_comm m n]
        refine Nat.add_le_add hn (Nat.le_trans hm (Nat.le_of_eq ?_))
        split <;> rfl

/-- A bitmap node on the first dimension, with the two children 0 and 32. -/
def pairTree : CTree :=
  .node 0 (.mb ⟨0x100000001#64, 0, 0⟩) [.leaf (Buffer.ofList []), .leaf (Buffer.ofList [])]

/-- A lookup in that tree shifts six bits out of the first key, and nothing else. -/
theorem walk_flow_pair :
    ∃ p, (walk treeFunction pairTree [] ⟨fun d => if d = 0 then 2 ^ 31 + 5 else 7⟩).res = .ok p ∧
      p.2.InRange ∧ p.2.key 0 = 5 * 2 ^ 6 ∧ p.2.key 1 = 7 := by
  have h := walk_flow pairTree [] ⟨fun d => if d = 0 then 2 ^ 31 + 5 else 7⟩ (by decide)
  exact ⟨_, rfl, (h.of_ok rfl).1, by decide, by decide⟩

end ChooseCut
