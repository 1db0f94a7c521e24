import ChooseCut.Lib.BinaryHeap
import ChooseCut.Lib.Fault
import ChooseCut.Lib.Sweep

/-!
# ChooseCut.Heap

The heap both sweeps keep their open ranges in (`ccan/heap/heap.c`, `heap.h`).

`struct heap` has `cap` slots of which the first `len` are in use. The slots behind
them are written before they are read, so `data` holds the used ones only, and its
length is part of its type. Allocation is taken to succeed; the room the heap asks for
is kept, because `heap_pop` gives some of it back.

What the functions do is said in terms of the contents, as a multiset: `heap_push` adds
its entry, `heap_pop` returns a least one and removes it. A whole run of pushes and pops
is then a run of a priority queue (`Serves`).
-/

namespace ChooseCut

variable {α : Type} {n : Nat}

/-- `struct heap`. -/
structure Heap (α : Type) where
  less : α → α → Bool
  len : Nat
  data : Vector α len
  cap : Nat

namespace Heap

theorem parent_lt {j : Nat} (hj : j < n) : (j - 1) / 2 < n := by
  omega

/-- `__up`. -/
def up (less : α → α → Bool) (v : Vector α n) (j : Nat) (hj : j < n) : Vector α n :=
  have hi : (j - 1) / 2 < n := parent_lt hj
  if j = 0 then v
  else if less v[j] v[(j - 1) / 2] then up less (v.swap ((j - 1) / 2) j) ((j - 1) / 2) hi
  else v
termination_by j

/-- The child `__down` compares with: of two the left one if it is less, else the right
one. -/
def minChild (less : α → α → Bool) (v : Vector α n) (i : Nat) (hl : 2 * i + 1 < n) : Fin n :=
  if hr : 2 * i + 2 < n then
    if less v[2 * i + 1] v[2 * i + 2] then ⟨2 * i + 1, hl⟩ else ⟨2 * i + 2, hr⟩
  else ⟨2 * i + 1, hl⟩

theorem minChild_gt (less : α → α → Bool) (v : Vector α n) (i : Nat) (hl : 2 * i + 1 < n) :
    i < (minChild less v i hl).val := by
  unfold minChild
  split
  · split <;> simp only <;> omega
  · simp only
    omega

/-- `__down`. -/
def down (less : α → α → Bool) (v : Vector α n) (i : Nat) (hi : i < n) : Vector α n :=
  if hl : 2 * i + 1 < n then
    let j := minChild less v i hl
    if less v[j] v[i] then down less (v.swap i j) j j.isLt else v
  else v
termination_by n - i
decreasing_by
  have := minChild_gt less v i hl
  omega

end Heap

/-- `HEAP_MEM_HYSTERESIS`. -/
def heapMemHysteresis : Nat := 4096

/-- `heap_init`. -/
def heapInit (less : α → α → Bool) : Heap α := ⟨less, 0, #v[], 0⟩

/-- `heap_push`. -/
def heapPush (h : Heap α) (x : α) : Heap α :=
  { less := h.less
    len := h.len + 1
    data := Heap.up h.less (h.data.push x) h.len (by omega)
    cap := if h.len = h.cap then h.cap + 1 else h.cap }

/-- `heap_peek`. -/
def heapPeek (h : Heap α) : Except Fault α :=
  if hlen : 0 < h.len then .ok h.data[0] else .error .overread

/-- `heap_pop`. The room is cut down to the entries when it exceeds them by exactly
`HEAP_MEM_HYSTERESIS`, unless the heap is empty. -/
def heapPop (h : Heap α) : Except Fault (α × Heap α) :=
  match h with
  | ⟨_, 0, _, _⟩ => .error .overread
  | ⟨less, n + 1, v, cap⟩ =>
      have hroot : 0 < n + 1 := Nat.succ_pos n
      have hlast : n < n + 1 := Nat.lt_succ_self n
      if hn : 0 < n then
        .ok (v[0], ⟨less, n, Heap.down less (v.swap 0 n).pop 0 hn,
          if n + heapMemHysteresis = cap then n else cap⟩)
      else .ok (v[0], ⟨less, n, (v.swap 0 n).pop, cap⟩)

/-! ### The two loops -/

namespace Heap

variable {less : α → α → Bool}

theorem up_perm (v : Vector α n) (j : Nat) (hj : j < n) :
    (up less v j hj).toList.Perm v.toList := by
  fun_induction up less v j hj with
  | case1 => exact .refl _
  | case2 v j _ _ _ _ ih => exact ih.trans (Vector.swap_perm _ _).toList
  | case3 => exact .refl _

/-- `__up` ends in a heap. -/
theorem up_isHeap (ho : StrictWeak less) {v : Vector α n} {j : Nat} {hj : j < n}
    (h : Rising less v j) : IsHeap less (up less v j hj) := by
  fun_induction up less v j hj with
  | case1 => exact h.finish (fun _ hpos => absurd hpos (by omega))
  | case2 v j hj hi hj0 hlt ih => exact ih (h.move ho hj (by omega) hlt)
  | case3 v j hj hi hj0 hlt => exact h.finish (fun _ _ => by simpa using hlt)

/-- The child compared with is a child, and no child is less. -/
theorem minChild_spec (ho : StrictWeak less) (v : Vector α n) (i : Nat) (hl : 2 * i + 1 < n) :
    0 < (minChild less v i hl).val ∧ ((minChild less v i hl).val - 1) / 2 = i ∧
      ∀ (k : Nat) (hk : k < n), 0 < k → (k - 1) / 2 = i →
        less v[k] v[minChild less v i hl] = false := by
  -- a child is the left or the right one
  have hchild : ∀ k, 0 < k → (k - 1) / 2 = i → k = 2 * i + 1 ∨ k = 2 * i + 2 := by omega
  unfold minChild
  split
  · split
    · next hr hlt =>
      refine ⟨by simp only; omega, by simp only; omega, fun k hk hk0 hpar => ?_⟩
      rcases hchild k hk0 hpar with rfl | rfl
      · exact ho.irrefl _
      · exact ho.asymm hlt
    · next hr hlt =>
      refine ⟨by simp only; omega, by simp only; omega, fun k hk hk0 hpar => ?_⟩
      rcases hchild k hk0 hpar with rfl | rfl
      · simpa using hlt
      · exact ho.irrefl _
  · next hr =>
    refine ⟨by simp only; omega, by simp only; omega, fun k hk hk0 hpar => ?_⟩
    obtain rfl : k = 2 * i + 1 := by omega
    exact ho.irrefl _

theorem down_perm (v : Vector α n) (i : Nat) (hi : i < n) :
    (down less v i hi).toList.Perm v.toList := by
  fun_induction down less v i hi with
  | case1 v i hi hl j hlt ih => exact ih.trans (Vector.swap_perm _ _).toList
  | case2 => exact .refl _
  | case3 => exact .refl _

/-- `__down` ends in a heap. -/
theorem down_isHeap (ho : StrictWeak less) {v : Vector α n} {i : Nat} {hi : i < n}
    (h : Sinking less v i) : IsHeap less (down less v i hi) := by
  fun_induction down less v i hi with
  | case1 v i hi hl j hlt ih =>
      obtain ⟨hpos, hpar, hmin⟩ := minChild_spec ho v i hl
      exact ih (h.move ho j.isLt hpos hpar hlt hmin)
  | case2 v i hi hl j hlt =>
      obtain ⟨-, -, hmin⟩ := minChild_spec ho v i hl
      exact h.finish (fun k hk hk0 hpar =>
        ho.trans (by simpa using hlt) (hmin k hk hk0 hpar))
  | case3 v i hi hl => exact h.finish (fun k hk hk0 hpar => absurd hk (by omega))

end Heap

/-! ### The operations -/

/-- The state between two calls: the entries form a heap and fit into the room. -/
structure Heap.Valid (h : Heap α) : Prop where
  weak : StrictWeak h.less
  order : IsHeap h.less h.data
  room : h.len ≤ h.cap

/-- The contents. -/
def Heap.entries (h : Heap α) : Multiset α := h.data.toList

theorem Heap.card_entries (h : Heap α) : h.entries.card = h.len := by
  simp [Heap.entries]

theorem heapInit_valid {less : α → α → Bool} (ho : StrictWeak less) : (heapInit less).Valid :=
  ⟨ho, .of_size_zero _, Nat.le_refl _⟩

/-- `heap_push` adds its entry. -/
theorem heapPush_spec {h : Heap α} (hv : h.Valid) (x : α) :
    (heapPush h x).Valid ∧ (heapPush h x).entries = x ::ₘ h.entries ∧
      (heapPush h x).less = h.less := by
  refine ⟨⟨hv.weak, Heap.up_isHeap hv.weak (hv.order.rising_push x), ?_⟩, ?_, rfl⟩
  · have hroom := hv.room
    unfold heapPush
    dsimp only
    split <;> omega
  · have hpush : (h.data.push x).toList.Perm (x :: h.data.toList) := by
      rw [Vector.toList_push]
      exact List.perm_append_singleton x _
    exact Multiset.coe_eq_coe.mpr ((Heap.up_perm _ _ _).trans hpush)

/-- `heap_pop` returns the entry `heap_peek` shows, which nothing is less than, and
removes it. -/
theorem heapPop_spec {h : Heap α} (hv : h.Valid) (hlen : 0 < h.len) :
    ∃ x h', heapPeek h = .ok x ∧ heapPop h = .ok (x, h') ∧ h'.Valid ∧ h'.less = h.less ∧
      h.entries = x ::ₘ h'.entries ∧ ∀ y ∈ h.entries, h.less y x = false := by
  obtain ⟨less, len, v, cap⟩ := h
  obtain ⟨ho, horder, hroom⟩ := hv
  cases len with
  | zero => exact absurd hlen (by simp)
  | succ n =>
    have hperm := root_cons_pop_perm v
    have hmin : ∀ y ∈ v.toList, less y v[0] = false :=
      fun y hy => IsHeap.root_of_mem ho horder hlen hy
    by_cases hn : 0 < n
    · refine ⟨v[0], ⟨less, n, Heap.down less (v.swap 0 n).pop 0 hn,
        if n + heapMemHysteresis = cap then n else cap⟩, by rw [heapPeek, dif_pos hlen],
        by rw [heapPop, dif_pos hn], ⟨ho, Heap.down_isHeap ho (IsHeap.sinking_pop horder), ?_⟩, rfl,
        ?_, hmin⟩
      · dsimp only at hroom ⊢
        split <;> omega
      · exact Multiset.coe_eq_coe.mpr
          (((Heap.down_perm (v.swap 0 n).pop 0 hn).cons v[0]).trans hperm).symm
    · obtain rfl : n = 0 := by omega
      exact ⟨v[0], ⟨less, 0, (v.swap 0 0).pop, cap⟩, by rw [heapPeek, dif_pos hlen],
        by rw [heapPop, dif_neg hn], ⟨ho, .of_size_zero _, Nat.zero_le _⟩, rfl,
        Multiset.coe_eq_coe.mpr hperm.symm, hmin⟩

/-- An empty heap has nothing to pop. -/
theorem heapPop_empty {h : Heap α} (hlen : h.len = 0) : heapPop h = .error .overread := by
  obtain ⟨less, len, v, cap⟩ := h
  obtain rfl : len = 0 := hlen
  rfl

/-! ### Runs -/

/-- A call made on a heap. -/
inductive HeapCall (α : Type)
  | push (x : α)
  | pop

/-- What a priority queue does: from the contents `m` the calls pop `out`, in this order,
and leave `m'`. A pop may take any entry that nothing present is less than. -/
inductive Serves (less : α → α → Bool) :
    Multiset α → List (HeapCall α) → List α → Multiset α → Prop
  | done (m : Multiset α) : Serves less m [] [] m
  | push {m m' : Multiset α} {x : α} {calls : List (HeapCall α)} {out : List α}
      (h : Serves less (x ::ₘ m) calls out m') : Serves less m (.push x :: calls) out m'
  | pop {m m' : Multiset α} {x : α} {calls : List (HeapCall α)} {out : List α}
      (hmin : ∀ y ∈ x ::ₘ m, less y x = false) (h : Serves less m calls out m') :
      Serves less (x ::ₘ m) (.pop :: calls) (x :: out) m'

/-- The calls made on `h` one after the other: the entries popped, and the heap
afterwards. -/
def heapRun (h : Heap α) : List (HeapCall α) → Except Fault (List α × Heap α)
  | [] => .ok ([], h)
  | .push x :: calls => heapRun (heapPush h x) calls
  | .pop :: calls => do
      let p ← heapPop h
      let q ← heapRun p.2 calls
      .ok (p.1 :: q.1, q.2)

/-- The calls of a run that stops: it has served the ones before a pop, and that pop
found nothing. -/
def PopsEmpty (less : α → α → Bool) (m : Multiset α) (calls : List (HeapCall α)) : Prop :=
  ∃ before out rest, calls = before ++ .pop :: rest ∧ Serves less m before out 0

theorem PopsEmpty.push {less : α → α → Bool} {m : Multiset α} {x : α}
    {calls : List (HeapCall α)} (h : PopsEmpty less (x ::ₘ m) calls) :
    PopsEmpty less m (.push x :: calls) := by
  obtain ⟨before, out, rest, rfl, hserves⟩ := h
  exact ⟨.push x :: before, out, rest, rfl, .push hserves⟩

theorem PopsEmpty.pop {less : α → α → Bool} {m : Multiset α} {x : α}
    {calls : List (HeapCall α)} (hmin : ∀ y ∈ x ::ₘ m, less y x = false)
    (h : PopsEmpty less m calls) : PopsEmpty less (x ::ₘ m) (.pop :: calls) := by
  obtain ⟨before, out, rest, rfl, hserves⟩ := h
  exact ⟨.pop :: before, x :: out, rest, rfl, .pop hmin hserves⟩

/-- A run from a valid heap. -/
theorem heapRun_spec (calls : List (HeapCall α)) : ∀ {h : Heap α}, h.Valid →
    Ends (fun q => q.2.Valid ∧ Serves h.less h.entries calls q.1 q.2.entries)
      (fun e => e = .overread ∧ PopsEmpty h.less h.entries calls) (heapRun h calls) := by
  induction calls with
  | nil => exact fun hv => ⟨hv, .done _⟩
  | cons call calls ih =>
      intro h hv
      cases call with
      | push x =>
          obtain ⟨hv', hentries, hless⟩ := heapPush_spec hv x
          have hrest := ih hv'
          rw [hentries, hless] at hrest
          rw [heapRun]
          cases hrun : heapRun (heapPush h x) calls with
          | ok q =>
              obtain ⟨hq, hserves⟩ := hrest.of_ok hrun
              exact ⟨hq, .push hserves⟩
          | error e =>
              obtain ⟨he, hempty⟩ := hrest.of_error hrun
              exact ⟨he, hempty.push⟩
      | pop =>
          rw [heapRun]
          by_cases hlen : 0 < h.len
          · obtain ⟨x, h', -, hpop, hv', hless, hentries, hmin⟩ := heapPop_spec hv hlen
            have hrest := ih hv'
            rw [hless] at hrest
            rw [hpop]
            rw [hentries] at hmin ⊢
            cases hrun : heapRun h' calls with
            | ok q =>
                obtain ⟨hq, hserves⟩ := hrest.of_ok hrun
                simp only [bind, Except.bind, hrun]
                exact ⟨hq, .pop hmin hserves⟩
            | error e =>
                obtain ⟨he, hempty⟩ := hrest.of_error hrun
                simp only [bind, Except.bind, hrun]
                exact ⟨he, hempty.pop hmin⟩
          · have hzero : h.entries = 0 := by
              rw [← Multiset.card_eq_zero, h.card_entries]
              omega
            rw [heapPop_empty (by omega), hzero]
            exact ⟨rfl, [], [], calls, rfl, .done 0⟩

/-- **The heap is a priority queue.** Whatever pushes and pops are made on a new heap,
every pop returns an entry that nothing in the heap is less than, the entries are those
pushed and not popped, they are in heap order and within the room; and a run stops
early only at a pop from the empty heap. -/
theorem heapRun_serves {less : α → α → Bool} (ho : StrictWeak less) (calls : List (HeapCall α)) :
    Ends (fun q => q.2.Valid ∧ Serves less 0 calls q.1 q.2.entries)
      (fun e => e = .overread ∧ PopsEmpty less 0 calls) (heapRun (heapInit less) calls) :=
  heapRun_spec calls (heapInit_valid ho)

/-- Three numbers pushed and two popped. -/
theorem heapRun_serves_numbers :
    ∃ h, heapRun (heapInit (fun a b : Nat => decide (a < b)))
        [.push 3, .push 1, .pop, .push 2, .pop] = .ok ([1, 2], h) ∧
      Serves (fun a b : Nat => decide (a < b)) 0 [.push 3, .push 1, .pop, .push 2, .pop] [1, 2]
        h.entries := by
  have hends := heapRun_serves (.of_key (fun a : Nat => a))
    [.push 3, .push 1, .pop, .push 2, .pop]
  have hout : (match heapRun (heapInit (fun a b : Nat => decide (a < b)))
      [.push 3, .push 1, .pop, .push 2, .pop] with
      | .ok q => decide (q.1 = [1, 2])
      | .error _ => false) = true := by decide +kernel
  split at hout
  · next q hrun =>
    obtain ⟨out, h⟩ := q
    obtain rfl : out = [1, 2] := by simpa using hout
    exact ⟨h, hrun, (hends.of_ok hrun).2⟩
  · cases hout

/-! ### The heap as an ordered queue -/

/-- A loop that pops while the top has the property `p`: the entries popped, and the heap
afterwards. Every round pops, so the length bounds the rounds. -/
def popLoop (p : α → Bool) : Nat → Heap α → Except Fault (List α × Heap α)
  | 0, h => .ok ([], h)
  | fuel + 1, h =>
      if h.len = 0 then .ok ([], h)
      else do
        let top ← heapPeek h
        if p top then do
          let q ← heapPop h
          let r ← popLoop p fuel q.2
          .ok (top :: r.1, r.2)
        else .ok ([], h)

/-- The loop on the whole heap. -/
def popWhile (p : α → Bool) (h : Heap α) : Except Fault (List α × Heap α) := popLoop p h.len h

/-- If whatever is not greater than an entry with `p` has `p`, the loop pops the entries
with `p` and leaves the others. -/
theorem popLoop_spec (p : α → Bool) : ∀ (fuel : Nat) {h : Heap α}, h.Valid → h.len ≤ fuel →
    (∀ x ∈ h.entries, ∀ y ∈ h.entries, h.less y x = false → p y = true → p x = true) →
    ∃ out h', popLoop p fuel h = .ok (out, h') ∧ h'.Valid ∧ h'.less = h.less ∧
      (out : Multiset α) = h.entries.filter (p ·) ∧ h'.entries = h.entries.filter (¬ p ·) := by
  intro fuel
  induction fuel with
  | zero =>
      intro h hv hlen _
      have hzero : h.entries = 0 := by
        rw [← Multiset.card_eq_zero, h.card_entries]
        omega
      exact ⟨[], h, rfl, hv, rfl, by simp [hzero], by simp [hzero]⟩
  | succ fuel ih =>
      intro h hv hlen hdown
      by_cases h0 : h.len = 0
      · have hzero : h.entries = 0 := by
          rw [← Multiset.card_eq_zero, h.card_entries, h0]
        exact ⟨[], h, by rw [popLoop, if_pos h0], hv, rfl, by simp [hzero], by simp [hzero]⟩
      · obtain ⟨x, h', hpeek, hpop, hv', hless, hentries, hmin⟩ := heapPop_spec hv (by omega)
        have hx : x ∈ h.entries := by rw [hentries]; exact Multiset.mem_cons_self x _
        rw [popLoop, if_neg h0, hpeek]
        by_cases hp : p x = true
        · have hlen' : h'.len ≤ fuel := by
            have := congrArg Multiset.card hentries
            rw [Multiset.card_cons, h.card_entries, h'.card_entries] at this
            omega
          have hsub : ∀ y ∈ h'.entries, y ∈ h.entries := fun y hy => by
            rw [hentries]
            exact Multiset.mem_cons_of_mem hy
          obtain ⟨out, h'', hrest, hv'', hless', hout, hleft⟩ := ih hv' hlen'
            (fun a ha b hb hab => hdown a (hsub a ha) b (hsub b hb) (hless ▸ hab))
          refine ⟨x :: out, h'', ?_, hv'', hless'.trans hless, ?_, ?_⟩
          · simp only [bind, Except.bind, hp, if_true, hpop, hrest]
          · rw [hentries, Multiset.filter_cons_of_pos (p := fun y => p y = true) _ hp,
              ← Multiset.cons_coe, hout]
          · rw [hentries, Multiset.filter_cons_of_neg (p := fun y => ¬ p y = true) _
              (not_not_intro hp), hleft]
        · -- nothing is less than the top, so nothing has the property
          have hnone : ∀ y ∈ h.entries, ¬ p y = true := fun y hy hpy =>
            hp (hdown x hx y hy (hmin y hy) hpy)
          refine ⟨[], h, ?_, hv, rfl, ?_, ?_⟩
          · simp only [bind, Except.bind, hp, if_false, Bool.false_eq_true]
          · rw [Multiset.filter_eq_nil.mpr hnone]
            rfl
          · rw [Multiset.filter_eq_self.mpr hnone]

/-- The heap, ordered by `key`, holds the entries of the ordered queue `q`. -/
structure Heap.Holds (key : α → Nat) (h : Heap α) (q : List α) : Prop where
  valid : h.Valid
  less : h.less = fun a b => decide (key a < key b)
  entries : h.entries = q
  ordered : Ordered key q

namespace Heap.Holds

variable {key : α → Nat} {h : Heap α} {q : List α}

theorem of_empty (hv : h.Valid) (hless : h.less = fun a b => decide (key a < key b))
    (hlen : h.len = 0) : h.Holds key [] :=
  ⟨hv, hless, by rw [Multiset.coe_nil, ← Multiset.card_eq_zero, h.card_entries, hlen],
    List.Pairwise.nil⟩

theorem len_eq (hh : h.Holds key q) : h.len = q.length := by
  rw [← h.card_entries, hh.entries, Multiset.coe_card]

/-- A sum over the slots does not depend on their order. -/
theorem sum_eq (hh : h.Holds key q) (w : α → Nat) :
    (h.data.toList.map w).sum = (q.map w).sum :=
  ((Multiset.coe_eq_coe.mp hh.entries).map w).sum_eq

theorem push (hh : h.Holds key q) (x : α) : (heapPush h x).Holds key (enqueue key x q) := by
  obtain ⟨hv, hentries, hless⟩ := heapPush_spec hh.valid x
  refine ⟨hv, hless.trans hh.less, ?_, hh.ordered.enqueue x⟩
  rw [hentries, hh.entries, Multiset.cons_coe]
  exact Multiset.coe_eq_coe.mpr (enqueue_perm key x q).symm

theorem pushAll (l : List α) : ∀ {h : Heap α} {q : List α}, h.Holds key q →
    (l.foldl heapPush h).Holds key (l.foldl (fun q x => enqueue key x q) q) := by
  induction l with
  | nil => exact fun hh => hh
  | cons x l ih => exact fun hh => ih (hh.push x)

/-- The top has the key of the queue's front. -/
theorem peek {top : α} {tl : List α} (hh : h.Holds key (top :: tl)) :
    ∃ x, heapPeek h = .ok x ∧ key x = key top := by
  obtain ⟨x, h', hpeek, -, -, -, hcons, hmin⟩ := heapPop_spec hh.valid
    (by rw [hh.len_eq]; exact Nat.succ_pos _)
  have hx : x ∈ h.entries := by rw [hcons]; exact Multiset.mem_cons_self x _
  rw [hh.entries] at hx hmin
  have hle := hh.ordered.head_le (Multiset.mem_coe.mp hx)
  have hge := hmin top (by simp)
  rw [hh.less, decide_eq_false_iff_not] at hge
  exact ⟨x, hpeek, by omega⟩

/-- The top leaves the heap when it is the only entry. -/
theorem pop_last {top : α} (hh : h.Holds key [top]) :
    ∃ h', heapPop h = .ok (top, h') ∧ h'.Holds key [] := by
  obtain ⟨x, h', -, hpop, hv', hless, hcons, -⟩ := heapPop_spec hh.valid
    (by rw [hh.len_eq]; exact Nat.one_pos)
  rw [hh.entries, Multiset.coe_singleton, ← Multiset.cons_zero, Multiset.cons_eq_cons] at hcons
  rcases hcons with ⟨rfl, hrest⟩ | ⟨-, cs, hz, -⟩
  · refine ⟨h', hpop, .of_empty hv' (hless.trans hh.less) ?_⟩
    rw [← h'.card_entries, ← hrest, Multiset.card_zero]
  · exact absurd hz.symm (Multiset.cons_ne_zero)

/-- A loop whose condition on the entries is to end before `t` pops just these. -/
theorem popWhile_of (hh : h.Holds key q) {p : α → Bool} {t : Nat}
    (hp : ∀ x ∈ q, p x = decide (key x < t)) :
    ∃ out h', popWhile p h = .ok (out, h') ∧ out.Perm (q.takeWhile (fun x => key x < t)) ∧
      h'.Holds key (q.dropWhile (fun x => key x < t)) := by
  obtain ⟨out, h', hloop, hv', hless, hout, hleft⟩ :=
    popLoop_spec p h.len hh.valid (Nat.le_refl _) (by
      rw [hh.entries, hh.less]
      intro x hx y hy hyx hpy
      rw [hp y hy, decide_eq_true_eq] at hpy
      rw [hp x hx, decide_eq_true_eq]
      simp only [decide_eq_false_iff_not] at hyx
      omega)
  rw [hh.entries, Multiset.filter_coe] at hout hleft
  refine ⟨out, h', hloop, ?_, hv', hless.trans hh.less, ?_,
    hh.ordered.sublist (List.dropWhile_sublist _)⟩
  · rw [hh.ordered.takeWhile_lt]
    refine (Multiset.coe_eq_coe.mp hout).trans (List.Perm.of_eq (List.filter_congr ?_))
    intro x hx
    simp [hp x hx]
  · rw [hh.ordered.dropWhile_lt, hleft]
    refine congrArg _ (List.filter_congr ?_)
    intro x hx
    simp [hp x hx]

/-- The loop pops what ends at `e`, when nothing ends before. -/
theorem popWhile_eq (hh : h.Holds key q) {e : Nat} (hge : ∀ x ∈ q, e ≤ key x) :
    ∃ out h', popWhile (fun x => key x = e) h = .ok (out, h') ∧
      out.Perm (q.takeWhile (fun x => key x = e)) ∧
      h'.Holds key (q.dropWhile (fun x => key x = e)) := by
  obtain ⟨htake, hdrop⟩ := takeWhile_eq_lt key hge
  rw [htake, hdrop]
  refine hh.popWhile_of (fun x hx => decide_eq_decide.mpr ?_)
  have := hge x hx
  omega

end Heap.Holds

end ChooseCut
