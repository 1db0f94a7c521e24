import Mathlib.Data.List.Basic
import ChooseCut.Lib.Fault

/-!
# ChooseCut.Lib.Buffer

Buffers of a fixed capacity, and the distribution of a stream of items over an
array of them.

`Buffer` keeps the element count and the capacity as the program stores them,
next to the slots written so far; nothing ties the three together, because code
that miscounts must be expressible. `Buffer.push` is the checked append. A whole
distribution is a list of `(target, item)` writes (`pushAll`), and its effect is
stated once here: every target ends with its own items, in the order in which
they were written, and the run succeeds exactly when no target is overfilled.
-/

namespace ChooseCut

variable {α : Type}

/-- A buffer: the stored element count, the stored capacity, the slots written. -/
structure Buffer (α : Type) where
  num : Nat
  cap : Nat
  items : List α
  deriving Repr, DecidableEq

namespace Buffer

/-- A freshly allocated buffer with room for `cap` items. -/
def alloc (cap : Nat) : Buffer α := ⟨0, cap, []⟩

/-- A full buffer that holds exactly `l`. -/
def ofList (l : List α) : Buffer α := ⟨l.length, l.length, l⟩

/-- Append with the check `num < cap`. -/
def push (b : Buffer α) (x : α) : Except Fault (Buffer α) :=
  if b.num < b.cap then .ok ⟨b.num + 1, b.cap, b.items ++ [x]⟩ else .error .assertion

/-- The buffer after the items of `l` have been appended. -/
def extend (b : Buffer α) (l : List α) : Buffer α :=
  ⟨b.num + l.length, b.cap, b.items ++ l⟩

@[simp] theorem extend_num (b : Buffer α) (l : List α) :
    (b.extend l).num = b.num + l.length := rfl
@[simp] theorem extend_cap (b : Buffer α) (l : List α) : (b.extend l).cap = b.cap := rfl
@[simp] theorem extend_items (b : Buffer α) (l : List α) :
    (b.extend l).items = b.items ++ l := rfl
@[simp] theorem extend_nil (b : Buffer α) : b.extend [] = b := by simp [extend]
@[simp] theorem alloc_num (n : Nat) : (alloc n : Buffer α).num = 0 := rfl
@[simp] theorem alloc_cap (n : Nat) : (alloc n : Buffer α).cap = n := rfl
@[simp] theorem alloc_items (n : Nat) : (alloc n : Buffer α).items = [] := rfl
@[simp] theorem ofList_num (l : List α) : (ofList l).num = l.length := rfl
@[simp] theorem ofList_cap (l : List α) : (ofList l).cap = l.length := rfl
@[simp] theorem ofList_items (l : List α) : (ofList l).items = l := rfl

theorem extend_extend (b : Buffer α) (l m : List α) :
    (b.extend l).extend m = b.extend (l ++ m) := by
  simp [extend, Nat.add_assoc]

theorem push_eq_ok {b b' : Buffer α} {x : α} :
    b.push x = .ok b' ↔ b.num < b.cap ∧ b' = b.extend [x] := by
  unfold push extend
  split <;> simp [*, eq_comm]

end Buffer

/-! ### Writes spread over an array of buffers -/

/-- Append `x` to the buffer in slot `s`. -/
def pushAt (bs : List (Buffer α)) (s : Nat) (x : α) : Except Fault (List (Buffer α)) :=
  match bs[s]? with
  | none => .error .wild
  | some b => do
      let b' ← b.push x
      .ok (bs.set s b')

/-- Perform a list of writes in order. -/
def pushAll (bs : List (Buffer α)) (ws : List (Nat × α)) : Except Fault (List (Buffer α)) :=
  ws.foldlM (fun bs w => pushAt bs w.1 w.2) bs

/-- The items a list of writes sends to slot `s`. -/
def sentTo (ws : List (Nat × α)) (s : Nat) : List α :=
  (ws.filter (fun w => w.1 = s)).map Prod.snd

@[simp] theorem sentTo_nil (s : Nat) : sentTo ([] : List (Nat × α)) s = [] := rfl

theorem sentTo_cons (w : Nat × α) (ws : List (Nat × α)) (s : Nat) :
    sentTo (w :: ws) s = (if w.1 = s then [w.2] else []) ++ sentTo ws s := by
  unfold sentTo
  rw [List.filter_cons]
  by_cases h : w.1 = s <;> simp [h]

theorem sentTo_append (ws vs : List (Nat × α)) (s : Nat) :
    sentTo (ws ++ vs) s = sentTo ws s ++ sentTo vs s := by
  simp [sentTo]

theorem sentTo_flatMap {β : Type} (l : List β) (f : β → List (Nat × α)) (s : Nat) :
    sentTo (l.flatMap f) s = l.flatMap (fun b => sentTo (f b) s) := by
  induction l with
  | nil => rfl
  | cons b l ih => rw [List.flatMap_cons, sentTo_append, ih, List.flatMap_cons]

/-- One write to each slot of a list without repetitions. -/
theorem sentTo_map_nodup {l : List Nat} (hl : l.Nodup) (g : Nat → α) (s : Nat) :
    sentTo (l.map (fun i => (i, g i))) s = if s ∈ l then [g s] else [] := by
  induction l with
  | nil => simp
  | cons i l ih =>
      obtain ⟨hnot, hnd⟩ := List.nodup_cons.mp hl
      rw [List.map_cons, sentTo_cons, ih hnd]
      by_cases h : i = s
      · subst h
        simp [hnot]
      · simp [h, Ne.symm h]

/-- One write: the target gains the item, the others are untouched. -/
theorem pushAt_eq_ok {bs bs' : List (Buffer α)} {s : Nat} {x : α} :
    pushAt bs s x = .ok bs' ↔
      ∃ b, bs[s]? = some b ∧ b.num < b.cap ∧ bs' = bs.set s (b.extend [x]) := by
  unfold pushAt
  cases h : bs[s]? with
  | none => simp
  | some b =>
      simp only [bind_eq_ok, Buffer.push_eq_ok, Option.some.injEq, Except.ok.injEq,
        exists_eq_left', and_assoc]
      constructor
      · rintro ⟨b', hlt, rfl, rfl⟩
        exact ⟨hlt, rfl⟩
      · rintro ⟨hlt, rfl⟩
        exact ⟨_, hlt, rfl, rfl⟩

/-- The array after a list of writes: slot `s` has gained `sentTo ws s`. -/
def extendAll (bs : List (Buffer α)) (ws : List (Nat × α)) : List (Buffer α) :=
  bs.mapIdx (fun s b => b.extend (sentTo ws s))

@[simp] theorem extendAll_length (bs : List (Buffer α)) (ws : List (Nat × α)) :
    (extendAll bs ws).length = bs.length := by simp [extendAll]

theorem extendAll_getElem? (bs : List (Buffer α)) (ws : List (Nat × α)) (s : Nat) :
    (extendAll bs ws)[s]? = (bs[s]?).map (fun b => b.extend (sentTo ws s)) := by
  simp [extendAll]

@[simp] theorem extendAll_nil (bs : List (Buffer α)) : extendAll bs [] = bs := by
  apply List.ext_getElem?
  intro s
  rw [extendAll_getElem?]
  simp

theorem extendAll_cons {bs : List (Buffer α)} {w : Nat × α} {b : Buffer α}
    (ws : List (Nat × α)) (hb : bs[w.1]? = some b) :
    extendAll (bs.set w.1 (b.extend [w.2])) ws = extendAll bs (w :: ws) := by
  apply List.ext_getElem?
  intro s
  rw [extendAll_getElem?, extendAll_getElem?, sentTo_cons, List.getElem?_set]
  obtain ⟨hlt, hget⟩ := List.getElem?_eq_some_iff.mp hb
  by_cases h : w.1 = s
  · subst h
    simp [hlt, hget, Buffer.extend_extend]
  · simp [h]

/-- **A distribution that succeeds** leaves in every slot what was there followed
by the items sent to it. -/
theorem pushAll_ok {ws : List (Nat × α)} : ∀ {bs bs' : List (Buffer α)},
    pushAll bs ws = .ok bs' → bs' = extendAll bs ws := by
  induction ws with
  | nil => intro bs bs' h; simpa [pushAll, pure, Except.pure, eq_comm] using h
  | cons w ws ih =>
      intro bs bs' h
      simp only [pushAll, List.foldlM_cons, bind_eq_ok, pushAt_eq_ok] at h
      obtain ⟨bs1, ⟨b, hb, -, rfl⟩, hrest⟩ := h
      rw [ih hrest, extendAll_cons ws hb]

/-- A distribution succeeds when every target exists and no slot is sent more
than its free room. -/
theorem pushAll_of_room {ws : List (Nat × α)} : ∀ {bs : List (Buffer α)},
    (∀ w ∈ ws, w.1 < bs.length) →
    (∀ s b, bs[s]? = some b → b.num + (sentTo ws s).length ≤ b.cap) →
    pushAll bs ws = .ok (extendAll bs ws) := by
  induction ws with
  | nil => intro bs _ _; simp [pushAll, pure, Except.pure]
  | cons w ws ih =>
      intro bs hlt hroom
      have hw : w.1 < bs.length := hlt w (by simp)
      have hb : bs[w.1]? = some bs[w.1] := List.getElem?_eq_getElem hw
      have hr := hroom w.1 _ hb
      rw [sentTo_cons, if_pos rfl] at hr
      simp only [List.length_append, List.length_cons, List.length_nil] at hr
      simp only [pushAll, List.foldlM_cons, bind_eq_ok, pushAt_eq_ok]
      refine ⟨_, ⟨_, hb, by omega, rfl⟩, ?_⟩
      rw [← extendAll_cons ws hb]
      refine @ih (bs.set w.1 (bs[w.1].extend [w.2])) ?_ ?_
      · intro v hv
        simpa using hlt v (by simp [hv])
      · intro s b hs
        rw [List.getElem?_set] at hs
        by_cases h : w.1 = s
        · subst h
          rw [if_pos rfl, if_pos hw] at hs
          obtain rfl := Option.some.inj hs
          simp only [Buffer.extend_num, Buffer.extend_cap, List.length_cons, List.length_nil]
          omega
        · rw [if_neg h] at hs
          have := hroom s b hs
          rw [sentTo_cons, if_neg h] at this
          simpa using this

end ChooseCut
