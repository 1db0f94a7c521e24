import ChooseCut.CutBitmap
import ChooseCut.FilterFileSound

/-!
# ChooseCut.FilterFileFits

Which files give rules the tree builder can work with.

The builder relies on non-empty ranges that fit their dimension. The reader checks none
of this: `textFields` lists the numbers of the filters of a text as the `fscanf` calls
read them, and a file that is read to its end gives fitting rules exactly when there
are at most `MAXFILTERS` filters and their port and protocol numbers are in order.
Addresses always are: a mask length above 32 does not get that far.
-/

namespace ChooseCut

/-! ### The numbers of a file -/

/-- The numbers of a filter. -/
structure FilterFields where
  src : IpFields
  dst : IpFields
  sport : Range
  dport : Range
  proto : ProtoFields

/-- The `fscanf` calls for one filter, without the arithmetic between them. -/
def readFields (s : Stream) : Except ReadFault (FilterFields × Stream) := do
  let src ← readIpFields s
  let dst ← readIpFields src.2
  let sport ← readPort dst.2
  let dport ← readPort sport.2
  let proto ← readProtoFields dport.2
  .ok (⟨src.1, dst.1, sport.1, dport.1, proto.1⟩, proto.2)

/-- The numbers of the filters from a position of the file on, up to the end or to a
filter with an ill-formed field. -/
def fieldsFrom (junk : Nat → Char) : Nat → Stream → Nat → List FilterFields
  | 0, _, _ => []
  | fuel + 1, s, line =>
      match if s.eof then none else seekFilter s.rest (junk line) with
      | none => []
      | some s =>
          match readFields s with
          | .ok p => p.1 :: fieldsFrom junk fuel p.2 (line + 1)
          | .error _ => []

/-- The numbers of the filters of a text. -/
def textFields (junk : Nat → Char) (text : List Char) : List FilterFields :=
  fieldsFrom junk (text.length + 2) ⟨text, false⟩ 0

/-- The port ranges are in order and of 16 bits, and a protocol that is not masked out is
of 8 bits. -/
def FilterFields.Fits (f : FilterFields) : Prop :=
  (f.sport.lo ≤ f.sport.hi ∧ f.sport.hi < 2 ^ 16) ∧ (f.dport.lo ≤ f.dport.hi ∧ f.dport.hi < 2 ^ 16) ∧
    (f.proto.len = 0xff → f.proto.proto < 2 ^ 8)

instance (f : FilterFields) : Decidable f.Fits := inferInstanceAs (Decidable (_ ∧ _ ∧ _))

/-! ### One filter -/

theorem toUnsigned_lt (v : Int) : toUnsigned v < 2 ^ 32 := by
  unfold toUnsigned
  omega

/-- The numbers of an address are words. -/
theorem readIpFields_lt {s : Stream} {p : IpFields × Stream} (h : readIpFields s = .ok p) :
    (∀ i, p.1.octet i < 2 ^ 32) ∧ p.1.len < 2 ^ 32 := by
  unfold readIpFields at h
  split at h
  · have hoct : ∀ a b c d : Int, ∀ i : Fin 4,
        ![toUnsigned a, toUnsigned b, toUnsigned c, toUnsigned d] i < 2 ^ 32 := by
      intro a b c d i
      match i with
      | 0 | 1 | 2 | 3 => exact toUnsigned_lt _
    dsimp only at h
    split at h
    · split at h
      · obtain rfl := Except.ok.inj h
        exact ⟨hoct _ _ _ _, show 32 < 2 ^ 32 by decide⟩
      · split at h
        · obtain rfl := Except.ok.inj h
          exact ⟨hoct _ _ _ _, toUnsigned_lt _⟩
        · cases h
    · cases h
  · cases h

/-- What is stored for the numbers of a filter. -/
structure Stored (f : FilterFields) (g : Filter) : Prop where
  src_lt : (∀ i, f.src.octet i < 2 ^ 32) ∧ f.src.len < 2 ^ 32
  dst_lt : (∀ i, f.dst.octet i < 2 ^ 32) ∧ f.dst.len < 2 ^ 32
  src : ipRange f.src = .ok (g.dim 0)
  dst : ipRange f.dst = .ok (g.dim 1)
  sport : g.dim 2 = f.sport
  dport : g.dim 3 = f.dport
  proto : g.dim 4 = protoRange f.proto

/-- An address that is stored fits its dimension. -/
theorem ipRange_fits {f : IpFields} {r : Range} {d : Dim} (hd : dimBits d = 32)
    (hlt : (∀ i, f.octet i < 2 ^ 32) ∧ f.len < 2 ^ 32) (h : ipRange f = .ok r) : r.Fits d := by
  rcases Nat.lt_or_ge 32 f.len with hlen | hlen
  · rw [ipRange_wild hlt.2 hlen] at h
    cases h
  · obtain ⟨x, heq, -, hroom, -⟩ := ipRange_eq hlt.1 hlen
    rw [heq] at h
    obtain rfl := Except.ok.inj h
    have hpos := Nat.two_pow_pos (32 - f.len)
    rw [Range.Fits, hd]
    dsimp only
    omega

/-- **A rule fits exactly when the port and protocol numbers of its filter do.** -/
theorem Stored.fits_iff {f : FilterFields} {g : Filter} (h : Stored f g) :
    g.toRule.Fits ↔ f.Fits := by
  have h0 := ipRange_fits (d := 0) rfl h.src_lt h.src
  have h1 := ipRange_fits (d := 1) rfl h.dst_lt h.dst
  have hproto : (g.dim 4).Fits 4 ↔ (f.proto.len = 0xff → f.proto.proto < 2 ^ 8) := by
    rw [h.proto, protoRange, Range.Fits]
    split
    · rename_i hm
      exact ⟨fun hp _ => hp.2, fun hp => ⟨Nat.le_refl _, hp hm⟩⟩
    · rename_i hm
      exact ⟨fun _ hm' => absurd hm' hm, fun _ => by decide⟩
  have hsport : (g.dim 2).Fits 2 ↔ (f.sport.lo ≤ f.sport.hi ∧ f.sport.hi < 2 ^ 16) := by
    rw [h.sport]
    rfl
  have hdport : (g.dim 3).Fits 3 ↔ (f.dport.lo ≤ f.dport.hi ∧ f.dport.hi < 2 ^ 16) := by
    rw [h.dport]
    rfl
  constructor
  · intro hfit
    exact ⟨hsport.mp (hfit 2), hdport.mp (hfit 3), hproto.mp (hfit 4)⟩
  · intro hfit d
    match d with
    | 0 => exact h0
    | 1 => exact h1
    | 2 => exact hsport.mpr hfit.1
    | 3 => exact hdport.mpr hfit.2.1
    | 4 => exact hproto.mpr hfit.2.2

theorem readIPRange_eq_ok {s : Stream} {p : Range × Stream} (h : readIPRange s = .ok p) :
    ∃ f, readIpFields s = .ok (f, p.2) ∧ ipRange f = .ok p.1 := by
  obtain ⟨f, hf, h⟩ := bind_eq_ok.mp h
  obtain ⟨r, hr, h⟩ := bind_eq_ok.mp h
  obtain rfl := Except.ok.inj h
  exact ⟨f.1, hf, hr⟩

theorem readProtocol_eq_ok {s : Stream} {p : Range × Stream} (h : readProtocol s = .ok p) :
    ∃ f, readProtoFields s = .ok (f, p.2) ∧ p.1 = protoRange f := by
  obtain ⟨f, hf, h⟩ := bind_eq_ok.mp h
  obtain rfl := Except.ok.inj h
  exact ⟨f.1, hf, rfl⟩

/-- **What is stored follows from the numbers read.** -/
theorem readDims_stored {s : Stream} {p : (Dim → Range) × Stream} (h : readDims s = .ok p)
    (cost : Nat) : ∃ f, readFields s = .ok (f, p.2) ∧ Stored f ⟨cost, p.1⟩ := by
  obtain ⟨sip, hsip, h⟩ := bind_eq_ok.mp h
  obtain ⟨dip, hdip, h⟩ := bind_eq_ok.mp h
  obtain ⟨sport, hsport, h⟩ := bind_eq_ok.mp h
  obtain ⟨dport, hdport, h⟩ := bind_eq_ok.mp h
  obtain ⟨proto, hproto, h⟩ := bind_eq_ok.mp h
  obtain rfl := Except.ok.inj h
  obtain ⟨src, hsrc, hsrange⟩ := readIPRange_eq_ok hsip
  obtain ⟨dst, hdst, hdrange⟩ := readIPRange_eq_ok hdip
  obtain ⟨pf, hpf, hprange⟩ := readProtocol_eq_ok hproto
  refine ⟨⟨src, dst, sport.1, dport.1, pf⟩, ?_, ?_⟩
  · simp only [readFields, hsrc, hdst, hsport, hdport, hpf, bind, Except.bind]
  · exact ⟨readIpFields_lt hsrc, readIpFields_lt hdst, hsrange, hdrange, rfl, rfl, hprange⟩

/-- A fault that ends the reader before anything is stored. -/
def ReadFault.Early (e : ReadFault) : Prop := e = .wild ∨ ∃ what, e = .illFormat what

theorem readIPRange_error {s : Stream} {e : ReadFault} (h : readIPRange s = .error e) : e.Early := by
  rcases bind_eq_error.mp h with h | ⟨f, -, h⟩
  · unfold readIpFields at h
    split at h
    · dsimp only at h
      split at h
      · split at h
        · cases h
        · split at h
          · cases h
          · exact Or.inr ⟨_, (Except.error.inj h).symm⟩
      · exact Or.inr ⟨_, (Except.error.inj h).symm⟩
    · exact Or.inr ⟨_, (Except.error.inj h).symm⟩
  · rcases bind_eq_error.mp h with h | ⟨r, -, h⟩
    · unfold ipRange at h
      dsimp only at h
      split at h
      · exact Or.inl (Except.error.inj h).symm
      · cases h
    · cases h

theorem readPort_error {s : Stream} {e : ReadFault} (h : readPort s = .error e) : e.Early := by
  unfold readPort at h
  split at h
  · cases h
  · exact Or.inr ⟨_, (Except.error.inj h).symm⟩

theorem readProtocol_error {s : Stream} {e : ReadFault} (h : readProtocol s = .error e) : e.Early := by
  rcases bind_eq_error.mp h with h | ⟨f, -, h⟩
  · unfold readProtoFields at h
    split at h
    · cases h
    · exact Or.inr ⟨_, (Except.error.inj h).symm⟩
  · cases h

theorem readDims_error {s : Stream} {e : ReadFault} (h : readDims s = .error e) : e.Early := by
  rcases bind_eq_error.mp h with h | ⟨sip, -, h⟩
  · exact readIPRange_error h
  rcases bind_eq_error.mp h with h | ⟨dip, -, h⟩
  · exact readIPRange_error h
  rcases bind_eq_error.mp h with h | ⟨sport, -, h⟩
  · exact readPort_error h
  rcases bind_eq_error.mp h with h | ⟨dport, -, h⟩
  · exact readPort_error h
  rcases bind_eq_error.mp h with h | ⟨proto, -, h⟩
  · exact readProtocol_error h
  cases h

/-! ### Every call reads on -/

theorem readIpFields_rest_le {s : Stream} {p : IpFields × Stream} (h : readIpFields s = .ok p) :
    p.2.rest.length ≤ s.rest.length := by
  unfold readIpFields at h
  split at h
  · rename_i a b c d s1 h1
    have hle1 := fscanf_rest_le [.dec, .lit '.', .dec, .lit '.', .dec, .lit '.', .dec] s
    rw [h1] at hle1
    dsimp only at h
    split at h
    · rename_i slash s2 h2
      have hle2 := fscanf_rest_le [.chr] s1
      rw [h2] at hle2
      split at h
      · obtain rfl := Except.ok.inj h
        exact Nat.le_trans hle2 hle1
      · split at h
        · rename_i mask s3 h3
          have hle3 := fscanf_rest_le [.dec] s2
          rw [h3] at hle3
          obtain rfl := Except.ok.inj h
          exact Nat.le_trans hle3 (Nat.le_trans hle2 hle1)
        · cases h
    · cases h
  · cases h

theorem readPort_rest_le {s : Stream} {p : Range × Stream} (h : readPort s = .ok p) :
    p.2.rest.length ≤ s.rest.length := by
  have hle := fscanf_rest_le [.dec, .space, .lit ':', .space, .dec] s
  unfold readPort at h
  split at h
  · rename_i a b s1 h1
    rw [h1] at hle
    obtain rfl := Except.ok.inj h
    exact hle
  · cases h

theorem readProtoFields_rest_le {s : Stream} {p : ProtoFields × Stream}
    (h : readProtoFields s = .ok p) : p.2.rest.length ≤ s.rest.length := by
  have hle := fscanf_rest_le [.space, .chr, .chr, .hex, .chr, .chr, .chr, .hex] s
  unfold readProtoFields at h
  split at h
  · rename_i s1 h1
    rw [h1] at hle
    obtain rfl := Except.ok.inj h
    exact hle
  · cases h

theorem readFields_rest_le {s : Stream} {p : FilterFields × Stream} (h : readFields s = .ok p) :
    p.2.rest.length ≤ s.rest.length := by
  obtain ⟨src, hsrc, h⟩ := bind_eq_ok.mp h
  obtain ⟨dst, hdst, h⟩ := bind_eq_ok.mp h
  obtain ⟨sport, hsport, h⟩ := bind_eq_ok.mp h
  obtain ⟨dport, hdport, h⟩ := bind_eq_ok.mp h
  obtain ⟨proto, hproto, h⟩ := bind_eq_ok.mp h
  obtain rfl := Except.ok.inj h
  calc proto.2.rest.length
      ≤ dport.2.rest.length := readProtoFields_rest_le hproto
    _ ≤ sport.2.rest.length := readPort_rest_le hdport
    _ ≤ dst.2.rest.length := readPort_rest_le hsport
    _ ≤ src.2.rest.length := readIpFields_rest_le hdst
    _ ≤ s.rest.length := readIpFields_rest_le hsrc

/-- The `@` is consumed. -/
theorem seekFilter_rest_lt {cs : List Char} : ∀ {valid : Char} {s : Stream},
    seekFilter cs valid = some s → cs ≠ [] → s.rest.length < cs.length := by
  induction cs with
  | nil => exact fun _ hne => absurd rfl hne
  | cons c cs ih =>
      intro valid s h _
      rw [seekFilter] at h
      split at h
      · obtain rfl := Option.some.inj h
        exact Nat.lt_succ_self _
      · rename_i hc
        cases cs with
        | nil =>
            rw [seekFilter, if_neg hc] at h
            cases h
        | cons c' cs => exact Nat.lt_succ_of_lt (ih h (by simp))

/-- A call of `ReadFilter` that reads fields has read the `@`: at the end of the file there
are none. -/
theorem readFields_seek_rest_lt {junk : Char} {cs : List Char} {s' : Stream}
    {p : FilterFields × Stream} (hseek : seekFilter cs junk = some s') (hf : readFields s' = .ok p) :
    p.2.rest.length < cs.length := by
  have hle : p.2.rest.length ≤ s'.rest.length := readFields_rest_le hf
  have hne : cs ≠ [] := by
    rintro rfl
    rw [seekFilter] at hseek
    split at hseek
    · obtain rfl := Option.some.inj hseek
      cases hf
    · cases hseek
  exact Nat.lt_of_le_of_lt hle (seekFilter_rest_lt hseek hne)

/-! ### The whole file -/

/-- One call of `ReadFilter`: it ends at the end of the file, it ends early, or it reads a
filter and stores it if there is room. -/
theorem readFilter_cases (junk : Char) (s : Stream) (filtset : List Filter) (cost : Nat) :
    ((if s.eof then none else seekFilter s.rest junk) = none ∧
        readFilter junk s filtset cost = .ok (filtset, ⟨[], true⟩)) ∨
      ∃ s', (if s.eof then none else seekFilter s.rest junk) = some s' ∧
        ((∃ e, e.Early ∧ readFilter junk s filtset cost = .error e) ∨
          ∃ f dims t, readFields s' = .ok (f, t) ∧ Stored f ⟨cost, dims⟩ ∧
            readFilter junk s filtset cost =
              if filtset.length < maxFilters then .ok (filtset ++ [⟨cost, dims⟩], t)
              else .error .overrun) := by
  unfold readFilter
  cases hseek : (if s.eof then none else seekFilter s.rest junk) with
  | none => exact Or.inl ⟨rfl, rfl⟩
  | some s' =>
      refine Or.inr ⟨s', rfl, ?_⟩
      cases hdims : readDims s' with
      | error e => exact Or.inl ⟨e, readDims_error hdims, by simp [hdims, bind, Except.bind]⟩
      | ok p =>
          obtain ⟨f, hf, hstored⟩ := readDims_stored hdims cost
          exact Or.inr ⟨f, p.1, p.2, hf, hstored, by simp [hdims, bind, Except.bind]⟩

/-- **The loop over the file.** It ends early, or it stores a filter for the numbers of
every filter of the text, as long as there is room for them. With more turns allowed
than characters left it does not run out of turns. -/
theorem loadFilters_cases (junk : Nat → Char) : ∀ (fuel : Nat) (s : Stream) (line : Nat)
    (filtset : List Filter), s.rest.length + 2 ≤ fuel + (if s.eof then 1 else 0) →
      filtset.length ≤ maxFilters →
      (∃ e, e.Early ∧ loadFilters junk fuel s line filtset = .error e) ∨
      (maxFilters < filtset.length + (fieldsFrom junk fuel s line).length ∧
        loadFilters junk fuel s line filtset = .error .overrun) ∨
      ∃ gs, loadFilters junk fuel s line filtset = .ok (filtset ++ gs) ∧
        List.Forall₂ Stored (fieldsFrom junk fuel s line) gs ∧
        filtset.length + gs.length ≤ maxFilters := by
  intro fuel
  induction fuel with
  | zero =>
      intro s line filtset hfuel _
      split at hfuel <;> omega
  | succ fuel ih =>
      intro s line filtset hfuel hroom
      rw [loadFilters, fieldsFrom]
      cases heof : s.eof with
      | true =>
          exact Or.inr (Or.inr ⟨[], by simp, by simp, by simpa using hroom⟩)
      | false =>
          rw [heof] at hfuel
          simp only [Bool.false_eq_true, if_false] at hfuel ⊢
          rcases readFilter_cases (junk line) s filtset line with ⟨hseek, hread⟩ | ⟨s', hseek, hread⟩
          · rw [heof] at hseek
            simp only [Bool.false_eq_true, if_false] at hseek
            obtain ⟨fuel, rfl⟩ : ∃ n, fuel = n + 1 := ⟨fuel - 1, by omega⟩
            refine Or.inr (Or.inr ⟨[], ?_, by simp [hseek], by simpa using hroom⟩)
            simp [hread, loadFilters, bind, Except.bind]
          · rw [heof] at hseek
            simp only [Bool.false_eq_true, if_false] at hseek
            rw [hseek]
            dsimp only
            rcases hread with ⟨e, he, hread⟩ | ⟨f, dims, t, hf, hstored, hread⟩
            · exact Or.inl ⟨e, he, by simp [hread, bind, Except.bind]⟩
            · have hlt : t.rest.length < s.rest.length := readFields_seek_rest_lt hseek hf
              rw [hf, hread]
              dsimp only
              by_cases hfull : filtset.length < maxFilters
              · rw [if_pos hfull]
                rcases ih t (line + 1) (filtset ++ [⟨line, dims⟩]) (by split <;> omega)
                  (by rw [List.length_append, List.length_singleton]; omega) with
                  ⟨e, he, hrest⟩ | ⟨hmore, hrest⟩ | ⟨gs, hrest, hall, hgs⟩
                · exact Or.inl ⟨e, he, hrest⟩
                · refine Or.inr (Or.inl ⟨?_, hrest⟩)
                  rw [List.length_append, List.length_singleton] at hmore
                  rw [List.length_cons]
                  omega
                · refine Or.inr (Or.inr ⟨⟨line, dims⟩ :: gs, ?_, List.Forall₂.cons hstored hall, ?_⟩)
                  · rw [List.append_assoc] at hrest
                    exact hrest
                  · rw [List.length_append, List.length_singleton] at hgs
                    rw [List.length_cons]
                    omega
              · rw [if_neg hfull]
                refine Or.inr (Or.inl ⟨?_, rfl⟩)
                rw [List.length_cons]
                omega

/-- Filters stored one by one for a list of numbers give fitting rules exactly when all the
numbers fit. -/
theorem forall_fits_iff {fs : List FilterFields} {gs : List Filter} (h : List.Forall₂ Stored fs gs) :
    (∀ r ∈ gs.map Filter.toRule, r.Fits) ↔ ∀ f ∈ fs, f.Fits := by
  induction h with
  | nil => simp
  | cons hstored _ ih => simp [hstored.fits_iff, ← ih]

/-- A file with one filter whose numbers fit. -/
def fittingText : List Char := "@1.2.3.4/32\t5.6.7.8/24\t0 : 65535\t80 : 80\t0x06/0xFF\t\n".toList

/-- A file with one filter: the source ports in the wrong order, a destination port of 17
bits and a protocol of 9 bits. -/
def unfitText : List Char := "@1.2.3.4/32\t5.6.7.8/32\t5 : 3\t0 : 65536\t0x1FF/0xFF\t\n".toList

end ChooseCut
