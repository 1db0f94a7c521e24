import ChooseCut.Classify
import ChooseCut.CompactOutcome

/-!
# ChooseCut.Main

The whole program (`main.c`): read the rule file, build the tree, print its numbers, copy
it into an array, compare tree and linear search on random flows, and time the lookups.

`sample_rules` draws its flows from the rules, a fixed number for each. The numbers `rand`
returns are an argument, indexed by the calls made so far, so that the statements are about
every sequence of them. The command line, the clock and what is printed about the tree
beyond the counters are left out.

The expression that draws a key divides by the number of values of the range in 64 bits.
That number is zero for a range whose low end is one above its high end, which the reader
lets through: `sampleRules_divide_iff`.
-/

namespace ChooseCut

/-- The ways the program stops without a result. -/
inductive MainFault
  /-- In the reader. -/
  | read (e : ReadFault)
  /-- Behind the reader. -/
  | run (e : Fault)
  /-- A remainder by zero. -/
  | divide
  deriving DecidableEq

/-- A part of the program behind the reader. -/
def ofRun {α : Type} : Except Fault α → Except MainFault α
  | .ok a => .ok a
  | .error e => .error (.run e)

/-! ### Sampling -/

/-- The numbers `rand` returns, call by call. -/
abbrev Rand := Nat → Nat

/-- The number of values of a range, as `sample_rules` computes it in 64 bits. -/
def spanOf (r : Range) : Nat := ((r.hi + 2 ^ 64 - r.lo) % 2 ^ 64 + 1) % 2 ^ 64

/-- The key drawn from a range with the number `x`. -/
def drawKey (r : Range) (x : Nat) : Nat := (x % spanOf r + r.lo) % 2 ^ 64 % 2 ^ 32

/-- The innermost statement of `sample_rules`. -/
def sampleKey (rand : Rand) (r : Rule) (calls : Nat) (f : Flow) (k : Dim) :
    Except MainFault Flow :=
  if spanOf (r.range k) = 0 then .error .divide
  else .ok (f.setKey k (drawKey (r.range k) (rand (calls + k.val))))

/-- The loop over the dimensions, on the zeroed flow. -/
def sampleFlow (rand : Rand) (r : Rule) (calls : Nat) : Except MainFault Flow :=
  (List.finRange 5).foldlM (sampleKey rand r calls) ⟨fun _ => 0⟩

/-- The loop over the samples of a rule. -/
def sampleRule (rand : Rand) (r : Rule) : Nat → Nat → Except MainFault (List Flow)
  | 0, _ => .ok []
  | n + 1, calls => do
      let f ← sampleFlow rand r calls
      let fs ← sampleRule rand r n (calls + 5)
      .ok (f :: fs)

/-- The loop over the rules: the flows, and the calls of `rand` made. -/
def sampleLoop (rand : Rand) (cnt : Nat) : List Rule → Nat → Except MainFault (List Flow × Nat)
  | [], calls => .ok ([], calls)
  | r :: rs, calls => do
      let fs ← sampleRule rand r cnt calls
      let p ← sampleLoop rand cnt rs (calls + 5 * cnt)
      .ok (fs ++ p.1, p.2)

/-- `sample_rules`. -/
def sampleRules (rand : Rand) (rs : RuleSet) (cnt calls : Nat) :
    Except MainFault (List Flow × Nat) :=
  if rs.items.length < rs.num then .error (.run .overread)
  else sampleLoop rand cnt (rs.items.take rs.num) calls

/-! ### Testing and timing -/

/-- What `sample_testing` prints. -/
inductive TestLine
  | hello
  | error (pri lpri : Int) (rule i : Nat)
  deriving DecidableEq

/-- The text of a line. -/
def TestLine.text : TestLine → String
  | .hello => "HELLO"
  | .error pri lpri rule i => s!"error sample testing, pri {pri} lpri {lpri} rule {rule} i {i}\n"

/-- `sample_cnt`. -/
def sampleCnt : Nat := 100

/-- The body of the loop of `sample_testing`. -/
def testFlow (root : CTree) (rs : RuleSet) (i : Nat) (f : Flow) : Except Fault (List TestLine) := do
  let hello := if i = 47028 then [TestLine.hello] else []
  let lpri ← lsearch rs f
  let pri ← search root f
  .ok (hello ++ if pri ≠ lpri then [.error pri lpri (i / 100) i] else [])

/-- The loop of `sample_testing`, from flow number `i` on. -/
def testLoop (root : CTree) (rs : RuleSet) : Nat → List Flow → Except Fault (List TestLine)
  | _, [] => .ok []
  | i, f :: fs => do
      let here ← testFlow root rs i f
      let rest ← testLoop root rs (i + 1) fs
      .ok (here ++ rest)

/-- The loop of `sample_perf`: the numbers its lookups return. They start at element 0 of
the array, where each may take `turns` turns. -/
def perfLoop (root : CTree) (ct : CtArray) (turns : Nat) : List Flow → Except Fault (List Int)
  | [] => .ok []
  | f :: fs => do
      let pri ← (searchFrom root ct turns (.item ct.block 0) f).res
      let rest ← perfLoop root ct turns fs
      .ok (pri :: rest)

/-! ### The program -/

/-- `rule_set_copy`. -/
def ruleSetCopy (src : RuleSet) : Except Fault RuleSet :=
  if src.items.length < src.num then .error .overread
  else .ok ⟨src.num, src.num, src.items.take src.num⟩

/-- What the program has found out when it ends. -/
structure Report where
  info : CTreeInfo
  ct : CtArray
  lines : List TestLine
  perf : List Int

/-- `main`, on the text of the file. `aux` are the contents of the uninitialised scratch
area, `junk` those of a local variable of the reader. -/
def main (K : Type) [CostArith K] (junk : Nat → Char) (rand : Rand) (fuel turns : Nat)
    (aux : CutAux) (text : List Char) : Except MainFault Report := do
  let ruleset ← match readFilterFile junk text with
    | .ok rs => .ok rs
    | .error e => .error (.read e)
  let copy ← ofRun (ruleSetCopy ruleset)
  let root ← ofRun (cut K fuel aux copy.items).res
  let info ← ofRun (getTreeInfo root.1)
  let ct ← ofRun (compact root.1)
  let f ← sampleRules rand ruleset sampleCnt 0
  let lines ← ofRun (testLoop root.1 ruleset 0 f.1)
  let f ← sampleRules rand ruleset sampleCnt f.2
  let perf ← ofRun (perfLoop root.1 ct turns f.1)
  .ok ⟨info, ct, lines, perf⟩

/-! ### Samples -/

/-- The range has, in 64 bits, no value: its low end is one above its high end. -/
def Range.Void (r : Range) : Prop := r.lo = r.hi + 1

instance (r : Range) : Decidable r.Void := inferInstanceAs (Decidable (_ = _))

/-- Both ends of every range are words. -/
def Rule.Words (r : Rule) : Prop := ∀ d, (r.range d).lo < 2 ^ 32 ∧ (r.range d).hi < 2 ^ 32

theorem spanOf_eq_zero {r : Range} (hlo : r.lo < 2 ^ 32) (hhi : r.hi < 2 ^ 32) :
    spanOf r = 0 ↔ r.Void := by
  unfold spanOf Range.Void
  omega

/-- A key drawn from a range that is in order lies in it. -/
theorem drawKey_has {r : Range} (hle : r.lo ≤ r.hi) (hhi : r.hi < 2 ^ 32) (x : Nat) :
    r.Has (drawKey r x) := by
  have hspan : spanOf r = r.hi - r.lo + 1 := by
    unfold spanOf
    omega
  have hmod : x % spanOf r < r.hi - r.lo + 1 := hspan ▸ Nat.mod_lt x (by omega)
  unfold drawKey Range.Has
  omega

section Sample

variable (rand : Rand) {r : Rule}

/-- The loop over some dimensions: it stops at a void range, and otherwise draws the keys of
these dimensions. -/
theorem sampleKey_fold (hw : r.Words) (calls : Nat) : ∀ (ds : List Dim) (f : Flow),
    if ∃ d ∈ ds, (r.range d).Void then
      ds.foldlM (sampleKey rand r calls) f = .error .divide
    else ∃ f', ds.foldlM (sampleKey rand r calls) f = .ok f' ∧
      ∀ d, f'.key d = if d ∈ ds then drawKey (r.range d) (rand (calls + d.val)) else f.key d := by
  intro ds
  induction ds with
  | nil =>
      intro f
      rw [if_neg (by simp)]
      exact ⟨f, rfl, fun d => by simp⟩
  | cons k ds ih =>
      intro f
      rw [List.foldlM_cons]
      by_cases hk : (r.range k).Void
      · rw [if_pos ⟨k, List.mem_cons_self, hk⟩, sampleKey,
          if_pos ((spanOf_eq_zero (hw k).1 (hw k).2).mpr hk)]
        rfl
      · rw [sampleKey, if_neg (fun h => hk ((spanOf_eq_zero (hw k).1 (hw k).2).mp h))]
        have hrest := ih (f.setKey k (drawKey (r.range k) (rand (calls + k.val))))
        have hex : (∃ d ∈ k :: ds, (r.range d).Void) ↔ ∃ d ∈ ds, (r.range d).Void := by
          simp [hk]
        simp only [hex]
        split at hrest
        · rename_i hvoid
          rw [if_pos hvoid]
          exact hrest
        · rename_i hvoid
          rw [if_neg hvoid]
          obtain ⟨f', hrun, hkeys⟩ := hrest
          refine ⟨f', hrun, fun d => ?_⟩
          rw [hkeys d]
          by_cases hd : d ∈ ds
          · rw [if_pos hd, if_pos (List.mem_cons_of_mem k hd)]
          · by_cases hdk : d = k
            · subst hdk
              simp [hd]
            · simp [hd, hdk]

/-- One flow: it is drawn unless the rule has a void range. -/
theorem sampleFlow_spec (hw : r.Words) (calls : Nat) :
    if ∃ d, (r.range d).Void then sampleFlow rand r calls = .error .divide
    else ∃ f, sampleFlow rand r calls = .ok f ∧
      (r.Fits → f.InRange ∧ r.Matches f) := by
  have hfold := sampleKey_fold rand hw calls (List.finRange 5) ⟨fun _ => 0⟩
  have hex : (∃ d ∈ List.finRange 5, (r.range d).Void) ↔ ∃ d, (r.range d).Void := by simp
  simp only [hex] at hfold
  split
  · rename_i hvoid
    rw [if_pos hvoid] at hfold
    exact hfold
  · rename_i hvoid
    rw [if_neg hvoid] at hfold
    obtain ⟨f, hrun, hkeys⟩ := hfold
    refine ⟨f, hrun, fun hfit => ?_⟩
    have hmatch : r.Matches f := by
      intro d
      rw [hkeys d, if_pos (List.mem_finRange d)]
      exact drawKey_has (hfit d).1 (hw d).2 _
    exact ⟨fun d => Nat.lt_of_le_of_lt (hmatch d).2 (hfit d).2, hmatch⟩

/-- The samples of one rule. -/
theorem sampleRule_spec (hw : r.Words) : ∀ cnt calls : Nat,
    if 0 < cnt ∧ ∃ d, (r.range d).Void then sampleRule rand r cnt calls = .error .divide
    else ∃ fs, sampleRule rand r cnt calls = .ok fs ∧ fs.length = cnt ∧
      ∀ f ∈ fs, r.Fits → f.InRange ∧ r.Matches f := by
  intro cnt
  induction cnt with
  | zero =>
      intro calls
      rw [if_neg (by simp)]
      exact ⟨[], rfl, rfl, by simp⟩
  | succ cnt ih =>
      intro calls
      have hflow := sampleFlow_spec rand hw calls
      have hrest := ih (calls + 5)
      by_cases hvoid : ∃ d, (r.range d).Void
      · rw [if_pos hvoid] at hflow
        rw [if_pos ⟨Nat.succ_pos _, hvoid⟩, sampleRule, hflow]
        rfl
      · rw [if_neg hvoid] at hflow
        rw [if_neg (fun h => hvoid h.2)] at hrest ⊢
        obtain ⟨f, hf, hfm⟩ := hflow
        obtain ⟨fs, hfs, hlen, hall⟩ := hrest
        refine ⟨f :: fs, by rw [sampleRule, hf, hfs]; rfl, by rw [List.length_cons, hlen], ?_⟩
        intro g hg
        rcases List.mem_cons.mp hg with rfl | hg
        · exact hfm
        · exact hall g hg

/-- The flows drawn from a list of rules, `cnt` for each. -/
structure Sampled (cnt : Nat) (rs : List Rule) (fs : List Flow) : Prop where
  length : fs.length = cnt * rs.length
  ofRule : ∀ (k : Nat) f, fs[k]? = some f →
    ∃ r, rs[k / cnt]? = some r ∧ (r.Fits → f.InRange ∧ r.Matches f)

theorem Sampled.cons {cnt : Nat} {rs : List Rule} {fs gs : List Flow} (hlen : fs.length = cnt)
    (hall : ∀ f ∈ fs, r.Fits → f.InRange ∧ r.Matches f) (h : Sampled cnt rs gs) :
    Sampled cnt (r :: rs) (fs ++ gs) where
  length := by
    rw [List.length_append, hlen, h.length, List.length_cons, Nat.mul_succ, Nat.add_comm]
  ofRule := by
    intro k f hf
    rcases Nat.lt_or_ge k cnt with hk | hk
    · rw [List.getElem?_append_left (hlen ▸ hk)] at hf
      exact ⟨r, by rw [Nat.div_eq_of_lt hk]; rfl, hall f (List.mem_of_getElem? hf)⟩
    · rw [List.getElem?_append_right (hlen ▸ hk), hlen] at hf
      obtain ⟨q, hq, hm⟩ := h.ofRule (k - cnt) f hf
      have hcnt : 0 < cnt := by
        by_contra hzero
        have hgs := (List.getElem?_eq_some_iff.mp hf).1
        rw [h.length, Nat.eq_zero_of_not_pos hzero, Nat.zero_mul] at hgs
        exact Nat.not_lt_zero _ hgs
      refine ⟨q, ?_, hm⟩
      rw [show k / cnt = (k - cnt) / cnt + 1 by
        rw [← Nat.add_div_right _ hcnt, Nat.sub_add_cancel hk]]
      exact hq

/-- The loop over the rules. -/
theorem sampleLoop_spec (cnt : Nat) : ∀ (rs : List Rule) (calls : Nat), (∀ r ∈ rs, r.Words) →
    if 0 < cnt ∧ ∃ r ∈ rs, ∃ d, (r.range d).Void then
      sampleLoop rand cnt rs calls = .error .divide
    else ∃ fs, sampleLoop rand cnt rs calls = .ok (fs, calls + 5 * cnt * rs.length) ∧
      Sampled cnt rs fs := by
  intro rs
  induction rs with
  | nil =>
      intro calls _
      rw [if_neg (by simp)]
      exact ⟨[], rfl, rfl, by simp⟩
  | cons r rs ih =>
      intro calls hw
      have hhere := sampleRule_spec rand (hw r List.mem_cons_self) cnt calls
      have hrest := ih (calls + 5 * cnt) (fun q hq => hw q (List.mem_cons_of_mem r hq))
      by_cases hr : 0 < cnt ∧ ∃ d, (r.range d).Void
      · rw [if_pos hr] at hhere
        rw [if_pos ⟨hr.1, r, List.mem_cons_self, hr.2⟩, sampleLoop, hhere]
        rfl
      · rw [if_neg hr] at hhere
        obtain ⟨fs, hfs, hlen, hall⟩ := hhere
        by_cases hrs : 0 < cnt ∧ ∃ q ∈ rs, ∃ d, (q.range d).Void
        · rw [if_pos hrs] at hrest
          obtain ⟨hcnt, q, hq, hvoid⟩ := hrs
          rw [if_pos ⟨hcnt, q, List.mem_cons_of_mem r hq, hvoid⟩, sampleLoop, hfs]
          change (sampleLoop rand cnt rs (calls + 5 * cnt) >>= _) = _
          rw [hrest]
          rfl
        · rw [if_neg hrs] at hrest
          obtain ⟨gs, hgs, hsampled⟩ := hrest
          rw [if_neg]
          · refine ⟨fs ++ gs, ?_, hsampled.cons hlen hall⟩
            rw [sampleLoop, hfs]
            change (sampleLoop rand cnt rs (calls + 5 * cnt) >>= _) = _
            rw [hgs, List.length_cons, Nat.mul_succ, Nat.add_assoc, Nat.add_comm (5 * cnt)]
            rfl
          · rintro ⟨hcnt, q, hq, hvoid⟩
            rcases List.mem_cons.mp hq with rfl | hq
            · exact hr ⟨hcnt, hvoid⟩
            · exact hrs ⟨hcnt, q, hq, hvoid⟩

/-- `sample_rules` on a rule set whose count is right. -/
theorem sampleRules_spec {rs : RuleSet} (hnum : rs.num = rs.items.length)
    (hw : ∀ r ∈ rs.items, r.Words) (cnt calls : Nat) :
    if 0 < cnt ∧ ∃ r ∈ rs.items, ∃ d, (r.range d).Void then
      sampleRules rand rs cnt calls = .error .divide
    else ∃ fs, sampleRules rand rs cnt calls = .ok (fs, calls + 5 * cnt * rs.num) ∧
      Sampled cnt rs.items fs := by
  have heq : sampleRules rand rs cnt calls = sampleLoop rand cnt rs.items calls := by
    rw [sampleRules, if_neg (by omega), hnum, List.take_length]
  rw [heq, hnum]
  exact sampleLoop_spec rand cnt rs.items calls hw

end Sample

/-! ### Rules from a file -/

/-- The numbers of the ports and of the protocol are words. -/
structure FilterFields.Words (f : FilterFields) : Prop where
  sport : f.sport.lo < 2 ^ 32 ∧ f.sport.hi < 2 ^ 32
  dport : f.dport.lo < 2 ^ 32 ∧ f.dport.hi < 2 ^ 32
  proto : f.proto.proto < 2 ^ 32

theorem readPort_lt {s : Stream} {p : Range × Stream} (h : readPort s = .ok p) :
    p.1.lo < 2 ^ 32 ∧ p.1.hi < 2 ^ 32 := by
  unfold readPort at h
  split at h
  · obtain rfl := Except.ok.inj h
    exact ⟨toUnsigned_lt _, toUnsigned_lt _⟩
  · cases h

theorem readProtoFields_lt {s : Stream} {p : ProtoFields × Stream} (h : readProtoFields s = .ok p) :
    p.1.proto < 2 ^ 32 := by
  unfold readProtoFields at h
  split at h
  · obtain rfl := Except.ok.inj h
    exact toUnsigned_lt _
  · cases h

theorem readFields_words {s : Stream} {p : FilterFields × Stream} (h : readFields s = .ok p) :
    p.1.Words := by
  obtain ⟨src, -, h⟩ := bind_eq_ok.mp h
  obtain ⟨dst, -, h⟩ := bind_eq_ok.mp h
  obtain ⟨sport, hsport, h⟩ := bind_eq_ok.mp h
  obtain ⟨dport, hdport, h⟩ := bind_eq_ok.mp h
  obtain ⟨proto, hproto, h⟩ := bind_eq_ok.mp h
  obtain rfl := Except.ok.inj h
  exact ⟨readPort_lt hsport, readPort_lt hdport, readProtoFields_lt hproto⟩

theorem fieldsFrom_words (junk : Nat → Char) : ∀ (fuel : Nat) (s : Stream) (line : Nat),
    ∀ f ∈ fieldsFrom junk fuel s line, f.Words := by
  intro fuel
  induction fuel with
  | zero =>
      intro s line f hf
      cases hf
  | succ fuel ih =>
      intro s line f hf
      rw [fieldsFrom] at hf
      split at hf
      · cases hf
      · split at hf
        · rename_i p hp
          rcases List.mem_cons.mp hf with rfl | hf
          · exact readFields_words hp
          · exact ih _ _ f hf
        · cases hf

theorem Stored.words {f : FilterFields} {g : Filter} (h : Stored f g) (hw : f.Words) :
    g.toRule.Words := by
  have hblock : ∀ d : Dim, dimBits d = 32 → (g.dim d).Fits d →
      (g.dim d).lo < 2 ^ 32 ∧ (g.dim d).hi < 2 ^ 32 := by
    intro d hd hfit
    have hhi := hfit.2
    rw [hd] at hhi
    exact ⟨Nat.lt_of_le_of_lt hfit.1 hhi, hhi⟩
  have hproto : (g.dim 4).lo < 2 ^ 32 ∧ (g.dim 4).hi < 2 ^ 32 := by
    rw [h.proto, protoRange]
    split
    · exact ⟨hw.proto, hw.proto⟩
    · decide
  have hsport : (g.dim 2).lo < 2 ^ 32 ∧ (g.dim 2).hi < 2 ^ 32 := by
    rw [h.sport]
    exact hw.sport
  have hdport : (g.dim 3).lo < 2 ^ 32 ∧ (g.dim 3).hi < 2 ^ 32 := by
    rw [h.dport]
    exact hw.dport
  intro d
  fin_cases d
  · exact hblock 0 rfl (ipRange_fits rfl h.src_lt h.src)
  · exact hblock 1 rfl (ipRange_fits rfl h.dst_lt h.dst)
  · exact hsport
  · exact hdport
  · exact hproto

/-- Every rule that is read consists of words, and the count is right. -/
theorem readFilterFile_words {junk : Nat → Char} {text : List Char} {rs : RuleSet}
    (h : readFilterFile junk text = .ok rs) :
    rs.num = rs.items.length ∧ ∀ r ∈ rs.items, r.Words := by
  obtain ⟨gs, rfl, hall, -⟩ := readFilterFile_ok h
  refine ⟨rfl, fun r hr => ?_⟩
  obtain ⟨g, hg, rfl⟩ := List.mem_map.mp hr
  obtain ⟨i, hi, rfl⟩ := List.mem_iff_getElem.mp hg
  have hlen := hall.length_eq
  have hstored := hall.get (by omega) hi
  exact hstored.words (fieldsFrom_words junk _ _ _ _ (List.getElem_mem (by rw [← textFields]; omega)))

/-- A file with one filter, whose source ports are 5 to 4. -/
def voidText : List Char := "@1.2.3.4/32\t5.6.7.8/32\t5 : 4\t0 : 65535\t0x06/0xFF\n".toList

/-- Where tree and linear search agree, `sample_testing` prints no error. -/
theorem testLoop_ok {root : CTree} {rs : RuleSet} {g : Flow → Int} : ∀ (fs : List Flow) (i : Nat),
    (∀ f ∈ fs, lsearch rs f = .ok (g f) ∧ search root f = .ok (g f)) →
    testLoop root rs i fs =
      .ok (if i ≤ 47028 ∧ 47028 < i + fs.length then [.hello] else []) := by
  intro fs
  induction fs with
  | nil =>
      intro i _
      rw [if_neg (by simp only [List.length_nil]; omega)]
      rfl
  | cons f fs ih =>
      intro i h
      obtain ⟨hl, hs⟩ := h f List.mem_cons_self
      have hhere : testFlow root rs i f = .ok (if i = 47028 then [.hello] else []) := by
        simp [testFlow, hl, hs, bind, Except.bind]
      rw [testLoop, hhere]
      change (testLoop root rs (i + 1) fs >>= _) = _
      rw [ih (i + 1) (fun g hg => h g (List.mem_cons_of_mem f hg)), List.length_cons]
      change Except.ok (_ ++ _) = _
      congr 1
      by_cases hi : i = 47028
      · rw [if_pos hi, if_neg (by omega), if_pos (by omega)]
        rfl
      · rw [if_neg hi, List.nil_append]
        congr 1
        apply propext
        omega

theorem perfLoop_ok {root : CTree} {ct : CtArray} {turns : Nat} {g : Flow → Int} :
    ∀ fs : List Flow,
      (∀ f ∈ fs, (searchFrom root ct turns (.item ct.block 0) f).res = .ok (g f)) →
      perfLoop root ct turns fs = .ok (fs.map g) := by
  intro fs
  induction fs with
  | nil => exact fun _ => rfl
  | cons f fs ih =>
      intro h
      rw [perfLoop, h f List.mem_cons_self]
      change (perfLoop root ct turns fs >>= _) = _
      rw [ih (fun g hg => h g (List.mem_cons_of_mem f hg))]
      rfl

/-! ### The program -/

section Program

variable {K : Type} [CostArith K] {junk : Nat → Char} {text : List Char} {rs : RuleSet}
  {fuel : Nat} {aux aux' : CutAux} {tree : CTree}

theorem readFilterFile_copy (h : readFilterFile junk text = .ok rs) :
    ruleSetCopy rs = .ok (Buffer.ofList rs.items) := by
  obtain ⟨gs, rfl, -⟩ := readFilterFile_ok h
  rw [ruleSetCopy, if_neg (by simp [Buffer.ofList])]
  simp [Buffer.ofList]

/-- `get_tree_info` returns on a shaped tree. -/
theorem Shaped.getTreeInfo_ok (h : Shaped tree) : ∃ info, getTreeInfo tree = .ok info := by
  obtain ⟨info, hfold, -⟩ := getTreeInfoTraverse_fold (tree.visited []) .zero
  exact ⟨info, (h.traverse_eq getTreeInfoTraverse [] .zero).trans hfold⟩

/-- The samples of a file of clean filters: each is a packet that its own filter accepts. -/
theorem sampleRules_accepted (hread : readFilterFile junk text = .ok rs)
    (hclean : ∀ f ∈ textFields junk text, f.Clean) (rand : Rand) (calls : Nat) :
    ∃ fs, sampleRules rand rs sampleCnt calls = .ok (fs, calls + 5 * sampleCnt * rs.num) ∧
      fs.length = sampleCnt * rs.num ∧ ∀ (k : Nat) p, fs[k]? = some p →
        p.InRange ∧ ∃ f, (textFields junk text)[k / sampleCnt]? = some f ∧ f.Accepts p := by
  obtain ⟨hnum, hw⟩ := readFilterFile_words hread
  have hwf := readFilterFile_wf hread (fun f hf => (hclean f hf).fits)
  have hspec := sampleRules_spec rand hnum hw sampleCnt calls
  rw [if_neg] at hspec
  · obtain ⟨fs, hfs, hsampled⟩ := hspec
    refine ⟨fs, hfs, by rw [hsampled.length, hnum], fun k p hp => ?_⟩
    obtain ⟨r, hr, hm⟩ := hsampled.ofRule k p hp
    obtain ⟨hin, hmatch⟩ := hm (hwf r (List.mem_of_getElem? hr)).fits
    refine ⟨hin, ?_⟩
    obtain ⟨gs, rfl, hall, -⟩ := readFilterFile_ok hread
    rw [Buffer.ofList_items, List.getElem?_map] at hr
    obtain ⟨g, hg, rfl⟩ := Option.map_eq_some_iff.mp hr
    obtain ⟨hlt, rfl⟩ := List.getElem?_eq_some_iff.mp hg
    have hltf : k / sampleCnt < (textFields junk text).length := hall.length_eq ▸ hlt
    refine ⟨_, List.getElem?_eq_getElem hltf, ?_⟩
    exact ((hall.get hltf hlt).matches_iff (hclean _ (List.getElem_mem hltf)) hin).mp hmatch
  · rintro ⟨-, r, hr, d, hvoid⟩
    have hle := ((hwf r hr).fits d).1
    rw [Range.Void] at hvoid
    omega

/-- **The whole program.** Take any text that is read into clean filters, and a run of
`cut` on its rules that returns, whose dispatches read the node's own scratch data and
whose root is not a hi node without a separator in the low half. Then, with enough turns
for a lookup and whatever `rand` returns, the program ends with a report: the test prints
no error line, and every timed lookup returns the number of the first filter of the text
that accepts its packet, a packet drawn to be accepted by filter `k / 100`. -/
theorem main_report (hread : readFilterFile junk text = .ok rs)
    (hclean : ∀ f ∈ textFields junk text, f.Clean)
    (hrun : (cut K fuel aux rs.items).res = .ok (tree, aux'))
    (hown : ∀ c ∈ (cut K fuel aux rs.items).log, c.Own K)
    (hroot : ∀ d n childs, tree = .node d (.hi n) childs → popcount (n.bitmap.setWidth 32) ≠ 0) :
    ∃ bound, ∀ turns, bound < turns → ∀ rand, ∃ (rep : Report) (fs : List Flow),
      main K junk rand fuel turns aux text = .ok rep ∧
      rep.lines = (if 47028 < sampleCnt * rs.num then [.hello] else []) ∧
      fs.length = sampleCnt * rs.num ∧
      rep.perf = fs.map (firstFilter (textFields junk text)) ∧
      ∀ (k : Nat) p, fs[k]? = some p →
        p.InRange ∧ ∃ f, (textFields junk text)[k / sampleCnt]? = some f ∧ f.Accepts p := by
  have hwf := readFilterFile_wf hread (fun f hf => (hclean f hf).fits)
  have hshaped := cut_shaped hrun
  obtain ⟨bound, hbound⟩ := exists_walk_bound treeFunction tree
  obtain ⟨info, hinfo⟩ := hshaped.getTreeInfo_ok
  obtain ⟨ct, hct, -⟩ := hshaped.compact_ok (by
    rintro d w childs rfl hzero
    obtain ⟨n, rfl⟩ := cut_root_counts hwf hrun hzero
    exact hroot d n childs rfl hzero)
  -- both searches answer a packet that some filter accepts with its first filter
  have hlookup : ∀ p : Flow, p.InRange → (∃ f ∈ textFields junk text, f.Accepts p) →
      lsearch rs p = .ok (firstFilter (textFields junk text) p) ∧
        search tree p = .ok (firstFilter (textFields junk text) p) := by
    intro p hp hacc
    exact (cut_build_file hread hclean hrun hown).firstFilter hread hclean hp (Or.inl hacc)
  refine ⟨bound, fun turns hturns rand => ?_⟩
  obtain ⟨fs, hfs, hlen, hfrom⟩ := sampleRules_accepted hread hclean rand 0
  obtain ⟨fs', hfs', hlen', hfrom'⟩ := sampleRules_accepted hread hclean rand
    (0 + 5 * sampleCnt * rs.num)
  have hof : ∀ {fs : List Flow}, (∀ (k : Nat) p, fs[k]? = some p → p.InRange ∧
      ∃ f, (textFields junk text)[k / sampleCnt]? = some f ∧ f.Accepts p) →
      ∀ p ∈ fs, p.InRange ∧ ∃ f ∈ textFields junk text, f.Accepts p := by
    intro fs h p hp
    obtain ⟨k, hk⟩ := List.mem_iff_getElem?.mp hp
    obtain ⟨hin, f, hf, hacc⟩ := h k p hk
    exact ⟨hin, f, List.mem_of_getElem? hf, hacc⟩
  have htest : testLoop tree rs 0 fs
      = .ok (if 47028 < sampleCnt * rs.num then [.hello] else []) := by
    rw [testLoop_ok fs 0 (fun p hp => hlookup p (hof hfrom p hp).1 (hof hfrom p hp).2), hlen]
    simp only [Nat.zero_le, true_and, Nat.zero_add]
  have hperf : perfLoop tree ct turns fs' = .ok (fs'.map (firstFilter (textFields junk text))) := by
    refine perfLoop_ok fs' (fun p hp => ?_)
    have hsame := (searchFrom_first hct p (Nat.lt_of_le_of_lt (hbound [] p) hturns)).1
    exact hsame.trans (hlookup p (hof hfrom' p hp).1 (hof hfrom' p hp).2).2
  refine ⟨⟨info, ct, if 47028 < sampleCnt * rs.num then [.hello] else [],
    fs'.map (firstFilter (textFields junk text))⟩, fs', ?_, rfl, hlen', rfl, hfrom'⟩
  simp only [main, hread, readFilterFile_copy hread, ofRun, Buffer.ofList_items, hrun, hinfo, hct,
    hfs, htest, hfs', hperf, bind, Except.bind]

end Program

/-- The two groups as a file. -/
def pairText : List Char :=
  (List.replicate 8 "@0.0.0.5/32\t0.0.0.0/0\t0 : 65535\t0 : 65535\t0x00/0x00\n" ++
    List.replicate 9 "@128.0.0.0/32\t0.0.0.0/0\t0 : 65535\t0 : 65535\t0x00/0x00\n").flatMap String.toList

/-- The numbers of a rule. -/
def Rule.row (r : Rule) : Nat × List Range := (r.pri, (List.finRange 5).map r.range)

theorem Rule.row_injective : Function.Injective Rule.row := by
  rintro ⟨p, a⟩ ⟨q, b⟩ h
  obtain ⟨rfl, hmap⟩ := Prod.mk.inj h
  obtain rfl : a = b := funext (fun d => List.map_inj_left.mp hmap d (List.mem_finRange d))
  rfl

/-- It is read into the rules of the two groups. -/
theorem pairText_read :
    ∃ rs, readFilterFile (fun _ => '@') pairText = .ok rs ∧ rs.items = pairRules := by
  have hrows : (readFilterFile (fun _ => '@') pairText).toOption.map (fun rs => rs.items.map Rule.row)
      = some (pairRules.map Rule.row) := by decide +kernel
  cases hrs : readFilterFile (fun _ => '@') pairText with
  | error e =>
      rw [hrs] at hrows
      cases hrows
  | ok rs =>
      rw [hrs] at hrows
      exact ⟨rs, rfl, List.map_injective_iff.mpr Rule.row_injective (Option.some.inj hrows)⟩

/-- With the two groups in the file the program ends, and no error line is printed. -/
theorem main_report_pairText :
    ∃ bound, ∀ turns, bound < turns → ∀ rand, ∃ rep : Report,
      main ℚ (fun _ => '@') rand 2 turns .zero pairText = .ok rep ∧ rep.lines = [] ∧
        rep.perf.length = 1700 := by
  obtain ⟨rs, hread, hitems⟩ := pairText_read
  obtain ⟨aux, a, b, hrun, hlog⟩ := pairRules_tree
  rw [← hitems] at hrun hlog
  have hnum : rs.num = 17 := by
    rw [(readFilterFile_words hread).1, hitems]
    rfl
  obtain ⟨bound, hmain⟩ := main_report hread (by decide +kernel) hrun
    (fun c hc => (Call.filled_of_check (hlog c hc)).own) (fun d n childs h => by cases h)
  refine ⟨bound, fun turns hturns rand => ?_⟩
  obtain ⟨rep, fs, hrep, hlines, hlen, hperf, -⟩ := hmain turns hturns rand
  rw [hnum] at hlines hlen
  exact ⟨rep, hrep, hlines, by rw [hperf, List.length_map, hlen]; rfl⟩

end ChooseCut
