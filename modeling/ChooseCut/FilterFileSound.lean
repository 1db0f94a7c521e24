import ChooseCut.FilterFileAddr

/-!
# ChooseCut.FilterFileSound

What the reader of rule files returns.

With the address arithmetic settled (`FilterFileAddr`), reading a file is one fact about
one call of `ReadFilter`: on the text of a printed filter it returns that filter and stops
right behind it. Ports and protocol values are stored as they stand in the file. The round
trip follows by induction over the file.
-/

namespace ChooseCut

/-! ### Printed filters -/

/-- An address with its mask length. -/
structure Addr where
  octet : Fin 4 → Fin 256
  len : Fin 33

/-- The address as one word. -/
def Addr.ip (a : Addr) : Nat := ipSum (fun i => a.octet i)

/-- A range of ports. -/
structure Ports where
  lo : Fin 65536
  hi : Fin 65536
  le : lo ≤ hi

/-- A filter as a line of the file has it. The hexadecimal digits may be of either case,
and behind the fields stands any text without an `@`. -/
structure FilterLine where
  src : Addr
  dst : Addr
  sport : Ports
  dport : Ports
  proto : Fin 256
  mask : Fin 256
  upper : Bool
  more : List Char
  no_at : '@' ∉ more

/-- A number in decimal digits. -/
def printNat (n : Nat) : List Char := Nat.toDigits 10 n

def Addr.print (a : Addr) : List Char :=
  printNat (a.octet 0) ++ '.' :: printNat (a.octet 1) ++ '.' :: printNat (a.octet 2) ++
    '.' :: printNat (a.octet 3) ++ '/' :: printNat a.len

def Ports.print (p : Ports) : List Char := printNat p.lo ++ ' ' :: ':' :: ' ' :: printNat p.hi

/-- The fields of a line, from behind the `@` to the last one. -/
def FilterLine.fields (l : FilterLine) : List Char :=
  l.src.print ++ '\t' :: l.dst.print ++ '\t' :: l.sport.print ++ '\t' :: l.dport.print ++
    '\t' :: '0' :: 'x' :: hexByte l.upper l.proto ++ '/' :: '0' :: 'x' :: hexByte l.upper l.mask

/-- The rest of a line. -/
def FilterLine.tail (l : FilterLine) : List Char := '\t' :: l.more ++ ['\n']

/-- A line of the file. -/
def FilterLine.print (l : FilterLine) : List Char := '@' :: l.fields ++ l.tail

/-- The text of a file. -/
def printFile (ls : List FilterLine) : List Char := ls.flatMap FilterLine.print

/-- The address with its low `k` bits cleared. -/
def clearLow (ip k : Nat) : Nat := ip >>> k <<< k

/-- The address with its low `k` bits set. -/
def setLow (ip k : Nat) : Nat := ip ||| (2 ^ k - 1)

/-- The range of an address. -/
def Addr.range (a : Addr) : Range := ⟨clearLow a.ip (32 - a.len), setLow a.ip (32 - a.len)⟩

def Ports.range (p : Ports) : Range := ⟨p.lo, p.hi⟩

/-- The rule a line stands for. -/
def FilterLine.rule (l : FilterLine) (pri : Nat) : Rule :=
  ⟨pri, ![l.src.range, l.dst.range, l.sport.range, l.dport.range,
    if l.mask = 0xff then ⟨l.proto, l.proto⟩ else ⟨0, 255⟩]⟩

/-- The block of an address in terms of its bits. -/
theorem maskBlock_eq_bits (ip len : Nat) :
    maskBlock ip len = ⟨clearLow ip (32 - len), setLow ip (32 - len)⟩ := by
  unfold maskBlock
  generalize 32 - len = k
  have hpos := Nat.two_pow_pos k
  have hlow : ip % 2 ^ k < 2 ^ k := Nat.mod_lt _ hpos
  have hsplit := Nat.div_add_mod ip (2 ^ k)
  have hclear : clearLow ip k = 2 ^ k * (ip / 2 ^ k) := by
    rw [clearLow, Nat.shiftRight_eq_div_pow, Nat.shiftLeft_eq, Nat.mul_comm]
  have hset : setLow ip k = 2 ^ k * (ip / 2 ^ k) + (2 ^ k - 1) := by
    rw [setLow]
    conv_lhs => rw [← hsplit]
    rw [Nat.two_pow_add_eq_or_of_lt hlow,
      Nat.two_pow_add_eq_or_of_lt (show 2 ^ k - 1 < 2 ^ k by omega), Nat.or_assoc]
    congr 1
    apply Nat.eq_of_testBit_eq
    intro i
    rw [Nat.testBit_or, Nat.testBit_two_pow_sub_one]
    by_cases hi : i < k
    · simp [hi]
    · simp [hi]
  rw [hclear, hset, Range.mk.injEq]
  omega

/-- A character behind a number: no digit, and not the mark of a hexadecimal number. -/
def StopsNumber (c : Char) : Prop := isDigitIn 16 c = false ∧ c ≠ 'x' ∧ c ≠ 'X'

instance (c : Char) : Decidable (StopsNumber c) := inferInstanceAs (Decidable (_ ∧ _ ∧ _))

section ReadPrinted

variable {c : Char} {cs : List Char} {e : Bool}

theorem fscanf_printNat {fmt : List Directive} {n : Nat} (hc : StopsNumber c) :
    fscanf (.dec :: fmt) ⟨printNat n ++ c :: cs, e⟩
      = ((n : Int) :: (fscanf fmt ⟨c :: cs, e⟩).1, (fscanf fmt ⟨c :: cs, e⟩).2) := by
  refine fscanf_dec ?_ hc.2.1 hc.2.2
  have h16 := of_decide_eq_false hc.1
  exact decide_eq_false (by omega)

/-- **A printed address is read back**, up to the character behind it. -/
theorem readIpFields_print (a : Addr) (hc : StopsNumber c) :
    readIpFields ⟨a.print ++ c :: cs, e⟩
      = .ok (⟨fun i => a.octet i, a.len⟩, ⟨c :: cs, e⟩) := by
  have hdot : StopsNumber '.' := by decide
  have hslash : StopsNumber '/' := by decide
  have hoct : ∀ i, toUnsigned ((a.octet i : Nat) : Int) = a.octet i :=
    fun i => toUnsigned_natCast (by have := (a.octet i).isLt; omega)
  have hlen : toUnsigned ((a.len : Nat) : Int) = a.len :=
    toUnsigned_natCast (by have := a.len.isLt; omega)
  have hvec : ![(a.octet 0 : Nat), a.octet 1, a.octet 2, a.octet 3] = fun i => (a.octet i : Nat) := by
    funext i
    match i with
    | 0 | 1 | 2 | 3 => rfl
  unfold readIpFields
  simp only [Addr.print, List.append_assoc, List.cons_append, fscanf_printNat hdot,
    fscanf_printNat hslash, fscanf_lit, fscanf_nil, fscanf_chr, fscanf_printNat hc, hoct, hlen, hvec,
    ne_eq, not_true_eq_false, if_false]

/-- White space before an address is skipped. -/
theorem readIpFields_space (s : List Char) : readIpFields ⟨'\t' :: s, e⟩ = readIpFields ⟨s, e⟩ := by
  unfold readIpFields
  rw [fscanf_space_dec (by decide)]

theorem Addr.ipRange_eq_range (a : Addr) :
    ipRange ⟨fun i => a.octet i, a.len⟩ = .ok a.range := by
  rw [ipRange_eq_maskBlock (fun i => (a.octet i).isLt) (Nat.le_of_lt_succ a.len.isLt),
    maskBlock_eq_bits]
  rfl

theorem readIPRange_print (a : Addr) (hc : StopsNumber c) :
    readIPRange ⟨a.print ++ c :: cs, e⟩ = .ok (a.range, ⟨c :: cs, e⟩) := by
  simp only [readIPRange, readIpFields_print a hc, bind, Except.bind, a.ipRange_eq_range]

theorem readIPRange_space (s : List Char) : readIPRange ⟨'\t' :: s, e⟩ = readIPRange ⟨s, e⟩ := by
  rw [readIPRange, readIPRange, readIpFields_space]

/-- A printed port range is read back. -/
theorem readPort_print (p : Ports) (hc : StopsNumber c) :
    readPort ⟨'\t' :: (p.print ++ c :: cs), e⟩ = .ok (p.range, ⟨c :: cs, e⟩) := by
  have hblank : StopsNumber ' ' := by decide
  have hlo : toUnsigned ((p.lo : Nat) : Int) = p.lo :=
    toUnsigned_natCast (by have := p.lo.isLt; omega)
  have hhi : toUnsigned ((p.hi : Nat) : Int) = p.hi :=
    toUnsigned_natCast (by have := p.hi.isLt; omega)
  have hcolon : ∀ fmt s, fscanf (.space :: .lit ':' :: fmt) ⟨' ' :: ':' :: s, e⟩ = fscanf fmt ⟨s, e⟩ := by
    intro fmt s
    rw [fscanf, skipSpace_space_cons (by decide) (by decide), fscanf_lit]
  unfold readPort
  simp only [Ports.print, List.append_assoc, List.cons_append, fscanf_space_dec (show isSpace '\t' = true by decide),
    fscanf_printNat hblank, hcolon, fscanf_space_skip, fscanf_space_dec (show isSpace ' ' = true by decide),
    fscanf_printNat hc, fscanf_nil, hlo, hhi]
  rfl

/-- A printed protocol is read back. -/
theorem readProtoFields_print {upper : Bool} {proto mask : Nat} (hproto : proto < 256)
    (hmask : mask < 256) (hc : StopsNumber c) :
    readProtoFields ⟨'\t' :: '0' :: 'x' :: (hexByte upper proto ++
        '/' :: '0' :: 'x' :: (hexByte upper mask ++ c :: cs)), e⟩
      = .ok (⟨proto, mask⟩, ⟨c :: cs, e⟩) := by
  have hslash : StopsNumber '/' := by decide
  have hskip : ∀ fmt s, fscanf (.space :: fmt) ⟨'\t' :: '0' :: s, e⟩ = fscanf fmt ⟨'0' :: s, e⟩ := by
    intro fmt s
    rw [fscanf, skipSpace_space_cons (by decide) (by decide)]
  unfold readProtoFields
  simp only [hskip, fscanf_chr,
    fscanf_hex hproto hslash.1 hslash.2.1 hslash.2.2, fscanf_hex hmask hc.1 hc.2.1 hc.2.2, fscanf_nil,
    toUnsigned_natCast (show proto < 2 ^ 32 by omega), toUnsigned_natCast (show mask < 2 ^ 32 by omega)]

end ReadPrinted

/-! ### Files -/

theorem seekFilter_at {pre : List Char} (h : '@' ∉ pre) (cs : List Char) :
    ∀ valid, seekFilter (pre ++ '@' :: cs) valid = some ⟨cs, false⟩ := by
  induction pre with
  | nil => simp [seekFilter]
  | cons c pre ih =>
      intro valid
      have hc : c ≠ '@' := fun hc => h (hc ▸ List.mem_cons_self)
      rw [List.cons_append, seekFilter, if_neg hc]
      exact ih (fun hm => h (List.mem_cons_of_mem c hm)) c

theorem seekFilter_none {pre : List Char} (h : '@' ∉ pre) :
    ∀ valid, valid ≠ '@' ∨ pre ≠ [] → seekFilter pre valid = none := by
  induction pre with
  | nil =>
      intro valid hvalid
      rw [seekFilter, if_neg (hvalid.resolve_right (by simp))]
  | cons c pre ih =>
      intro valid _
      have hc : c ≠ '@' := fun hc => h (hc ▸ List.mem_cons_self)
      rw [seekFilter, if_neg hc]
      exact ih (fun hm => h (List.mem_cons_of_mem c hm)) c (Or.inl hc)

theorem FilterLine.protoRange_eq (l : FilterLine) :
    protoRange ⟨l.proto, l.mask⟩ = if l.mask = 0xff then ⟨l.proto, l.proto⟩ else ⟨0, 255⟩ := by
  unfold protoRange
  by_cases hm : l.mask = 0xff
  · rw [if_pos hm, if_pos (by rw [hm]; rfl)]
  · have hval : ¬ (l.mask : Nat) = 0xff := fun h => hm (Fin.ext h)
    rw [if_neg hm, if_neg hval]

theorem FilterLine.readProtocol_eq (l : FilterLine) (cs : List Char) :
    readProtocol ⟨'\t' :: '0' :: 'x' :: (hexByte l.upper l.proto ++
        '/' :: '0' :: 'x' :: (hexByte l.upper l.mask ++ '\t' :: cs)), false⟩
      = .ok (if l.mask = 0xff then ⟨l.proto, l.proto⟩ else ⟨0, 255⟩, ⟨'\t' :: cs, false⟩) := by
  rw [readProtocol, readProtoFields_print l.proto.isLt l.mask.isLt (by decide), ← l.protoRange_eq]
  rfl

/-- **One call of `ReadFilter` reads one line** and stops behind its last field. -/
theorem readFilter_print {pre : List Char} (hpre : '@' ∉ pre) (l : FilterLine) (cs : List Char)
    (junk : Char) {filtset : List Filter} (hroom : filtset.length < maxFilters) (cost : Nat) :
    readFilter junk ⟨pre ++ (l.print ++ cs), false⟩ filtset cost
      = .ok (filtset ++ [⟨cost, (l.rule cost).range⟩], ⟨l.tail ++ cs, false⟩) := by
  have htab : StopsNumber '\t' := by decide
  have htext : l.print ++ cs = '@' :: (l.src.print ++ '\t' :: (l.dst.print ++
      '\t' :: (l.sport.print ++ '\t' :: (l.dport.print ++ '\t' :: '0' :: 'x' ::
        (hexByte l.upper l.proto ++ '/' :: '0' :: 'x' :: (hexByte l.upper l.mask ++
          '\t' :: (l.more ++ '\n' :: cs))))))) := by
    simp [FilterLine.print, FilterLine.fields, FilterLine.tail]
  have htail : l.tail ++ cs = '\t' :: (l.more ++ '\n' :: cs) := by
    simp [FilterLine.tail]
  unfold readFilter readDims
  simp only [htext, htail, Bool.false_eq_true, if_false, seekFilter_at hpre,
    readIPRange_print _ htab, readIPRange_space, readPort_print _ htab, l.readProtocol_eq, bind,
    Except.bind, hroom, if_true]
  rfl

/-- The rest of a line has no `@`. -/
theorem FilterLine.no_at_tail (l : FilterLine) : '@' ∉ l.tail := by
  simp [FilterLine.tail, l.no_at]

/-- The loop over the lines of a file, from behind the fields of the line before. -/
theorem loadFilters_print (junk : Nat → Char) (ls : List FilterLine) :
    ∀ (pre : List Char) (fuel line : Nat) (filtset : List Filter), '@' ∉ pre → (ls = [] → pre ≠ []) →
      filtset.length + ls.length ≤ maxFilters → ls.length + 2 ≤ fuel →
      loadFilters junk fuel ⟨pre ++ printFile ls, false⟩ line filtset
        = .ok (filtset ++ ls.mapIdx (fun i l => ⟨line + i, (l.rule (line + i)).range⟩)) := by
  induction ls with
  | nil =>
      intro pre fuel line filtset hpre hne _ hfuel
      obtain ⟨fuel, rfl⟩ : ∃ n, fuel = n + 2 := ⟨fuel - 2, by simpa using (Nat.sub_add_cancel hfuel).symm⟩
      have hseek := seekFilter_none hpre (junk line) (Or.inr (hne rfl))
      simp [loadFilters, readFilter, printFile, hseek, bind, Except.bind]
  | cons l ls ih =>
      intro pre fuel line filtset hpre _ hroom hfuel
      rw [List.length_cons] at hroom hfuel
      obtain ⟨fuel, rfl⟩ : ∃ n, fuel = n + 1 := ⟨fuel - 1, by omega⟩
      have hread := readFilter_print hpre l (printFile ls) (junk line)
        (show filtset.length < maxFilters by omega) line
      have hrest := ih l.tail fuel (line + 1) (filtset ++ [⟨line, (l.rule line).range⟩]) l.no_at_tail
        (fun _ => by simp [FilterLine.tail]) (by rw [List.length_append, List.length_singleton]; omega)
        (by omega)
      have hfile : printFile (l :: ls) = l.print ++ printFile ls := rfl
      rw [loadFilters, hfile]
      simp only [Bool.false_eq_true, if_false, hread, bind, Except.bind, hrest]
      simp [List.mapIdx_cons, Nat.add_assoc, Nat.add_comm 1]

theorem length_le_printFile (ls : List FilterLine) : ls.length ≤ (printFile ls).length := by
  induction ls with
  | nil => simp
  | cons l ls ih =>
      have hfile : printFile (l :: ls) = l.print ++ printFile ls := rfl
      have hpos : 1 ≤ l.print.length := by simp [FilterLine.print]
      rw [hfile, List.length_append, List.length_cons]
      omega

/-- **Reading undoes printing.** The text of between one and `MAXFILTERS` filters is read
as these filters, in order, each with its position as the priority, with its addresses'
low bits cleared and set, its ports, and its protocol or every protocol. -/
theorem readFilterFile_printFile (junk : Nat → Char) (ls : List FilterLine) (hne : 1 ≤ ls.length)
    (hmax : ls.length ≤ maxFilters) :
    readFilterFile junk (printFile ls) = .ok (Buffer.ofList (ls.mapIdx (fun i l => l.rule i))) := by
  have hload := loadFilters_print junk ls [] ((printFile ls).length + 2) 0 [] (by simp)
    (fun h => absurd hne (by simp [h])) (by simpa using hmax)
    (by have := length_le_printFile ls; omega)
  rw [List.nil_append] at hload
  have hrules : (ls.mapIdx (fun i l => (⟨i, (l.rule i).range⟩ : Filter))).map Filter.toRule
      = ls.mapIdx (fun i l => l.rule i) := by
    apply List.ext_getElem?
    intro i
    rw [List.getElem?_map, List.getElem?_mapIdx, List.getElem?_mapIdx, Option.map_map]
    rfl
  unfold readFilterFile
  simp only [hload, bind, Except.bind, List.nil_append, Nat.zero_add, hrules, List.length_mapIdx,
    Buffer.ofList]

/-- The first line of the sample file `fw1K`. -/
def sampleLine : FilterLine where
  src := ⟨![64, 23, 69, 192], 29⟩
  dst := ⟨![74, 82, 198, 176], 28⟩
  sport := ⟨53, 53, by decide⟩
  dport := ⟨21, 21, by decide⟩
  proto := 0x11
  mask := 0xff
  upper := true
  more := "0x0000/0x0000\t".toList
  no_at := by decide +kernel

/-- The text of that line, and the rule it is read as. -/
theorem readFilterFile_sampleLine :
    printFile [sampleLine] = ("@64.23.69.192/29\t74.82.198.176/28\t53 : 53\t21 : 21\t0x11/0xFF\t" ++
      "0x0000/0x0000\t\n").toList ∧
    readFilterFile (fun _ => '@') (printFile [sampleLine]) = .ok (Buffer.ofList [sampleLine.rule 0]) :=
  ⟨by decide +kernel, readFilterFile_printFile _ [sampleLine] (by decide) (by decide)⟩

end ChooseCut
