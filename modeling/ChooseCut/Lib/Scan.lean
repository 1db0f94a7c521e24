import Mathlib.Data.List.Basic
import Mathlib.Data.List.DropRight
import Mathlib.Data.Nat.Bits

/-!
# ChooseCut.Lib.Scan

Formatted input: a stream of characters with an end-of-file indicator, and the part of
`fscanf` that formats made of white space, literal characters, `%c`, `%d` and `%x` need.

A call stops at the first directive that fails and leaves the stream where it stopped;
what it returns is the list of the values assigned, so that comparing the return value
of `fscanf` with a count is comparing the length of this list. A conversion that runs
into the end of the input sets the indicator, one that stops before a character does
not. The lemmas at the end read back what a printer wrote: a number followed by a
character that is not a digit.
-/

namespace ChooseCut

/-! ### Streams -/

/-- An input stream: the characters not read yet, and the end-of-file indicator. -/
structure Stream where
  rest : List Char
  eof : Bool
  deriving Repr, DecidableEq

/-- `isspace` in the C locale. -/
def isSpace (c : Char) : Bool := c = ' ' || (9 ≤ c.toNat && c.toNat ≤ 13)

/-- Read as long as `p` holds. The character after the last one read is looked at, so
reading up to the end sets the indicator. -/
def Stream.readWhile (p : Char → Bool) (s : Stream) : List Char × Stream :=
  (s.rest.takeWhile p, ⟨s.rest.dropWhile p, s.eof || (s.rest.dropWhile p).isEmpty⟩)

/-- White space in a format. -/
def Stream.skipSpace (s : Stream) : Stream := (s.readWhile isSpace).2

/-- Read one character. -/
def Stream.readChar (s : Stream) : Option Char × Stream :=
  match s.rest with
  | [] => (none, ⟨[], true⟩)
  | c :: cs => (some c, ⟨cs, s.eof⟩)

/-! ### Numbers -/

/-- The value of a digit in any base up to sixteen; sixteen for any other character. -/
def digitVal (c : Char) : Nat :=
  if '0' ≤ c ∧ c ≤ '9' then c.toNat - '0'.toNat
  else if 'a' ≤ c ∧ c ≤ 'f' then c.toNat - 'a'.toNat + 10
  else if 'A' ≤ c ∧ c ≤ 'F' then c.toNat - 'A'.toNat + 10
  else 16

/-- A digit in a base. -/
def isDigitIn (base : Nat) (c : Char) : Bool := digitVal c < base

/-- The value of a list of digits. -/
def ofDigits (base : Nat) (cs : List Char) : Nat :=
  cs.foldl (fun n c => base * n + digitVal c) 0

/-- An optional sign. -/
def Stream.readSign (s : Stream) : Bool × Stream :=
  match s.rest with
  | '-' :: cs => (true, ⟨cs, s.eof⟩)
  | '+' :: cs => (false, ⟨cs, s.eof⟩)
  | _ => (false, s)

/-- The optional prefix of a hexadecimal number. -/
def Stream.readHexMark (s : Stream) : Stream :=
  match s.rest with
  | '0' :: 'x' :: cs => ⟨cs, s.eof⟩
  | '0' :: 'X' :: cs => ⟨cs, s.eof⟩
  | _ => s

/-- The conversions `%d` (base ten) and `%x` (base sixteen). -/
def Stream.readNumber (base : Nat) (s : Stream) : Option Int × Stream :=
  let p := s.skipSpace.readSign
  let s := if base = 16 then p.2.readHexMark else p.2
  let q := s.readWhile (isDigitIn base)
  (if q.1 = [] then none
    else some (if p.1 then -(ofDigits base q.1 : Int) else ofDigits base q.1), q.2)

/-! ### Formats -/

/-- A directive of a format. -/
inductive Directive
  /-- White space: any amount of it. -/
  | space
  /-- A character that has to stand there. -/
  | lit (c : Char)
  /-- `%c`. -/
  | chr
  /-- `%d`. -/
  | dec
  /-- `%x`. -/
  | hex
  deriving Repr, DecidableEq

/-- `fscanf`: the values assigned, characters by their code, and the stream where it
stopped. -/
def fscanf : List Directive → Stream → List Int × Stream
  | [], s => ([], s)
  | .space :: fmt, s => fscanf fmt s.skipSpace
  | .lit c :: fmt, s =>
      match s.rest with
      | [] => ([], ⟨[], true⟩)
      | x :: xs => if x = c then fscanf fmt ⟨xs, s.eof⟩ else ([], s)
  | .chr :: fmt, s =>
      match s.readChar with
      | (none, s) => ([], s)
      | (some c, s) => ((c.toNat : Int) :: (fscanf fmt s).1, (fscanf fmt s).2)
  | .dec :: fmt, s =>
      match s.readNumber 10 with
      | (none, s) => ([], s)
      | (some v, s) => (v :: (fscanf fmt s).1, (fscanf fmt s).2)
  | .hex :: fmt, s =>
      match s.readNumber 16 with
      | (none, s) => ([], s)
      | (some v, s) => (v :: (fscanf fmt s).1, (fscanf fmt s).2)

/-! ### What is left -/

theorem readWhile_rest_le (p : Char → Bool) (s : Stream) :
    (s.readWhile p).2.rest.length ≤ s.rest.length :=
  (List.dropWhile_sublist p).length_le

theorem readNumber_rest_le (base : Nat) (s : Stream) :
    (s.readNumber base).2.rest.length ≤ s.rest.length := by
  have hsign : ∀ s : Stream, s.readSign.2.rest.length ≤ s.rest.length := by
    intro s
    unfold Stream.readSign
    split <;> simp [*]
  have hmark : ∀ s : Stream, s.readHexMark.rest.length ≤ s.rest.length := by
    intro s
    unfold Stream.readHexMark
    split <;> simp [*] <;> omega
  have hskip := readWhile_rest_le isSpace s
  refine Nat.le_trans (readWhile_rest_le (isDigitIn base) _) (Nat.le_trans ?_ hskip)
  split
  · exact Nat.le_trans (hmark _) (hsign _)
  · exact hsign _

/-- A call of `fscanf` never puts characters back that it was not given. -/
theorem fscanf_rest_le (fmt : List Directive) : ∀ s : Stream,
    (fscanf fmt s).2.rest.length ≤ s.rest.length := by
  induction fmt with
  | nil => exact fun s => Nat.le_refl _
  | cons d fmt ih =>
      intro s
      cases d with
      | space =>
          rw [fscanf]
          exact Nat.le_trans (ih _) (readWhile_rest_le isSpace s)
      | lit c =>
          rw [fscanf]
          split
          · exact Nat.zero_le _
          · rename_i x xs hrest
            split
            · refine Nat.le_trans (ih _) ?_
              simp [hrest]
            · exact Nat.le_refl _
      | chr =>
          rw [fscanf, Stream.readChar]
          cases hrest : s.rest with
          | nil => simp
          | cons c cs =>
              refine Nat.le_trans (ih _) ?_
              simp
      | dec =>
          rw [fscanf]
          have hle := readNumber_rest_le 10 s
          split
          · rename_i heq
            rwa [heq] at hle
          · rename_i heq
            rw [heq] at hle
            exact Nat.le_trans (ih _) hle
      | hex =>
          rw [fscanf]
          have hle := readNumber_rest_le 16 s
          split
          · rename_i heq
            rwa [heq] at hle
          · rename_i heq
            rw [heq] at hle
            exact Nat.le_trans (ih _) hle

/-! ### Reading what was printed -/

section Printed

variable {fmt : List Directive} {c : Char} {cs : List Char} {e : Bool}

@[simp] theorem fscanf_nil (s : Stream) : fscanf [] s = ([], s) := rfl

@[simp] theorem fscanf_lit : fscanf (.lit c :: fmt) ⟨c :: cs, e⟩ = fscanf fmt ⟨cs, e⟩ := by
  simp [fscanf]

@[simp] theorem fscanf_chr :
    fscanf (.chr :: fmt) ⟨c :: cs, e⟩
      = ((c.toNat : Int) :: (fscanf fmt ⟨cs, e⟩).1, (fscanf fmt ⟨cs, e⟩).2) := rfl

/-- Reading stops before the first character that does not belong. -/
theorem readWhile_append {p : Char → Bool} {ds : List Char} (hd : ∀ x ∈ ds, p x = true)
    (hc : p c = false) :
    Stream.readWhile p ⟨ds ++ c :: cs, e⟩ = (ds, ⟨c :: cs, e⟩) := by
  have hstop : ¬ p c = true := by simp [hc]
  simp [Stream.readWhile, List.takeWhile_append_of_pos hd, List.dropWhile_append_of_pos hd,
    List.takeWhile_cons_of_neg hstop, List.dropWhile_cons_of_neg hstop]

theorem skipSpace_cons (hc : isSpace c = false) :
    Stream.skipSpace ⟨c :: cs, e⟩ = ⟨c :: cs, e⟩ := by
  have h := @readWhile_append c cs e isSpace [] (by simp) hc
  rw [List.nil_append] at h
  rw [Stream.skipSpace, h]

theorem skipSpace_space_cons {b : Char} (hb : isSpace b = true) (hc : isSpace c = false) :
    Stream.skipSpace ⟨b :: c :: cs, e⟩ = ⟨c :: cs, e⟩ := by
  have h := @readWhile_append c cs e isSpace [b] (by simpa using hb) hc
  rw [Stream.skipSpace, show b :: c :: cs = [b] ++ c :: cs from rfl, h]

theorem toNat_of_digit (h : digitVal c < 16) : 48 ≤ c.toNat := by
  unfold digitVal at h
  split at h
  · rename_i hc
    exact hc.1
  · split at h
    · rename_i hc
      exact Nat.le_trans (by decide) hc.1
    · split at h
      · rename_i hc
        exact Nat.le_trans (by decide) hc.1
      · exact absurd h (Nat.lt_irrefl _)

/-- A digit is not white space. -/
theorem isSpace_of_digit (h : digitVal c < 16) : isSpace c = false := by
  have hle := toNat_of_digit h
  have hne : c ≠ ' ' := by
    intro hc
    rw [hc] at hle
    exact absurd hle (by decide)
  simp only [isSpace, hne, decide_false, Bool.false_or, Bool.and_eq_false_imp, decide_eq_true_eq,
    decide_eq_false_iff_not]
  omega

/-- A digit is not a sign. -/
theorem readSign_digit (h : digitVal c < 16) :
    Stream.readSign ⟨c :: cs, e⟩ = (false, ⟨c :: cs, e⟩) := by
  have hle := toNat_of_digit h
  unfold Stream.readSign
  split
  · rename_i heq
    rw [(List.cons.inj heq).1] at hle
    exact absurd hle (by decide)
  · rename_i heq
    rw [(List.cons.inj heq).1] at hle
    exact absurd hle (by decide)
  · rfl

/-- Digits up to a character that is not the mark of a hexadecimal number do not start with
one. -/
theorem readHexMark_digits {d : Char} {ds : List Char} (hd : ∀ x ∈ ds, digitVal x < 16)
    (hx : c ≠ 'x') (hX : c ≠ 'X') :
    Stream.readHexMark ⟨d :: (ds ++ c :: cs), e⟩ = ⟨d :: (ds ++ c :: cs), e⟩ := by
  have hsecond : ∀ b t, ds ++ c :: cs = b :: t → b ≠ 'x' ∧ b ≠ 'X' := by
    intro b t heq
    cases ds with
    | nil =>
        rw [List.nil_append] at heq
        rw [← (List.cons.inj heq).1]
        exact ⟨hx, hX⟩
    | cons b' ds =>
        have hb := hd b' List.mem_cons_self
        rw [(List.cons.inj heq).1] at hb
        refine ⟨?_, ?_⟩
        · intro h
          rw [h] at hb
          exact absurd hb (by decide)
        · intro h
          rw [h] at hb
          exact absurd hb (by decide)
  unfold Stream.readHexMark
  split
  · rename_i heq
    exact absurd rfl (hsecond _ _ (List.cons.inj heq).2).1
  · rename_i heq
    exact absurd rfl (hsecond _ _ (List.cons.inj heq).2).2
  · rfl

/-- **Reading a printed number**: digits up to a character that is none. -/
theorem readNumber_digits {base : Nat} {ds : List Char} (hbase : base ≤ 16) (hne : ds ≠ [])
    (hd : ∀ x ∈ ds, isDigitIn base x = true) (hc : isDigitIn base c = false) (hx : c ≠ 'x')
    (hX : c ≠ 'X') :
    Stream.readNumber base ⟨ds ++ c :: cs, e⟩ = (some (ofDigits base ds : Int), ⟨c :: cs, e⟩) := by
  have hdig : ∀ x ∈ ds, digitVal x < 16 :=
    fun x hx => Nat.lt_of_lt_of_le (of_decide_eq_true (hd x hx)) hbase
  cases ds with
  | nil => exact absurd rfl hne
  | cons d ds =>
      have hd0 := hdig d List.mem_cons_self
      have hspace := @skipSpace_cons d (ds ++ c :: cs) e (isSpace_of_digit hd0)
      have hmark := @readHexMark_digits c cs e d ds
        (fun x hx => hdig x (List.mem_cons_of_mem d hx)) hx hX
      have hread := @readWhile_append c cs e (isDigitIn base) (d :: ds) hd hc
      rw [List.cons_append] at hread ⊢
      rw [Stream.readNumber, hspace, readSign_digit hd0]
      simp [hmark, hread]

/-- White space before a number is skipped. -/
theorem readNumber_space {base : Nat} {b : Char} (hb : isSpace b = true) (s : Stream) :
    Stream.readNumber base ⟨b :: s.rest, s.eof⟩ = Stream.readNumber base s := by
  have hskip : Stream.skipSpace ⟨b :: s.rest, s.eof⟩ = s.skipSpace := by
    simp [Stream.skipSpace, Stream.readWhile, hb]
  rw [Stream.readNumber, Stream.readNumber, hskip]

end Printed

/-! ### Printed numbers -/

theorem isDigit_bounds {c : Char} (h : c.isDigit = true) : '0' ≤ c ∧ c ≤ '9' := by
  have hval : 48 ≤ c.val ∧ c.val ≤ 57 := by simpa [Char.isDigit] using h
  exact hval

theorem digitVal_of_isDigit {c : Char} (h : c.isDigit = true) : digitVal c = c.toNat - '0'.toNat := by
  rw [digitVal, if_pos (isDigit_bounds h)]

theorem digitVal_lt_of_isDigit {c : Char} (h : c.isDigit = true) : digitVal c < 10 := by
  have hle : c.toNat ≤ '9'.toNat := (isDigit_bounds h).2
  have h9 : '9'.toNat = 57 := rfl
  have h0 : '0'.toNat = 48 := rfl
  rw [digitVal_of_isDigit h]
  omega

/-- The decimal digits of a number have its value. -/
theorem ofDigits_toDigits (n : Nat) : ofDigits 10 (Nat.toDigits 10 n) = n := by
  have hfold : ∀ (l : List Char) (m : Nat), (∀ c ∈ l, c.isDigit = true) →
      l.foldl (fun n c => 10 * n + digitVal c) m = Nat.ofDigitChars 10 l m := by
    intro l
    induction l with
    | nil => exact fun _ _ => rfl
    | cons c l ih =>
        intro m h
        rw [List.foldl_cons, digitVal_of_isDigit (h c List.mem_cons_self),
          ih _ (fun x hx => h x (List.mem_cons_of_mem c hx)), Nat.ofDigitChars_cons]
  rw [ofDigits, hfold _ _ (fun c hc => Nat.isDigit_of_mem_toDigits (by decide) (by decide) hc),
    Nat.ofDigitChars_toDigits (by decide) (by decide)]

/-- A hexadecimal digit, in upper or lower case. -/
def hexDigit (upper : Bool) (n : Nat) : Char :=
  if n < 10 then Char.ofNat ('0'.toNat + n)
  else Char.ofNat ((if upper then 'A'.toNat else 'a'.toNat) + (n - 10))

/-- Two hexadecimal digits. -/
def hexByte (upper : Bool) (n : Nat) : List Char := [hexDigit upper (n / 16), hexDigit upper (n % 16)]

theorem digitVal_hexDigit : ∀ (upper : Bool) (n : Nat), n < 16 → digitVal (hexDigit upper n) = n := by
  decide

section Numbers

variable {fmt : List Directive} {c : Char} {cs : List Char} {e : Bool}

theorem fscanf_dec {n : Nat} (hc : isDigitIn 10 c = false) (hx : c ≠ 'x') (hX : c ≠ 'X') :
    fscanf (.dec :: fmt) ⟨Nat.toDigits 10 n ++ c :: cs, e⟩
      = ((n : Int) :: (fscanf fmt ⟨c :: cs, e⟩).1, (fscanf fmt ⟨c :: cs, e⟩).2) := by
  have hread := @readNumber_digits c cs e 10 (Nat.toDigits 10 n) (by decide) Nat.toDigits_ne_nil
    (fun x hx => decide_eq_true (digitVal_lt_of_isDigit
      (Nat.isDigit_of_mem_toDigits (by decide) (by decide) hx))) hc hx hX
  rw [ofDigits_toDigits] at hread
  rw [fscanf, hread]

theorem skipSpace_skipSpace (s : Stream) : s.skipSpace.skipSpace = s.skipSpace := by
  have hdrop : List.dropWhile isSpace (List.dropWhile isSpace s.rest) = List.dropWhile isSpace s.rest :=
    List.dropWhile_idempotent _ _
  simp [Stream.skipSpace, Stream.readWhile, hdrop]

/-- White space in a format before `%d` changes nothing. -/
theorem fscanf_space_skip (s : Stream) : fscanf (.space :: .dec :: fmt) s = fscanf (.dec :: fmt) s := by
  have hread : s.skipSpace.readNumber 10 = s.readNumber 10 := by
    rw [Stream.readNumber, Stream.readNumber, skipSpace_skipSpace]
  rw [fscanf, fscanf, fscanf, hread]

theorem fscanf_space_dec {b : Char} (hb : isSpace b = true) :
    fscanf (.dec :: fmt) ⟨b :: cs, e⟩ = fscanf (.dec :: fmt) ⟨cs, e⟩ := by
  rw [fscanf, fscanf, readNumber_space hb ⟨cs, e⟩]

theorem fscanf_hex {upper : Bool} {n : Nat} (hn : n < 256) (hc : isDigitIn 16 c = false)
    (hx : c ≠ 'x') (hX : c ≠ 'X') :
    fscanf (.hex :: fmt) ⟨hexByte upper n ++ c :: cs, e⟩
      = ((n : Int) :: (fscanf fmt ⟨c :: cs, e⟩).1, (fscanf fmt ⟨c :: cs, e⟩).2) := by
  have hhigh := digitVal_hexDigit upper (n / 16) (by omega)
  have hlow := digitVal_hexDigit upper (n % 16) (by omega)
  have hdig : ∀ x ∈ hexByte upper n, isDigitIn 16 x = true := by
    intro x hx
    rcases List.mem_cons.mp hx with hx | hx
    · rw [hx, isDigitIn, hhigh]
      exact decide_eq_true (by omega)
    · rw [List.mem_singleton.mp hx, isDigitIn, hlow]
      exact decide_eq_true (by omega)
  have hval : ofDigits 16 (hexByte upper n) = n := by
    simp only [ofDigits, hexByte, List.foldl_cons, List.foldl_nil, hhigh, hlow]
    omega
  have hread := @readNumber_digits c cs e 16 (hexByte upper n) (by decide) (by simp [hexByte]) hdig
    hc hx hX
  rw [hval] at hread
  rw [fscanf, hread]

end Numbers

end ChooseCut
