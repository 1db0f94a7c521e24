import Mathlib.Data.Fin.VecNotation
import ChooseCut.Lib.Scan
import ChooseCut.Rule

/-!
# ChooseCut.FilterFile

The reader of rule files (`utils.c`: `ReadFilterFile` and the functions below it).

A filter is an `@` followed by two addresses, two port ranges and a protocol; whatever
stands between a filter and the next `@` is skipped. The functions share one stream, and
each `fscanf` call goes on where the last one stopped. The model of a field is the
`fscanf` calls (`readIpFields`, `readPort`, …) followed by the arithmetic on the numbers
read (`ipRange`, `protoRange`), so that what stands in the file can be told from what is
made of it.

The character `ReadFilter` compares with `@` is a local variable without a value. It
keeps that value if the first read of a call fails, so the value is an argument here.
-/

namespace ChooseCut

/-! ### Data -/

/-- `MAXFILTERS`. -/
def maxFilters : Nat := 65535

/-- `struct FILTER`, without the field `act` that nothing sets. -/
structure Filter where
  cost : Nat
  dim : Dim → Range

/-- The fields whose text can be ill-formed. -/
inductive IllFormat
  | ip
  | slash
  | mask
  | port
  | protocol
  deriving Repr, DecidableEq

/-- What is printed before the reader exits. -/
def IllFormat.message : IllFormat → String
  | .ip => "\n>> [err] ill-format IP rule-file\n"
  | .slash => "\n>> [err] ill-format IP slash rule-file\n"
  | .mask => "\n>> [err] ill-format mask rule-file\n"
  | .port => "\n>> [err] ill-format port range rule-file\n"
  | .protocol => "\n>> [err] ill-format protocol rule-file\n"

/-- The ways the reader stops without a result. -/
inductive ReadFault
  /-- A field is ill-formed: a message and `exit(-1)`. -/
  | illFormat (what : IllFormat)
  /-- An octet in front of the array of four is written. -/
  | wild
  /-- A filter behind the array of `MAXFILTERS` is written. -/
  | overrun
  /-- The bound on the calls of `ReadFilter`, which the program does not have. -/
  | fuel
  deriving Repr, DecidableEq

/-- Storing an `int` in an `unsigned int`. -/
def toUnsigned (v : Int) : Nat := (v % 2 ^ 32).toNat

/-! ### Addresses -/

/-- The numerals of an octet position are read through this instance. -/
instance octetNeZero : NeZero 4 := ⟨by decide⟩

/-- The numbers of an address: the octets and the mask length. -/
structure IpFields where
  octet : Fin 4 → Nat
  len : Nat

/-- The `fscanf` calls of `ReadIPRange`. A character other than a slash behind the octets
is consumed and means a mask length of 32. -/
def readIpFields (s : Stream) : Except ReadFault (IpFields × Stream) :=
  match fscanf [.dec, .lit '.', .dec, .lit '.', .dec, .lit '.', .dec] s with
  | ([a, b, c, d], s) =>
      let octet := ![toUnsigned a, toUnsigned b, toUnsigned c, toUnsigned d]
      match fscanf [.chr] s with
      | ([slash], s) =>
          if slash ≠ '/'.toNat then .ok (⟨octet, 32⟩, s)
          else
            match fscanf [.dec] s with
            | ([mask], s) => .ok (⟨octet, toUnsigned mask⟩, s)
            | _ => .error (.illFormat .mask)
      | _ => .error (.illFormat .slash)
  | _ => .error (.illFormat .ip)

/-- The loop `for (i = 3; i > 3 - n; i--) ptrange[i] = v`. -/
def fillOctets (n v : Nat) (o : Fin 4 → Nat) : Fin 4 → Nat :=
  fun i => if 3 < i.val + n then v else o i

/-- An update of `ptrange[3 - n]`. -/
def changeOctet (n : Nat) (g : Nat → Nat) (o : Fin 4 → Nat) : Fin 4 → Nat :=
  fun i => if i.val + n = 3 then g (o i) else o i

/-- The four octets as one word, by shifts and additions of 32 bits. -/
def joinOctets (o : Fin 4 → Nat) : Nat :=
  [o 1, o 2, o 3].foldl (fun ip x => ((ip <<< 8) % 2 ^ 32 + x) % 2 ^ 32) (o 0)

/-- The arithmetic of `ReadIPRange`. -/
def ipRange (f : IpFields) : Except ReadFault Range :=
  let mask := (32 + 2 ^ 32 - f.len) % 2 ^ 32
  let masklit1 := mask / 8
  let masklit2 := mask % 8
  if 4 < masklit1 ∨ (masklit1 = 4 ∧ masklit2 ≠ 0) then .error .wild
  else
    let masklit3 := 2 ^ masklit2 - 1
    let start := fillOctets masklit1 0 f.octet
    let start := if masklit2 ≠ 0 then
        changeOctet masklit1 (fun x => x &&& (2 ^ 32 - 1 - masklit3)) start else start
    let stop := fillOctets masklit1 255 start
    let stop := if masklit2 ≠ 0 then changeOctet masklit1 (fun x => x ||| masklit3) stop else stop
    .ok ⟨joinOctets start, joinOctets stop⟩

/-- An access to `ptrange[i]`, an array of four octets. -/
def accessOctet (i : Int) (g : Nat → Nat) (o : Fin 4 → Nat) : Except ReadFault (Fin 4 → Nat) :=
  if h : 0 ≤ i ∧ i < 4 then
    let k : Fin 4 := ⟨i.toNat, by omega⟩
    .ok (Function.update o k (g (o k)))
  else .error .wild

/-- The loop of `fillOctets`, turn by turn: `n` turns with `i` counting down. -/
def fillLoop (v : Nat) : Nat → Int → (Fin 4 → Nat) → Except ReadFault (Fin 4 → Nat)
  | 0, _, o => .ok o
  | n + 1, i, o => do
      let o ← accessOctet i (fun _ => v) o
      fillLoop v n (i - 1) o

/-- The arithmetic of `ReadIPRange`, access by access. `ipRange` decides on the mask at
once whether one of the accesses leaves the array; here every access is checked where it
stands. -/
def ipRangeSteps (f : IpFields) : Except ReadFault Range := do
  let mask := (32 + 2 ^ 32 - f.len) % 2 ^ 32
  let masklit1 := mask / 8
  let masklit2 := mask % 8
  let masklit3 := 2 ^ masklit2 - 1
  let ptrange ← fillLoop 0 masklit1 3 f.octet
  let ptrange ← if masklit2 ≠ 0 then
      accessOctet (3 - masklit1) (fun x => x &&& (2 ^ 32 - 1 - masklit3)) ptrange
    else .ok ptrange
  let start := joinOctets ptrange
  let ptrange ← fillLoop 255 masklit1 3 ptrange
  let ptrange ← if masklit2 ≠ 0 then
      accessOctet (3 - masklit1) (fun x => x ||| masklit3) ptrange
    else .ok ptrange
  .ok ⟨start, joinOctets ptrange⟩

/-- `ReadIPRange`. -/
def readIPRange (s : Stream) : Except ReadFault (Range × Stream) := do
  let f ← readIpFields s
  let r ← ipRange f.1
  .ok (r, f.2)

/-! ### Ports and protocol -/

/-- `ReadPort`. -/
def readPort (s : Stream) : Except ReadFault (Range × Stream) :=
  match fscanf [.dec, .space, .lit ':', .space, .dec] s with
  | ([tfrom, tto], s) => .ok (⟨toUnsigned tfrom, toUnsigned tto⟩, s)
  | _ => .error (.illFormat .port)

/-- The numbers of a protocol: the value and the mask. -/
structure ProtoFields where
  proto : Nat
  len : Nat

/-- The `fscanf` call of `ReadProtocol`. -/
def readProtoFields (s : Stream) : Except ReadFault (ProtoFields × Stream) :=
  match fscanf [.space, .chr, .chr, .hex, .chr, .chr, .chr, .hex] s with
  | ([_, _, proto, _, _, _, len], s) => .ok (⟨toUnsigned proto, toUnsigned len⟩, s)
  | _ => .error (.illFormat .protocol)

/-- The protocol range: a single value, or everything. -/
def protoRange (f : ProtoFields) : Range :=
  if f.len = 0xff then ⟨f.proto, f.proto⟩ else ⟨0x0, 0xff⟩

/-- `ReadProtocol`. -/
def readProtocol (s : Stream) : Except ReadFault (Range × Stream) := do
  let f ← readProtoFields s
  .ok (protoRange f.1, f.2)

/-! ### Filters and files -/

/-- The loop of `ReadFilter` up to the `@`: the characters behind it, or the end of the
file. `valid` is the character read last; at the end of the file the read fails and
leaves it as it is. -/
def seekFilter : List Char → Char → Option Stream
  | [], valid => if valid = '@' then some ⟨[], true⟩ else none
  | c :: cs, _ => if c = '@' then some ⟨cs, false⟩ else seekFilter cs c

/-- The part of `ReadFilter` between the `@` and the store: the fields in order. -/
def readDims (s : Stream) : Except ReadFault ((Dim → Range) × Stream) := do
  let sip ← readIPRange s
  let dip ← readIPRange sip.2
  let sport ← readPort dip.2
  let dport ← readPort sport.2
  let proto ← readProtocol dport.2
  .ok (![sip.1, dip.1, sport.1, dport.1, proto.1], proto.2)

/-- `ReadFilter`: the filters stored and the stream behind the one read. -/
def readFilter (junk : Char) (s : Stream) (filtset : List Filter) (cost : Nat) :
    Except ReadFault (List Filter × Stream) :=
  match if s.eof then none else seekFilter s.rest junk with
  | none => .ok (filtset, ⟨[], true⟩)
  | some s => do
      let p ← readDims s
      if filtset.length < maxFilters then .ok (filtset ++ [⟨cost, p.1⟩], p.2)
      else .error .overrun

/-- `LoadFilters`, at most `fuel` calls of `ReadFilter`. -/
def loadFilters (junk : Nat → Char) : Nat → Stream → Nat → List Filter →
    Except ReadFault (List Filter)
  | 0, _, _, _ => .error .fuel
  | fuel + 1, s, line, filtset =>
      if s.eof then .ok filtset
      else do
        let p ← readFilter (junk line) s filtset line
        loadFilters junk fuel p.2 (line + 1) p.1

/-- The rule made of a filter. -/
def Filter.toRule (f : Filter) : Rule := ⟨f.cost, f.dim⟩

/-- `ReadFilterFile`, on the text of the file. Every call of `ReadFilter` reads a
character or the end of the file, so the length of the text bounds the calls. -/
def readFilterFile (junk : Nat → Char) (text : List Char) : Except ReadFault RuleSet := do
  let filtset ← loadFilters junk (text.length + 2) ⟨text, false⟩ 0 []
  .ok ⟨filtset.length, filtset.length, filtset.map Filter.toRule⟩

end ChooseCut
