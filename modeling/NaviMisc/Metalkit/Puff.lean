import Mathlib.Data.Nat.Bitwise
import NaviMisc.Lib.ByteOrder

/-!
`puff` of metalkit/lib/puff.c, which inflates the files that are linked into a kernel, and
metalkit/lib/datafile.h over it.
-/

namespace NaviMisc.Metalkit.Puff

open Lib.ByteOrder (Byte)

def MAXBITS : ℕ := 15

def MAXLCODES : ℕ := 286

def MAXDCODES : ℕ := 30

def FIXLCODES : ℕ := 288

def ulong (n : ℕ) : ℕ := n % 2 ^ 32

inductive Stop
  -- The input has come to its end; the output buffer stays as it is then.
  | longjmp (out : Option (List Byte))
  -- An access outside of an array.
  | fault
  -- A loop has not come to its end.
  | fuel
  deriving DecidableEq

structure State where
  out : Option (List Byte)
  outcnt : ℕ
  in_ : List Byte
  incnt : ℕ
  bitbuf : ℕ
  bitcnt : ℕ

namespace State

variable (s : State)

def outlen : ℕ := (s.out.getD []).length

def inlen : ℕ := s.in_.length

def next : Except Stop (Byte × State) :=
  match s.in_[s.incnt]? with
  | some b => .ok (b, { s with incnt := s.incnt + 1 })
  | none => .error .fault

def put (b : Byte) : Except Stop State :=
  match s.out with
  | some out =>
    if s.outcnt < out.length then
      .ok { s with out := some (out.set s.outcnt b), outcnt := s.outcnt + 1 }
    else .error .fault
  | none => .ok { s with outcnt := ulong (s.outcnt + 1) }

end State

def load (need : ℕ) : ℕ → State → Except Stop State
  | 0, s => .ok s
  | fuel + 1, s =>
    if s.bitcnt < need then
      if s.incnt = s.inlen then .error (.longjmp s.out)
      else do
        let (b, s) ← s.next
        load need fuel
          { s with bitbuf := s.bitbuf ||| b.toNat <<< s.bitcnt, bitcnt := s.bitcnt + 8 }
    else .ok s

def bits (s : State) (need : ℕ) : Except Stop (ℕ × State) := do
  let s ← load need need s
  return (s.bitbuf &&& (1 <<< need - 1),
    { s with bitbuf := s.bitbuf >>> need, bitcnt := s.bitcnt - need })

def storedCopy : ℕ → State → Except Stop State
  | 0, s => .ok s
  | len + 1, s => do
    let (b, s) ← s.next
    storedCopy len (← s.put b)

def storedBytes (s : State) (len : ℕ) : Except Stop (ℤ × State) :=
  if s.inlen < ulong (s.incnt + len) then return (2, s)
  else
    match s.out with
    | some _ =>
      if s.outlen < ulong (s.outcnt + len) then return (1, s)
      else return (0, ← storedCopy len s)
    | none =>
      return (0, { s with outcnt := ulong (s.outcnt + len), incnt := ulong (s.incnt + len) })

def stored (s : State) : Except Stop (ℤ × State) := do
  let s := { s with bitbuf := 0, bitcnt := 0 }
  if s.inlen < ulong (s.incnt + 4) then return (2, s)
  let (b₀, s) ← s.next
  let (b₁, s) ← s.next
  let len := b₀.toNat ||| b₁.toNat <<< 8
  let (b₂, s) ← s.next
  if b₂ ≠ ~~~b₀ then return (-2, s)
  let (b₃, s) ← s.next
  if b₃ ≠ ~~~b₁ then return (-2, s)
  storedBytes s len

structure Huffman where
  count : ℕ → ℕ
  symbol : ℕ → ℕ
  /-- The size of the array of the symbols. -/
  capacity : ℕ

/-- The plain variant: one bit after the other. `n` lengths are left to be tried. -/
def decodeSlow (h : Huffman) : ℕ → State → ℕ → ℕ → ℕ → ℕ → Except Stop (ℤ × State)
  | 0, s, _, _, _, _ => .ok (-9, s)
  | n + 1, s, len, code, first, index => do
    let (bit, s) ← bits s 1
    let code := code ||| bit
    let count := h.count len
    if code < first + count then
      if index + (code - first) < h.capacity then return (h.symbol (index + (code - first)), s)
      else throw .fault
    else decodeSlow h n s (len + 1) (code <<< 1) ((first + count) <<< 1) (index + count)

/-- The variant that is compiled: the bits are taken from a copy of the bit buffer, of which `left`
are left, and the buffer is put back at the end. `n` lengths are left to be tried. -/
def decodeLoop (h : Huffman) : ℕ → State → ℕ → ℕ → ℕ → ℕ → ℕ → ℕ → Except Stop (ℤ × State)
  | 0, s, _, _, _, _, _, _ => .ok (-9, s)
  | n + 1, s, bitbuf, left, len, code, first, index => do
    let (bitbuf, left, s) ←
      if left = 0 then
        if s.incnt = s.inlen then throw (.longjmp s.out)
        else do
          let (b, s) ← s.next
          pure (b.toNat, min (n + 1) 8, s)
      else pure (bitbuf, left, s)
    let code := code ||| (bitbuf &&& 1)
    let bitbuf := bitbuf >>> 1
    let count := h.count len
    if code < first + count then
      if index + (code - first) < h.capacity then
        return (h.symbol (index + (code - first)),
          { s with bitbuf := bitbuf, bitcnt := (((s.bitcnt : ℤ) - len) % 8).toNat })
      else throw .fault
    else
      decodeLoop h n s bitbuf (left - 1) (len + 1) (code <<< 1) ((first + count) <<< 1)
        (index + count)

def decode (s : State) (h : Huffman) : Except Stop (ℤ × State) :=
  decodeLoop h MAXBITS s s.bitbuf s.bitcnt 1 0 0 0

def countLength (count : ℕ → ℕ) (l : ℤ) : Except Stop (ℕ → ℕ) :=
  if 0 ≤ l ∧ l ≤ MAXBITS then .ok (Function.update count l.toNat (count l.toNat + 1))
  else .error .fault

def checkLengths (count : ℕ → ℕ) : ℤ :=
  (List.range' 1 MAXBITS).foldl (fun left len => if left < 0 then left else 2 * left - count len) 1

def offsets (count : ℕ → ℕ) : ℕ → ℕ :=
  (List.range' 1 (MAXBITS - 1)).foldl
    (fun offs len => Function.update offs (len + 1) (offs len + count len)) fun _ => 0

def sortSymbol (capacity : ℕ) :
    (ℕ → ℕ) × (ℕ → ℕ) → ℤ × ℕ → Except Stop ((ℕ → ℕ) × (ℕ → ℕ))
  | (offs, symbols), (l, symbol) =>
    if l = 0 then .ok (offs, symbols)
    else if offs l.toNat < capacity then
      .ok (Function.update offs l.toNat (offs l.toNat + 1),
        Function.update symbols (offs l.toNat) symbol)
    else .error .fault

def construct (h : Huffman) (length : List ℤ) : Except Stop (ℤ × Huffman) := do
  let count ← length.foldlM countLength fun _ => 0
  let h := { h with count := count }
  if count 0 = length.length then return (0, h)
  let left := checkLengths count
  if left < 0 then return (left, h)
  let (_, symbol) ← length.zipIdx.foldlM (sortSymbol h.capacity) (offsets count, h.symbol)
  return (left, { h with symbol := symbol })

def lens : List ℕ :=
  [3, 4, 5, 6, 7, 8, 9, 10, 11, 13, 15, 17, 19, 23, 27, 31, 35, 43, 51, 59, 67, 83, 99, 115, 131,
    163, 195, 227, 258]

def lext : List ℕ :=
  [0, 0, 0, 0, 0, 0, 0, 0, 1, 1, 1, 1, 2, 2, 2, 2, 3, 3, 3, 3, 4, 4, 4, 4, 5, 5, 5, 5, 0]

def dists : List ℕ :=
  [1, 2, 3, 4, 5, 7, 9, 13, 17, 25, 33, 49, 65, 97, 129, 193, 257, 385, 513, 769, 1025, 1537, 2049,
    3073, 4097, 6145, 8193, 12289, 16385, 24577]

def dext : List ℕ :=
  [0, 0, 0, 0, 1, 1, 2, 2, 3, 3, 4, 4, 5, 5, 6, 6, 7, 7, 8, 8, 9, 9, 10, 10, 11, 11, 12, 12, 13, 13]

def entry (table : List ℕ) (i : ℕ) : Except Stop ℕ :=
  match table[i]? with
  | some n => .ok n
  | none => .error .fault

/-- The bytes that are `dist` back, which the copy itself may have written. -/
def copy (dist : ℕ) : ℕ → State → Except Stop State
  | 0, s => .ok s
  | len + 1, s =>
    match s.out.bind (·[s.outcnt - dist]?) with
    | some b => do copy dist len (← s.put b)
    | none => .error .fault

/-- None if the codes go on. -/
def copyBytes (s : State) (dist len : ℕ) : Except Stop (Option ℤ × State) :=
  match s.out with
  | some _ =>
    if s.outlen < ulong (s.outcnt + len) then return (some 1, s)
    else return (none, ← copy dist len s)
  | none => return (none, { s with outcnt := ulong (s.outcnt + len) })

def copyString (s : State) (symbol : ℕ) (distcode : Huffman) :
    Except Stop (Option ℤ × State) := do
  if 29 ≤ symbol then return (some (-9), s)
  let (extra, s) ← bits s (← entry lext symbol)
  let len := (← entry lens symbol) + extra
  let (symbol, s) ← decode s distcode
  if symbol < 0 then return (some symbol, s)
  let (extra, s) ← bits s (← entry dext symbol.toNat)
  let dist := (← entry dists symbol.toNat) + extra
  if s.outcnt < dist then return (some (-10), s)
  copyBytes s dist len

def codes (lencode distcode : Huffman) : ℕ → State → Except Stop (ℤ × State)
  | 0, _ => .error .fuel
  | fuel + 1, s => do
    let (symbol, s) ← decode s lencode
    if symbol < 0 then return (symbol, s)
    if symbol < 256 then
      if s.out.isSome ∧ s.outcnt = s.outlen then return (1, s)
      codes lencode distcode fuel (← s.put (BitVec.ofInt 8 symbol))
    else if 256 < symbol then
      match ← copyString s (symbol - 257).toNat distcode with
      | (some err, s) => return (err, s)
      | (none, s) => codes lencode distcode fuel s
    else return (0, s)

def State.fuel (s : State) : ℕ := 8 * s.inlen + 8

def fixedLengths : List ℤ :=
  List.replicate 144 8 ++ List.replicate 112 9 ++ List.replicate 24 7 ++ List.replicate 8 8

def fixed (s : State) : Except Stop (ℤ × State) := do
  let (_, lencode) ← construct ⟨fun _ => 0, fun _ => 0, FIXLCODES⟩ fixedLengths
  let (_, distcode) ← construct ⟨fun _ => 0, fun _ => 0, MAXDCODES⟩ (List.replicate MAXDCODES 5)
  codes lencode distcode s.fuel s

def order : List ℕ := [16, 17, 18, 0, 8, 7, 9, 6, 10, 5, 11, 4, 12, 3, 13, 2, 14, 1, 15]

def codeLength (ncode : ℕ) : List ℤ × State → ℕ × ℕ → Except Stop (List ℤ × State)
  | (lengths, s), (i, index) =>
    if index < ncode then do
      let (length, s) ← bits s 3
      return (lengths.set i length, s)
    else return (lengths.set i 0, s)

/-- The lengths of the codes of the lengths, of which the first `ncode` in the order are read. -/
def codeLengths (ncode : ℕ) (s : State) : Except Stop (List ℤ × State) :=
  order.zipIdx.foldlM (codeLength ncode) (List.replicate 19 0, s)

def lengthRun (lengths : List ℤ) (symbol : ℤ) (s : State) :
    Except Stop (Except ℤ (ℤ × ℕ) × State) :=
  if symbol < 16 then return (.ok (symbol, 1), s)
  else if symbol = 16 then
    match lengths.getLast? with
    | none => return (.error (-5), s)
    | some len => do
      let (extra, s) ← bits s 2
      return (.ok (len, 3 + extra), s)
  else if symbol = 17 then do
    let (extra, s) ← bits s 3
    return (.ok (0, 3 + extra), s)
  else do
    let (extra, s) ← bits s 7
    return (.ok (0, 11 + extra), s)

def readLengths (lencode : Huffman) (n : ℕ) :
    ℕ → List ℤ → State → Except Stop (Except ℤ (List ℤ) × State)
  | 0, _, _ => .error .fuel
  | fuel + 1, lengths, s =>
    if lengths.length < n then do
      let (symbol, s) ← decode s lencode
      match ← lengthRun lengths symbol s with
      | (.error err, s) => return (.error err, s)
      | (.ok (len, times), s) =>
        if n < lengths.length + times then return (.error (-6), s)
        readLengths lencode n fuel (lengths ++ List.replicate times len) s
    else .ok (.ok lengths, s)

def refused (err : ℤ) (h : Huffman) (n : ℕ) : Bool :=
  err < 0 ∨ 0 < err ∧ (n : ℤ) - h.count 0 ≠ 1

/-- The end of `dynamic`, with the lengths of both codes. -/
def dynamicCodes (lencode : Huffman) (nlen ndist : ℕ) (lengths : List ℤ) (s : State) :
    Except Stop (ℤ × State) := do
  let (err, lencode) ← construct lencode (lengths.take nlen)
  if refused err lencode nlen then return (-7, s)
  let (err, distcode) ← construct ⟨fun _ => 0, fun _ => 0, MAXDCODES⟩ (lengths.drop nlen)
  if refused err distcode ndist then return (-8, s)
  codes lencode distcode s.fuel s

def dynamic (s : State) : Except Stop (ℤ × State) := do
  let (nlen, s) ← bits s 5
  let nlen := nlen + 257
  let (ndist, s) ← bits s 5
  let ndist := ndist + 1
  let (ncode, s) ← bits s 4
  let ncode := ncode + 4
  if MAXLCODES < nlen ∨ MAXDCODES < ndist then return (-3, s)
  let (lengths, s) ← codeLengths ncode s
  let (err, lencode) ← construct ⟨fun _ => 0, fun _ => 0, MAXLCODES⟩ lengths
  if err ≠ 0 then return (-4, s)
  match ← readLengths lencode (nlen + ndist) (nlen + ndist + 1) [] s with
  | (.error err, s) => return (err, s)
  | (.ok lengths, s) => dynamicCodes lencode nlen ndist lengths s

def block (type : ℕ) (s : State) : Except Stop (ℤ × State) :=
  match type with
  | 0 => stored s
  | 1 => fixed s
  | 2 => dynamic s
  | _ => .ok (-1, s)

def blocks : ℕ → State → Except Stop (ℤ × State)
  | 0, _ => .error .fuel
  | fuel + 1, s => do
    let (last, s) ← bits s 1
    let (type, s) ← bits s 2
    let (err, s) ← block type s
    if err ≠ 0 ∨ last ≠ 0 then return (err, s)
    blocks fuel s

structure Result where
  err : ℤ
  dest : Option (List Byte)
  destlen : ℕ
  sourcelen : ℕ

def puff (dest : Option (List Byte)) (source : List Byte) : Except Stop Result :=
  let s : State := ⟨dest, 0, source, 0, 0, 0⟩
  match blocks s.fuel s with
  | .ok (err, s) =>
    if err ≤ 0 then .ok ⟨err, s.out, s.outcnt, s.incnt⟩ else .ok ⟨err, s.out, s.outlen, s.inlen⟩
  | .error (.longjmp out) => .ok ⟨2, out, s.outlen, s.inlen⟩
  | .error stop => .error stop

/-- A file that cannot be inflated is a breakpoint, behind which the kernel goes on. -/
structure Inflated where
  int3 : Bool
  buffer : Option (List Byte)
  size : ℕ

def DataFile_Decompress (f : List Byte) (buffer : Option (List Byte)) : Except Stop Inflated := do
  let r ← puff buffer f
  return ⟨r.err ≠ 0, r.dest, r.destlen⟩

def DataFile_GetDecompressedSize (f : List Byte) : Except Stop Inflated :=
  DataFile_Decompress f none

end NaviMisc.Metalkit.Puff
