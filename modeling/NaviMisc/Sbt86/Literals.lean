import NaviMisc.Sbt86.Instruction
import NaviMisc.Sbt86.Rle

/-!
`_decodeLiteral` of scripts/sbt86.py: an immediate is located by looking for the bytes of its value
in the encoding of its instruction.
-/

namespace NaviMisc.Sbt86

section findAll

variable {α : Type} [DecidableEq α]

/-- `str.find`. -/
def find (needle haystack : List α) : Option ℕ := haystack.tails.findIdx? needle.isPrefixOf

def findAllFrom (needle haystack : List α) (offset : ℕ) : List ℕ :=
  if haystack.length ≤ offset then []
  else
    match find needle (haystack.drop offset) with
    | none => []
    | some x => (offset + x) :: findAllFrom needle haystack (offset + x + 1)
termination_by haystack.length - offset

def findAll (needle haystack : List α) : List ℕ := findAllFrom needle haystack 0

def Occurs (needle haystack : List α) (k : ℕ) : Prop := needle <+: haystack.drop k

instance (needle haystack : List α) (k : ℕ) : Decidable (Occurs needle haystack k) :=
  inferInstanceAs (Decidable (needle <+: haystack.drop k))

variable {needle haystack : List α} {offset x j k : ℕ}

omit [DecidableEq α] in
theorem Occurs.lt (h : Occurs needle haystack k) (hne : needle ≠ []) : k < haystack.length := by
  by_contra hk
  rw [Occurs, List.drop_eq_nil_of_le (not_lt.mp hk), List.prefix_nil] at h
  exact hne h

omit [DecidableEq α] in
theorem occurs_drop : Occurs needle (haystack.drop offset) j ↔
    Occurs needle haystack (offset + j) := by
  rw [Occurs, List.drop_drop, Occurs]

theorem occurs_of_find (h : find needle haystack = some x) :
    Occurs needle haystack x ∧ ∀ j < x, ¬Occurs needle haystack j := by
  obtain ⟨_, hx, hlt⟩ := List.findIdx?_eq_some_iff_getElem.mp h
  simp only [List.getElem_tails, List.isPrefixOf_iff_prefix] at hx hlt
  exact ⟨hx, hlt⟩

theorem not_occurs_of_find (h : find needle haystack = none) (j : ℕ) :
    ¬Occurs needle haystack j := by
  intro hj
  have hfalse := List.findIdx?_eq_none_iff.mp h _
    ((List.mem_tails _ _).mpr (List.drop_suffix j haystack))
  rw [List.isPrefixOf_iff_prefix.mpr hj] at hfalse
  cases hfalse

theorem mem_findAllFrom (hne : needle ≠ []) :
    k ∈ findAllFrom needle haystack offset ↔ offset ≤ k ∧ Occurs needle haystack k := by
  fun_induction findAllFrom needle haystack offset with
  | case1 offset hlen =>
    simp only [List.not_mem_nil, false_iff, not_and]
    exact fun hk h => absurd (h.lt hne) (by omega)
  | case2 offset hlen hnone =>
    simp only [List.not_mem_nil, false_iff, not_and]
    intro hk h
    obtain ⟨j, rfl⟩ := Nat.exists_eq_add_of_le hk
    exact not_occurs_of_find hnone j (occurs_drop.mpr h)
  | case3 offset hlen x hx ih =>
    obtain ⟨hfound, hfirst⟩ := occurs_of_find hx
    rw [List.mem_cons, ih]
    constructor
    · rintro (rfl | ⟨hk, h⟩)
      · exact ⟨by omega, occurs_drop.mp hfound⟩
      · exact ⟨by omega, h⟩
    · rintro ⟨hk, h⟩
      obtain ⟨j, rfl⟩ := Nat.exists_eq_add_of_le hk
      -- Nothing occurs before the first place that was found.
      have hj : x ≤ j := not_lt.mp fun hlt => hfirst j hlt (occurs_drop.mpr h)
      rcases Nat.eq_or_lt_of_le hj with rfl | hlt
      · exact Or.inl rfl
      · exact Or.inr ⟨by omega, h⟩

theorem findAllFrom_nodup (hne : needle ≠ []) : (findAllFrom needle haystack offset).Nodup := by
  fun_induction findAllFrom needle haystack offset with
  | case1 => exact List.nodup_nil
  | case2 => exact List.nodup_nil
  | case3 offset hlen x hx ih =>
    refine List.nodup_cons.mpr ⟨fun h => ?_, ih⟩
    have := ((mem_findAllFrom hne).mp h).1
    omega

theorem mem_findAll (hne : needle ≠ []) :
    k ∈ findAll needle haystack ↔ Occurs needle haystack k := by
  rw [findAll, mem_findAllFrom hne]
  exact and_iff_right (Nat.zero_le k)

theorem findAll_eq_singleton_iff (hne : needle ≠ []) :
    findAll needle haystack = [k] ↔ ∀ j, Occurs needle haystack j ↔ j = k := by
  constructor
  · intro h j
    rw [← mem_findAll hne, h, List.mem_singleton]
  · intro h
    apply List.perm_singleton.mp
    apply (List.perm_ext_iff_of_nodup (findAllFrom_nodup hne) (List.nodup_singleton k)).mpr
    intro j
    rw [List.mem_singleton, ← h j]
    exact mem_findAll hne

end findAll

/-- What `_decodeLiteral` reads of its instruction. `encoding` is empty where a patch gives none. -/
structure Listed where
  op : Op
  addr : Addr16
  encoding : List Byte
  dynamicLiterals : Bool

inductive DecodeError
  | pack (e : PackError)
  -- "Can't find address for dynamic literal 0x%x at %s"
  | noAddress (value : ℤ) (addr : Addr16)
  deriving DecidableEq

namespace Listed

def pack (value : ℤ) : Except DecodeError (List Byte) :=
  if value < 0 then .error (.pack .outOfRange) else (packH value.toNat).mapError .pack

def findLiteralAddr (i : Listed) (value : ℤ) :
    Except DecodeError (Option Addr16 × Option ℕ) := do
  if i.encoding = [] then return (none, none)
  match findAll (← pack value) (i.encoding.drop 1) with
  | [x] => return (some (i.addr.add (x + 1)), some 2)
  | _ =>
    if value < 0x100 then
      match findAll [BitVec.ofInt 8 value] (i.encoding.drop 1) with
      | [x] => return (some (i.addr.add (x + 1)), some 1)
      | _ => return (none, none)
    else return (none, none)

def dynamic (i : Listed) : Bool :=
  i.dynamicLiterals &&
    !(i.op.startsWithJ || i.op ∈ [.call, .shl, .shr, .other "rol", .ror, .sar, .rcl, .rcr])

def unsigned (value : ℤ) : ℤ := if value < 0 then value + 0x10000 else value

def decodeLiteral (i : Listed) (value : ℤ) : Except DecodeError Literal := do
  let value := unsigned value
  let (addr, width) ← i.findLiteralAddr value
  if i.dynamic ∧ addr = none then .error (.noAddress value i.addr)
  else return ⟨value.toNat, addr, width, i.dynamic⟩

end Listed

inductive Immediate
  | imm8 (b : Byte)
  -- A byte that stands for a word, and is listed with its sign.
  | sbyte (b : Byte)
  | imm16 (lo hi : Byte)

namespace Immediate

def field : Immediate → List Byte
  | imm8 b => [b]
  | sbyte b => [b]
  | imm16 lo hi => [lo, hi]

def value : Immediate → ℤ
  | imm8 b => b.toNat
  | sbyte b => b.toInt
  | imm16 lo hi => lo.toNat + 0x100 * hi.toNat

def size (imm : Immediate) : ℕ := imm.field.length

def word : Immediate → List Byte
  | imm8 b => [b, 0]
  | sbyte b => [b, if b.msb then 0xFF else 0]
  | imm16 lo hi => [lo, hi]

end Immediate

structure Encoding where
  opcode : Byte
  before : List Byte
  immediate : Immediate
  after : List Byte

namespace Encoding

def tail (e : Encoding) : List Byte := e.before ++ e.immediate.field ++ e.after

def bytes (e : Encoding) : List Byte := e.opcode :: e.tail

def position (e : Encoding) : ℕ := 1 + e.before.length

end Encoding

structure AtField (place : Addr16) (imm : Immediate) (l : Literal) : Prop where
  addr : l.addr = some place
  width : l.width = some imm.size
  signed : signed (.lit l) = .ok (.cast (if imm.size = 1 then .i8 else .i16)
    (if l.dynamic then
      if imm.size = 1 then .mem8 .cs (.lit place.offset) else .mem16 .cs (.lit place.offset)
    else .lit l.value))

def Located (op : Op) (addr : Addr16) (dynamicLiterals : Bool) (e : Encoding) : Prop :=
  ∀ l, Listed.decodeLiteral ⟨op, addr, e.bytes, dynamicLiterals⟩ e.immediate.value = .ok l →
    l.addr ≠ none → AtField (addr.add e.position) e.immediate l

theorem Immediate.size_cases (imm : Immediate) :
    (∃ lo hi, imm.field = [lo, hi] ∧ imm.word = [lo, hi]) ∨
      ∃ b hi, imm.field = [b] ∧ imm.word = [b, hi] := by
  cases imm with
  | imm8 b => exact Or.inr ⟨b, _, rfl, rfl⟩
  | sbyte b => exact Or.inr ⟨b, _, rfl, rfl⟩
  | imm16 lo hi => exact Or.inl ⟨lo, hi, rfl, rfl⟩

theorem occurs_field (e : Encoding) : Occurs e.immediate.field e.tail e.before.length := by
  rw [Occurs, Encoding.tail, List.append_assoc, List.drop_left]
  exact List.prefix_append _ _

theorem pack_word (imm : Immediate) : Listed.pack (Listed.unsigned imm.value) = .ok imm.word := by
  cases imm with
  | imm8 b =>
    have hb := b.isLt
    have hn : (Immediate.imm8 b).value = ((b.toNat : ℕ) : ℤ) := rfl
    rw [hn, Listed.unsigned, if_neg (by omega), Listed.pack, if_neg (by omega), Int.toNat_natCast,
      packH, if_pos (by omega), Nat.div_eq_of_lt hb, BitVec.ofNat_toNat]
    simp [Except.mapError, Immediate.word]
  | sbyte b =>
    revert b
    decide
  | imm16 lo hi =>
    have hlo := lo.isLt
    have hhi := hi.isLt
    have hn : (Immediate.imm16 lo hi).value = ((lo.toNat + 0x100 * hi.toNat : ℕ) : ℤ) := by
      simp [Immediate.value]
    rw [hn, Listed.unsigned, if_neg (by omega), Listed.pack, if_neg (by omega), Int.toNat_natCast,
      packH, if_pos (by omega), show (lo.toNat + 0x100 * hi.toNat) / 0x100 = hi.toNat by omega]
    simp [Except.mapError, Immediate.word, BitVec.ofNat_add, BitVec.ofNat_mul]

theorem ofInt_of_pack {value : ℤ} {lo hi : Byte} (h : Listed.pack value = .ok [lo, hi]) :
    BitVec.ofInt 8 value = lo := by
  rw [Listed.pack, packH] at h
  split_ifs at h with hneg hlt
  · have hlo : BitVec.ofNat 8 value.toNat = lo := by
      simp [Except.mapError] at h
      exact h.1
    rw [← hlo, ← BitVec.ofInt_natCast, Int.toNat_of_nonneg (not_lt.mp hneg)]
  · cases h

section decodeLiteral

variable {i : Listed} {value : ℤ} {lo hi : Byte}

theorem findLiteralAddr_cases (hi' : i.encoding ≠ []) (h : Listed.pack value = .ok [lo, hi]) :
    (∃ x, findAll [lo, hi] (i.encoding.drop 1) = [x] ∧
      i.findLiteralAddr value = .ok (some (i.addr.add (x + 1)), some 2)) ∨
    (¬∃ y, findAll [lo, hi] (i.encoding.drop 1) = [y]) ∧
      ((∃ x, findAll [lo] (i.encoding.drop 1) = [x] ∧
        i.findLiteralAddr value = .ok (some (i.addr.add (x + 1)), some 1)) ∨
      i.findLiteralAddr value = .ok (none, none)) := by
  rw [Listed.findLiteralAddr, if_neg hi', h]
  simp only [bind, Except.bind, pure, Except.pure]
  rw [ofInt_of_pack h]
  generalize findAll [lo, hi] (i.encoding.drop 1) = words
  generalize findAll [lo] (i.encoding.drop 1) = bytes
  split
  · exact Or.inl ⟨_, rfl, rfl⟩
  · refine Or.inr ⟨fun ⟨y, hy⟩ => ?_, ?_⟩
    · simp_all
    · split_ifs
      · split
        · exact Or.inl ⟨_, rfl, rfl⟩
        · exact Or.inr rfl
      · exact Or.inr rfl

theorem decodeLiteral_of_found {addr : Option Addr16} {width : Option ℕ}
    (h : i.findLiteralAddr (Listed.unsigned value) = .ok (addr, width)) :
    i.decodeLiteral value = if i.dynamic ∧ addr = none then
        .error (.noAddress (Listed.unsigned value) i.addr)
      else .ok ⟨(Listed.unsigned value).toNat, addr, width, i.dynamic⟩ := by
  rw [Listed.decodeLiteral, h]
  rfl

theorem eq_of_decodeLiteral {l : Literal} {addr : Option Addr16} {width : Option ℕ}
    (hl : i.decodeLiteral value = .ok l)
    (h : i.findLiteralAddr (Listed.unsigned value) = .ok (addr, width)) :
    l.addr = addr ∧ l.width = width := by
  rw [decodeLiteral_of_found h] at hl
  by_cases hd : i.dynamic ∧ addr = none
  · rw [if_pos hd] at hl
    cases hl
  · rw [if_neg hd] at hl
    cases hl
    exact ⟨rfl, rfl⟩

theorem decodeLiteral_cases {l : Literal} (hi' : i.encoding ≠ [])
    (hpack : Listed.pack (Listed.unsigned value) = .ok [lo, hi])
    (hl : i.decodeLiteral value = .ok l) (hne : l.addr ≠ none) :
    (∃ x, findAll [lo, hi] (i.encoding.drop 1) = [x] ∧
      l.addr = some (i.addr.add (x + 1)) ∧ l.width = some 2) ∨
    (¬∃ y, findAll [lo, hi] (i.encoding.drop 1) = [y]) ∧
      ∃ x, findAll [lo] (i.encoding.drop 1) = [x] ∧
        l.addr = some (i.addr.add (x + 1)) ∧ l.width = some 1 := by
  obtain ⟨x, hx, hfound⟩ | ⟨hword, ⟨x, hx, hfound⟩ | hfound⟩ := findLiteralAddr_cases hi' hpack
  · exact Or.inl ⟨x, hx, eq_of_decodeLiteral hl hfound⟩
  · exact Or.inr ⟨hword, x, hx, eq_of_decodeLiteral hl hfound⟩
  · exact absurd (eq_of_decodeLiteral hl hfound).1 hne

theorem decodeLiteral_of_word {x : ℕ} (hi' : i.encoding ≠ [])
    (hpack : Listed.pack (Listed.unsigned value) = .ok [lo, hi])
    (hx : findAll [lo, hi] (i.encoding.drop 1) = [x]) : i.decodeLiteral value =
      .ok ⟨(Listed.unsigned value).toNat, some (i.addr.add (x + 1)), some 2, i.dynamic⟩ := by
  obtain ⟨y, hy, hfound⟩ | ⟨hword, -⟩ := findLiteralAddr_cases hi' hpack
  · rw [decodeLiteral_of_found hfound, if_neg (by simp)]
    rw [hx] at hy
    cases hy
    rfl
  · exact absurd ⟨x, hx⟩ hword

end decodeLiteral

section Located

variable {op : Op} {addr : Addr16} {dynamicLiterals : Bool} {e : Encoding}

theorem AtField.of_eq {place : Addr16} {imm : Immediate} {l : Literal} (haddr : l.addr = some place)
    (hwidth : l.width = some imm.size) : AtField place imm l where
  addr := haddr
  width := hwidth
  signed := by
    have hsize : imm.size = 1 ∨ imm.size = 2 := by
      obtain ⟨_, _, hf, -⟩ | ⟨_, _, hf, -⟩ := imm.size_cases <;> simp [Immediate.size, hf]
    rcases hsize with hsize | hsize <;> cases hd : l.dynamic <;>
      simp [Sbt86.signed, Operand.codegen, Operand.width, Literal.codegen, memRead, haddr, hwidth,
        hsize, hd, bind, Except.bind, pure, Except.pure]

theorem Occurs.head {α : Type} {a b : α} {l : List α} {k : ℕ} (h : Occurs [a, b] l k) :
    Occurs [a] l k :=
  List.IsPrefix.trans (List.prefix_append [a] [b]) h

/-- A byte is taken for something else exactly where its value has one place as a word. -/
theorem literal_located_iff (op : Op) (addr : Addr16) (dynamicLiterals : Bool) (e : Encoding) :
    Located op addr dynamicLiterals e ↔
      e.immediate.size = 2 ∨ ¬∃! k, Occurs e.immediate.word e.tail k := by
  have hfield := occurs_field e
  have hpack := pack_word e.immediate
  have hne : e.bytes ≠ [] := List.cons_ne_nil _ _
  obtain ⟨lo, hi, hf, hw⟩ | ⟨b, hi, hf, hw⟩ := e.immediate.size_cases
  · rw [hw] at hpack
    rw [hf] at hfield
    refine iff_of_true (fun l hl hsome => ?_) (Or.inl (by rw [Immediate.size, hf]; rfl))
    obtain ⟨x, hx, haddr, hwidth⟩ | ⟨hnone, x, hx, -⟩ := decodeLiteral_cases hne hpack hl hsome
    · have hplace := ((findAll_eq_singleton_iff (List.cons_ne_nil _ _)).mp hx _).mp hfield
      rw [← hplace, Nat.add_comm] at haddr
      exact AtField.of_eq haddr (by rw [hwidth, Immediate.size, hf]; rfl)
    · -- The byte has no other place, so neither has the word.
      have hbyte := (findAll_eq_singleton_iff (List.cons_ne_nil _ _)).mp hx
      refine absurd ⟨e.before.length,
        (findAll_eq_singleton_iff (List.cons_ne_nil _ _)).mpr ?_⟩ hnone
      intro j
      refine ⟨fun h => ?_, fun h => h ▸ hfield⟩
      rw [(hbyte j).mp h.head, (hbyte _).mp hfield.head]
  · rw [hw] at hpack ⊢
    rw [hf] at hfield
    have hsize : e.immediate.size = 1 := by rw [Immediate.size, hf]; rfl
    rw [hsize, or_iff_right (by decide)]
    constructor
    · rintro h ⟨k, hk, huniq⟩
      have hl := decodeLiteral_of_word (i := ⟨op, addr, e.bytes, dynamicLiterals⟩) hne hpack
        ((findAll_eq_singleton_iff (List.cons_ne_nil _ _)).mpr
          fun j => ⟨huniq j, fun hj => hj ▸ hk⟩)
      have hwidth := (h _ hl (Option.some_ne_none _)).width
      rw [hsize] at hwidth
      cases hwidth
    · intro hnot l hl hsome
      obtain ⟨x, hx, -⟩ | ⟨-, x, hx, haddr, hwidth⟩ := decodeLiteral_cases hne hpack hl hsome
      · have hword := (findAll_eq_singleton_iff (List.cons_ne_nil _ _)).mp hx
        exact absurd ⟨x, (hword x).mpr rfl, fun j hj => (hword j).mp hj⟩ hnot
      · have hplace := ((findAll_eq_singleton_iff (List.cons_ne_nil _ _)).mp hx _).mp hfield
        rw [← hplace, Nat.add_comm] at haddr
        exact AtField.of_eq haddr (by rw [hwidth, hsize])

/-- The displacement of `cmp byte [0x5],0x5`. -/
theorem literal_located_not : ¬Located .cmp (.ofParts 0 0x100) false
    ⟨0x80, [0x3E, 0x05, 0x00], .imm8 0x05, []⟩ := by
  intro h
  have hfound : findAll [0x05, 0x00] ([0x3E, 0x05, 0x00, 0x05] : List Byte) = [1] := by
    apply (findAll_eq_singleton_iff (List.cons_ne_nil _ _)).mpr
    intro j
    refine ⟨fun hj => ?_, fun hj => hj ▸ by decide⟩
    have hlt := hj.lt (List.cons_ne_nil _ _)
    revert hj
    revert j
    decide
  have hl : Listed.decodeLiteral ⟨.cmp, .ofParts 0 0x100, [0x80, 0x3E, 5, 0, 5], false⟩ 5 = _ :=
    decodeLiteral_of_word (List.cons_ne_nil _ _) (by decide) hfound
  have hwidth := (h _ hl (Option.some_ne_none _)).width
  cases hwidth

end Located

end NaviMisc.Sbt86
