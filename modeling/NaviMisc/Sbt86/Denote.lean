import NaviMisc.Sbt86.CCode

/-!
What an operand means to the 8086, independently of the C generated for it:
an effective address, a place, a value. The generated C agrees with it.
-/

namespace NaviMisc.Sbt86

inductive Width
  | byte | word
  deriving DecidableEq, Repr

def Width.bytes : Width → ℕ
  | .byte => 1
  | .word => 2

def Width.bits : Width → ℕ
  | .byte => 8
  | .word => 16

theorem Width.bits_cases (w : Width) : w.bits = 8 ∨ w.bits = 16 := by
  cases w
  · exact .inl rfl
  · exact .inr rfl

theorem Width.bytes_cases (w : Width) : some w.bytes = some 1 ∨ some w.bytes = some 2 := by
  cases w
  · exact .inl rfl
  · exact .inr rfl

def memLoc (width : Option ℕ) (p : ℕ) : Loc := if width = some 1 then .mem8 p else .mem16 p

def Literal.denote (m : Machine) (l : Literal) : ℕ :=
  match l.dynamic, l.addr with
  | true, some a => (m.read (memLoc l.width (m.s .cs + a.offset))).toNat
  | _, _ => l.value

def OffsetTerm.denote (m : Machine) : OffsetTerm → ℕ
  | .reg n => (m.getReg n).toNat
  | .lit l => l.denote m

def Indirect.ea (m : Machine) (i : Indirect) : ℕ :=
  (i.offsets.map (OffsetTerm.denote m)).sum % 2 ^ 16

def Indirect.loc (m : Machine) (i : Indirect) : Loc := memLoc i.width (m.s i.segment + i.ea m)

def Operand.loc (m : Machine) : Operand → Option Loc
  | .reg n => some (.reg n)
  | .ind i => some (i.loc m)
  | .lit _ | .far _ => none

def Operand.denote (m : Machine) : Operand → ℕ
  | .reg n => (m.getReg n).toNat
  | .lit l => l.denote m
  | .ind i => (m.read (i.loc m)).toNat
  | .far a => a.linear

/-- A literal as `_decodeLiteral` builds it: a dynamic one was found in the encoding. -/
def Literal.Decoded (l : Literal) : Prop :=
  l.dynamic = true → l.addr ≠ none ∧ (l.width = some 1 ∨ l.width = some 2)

def OffsetTerm.Decoded : OffsetTerm → Prop
  | .reg _ => True
  | .lit l => l.Decoded

def Indirect.Decoded (i : Indirect) : Prop := i.offsets ≠ [] ∧ ∀ t ∈ i.offsets, t.Decoded

def Operand.HasWidth (w : Width) : Operand → Prop
  | .reg n => n.width = w.bytes
  | .lit l => l.width = some w.bytes ∧ l.value < 2 ^ w.bits ∧ l.Decoded
  | .ind i => i.width = some w.bytes ∧ i.Decoded
  | .far _ => False

def Operand.IsPlace : Operand → Prop
  | .reg _ | .ind _ => True
  | .lit _ | .far _ => False

instance (l : Literal) : Decidable l.Decoded := by unfold Literal.Decoded; infer_instance

instance : (t : OffsetTerm) → Decidable t.Decoded
  | .reg _ => .isTrue trivial
  | .lit l => inferInstanceAs (Decidable l.Decoded)

instance (i : Indirect) : Decidable i.Decoded := by unfold Indirect.Decoded; infer_instance

instance (w : Width) : (o : Operand) → Decidable (o.HasWidth w)
  | .reg n => inferInstanceAs (Decidable (n.width = w.bytes))
  | .lit l => inferInstanceAs (Decidable (_ ∧ _ ∧ l.Decoded))
  | .ind i => inferInstanceAs (Decidable (_ ∧ i.Decoded))
  | .far _ => .isFalse id

theorem bits_memLoc {w : Width} {width : Option ℕ} (h : width = some w.bytes) (p : ℕ) :
    (memLoc width p).bits = w.bits := by
  subst h
  cases w <;> rfl

theorem ptr_ofNat (m : Machine) (seg : Seg) (n : ℕ) :
    m.ptr seg (BitVec.ofNat 32 n) = m.s seg + n % 2 ^ 16 := by
  simp only [Machine.ptr, BitVec.toNat_setWidth, BitVec.toNat_ofNat]
  omega

theorem memRead_ok (seg : Seg) {width : Option ℕ} (hw : width = some 1 ∨ width = some 2)
    (off : CExpr) : ∃ e, memRead seg width off = .ok e ∧
      ∀ m : Machine, e.eval m = ⟨false, m.read (memLoc width (m.ptr seg (off.eval m).bits))⟩ := by
  rcases hw with rfl | rfl
  · exact ⟨.mem8 seg off, rfl, fun m => rfl⟩
  · exact ⟨.mem16 seg off, rfl, fun m => rfl⟩

theorem memWrite_ok (seg : Seg) {width : Option ℕ} (hw : width = some 1 ∨ width = some 2)
    (off : CExpr) : ∃ lv, memWrite seg width off = .ok lv ∧
      ∀ m : Machine, lv.loc m = memLoc width (m.ptr seg (off.eval m).bits) := by
  rcases hw with rfl | rfl
  · exact ⟨.mem8 seg off, rfl, fun m => rfl⟩
  · exact ⟨.mem16 seg off, rfl, fun m => rfl⟩

theorem Literal.codegen_ok {l : Literal} (h : l.Decoded) :
    ∃ e, l.codegen = .ok e ∧ ∀ m : Machine, e.eval m = ⟨false, BitVec.ofNat 32 (l.denote m)⟩ := by
  obtain ⟨value, addr, width, dynamic⟩ := l
  cases dynamic with
  | false => exact ⟨.lit value, rfl, fun m => rfl⟩
  | true =>
    obtain ⟨ha, hw⟩ := h rfl
    cases addr with
    | none => exact absurd rfl ha
    | some a =>
      obtain ⟨e, he, hev⟩ := memRead_ok .cs hw (.lit a.offset)
      refine ⟨e, by simpa [Literal.codegen] using he, fun m => ?_⟩
      have hoff : a.offset % 2 ^ 16 = a.offset := Nat.mod_eq_of_lt a.offset_lt
      rw [hev m]
      simp only [CExpr.eval, ptr_ofNat, hoff, Literal.denote, BitVec.ofNat_toNat, BitVec.setWidth_eq]

theorem OffsetTerm.codegen_ok {t : OffsetTerm} (h : t.Decoded) :
    ∃ e, t.codegen = .ok e ∧ ∀ m : Machine, e.eval m = ⟨false, BitVec.ofNat 32 (t.denote m)⟩ := by
  cases t with
  | reg n =>
    refine ⟨.reg n, rfl, fun m => ?_⟩
    simp only [CExpr.eval, OffsetTerm.denote, BitVec.ofNat_toNat, BitVec.setWidth_eq]
  | lit l => exact Literal.codegen_ok h

theorem genSum_ok (ts : List OffsetTerm) (h : ∀ t ∈ ts, t.Decoded) (acc : CExpr) :
    ∃ e, genSum acc ts = .ok e ∧ ∀ m : Machine, (e.eval m).bits =
      (acc.eval m).bits + BitVec.ofNat 32 (ts.map (OffsetTerm.denote m)).sum := by
  induction ts generalizing acc with
  | nil => exact ⟨acc, rfl, fun m => by simp⟩
  | cons t ts ih =>
    obtain ⟨x, hx, hxe⟩ := OffsetTerm.codegen_ok (h t (by simp))
    obtain ⟨e, he, hev⟩ := ih (fun t ht => h t (List.mem_cons_of_mem _ ht)) (.bin .add acc x)
    refine ⟨e, by rw [genSum, hx]; exact he, fun m => ?_⟩
    rw [hev m]
    simp only [CExpr.eval, BinOp.apply, hxe m, List.map_cons, List.sum_cons, BitVec.ofNat_add,
      BitVec.add_assoc]

theorem Indirect.genOffset_ok {i : Indirect} (h : i.Decoded) :
    ∃ e, i.genOffset = .ok e ∧
      ∀ (m : Machine) (seg : Seg), m.ptr seg (e.eval m).bits = m.s seg + i.ea m := by
  obtain ⟨hne, hall⟩ := h
  obtain ⟨seg, offsets, width⟩ := i
  cases offsets with
  | nil => exact absurd rfl hne
  | cons t ts =>
    obtain ⟨x, hx, hxe⟩ := OffsetTerm.codegen_ok (hall t (by simp))
    obtain ⟨e, he, hev⟩ := genSum_ok ts (fun t ht => hall t (List.mem_cons_of_mem _ ht)) x
    refine ⟨e, by simp only [Indirect.genOffset, hx]; exact he, fun m seg => ?_⟩
    rw [hev m, hxe m, ← BitVec.ofNat_add, ptr_ofNat]
    simp only [Indirect.ea, List.map_cons, List.sum_cons]

theorem Operand.codegen_ok {w : Width} {o : Operand} (h : o.HasWidth w) :
    ∃ e, o.codegen = .ok e ∧ ∀ m : Machine, e.eval m = ⟨false, BitVec.ofNat 32 (o.denote m)⟩ := by
  cases o with
  | reg n =>
    refine ⟨.reg n, rfl, fun m => ?_⟩
    simp only [CExpr.eval, Operand.denote, BitVec.ofNat_toNat, BitVec.setWidth_eq]
  | lit l => exact Literal.codegen_ok h.2.2
  | ind i =>
    obtain ⟨hw, hd⟩ := h
    obtain ⟨off, ho, hoe⟩ := Indirect.genOffset_ok hd
    obtain ⟨e, he, hev⟩ := memRead_ok i.segment (hw ▸ w.bytes_cases) off
    refine ⟨e, by simp only [Operand.codegen, ho]; exact he, fun m => ?_⟩
    rw [hev m, hoe m]
    simp only [Operand.denote, Indirect.loc, BitVec.ofNat_toNat, BitVec.setWidth_eq]
  | far a => exact h.elim

theorem Operand.denote_lt {w : Width} {o : Operand} (h : o.HasWidth w) (m : Machine) :
    o.denote m < 2 ^ w.bits := by
  cases o with
  | reg n =>
    have hb : (Loc.reg n).bits = w.bits := by
      simp only [Loc.bits, show n.width = w.bytes from h]
      cases w <;> rfl
    exact hb ▸ m.toNat_read_lt (.reg n)
  | lit l =>
    obtain ⟨hw, hlt, hd⟩ := h
    simp only [Operand.denote, Literal.denote]
    split
    · rename_i a _ _
      exact bits_memLoc hw (m.s .cs + a.offset) ▸ m.toNat_read_lt _
    · exact hlt
  | ind i =>
    exact bits_memLoc h.1 (m.s i.segment + i.ea m) ▸ m.toNat_read_lt _
  | far a => exact h.elim

theorem Operand.codegenW_ok {w : Width} {o : Operand} (h : o.HasWidth w) (hp : o.IsPlace) :
    ∃ lv, o.codegenW = .ok lv ∧ ∀ m : Machine, ∃ l, o.loc m = some l ∧ lv.loc m = l ∧
      l.bits = w.bits ∧ o.denote m = (m.read l).toNat := by
  cases o with
  | reg n =>
    refine ⟨.reg n, rfl, fun m => ⟨.reg n, rfl, rfl, ?_, rfl⟩⟩
    simp only [Loc.bits, show n.width = w.bytes from h]
    cases w <;> rfl
  | ind i =>
    obtain ⟨hw, hd⟩ := h
    obtain ⟨off, ho, hoe⟩ := Indirect.genOffset_ok hd
    obtain ⟨lv, he, hev⟩ := memWrite_ok i.segment (hw ▸ w.bytes_cases) off
    refine ⟨lv, by simp only [Operand.codegenW, ho]; exact he, fun m => ⟨i.loc m, rfl, ?_, ?_, rfl⟩⟩
    · rw [hev m, hoe m, Indirect.loc]
    · exact bits_memLoc hw _
  | lit l => exact hp.elim
  | far a => exact hp.elim

end NaviMisc.Sbt86
