import NaviMisc.Sbt86.Exec

/-!
`codegen_xchg` and `codegen_les` write two places one after the other; the
8086 computes both addresses first.
-/

namespace NaviMisc.Sbt86

inductive PairOp
  | xchg | les
  deriving DecidableEq, Repr

namespace PairOp

def codegen : PairOp → Operand → Operand → Gen CStmt
  | .xchg => codegenXchg
  | .les => codegenLes

end PairOp

def Operand.IsGeneral : Operand → Prop
  | .reg n => n.seg = none
  | _ => False

/-- The operands the assembler accepts: at most one of them is in memory. -/
def PairOp.Encodable (op : PairOp) (w : Width) (a b : Operand) : Prop :=
  match op with
  | .xchg => a.HasWidth w ∧ b.HasWidth w ∧
      ((a.IsGeneral ∧ (b.IsGeneral ∨ ∃ i, b = .ind i)) ∨ ((∃ i, a = .ind i) ∧ b.IsGeneral))
  | .les => w = .word ∧ a.HasWidth .word ∧ a.IsGeneral ∧ ∃ i, b = .ind i ∧ b.HasWidth .word

def Machine.store (m : Machine) (o : Operand) (v : ℕ) : Machine :=
  match o.loc m with
  | some l => m.write l (BitVec.ofNat 32 v)
  | none => m

def Machine.nextWord (m : Machine) (seg : Seg) (off : ℕ) : BitVec 16 :=
  m.read16 (m.s seg + (off + 2) % 2 ^ 16)

def Machine.loadES (m : Machine) (v : BitVec 16) : Machine :=
  { m with r := m.r.setWord .es v, s := Function.update m.s .es (memSeg v) }

def PairOp.cpu (op : PairOp) (m : Machine) (a b : Operand) : Machine :=
  match op with
  | .xchg => match b.loc m with
    | some l => (m.store a (b.denote m)).write l (BitVec.ofNat 32 (a.denote m))
    | none => m
  | .les => match b with
    | .ind i => (m.store a (b.denote m)).loadES (m.nextWord i.segment (i.ea m))
    | _ => m

def Machine.Straddles (m : Machine) (p p' : ℕ) (v : BitVec 16) : Prop :=
  (p' = p + 1 ∨ p = p' + 1) ∧ v.extractLsb' 8 8 = v.extractLsb' 0 8 ∧
    m.mem (min p p') = v.extractLsb' 0 8 ∧ m.mem (max p p' + 1) = v.extractLsb' 0 8

/-- With the first operand already overwritten, the second address still leads to the same place,
or to one where the difference cannot be seen. -/
def PairOp.Faithful (op : PairOp) (m : Machine) (a b : Operand) : Prop :=
  let m₁ := m.store a (b.denote m)
  match op, b with
  | .xchg, _ => b.loc m₁ = b.loc m ∨ ∃ p p', b.loc m = some (.mem16 p) ∧
      b.loc m₁ = some (.mem16 p') ∧ m.Straddles p p' (BitVec.ofNat 16 (a.denote m))
  | .les, .ind i => m.nextWord i.segment (i.ea m₁) = m.nextWord i.segment (i.ea m)
  | .les, _ => True

theorem setReg_getReg (m : Machine) (n : Register) : m.setReg n (m.getReg n) = m := by
  have hword (n : Reg16) : m.r.setWord n (m.r.word n) = m.r := by
    simp only [SBTRegs.setWord]
    congr 1
    funext k
    split
    · subst_vars
      rfl
    · rfl
  cases n with
  | w n =>
    simp only [Machine.setReg, Machine.getReg, BitVec.setWidth_setWidth_of_le _ (show 16 ≤ 32 by decide),
      BitVec.setWidth_eq, hword]
  | b k =>
    have hbyte : m.r.setByte k (m.r.byte k) = m.r := by
      rw [SBTRegs.setByte, SBTRegs.byte]
      cases k.isHigh
      · simp only [Bool.false_eq_true, if_false]
        rw [BitVec.extractLsb'_append_extractLsb' , hword]
      · simp only [if_true]
        rw [BitVec.extractLsb'_append_extractLsb', hword]
    simp only [Machine.setReg, Machine.getReg, BitVec.setWidth_setWidth_of_le _ (show 8 ≤ 32 by decide),
      BitVec.setWidth_eq, hbyte]

section write16

variable (m : Machine) (p : ℕ) (v : BitVec 16)

theorem mem_write16_high : (m.write16 p v).mem (p + 1) = v.extractLsb' 8 8 := Function.update_self ..

theorem mem_write16_low : (m.write16 p v).mem p = v.extractLsb' 0 8 :=
  (Function.update_of_ne (Nat.ne_of_lt p.lt_succ_self) ..).trans (Function.update_self ..)

theorem mem_write16_of_ne {k : ℕ} (h : k ≠ p) (h₁ : k ≠ p + 1) : (m.write16 p v).mem k = m.mem k :=
  (Function.update_of_ne h₁ ..).trans (Function.update_of_ne h ..)

theorem read16_eq_iff (m : Machine) (p : ℕ) (v : BitVec 16) :
    m.read16 p = v ↔ m.mem p = v.extractLsb' 0 8 ∧ m.mem (p + 1) = v.extractLsb' 8 8 := by
  constructor
  · rintro rfl
    exact ⟨BitVec.extractLsb'_append_eq_right.symm, BitVec.extractLsb'_append_eq_left.symm⟩
  · rintro ⟨hlo, hhi⟩
    rw [Machine.read16, hlo, hhi]
    exact BitVec.extractLsb'_append_extractLsb'

theorem mem_write16_succ_eq_iff :
    (m.write16 (p + 1) v).mem = (m.write16 p v).mem ↔ v.extractLsb' 8 8 = v.extractLsb' 0 8 ∧
      m.mem p = v.extractLsb' 0 8 ∧ m.mem (p + 2) = v.extractLsb' 0 8 := by
  constructor
  · intro heq
    have at_p := congrFun heq p
    have at_p₁ := congrFun heq (p + 1)
    have at_p₂ := congrFun heq (p + 2)
    rw [mem_write16_of_ne _ _ _ (by omega) (by omega), mem_write16_low] at at_p
    rw [mem_write16_low, mem_write16_high] at at_p₁
    rw [mem_write16_high, mem_write16_of_ne _ _ _ (by omega) (by omega)] at at_p₂
    exact ⟨at_p₁.symm, at_p, at_p₂.symm.trans at_p₁.symm⟩
  · rintro ⟨hsame, hp, hp₂⟩
    funext k
    by_cases h₀ : k = p
    · rw [h₀, mem_write16_of_ne _ _ _ (by omega) (by omega), mem_write16_low, hp]
    by_cases h₁ : k = p + 1
    · rw [h₁, mem_write16_low, mem_write16_high, hsame]
    by_cases h₂ : k = p + 1 + 1
    · rw [h₂, mem_write16_high, mem_write16_of_ne _ _ _ (by omega) (by omega), hsame]
      exact hp₂.symm
    · rw [mem_write16_of_ne _ _ _ h₁ h₂, mem_write16_of_ne _ _ _ h₀ h₁]

end write16

theorem mem_write16_eq_iff (m : Machine) {p p' : ℕ} {v : BitVec 16} (h : m.read16 p = v → p' = p) :
    (m.write16 p' v).mem = (m.write16 p v).mem ↔ p' = p ∨ m.Straddles p p' v := by
  by_cases hp : p' = p
  · subst hp
    exact iff_of_true rfl (.inl rfl)
  by_cases hup : p' = p + 1
  · subst hup
    rw [mem_write16_succ_eq_iff, Machine.Straddles, Nat.min_eq_left (by omega),
      Nat.max_eq_right (by omega)]
    simp only [hp, true_or, true_and, false_or]
  by_cases hdown : p = p' + 1
  · subst hdown
    rw [eq_comm, mem_write16_succ_eq_iff, Machine.Straddles, Nat.min_eq_right (by omega),
      Nat.max_eq_left (by omega)]
    simp only [hp, or_true, true_and, false_or]
  · constructor
    · intro heq
      have at_p := congrFun heq p
      have at_p₁ := congrFun heq (p + 1)
      rw [mem_write16_of_ne _ _ _ (by omega) hdown, mem_write16_low] at at_p
      rw [mem_write16_of_ne _ _ _ (by omega) (by omega), mem_write16_high] at at_p₁
      exact absurd (h ((read16_eq_iff m p v).mpr ⟨at_p, at_p₁⟩)) hp
    · rintro (h | ⟨h | h, -⟩)
      · exact absurd h hp
      · exact absurd h hup
      · exact absurd h hdown

theorem write_vars (m : Machine) (l : Loc) (v : BitVec 32) (vars : Var → BitVec 32) :
    ({ m with vars := vars } : Machine).write l v = { m.write l v with vars := vars } := by
  cases l with
  | reg n => cases n <;> rfl
  | mem8 p => rfl
  | mem16 p => rfl

theorem vars_write (m : Machine) (l : Loc) (v : BitVec 32) : (m.write l v).vars = m.vars :=
  m.write_frame (fun m => m.vars) (fun _ _ _ => rfl) (fun _ _ => rfl) l v

theorem genTraces_general (ops : List (Operand × Access))
    (h : ∀ p ∈ ops, p.1.IsGeneral ∨ ∃ i, p.1 = .ind i) (m : Machine) :
    (genTraces ops).exec m = .ok m := by
  induction ops with
  | nil => rfl
  | cons p ops ih =>
    have htail := ih fun q hq => h q (List.mem_cons_of_mem _ hq)
    have hhead : (genTrace p).exec m = .ok m := by
      obtain ⟨o, acc⟩ := p
      rcases h (o, acc) (List.mem_cons_self ..) with hgen | ⟨i, hi⟩
      · cases o with
        | reg n =>
          cases acc with
          | r => rfl
          | w =>
            change n.seg = none at hgen
            simp only [genTrace, hgen]
            rfl
        | _ => exact hgen.elim
      · change o = .ind i at hi
        rw [hi]
        cases acc <;> rfl
    exact (exec_ofList_cons m hhead).trans htail

theorem isPlace_of_general_or_ind {o : Operand} (h : o.IsGeneral ∨ ∃ i, o = .ind i) : o.IsPlace := by
  rcases h with h | ⟨i, rfl⟩
  · cases o with
    | reg n => trivial
    | _ => exact h.elim
  · trivial

theorem store_eq {o : Operand} {m : Machine} {l : Loc} (h : o.loc m = some l) (v : ℕ) :
    m.store o v = m.write l (BitVec.ofNat 32 v) := by
  rw [Machine.store, h]

theorem xchg_exec {w : Width} {a b : Operand} (ha : a.HasWidth w) (hb : b.HasWidth w)
    (hga : a.IsGeneral ∨ ∃ i, a = .ind i) (hgb : b.IsGeneral ∨ ∃ i, b = .ind i) :
    ∃ code, codegenXchg a b = .ok code ∧ ∀ m : Machine, ∃ l,
      b.loc (m.store a (b.denote m)) = some l ∧
      code.exec m = .ok ((m.store a (b.denote m)).write l (BitVec.ofNat 32 (a.denote m))) := by
  obtain ⟨ea, hea, heav⟩ := a.codegen_ok ha
  obtain ⟨eb, heb, hebv⟩ := b.codegen_ok hb
  obtain ⟨la, hla, hlav⟩ := a.codegenW_ok ha (isPlace_of_general_or_ind hga)
  obtain ⟨lb, hlb, hlbv⟩ := b.codegenW_ok hb (isPlace_of_general_or_ind hgb)
  refine ⟨_, by simp only [codegenXchg, hea, heb, hla, hlb]; rfl, fun m => ?_⟩
  obtain ⟨l₁, hl₁, -, -, -⟩ := hlav m
  obtain ⟨l₂, hl₂, -, -, -⟩ := hlbv (m.store a (b.denote m))
  refine ⟨l₂, hl₂, ?_⟩
  let t : Var → BitVec 32 :=
    Function.update m.vars .t (CTy.u16.convert (BitVec.ofNat 32 (a.denote m)))
  have hva : a.denote m < 2 ^ 16 := (a.denote_lt ha m).trans_le (by cases w <;> decide)
  have ht : t .t = BitVec.ofNat 32 (a.denote m) := by
    apply BitVec.eq_of_toNat_eq
    simp only [t, Function.update_self, CTy.convert, BitVec.toNat_setWidth, BitVec.toNat_ofNat]
    omega
  let m₁ : Machine := { m with vars := t }
  let m₂ : Machine := { m.store a (b.denote m) with vars := t }
  let m₃ := m₂.write l₂ (BitVec.ofNat 32 (a.denote m))
  have hm₁ : m.SameOperands m₁ := ⟨rfl, rfl, rfl⟩
  have hm₂ : (m.store a (b.denote m)).SameOperands m₂ := ⟨rfl, rfl, rfl⟩
  have hdeclare : (CStmt.declare .t ea).exec m = .ok m₁ := by rw [CStmt.exec, heav m]; rfl
  have hfirst : (CStmt.assign la eb).exec m₁ = .ok m₂ := by
    obtain ⟨l, hl, hll, -, -⟩ := hlav m₁
    have hsame : l = l₁ := Option.some.inj (hl.symm.trans ((a.loc_congr hm₁).trans hl₁))
    rw [CStmt.exec, hll, hebv m₁, b.denote_congr hm₁, hsame, write_vars]
    simp only [m₂, store_eq hl₁]
  have hsecond : (CStmt.assign lb (.var .t)).exec m₂ = .ok m₃ := by
    obtain ⟨l, hl, hll, -, -⟩ := hlbv m₂
    have hsame : l = l₂ := Option.some.inj (hl.symm.trans ((b.loc_congr hm₂).trans hl₂))
    rw [CStmt.exec, hll, hsame, CExpr.eval]
    exact congrArg (fun v => Except.ok (m₂.write l₂ v)) ht
  have hops : ∀ p ∈ [(a, Access.r), (b, .r), (a, .w), (b, .w)],
      p.1.IsGeneral ∨ ∃ i, p.1 = .ind i := by
    simp only [List.mem_cons, List.not_mem_nil, or_false]
    rintro p (rfl | rfl | rfl | rfl)
    · exact hga
    · exact hgb
    · exact hga
    · exact hgb
  rw [exec_block m₃]
  · have hvars : ((m.store a (b.denote m)).write l₂ (BitVec.ofNat 32 (a.denote m))).vars = m.vars := by
      rw [store_eq hl₁, vars_write, vars_write]
    simp only [m₃, m₂, write_vars]
    rw [← hvars]
  · rw [exec_ofList_cons _ hdeclare, exec_ofList_cons _ hfirst, exec_ofList_cons _ hsecond,
      exec_ofList_cons _ (genTraces_general _ hops m₃)]
    rfl

theorem store_denote (m : Machine) (n : Register) : m.store (.reg n) (Operand.denote m (.reg n)) = m := by
  have h : BitVec.ofNat 32 (Operand.denote m (.reg n)) = m.getReg n := by
    simp only [Operand.denote, BitVec.ofNat_toNat, BitVec.setWidth_eq]
  rw [store_eq rfl, h]
  exact setReg_getReg m n

section xchgRegMem

variable {i : Indirect} (m : Machine)

theorem loc_of_same_value {a : Register} (h : Operand.denote m (.ind i) = Operand.denote m (.reg a)) :
    i.loc (m.store (.reg a) (Operand.denote m (.ind i))) = i.loc m := by
  rw [h, store_denote]

theorem xchg_word_eq_iff {n : Reg16} (hi : i.width = some 2) :
    let m₁ := m.store (.reg (.w n)) (Operand.denote m (.ind i))
    let v := BitVec.ofNat 32 (Operand.denote m (.reg (.w n)))
    m₁.write (i.loc m₁) v = m₁.write (i.loc m) v ↔
      PairOp.xchg.Faithful m (.reg (.w n)) (.ind i) := by
  intro m₁ v
  have hloc (m' : Machine) : i.loc m' = .mem16 (m'.s i.segment + i.ea m') := by
    rw [Indirect.loc, hi]
    rfl
  generalize hp : m.s i.segment + i.ea m = p at hloc
  generalize hp' : m₁.s i.segment + i.ea m₁ = p' at hloc
  have hl : i.loc m = .mem16 p := by rw [hloc, hp]
  have hl' : i.loc m₁ = .mem16 p' := by rw [hloc, hp']
  have hv : v.setWidth 16 = BitVec.ofNat 16 (Operand.denote m (.reg (.w n))) := by
    apply BitVec.eq_of_toNat_eq
    simp only [v, BitVec.toNat_setWidth, BitVec.toNat_ofNat]
    omega
  have hkept : m.read16 p = v.setWidth 16 → p' = p := by
    intro hread
    have hsame : Operand.denote m (.ind i) = Operand.denote m (.reg (.w n)) := by
      have hlt : Operand.denote m (.reg (.w n)) < 2 ^ 16 := m.toNat_read_lt (.reg (.w n))
      have h16 := (m.read16 p).isLt
      have h := congrArg BitVec.toNat hread
      rw [hv, BitVec.toNat_ofNat, Nat.mod_eq_of_lt hlt] at h
      rw [← h, Operand.denote, hl, Machine.read, BitVec.toNat_setWidth]
      omega
    have := loc_of_same_value m hsame
    rw [hl] at this
    exact Loc.mem16.inj (hl'.symm.trans this)
  have hmem : m₁.write (i.loc m₁) v = m₁.write (i.loc m) v ↔
      (m.write16 p' (v.setWidth 16)).mem = (m.write16 p (v.setWidth 16)).mem := by
    rw [hl, hl']
    constructor
    · intro h
      have hcells : (m₁.write (.mem16 p') v).mem = (m₁.write (.mem16 p) v).mem := by rw [h]
      exact hcells
    · exact fun h => congrArg (fun mem => { m₁ with mem := mem }) h
  rw [hmem, mem_write16_eq_iff m hkept, PairOp.Faithful, ← hv]
  change _ ↔ some (i.loc m₁) = some (i.loc m) ∨ ∃ q q', some (i.loc m) = some (.mem16 q) ∧
    some (i.loc m₁) = some (.mem16 q') ∧ m.Straddles q q' (v.setWidth 16)
  rw [hl, hl']
  constructor
  · rintro (rfl | h)
    · exact .inl rfl
    · exact .inr ⟨p, p', rfl, rfl, h⟩
  · rintro (h | ⟨q, q', hq, hq', h⟩)
    · exact .inl (Loc.mem16.inj (Option.some.inj h))
    · cases hq
      cases hq'
      exact .inr h

theorem xchg_byte_eq_iff {k : Reg8} (hi : i.width = some 1) :
    let m₁ := m.store (.reg (.b k)) (Operand.denote m (.ind i))
    let v := BitVec.ofNat 32 (Operand.denote m (.reg (.b k)))
    m₁.write (i.loc m₁) v = m₁.write (i.loc m) v ↔
      PairOp.xchg.Faithful m (.reg (.b k)) (.ind i) := by
  intro m₁ v
  have hloc (m' : Machine) : i.loc m' = .mem8 (m'.s i.segment + i.ea m') := by
    rw [Indirect.loc, hi]
    rfl
  have hfaithful : PairOp.xchg.Faithful m (.reg (.b k)) (.ind i) ↔ i.loc m₁ = i.loc m := by
    change some (i.loc m₁) = some (i.loc m) ∨ (∃ p p', some (i.loc m) = some (.mem16 p) ∧ _) ↔ _
    rw [hloc m]
    constructor
    · rintro (h | ⟨p, p', h, -⟩)
      · exact Option.some.inj h
      · cases h
    · exact fun h => .inl (congrArg some h)
  rw [hfaithful]
  constructor
  · intro h
    have hcells : (m₁.write (i.loc m₁) v).mem = (m₁.write (i.loc m) v).mem := by rw [h]
    rw [hloc m, hloc m₁] at hcells ⊢
    by_contra hne
    have hp : m.s i.segment + i.ea m ≠ m₁.s i.segment + i.ea m₁ := fun h => hne (congrArg Loc.mem8 h.symm)
    have hcell := congrFun hcells (m.s i.segment + i.ea m)
    change Function.update m.mem _ _ _ = Function.update m.mem _ _ _ at hcell
    rw [Function.update_of_ne hp, Function.update_self] at hcell
    have hlt : Operand.denote m (.reg (.b k)) < 2 ^ 8 := m.toNat_read_lt (.reg (.b k))
    have hsame : Operand.denote m (.ind i) = Operand.denote m (.reg (.b k)) := by
      have hread : Operand.denote m (.ind i) = (m.read (i.loc m)).toNat := rfl
      rw [hread, hloc m, Machine.read, hcell, BitVec.toNat_setWidth, BitVec.toNat_setWidth,
        BitVec.toNat_ofNat]
      omega
    have := loc_of_same_value m hsame
    rw [hloc, hloc] at this
    exact hne this
  · intro h
    rw [h]

end xchgRegMem

theorem xchg_simulates {w : Width} {a b : Operand} (h : PairOp.xchg.Encodable w a b) :
    ∃ code, codegenXchg a b = .ok code ∧ ∀ m : Machine, ∃ m', code.exec m = .ok m' ∧
      (m' = PairOp.xchg.cpu m a b ↔ PairOp.xchg.Faithful m a b) := by
  obtain ⟨ha, hb, hplaces⟩ := h
  have hga : a.IsGeneral ∨ ∃ i, a = .ind i := hplaces.elim (fun h => .inl h.1) (fun h => .inr h.1)
  have hgb : b.IsGeneral ∨ ∃ i, b = .ind i := hplaces.elim (fun h => h.2) (fun h => .inl h.2)
  obtain ⟨code, hcode, hrun⟩ := xchg_exec ha hb hga hgb
  refine ⟨code, hcode, fun m => ?_⟩
  obtain ⟨l, hl, hm'⟩ := hrun m
  refine ⟨_, hm', ?_⟩
  cases b with
  | reg n =>
    -- a register does not move
    have hsame : l = .reg n := (Option.some.inj hl).symm
    rw [hsame]
    exact iff_of_true rfl (.inl rfl)
  | ind i =>
    obtain ⟨n, rfl⟩ : ∃ n, a = .reg n := by
      rcases hplaces with ⟨hgen, -⟩ | ⟨-, hgen⟩
      · cases a with
        | reg n => exact ⟨n, rfl⟩
        | _ => exact hgen.elim
      · exact hgen.elim
    obtain rfl := Option.some.inj hl
    have hwidth : i.width = some w.bytes := hb.1
    cases n with
    | w n =>
      cases w with
      | byte => cases ha
      | word => exact xchg_word_eq_iff m hwidth
    | b k =>
      cases w with
      | byte => exact xchg_byte_eq_iff m hwidth
      | word => cases ha
  | lit l => rcases hgb with h | ⟨i, h⟩ <;> cases h
  | far a => exact hb.elim

def Indirect.next (i : Indirect) : Indirect :=
  { segment := i.segment, offsets := i.offsets ++ [.lit (.const 2)], width := some 2 }

theorem Indirect.ea_next (i : Indirect) (m : Machine) : i.next.ea m = (i.ea m + 2) % 2 ^ 16 := by
  have htwo : OffsetTerm.denote m (.lit (.const 2)) = 2 := rfl
  simp only [ea, next, List.map_append, List.sum_append, List.map_cons, List.map_nil, List.sum_cons,
    List.sum_nil, htwo, Nat.add_zero, Nat.mod_add_mod]

theorem Indirect.denote_next (i : Indirect) (m : Machine) :
    Operand.denote m (.ind i.next) = (m.nextWord i.segment (i.ea m)).toNat := by
  have hread : Operand.denote m (.ind i.next) = (m.read (.mem16 (m.s i.segment + i.next.ea m))).toNat :=
    rfl
  have hlt := (m.nextWord i.segment (i.ea m)).isLt
  rw [hread, i.ea_next, Machine.read, BitVec.toNat_setWidth, ← Machine.nextWord]
  omega

theorem Indirect.next_hasWidth {i : Indirect} (h : i.Decoded) : Operand.HasWidth .word (.ind i.next) := by
  refine ⟨rfl, by simp [next], fun t ht => ?_⟩
  rcases List.mem_append.mp ht with hmem | hmem
  · exact h.2 t hmem
  · rw [List.mem_singleton.mp hmem]
    exact fun hdyn => absurd hdyn (by decide)

theorem loadES_eq_iff (m : Machine) (v v' : BitVec 16) : m.loadES v = m.loadES v' ↔ v = v' := by
  constructor
  · intro h
    have hes : (m.loadES v).r.word .es = (m.loadES v').r.word .es := by rw [h]
    exact hes
  · rintro rfl
    rfl

theorem les_exec {n : Register} {i : Indirect} (hn : Operand.HasWidth .word (.reg n))
    (hg : n.seg = none) (hi : Operand.HasWidth .word (.ind i)) :
    ∃ code, codegenLes (.reg n) (.ind i) = .ok code ∧ ∀ m : Machine,
      let m₁ := m.store (.reg n) (Operand.denote m (.ind i))
      code.exec m = .ok (m₁.loadES (m.nextWord i.segment (i.ea m₁))) := by
  obtain ⟨es, hes, hesv⟩ := Operand.codegen_ok hi
  obtain ⟨en, hen, henv⟩ := Operand.codegen_ok (Indirect.next_hasWidth hi.2)
  have hwidth : i.width = some 2 := hi.1
  rw [Indirect.next] at hen
  refine ⟨_, by simp only [codegenLes, if_pos hwidth, hes, hen]; rfl, fun m => ?_⟩
  intro m₁
  obtain ⟨k, rfl⟩ : ∃ k, n = .w k := by
    cases n with
    | w k => exact ⟨k, rfl⟩
    | b k => cases hn
  let v := m.nextWord i.segment (i.ea m₁)
  have hnext : m₁.nextWord i.segment (i.ea m₁) = v := rfl
  have hfirst : (CStmt.assign (.reg (.w k)) es).exec m = .ok m₁ := by
    rw [CStmt.exec, hesv m]
    rfl
  have hsecond : (CStmt.assign (.reg (.w .es)) en).exec m₁ =
      .ok { m₁ with r := m₁.r.setWord .es v } := by
    rw [CStmt.exec, henv m₁, i.denote_next, hnext, BitVec.ofNat_toNat]
    change Except.ok { m₁ with r := m₁.r.setWord .es ((v.setWidth 32).setWidth 16) } = _
    rw [BitVec.setWidth_setWidth_of_le _ (show 16 ≤ 32 by decide), BitVec.setWidth_eq]
  rw [exec_ofList_cons _ hfirst, exec_ofList_cons _ hsecond]
  simp only [genTraces, List.map_cons, genTrace, hg]
  rfl

theorem les_simulates {w : Width} {a b : Operand} (h : PairOp.les.Encodable w a b) :
    ∃ code, codegenLes a b = .ok code ∧ ∀ m : Machine, ∃ m', code.exec m = .ok m' ∧
      (m' = PairOp.les.cpu m a b ↔ PairOp.les.Faithful m a b) := by
  obtain ⟨-, ha, hg, i, rfl, hi⟩ := h
  cases a with
  | reg n =>
    obtain ⟨code, hcode, hrun⟩ := les_exec ha hg hi
    exact ⟨code, hcode, fun m => ⟨_, hrun m, loadES_eq_iff ..⟩⟩
  | _ => exact hg.elim

/-- The emitted `xchg` and `les` reach the state the 8086 reaches exactly when the operand they
write first does not move, or not visibly, the address they compute second. -/
theorem pair_simulates_iff (op : PairOp) (w : Width) (a b : Operand) (h : op.Encodable w a b) :
    ∃ code, op.codegen a b = .ok code ∧ ∀ m : Machine, ∃ m', code.exec m = .ok m' ∧
      (m' = op.cpu m a b ↔ op.Faithful m a b) := by
  cases op with
  | xchg => exact xchg_simulates h
  | les => exact les_simulates h

def Register.home : Register → Reg16
  | .w n => n
  | .b k => k.home

theorem PairOp.faithful_of_not_uses (op : PairOp) {a : Register} {i : Indirect}
    (h : ∀ t ∈ i.offsets, ¬t.Uses a.home) (m : Machine) : op.Faithful m (.reg a) (.ind i) := by
  let m₁ := m.store (.reg a) (Operand.denote m (.ind i))
  have hword : ∀ n, n ≠ a.home → m₁.r.word n = m.r.word n := by
    intro n hn
    cases a with
    | w k => exact if_neg hn
    | b k => exact if_neg hn
  have hea : i.ea m₁ = i.ea m := by
    cases a with
    | w k => exact Indirect.ea_of_not_uses hword rfl rfl h
    | b k => exact Indirect.ea_of_not_uses hword rfl rfl h
  cases op with
  | xchg =>
    left
    change some (memLoc i.width (m₁.s i.segment + i.ea m₁)) = some (memLoc i.width _)
    rw [hea]
    cases a <;> rfl
  | les =>
    change m.nextWord i.segment (i.ea m₁) = _
    rw [hea]

theorem pair_simulates_iff_les_di_es_bx :
    let src := Operand.ind ⟨.es, [.reg (.w .bx), .lit (.const 4)], some 2⟩
    ∃ code, PairOp.les.codegen (.reg (.w .di)) src = .ok code ∧ ∀ m : Machine, ∃ m',
      code.exec m = .ok m' ∧ m' = PairOp.les.cpu m (.reg (.w .di)) src := by
  obtain ⟨code, hcode, hrun⟩ := pair_simulates_iff .les .word (.reg (.w .di))
    (.ind ⟨.es, [.reg (.w .bx), .lit (.const 4)], some 2⟩) ⟨rfl, by decide, rfl, _, rfl, by decide⟩
  refine ⟨code, hcode, fun m => ?_⟩
  obtain ⟨m', hm', hiff⟩ := hrun m
  refine ⟨m', hm', hiff.mpr (PairOp.faithful_of_not_uses _ ?_ m)⟩
  simp [OffsetTerm.Uses, Register.home]

theorem pair_diverges :
    (∃ code m', codegenXchg (.reg (.w .si)) (.ind ⟨.ds, [.reg (.w .si)], some 2⟩) = .ok code ∧
      code.exec (Machine.cleared.write16 0 4) = .ok m' ∧ m'.read16 0 = 4 ∧
      (PairOp.xchg.cpu (Machine.cleared.write16 0 4) (.reg (.w .si))
        (.ind ⟨.ds, [.reg (.w .si)], some 2⟩)).read16 0 = 0) ∧
    (∃ code m', codegenLes (.reg (.w .bx)) (.ind ⟨.ds, [.reg (.w .bx)], some 2⟩) = .ok code ∧
      code.exec ((Machine.cleared.write16 0 0x10).write16 2 0x34) = .ok m' ∧ m'.r.word .es = 0 ∧
      (PairOp.les.cpu ((Machine.cleared.write16 0 0x10).write16 2 0x34) (.reg (.w .bx))
        (.ind ⟨.ds, [.reg (.w .bx)], some 2⟩)).r.word .es = 0x34) := by
  refine ⟨⟨_, _, rfl, rfl, ?_, ?_⟩, ⟨_, _, rfl, rfl, ?_, ?_⟩⟩
  · decide
  · decide
  · decide
  · decide

end NaviMisc.Sbt86
