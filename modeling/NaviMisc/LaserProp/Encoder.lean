import NaviMisc.LaserProp.Interpreter

/-!
The encoder of vector graphics commands (client/VectorMachine.py), and what its changes to the
instruction list mean to the machine.
-/

namespace NaviMisc.LaserProp

def scaled (v : ℤ × ℤ) : ℚ × ℚ := (v.1 / FIXED_POINT_SCALE, v.2 / FIXED_POINT_SCALE)

def unpackFloat (v : Word) : ℚ × ℚ := scaled (decodedPoint (unpack v))

structure Encoder where
  inst : List Word := []
  s : Option (ℚ × ℚ) := none
  ds : Option (ℚ × ℚ) := none
  dds : Option (ℚ × ℚ) := none
  le : Bool := false

namespace Encoder

def get (e : Encoder) : Register → Option (ℚ × ℚ)
  | .s => e.s
  | .ds => e.ds
  | .dds => e.dds

def set (e : Encoder) (v : Option (ℚ × ℚ)) : Register → Encoder
  | .s => { e with s := v }
  | .ds => { e with ds := v }
  | .dds => { e with dds := v }

/-- A register that is read while it is `None`. -/
def known (v : Option (ℚ × ℚ)) : Except Error (ℚ × ℚ) :=
  match v with
  | some p => .ok p
  | none => .error .noneType

def differs (old : Option (ℚ × ℚ)) (x y : ℚ) : Except Error Bool :=
  match old with
  | none => .ok true
  | some old => do
    let i ← packFloat REG_S 0 0 y x
    let i' ← packFloat REG_S 0 0 old.2 old.1
    .ok (decide (i ≠ i'))

def setReg (r : Register) (x y : ℚ) (e : Encoder) : Except Error Encoder := do
  if ← differs (e.get r) x y then
    let i ← packFloat r.code e.le.toNat 0 y x
    let e := e.set (some (unpackFloat i)) r
    .ok { e with inst := e.inst ++ [i] }
  else
    .ok e

def setS (x y : ℚ) (e : Encoder) : Except Error Encoder := setReg .s x y e

def setDS (x y : ℚ) (e : Encoder) : Except Error Encoder := setReg .ds x y e

def setDDS (x y : ℚ) (e : Encoder) : Except Error Encoder := setReg .dds x y e

def anchor (e : Encoder) : Except Error Encoder := do
  let s ← known e.s
  setS s.1 s.2 { e with s := none }

def getFrame (e : Encoder) : Except Error (List Word × Encoder) := do
  let i := e.inst
  let e ← anchor { e with inst := [] }
  .ok (i, e)

def simulate : ℕ → Encoder → Except Error Encoder
  | 0, e => .ok e
  | n + 1, e => do
    let ds ← known e.ds
    let dds ← known e.dds
    let ds := ds + dds
    let s ← known e.s
    simulate n { e with ds := some ds, s := some (s + ds) }

def nopWord (le : Bool) : Word := pack { reg := REG_SP, exp := SP_NOP, le := le.toNat }

theorem unpack_nopWord (le : Bool) :
    (unpack (nopWord le)).reg = REG_SP ∧ (unpack (nopWord le)).exp = SP_NOP ∧
      (unpack (nopWord le)).scnt = 0 := by
  cases le with
  | false => decide
  | true => decide

/-- The loop of `emit`; the no-ops it adds emit nothing by themselves. -/
def fill (le : Bool) (inst : List Word) (nSamples : ℕ) : Except Error (List Word) :=
  if nSamples = 0 then
    .ok inst
  else if h : inst = [] then
    .error .indexOutOfRange
  else
    let f := unpack (inst.getLast h)
    let scnt := f.scnt + nSamples
    let rest := scnt - SCNT_MASK
    let inst := inst.dropLast ++ [pack { f with scnt := min SCNT_MASK scnt, offset := 0 }]
    if rest > 0 then fill le (inst ++ [nopWord le]) rest else .ok inst
termination_by (nSamples, (inst.getLast?.map fun w => (unpack w).scnt).getD 0)
decreasing_by
  have hmax := (inRange_unpack (List.getLast _ h)).scnt
  have hnop := (unpack_nopWord le).2.2
  rw [List.getLast?_concat, List.getLast?_eq_some_getLast h, Option.map_some, Option.map_some,
    Option.getD_some, Option.getD_some, hnop, Prod.lex_def]
  simp only [SCNT_MASK] at *
  omega

def emit (nSamples : ℕ) (e : Encoder) : Except Error Encoder := do
  let e ← simulate nSamples e
  let inst ← fill e.le e.inst nSamples
  .ok { e with inst := inst }

def nop (nSamples : ℕ) (e : Encoder) : Except Error Encoder :=
  emit nSamples { e with inst := e.inst ++ [nopWord e.le] }

def hold (nSamples : ℕ) (e : Encoder) : Except Error Encoder :=
  if nSamples = 0 then
    .ok e
  else do
    let e ← setDDS 0 0 e
    let e ← setDS 0 0 e
    nop nSamples e

def moveTo (x y : ℚ) (nSamples : ℕ) (e : Encoder) : Except Error Encoder := do
  let e ← setDDS 0 0 e
  let e ← setDS 0 0 e
  let e ← setS x y e
  emit nSamples e

def lineTo (x y : ℚ) (nSamples : ℕ) (e : Encoder) : Except Error Encoder :=
  if nSamples = 0 then
    moveTo x y nSamples e
  else do
    let a : ℚ := 1 / nSamples
    let e ← setDDS 0 0 e
    let s ← known e.s
    let e ← setDS (a * (x - s.1)) (a * (y - s.2)) e
    emit nSamples e

def curveTo (x1 y1 x2 y2 : ℚ) (nSamples : ℕ) (e : Encoder) : Except Error Encoder :=
  if nSamples = 0 then
    moveTo x2 y2 nSamples e
  else do
    let (x0, y0) ← known e.s
    let dx := -2 * x0 + 2 * x1
    let dy := -2 * y0 + 2 * y1
    let ddx := 2 * x0 - 4 * x1 + 2 * x2
    let ddy := 2 * y0 - 4 * y1 + 2 * y2
    let ds : ℚ := 1 / nSamples
    let dds := ds / nSamples
    let e ← setDDS (ddx * dds) (ddy * dds) e
    let e ← setDS (dx * ds) (dy * ds) e
    emit nSamples e

end Encoder

inductive Command
  | moveTo (x y : ℚ) (nSamples : ℕ)
  | lineTo (x y : ℚ) (nSamples : ℕ)
  | curveTo (x1 y1 x2 y2 : ℚ) (nSamples : ℕ)
  | hold (nSamples : ℕ)
  | nop (nSamples : ℕ)
  | emit (nSamples : ℕ)
  | setLaser (le : Bool)
  | getFrame

def Command.samples : Command → ℕ
  | moveTo _ _ nSamples => nSamples
  | lineTo _ _ nSamples => nSamples
  | curveTo _ _ _ _ nSamples => nSamples
  | hold nSamples => nSamples
  | nop nSamples => nSamples
  | emit nSamples => nSamples
  | setLaser _ => 0
  | getFrame => 0

structure Session where
  frames : List Word := []
  encoder : Encoder := {}

def Session.inst (st : Session) : List Word := st.frames ++ st.encoder.inst

def Session.perform (st : Session) : Command → Except Error Session
  | .moveTo x y nSamples => do
    .ok { st with encoder := ← st.encoder.moveTo x y nSamples }
  | .lineTo x y nSamples => do
    .ok { st with encoder := ← st.encoder.lineTo x y nSamples }
  | .curveTo x1 y1 x2 y2 nSamples => do
    .ok { st with encoder := ← st.encoder.curveTo x1 y1 x2 y2 nSamples }
  | .hold nSamples => do
    .ok { st with encoder := ← st.encoder.hold nSamples }
  | .nop nSamples => do
    .ok { st with encoder := ← st.encoder.nop nSamples }
  | .emit nSamples => do
    .ok { st with encoder := ← st.encoder.emit nSamples }
  | .setLaser le => .ok { st with encoder := { st.encoder with le := le } }
  | .getFrame => do
    let (i, e) ← st.encoder.getFrame
    .ok { frames := st.frames ++ i, encoder := e }

namespace Encoder

theorem fill_concat_of_pos (le : Bool) (inst : List Word) (last : Word) {n : ℕ} (hn : n ≠ 0)
    (hrest : (unpack last).scnt + n - SCNT_MASK > 0) :
    fill le (inst ++ [last]) n =
      fill le (inst ++ [pack { unpack last with scnt := min SCNT_MASK ((unpack last).scnt + n),
                                                offset := 0 }] ++ [nopWord le])
        ((unpack last).scnt + n - SCNT_MASK) := by
  rw [fill, if_neg hn, dif_neg (by simp)]
  simp only [List.getLast_concat, List.dropLast_concat]
  rw [if_pos hrest]

theorem fill_concat_of_not_pos (le : Bool) (inst : List Word) (last : Word) {n : ℕ} (hn : n ≠ 0)
    (hrest : ¬ (unpack last).scnt + n - SCNT_MASK > 0) :
    fill le (inst ++ [last]) n =
      .ok (inst ++ [pack { unpack last with scnt := min SCNT_MASK ((unpack last).scnt + n),
                                            offset := 0 }]) := by
  rw [fill, if_neg hn, dif_neg (by simp)]
  simp only [List.getLast_concat, List.dropLast_concat]
  rw [if_neg hrest]

section Words

variable {words : List Word} {m : Machine}

theorem interpret_nop (h : interpret words 1 = .ok m) (le : Bool) :
    ∃ m', interpret (words ++ [nopWord le]) 1 = .ok m' ∧ m'.regs = m.regs ∧
      m'.points.length = m.points.length := by
  obtain ⟨hreg, hexp, hscnt⟩ := unpack_nopWord le
  obtain ⟨m', hexec, hregs, hpoints⟩ := exec_of_load (load_nop m.regs hreg hexp)
  rw [hscnt] at hregs hpoints
  exact ⟨m', by rw [interpret_concat h, hexec], hregs, hpoints⟩

theorem interpret_more {last : Word} {scnt k : ℕ} (h : interpret (words ++ [last]) 1 = .ok m)
    (hscnt : scnt = (unpack last).scnt + k) (hmax : scnt ≤ SCNT_MASK) :
    ∃ m', interpret (words ++ [pack { unpack last with scnt := scnt, offset := 0 }]) 1 = .ok m' ∧
      m'.regs = Registers.sample^[k] m.regs ∧ m'.points.length = m.points.length + k := by
  obtain ⟨m₀, h₀, hexec⟩ := interpret_concat_ok h
  obtain ⟨regs, hload, hregs, hpoints⟩ := exec_ok hexec
  have hrange : ({ unpack last with scnt := scnt, offset := 0 } : Fields).InRange :=
    { inRange_unpack last with scnt := hmax }
  have hunpack := unpack_pack hrange rfl
  have hload' : load m₀.regs (unpack (pack { unpack last with scnt := scnt, offset := 0 })) =
      .ok regs := by
    rw [hunpack]
    exact hload
  obtain ⟨m', hexec', hregs', hpoints'⟩ := exec_of_load hload'
  rw [hunpack] at hregs' hpoints'
  refine ⟨m', ?_, ?_, ?_⟩
  · rw [interpret_concat h₀, hexec']
  · rw [hregs', hregs, hscnt, Nat.add_comm, Function.iterate_add_apply]
  · rw [hpoints', hpoints, hscnt, Nat.add_assoc]

theorem fill_spec (le : Bool) {frames : List Word} (inst : List Word) (n : ℕ) (hne : inst ≠ [])
    {m : Machine} (h : interpret (frames ++ inst) 1 = .ok m) :
    ∃ inst' m', fill le inst n = .ok inst' ∧ inst' ≠ [] ∧
      interpret (frames ++ inst') 1 = .ok m' ∧ m'.regs = Registers.sample^[n] m.regs ∧
      m'.points.length = m.points.length + n := by
  induction inst, n using fill.induct le generalizing m with
  | case1 inst =>
    refine ⟨inst, m, ?_, hne, h, rfl, rfl⟩
    rw [fill, if_pos rfl]
  | case2 n hn => exact absurd rfl hne
  | case3 =>
    rename_i inst n hn hinst f scnt rest inst₁ hrest ih
    obtain ⟨inst, last, rfl⟩ := (List.eq_nil_or_concat' inst).resolve_left hinst
    simp only [f, scnt, rest, inst₁, List.getLast_concat, List.dropLast_concat] at hrest ih
    have hmax : (unpack last).scnt ≤ SCNT_MASK := (inRange_unpack last).scnt
    generalize hr : (unpack last).scnt + n - SCNT_MASK = r at hrest ih
    have hkeep : min SCNT_MASK ((unpack last).scnt + n) = (unpack last).scnt + (n - r) := by omega
    rw [← List.append_assoc] at h
    obtain ⟨m₁, hm₁, hregs₁, hpoints₁⟩ := interpret_more h hkeep (min_le_left ..)
    obtain ⟨m₂, hm₂, hregs₂, hpoints₂⟩ := interpret_nop hm₁ le
    obtain ⟨inst', m', hfill, hne', hm', hregs, hpoints⟩ := ih (by simp)
      (by simpa only [List.append_assoc] using hm₂)
    refine ⟨inst', m', ?_, hne', hm', ?_, ?_⟩
    · subst hr
      rw [fill_concat_of_pos le inst last hn hrest, hfill]
    · rw [hregs, hregs₂, hregs₁, ← Function.iterate_add_apply,
        Nat.add_sub_cancel' (by omega : r ≤ n)]
    · omega
  | case4 =>
    rename_i inst n hn hinst f scnt rest hrest
    obtain ⟨inst, last, rfl⟩ := (List.eq_nil_or_concat' inst).resolve_left hinst
    simp only [f, scnt, rest, List.getLast_concat] at hrest
    have hkeep : min SCNT_MASK ((unpack last).scnt + n) = (unpack last).scnt + n := by omega
    rw [← List.append_assoc] at h
    obtain ⟨m', hm', hregs, hpoints⟩ := interpret_more h hkeep (min_le_left ..)
    rw [List.append_assoc] at hm'
    refine ⟨_, m', ?_, by simp, hm', hregs, hpoints⟩
    exact fill_concat_of_not_pos le inst last hn hrest

end Words

end Encoder

end NaviMisc.LaserProp
