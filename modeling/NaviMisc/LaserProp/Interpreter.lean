import NaviMisc.LaserProp.VectorMachine
import NaviMisc.Lib.Outcome

/-!
The interpreter of the vector machine (client/VectorMachine.py): registers, samples and the
points a program draws.
-/

namespace NaviMisc.LaserProp

open NaviMisc.Lib.Outcome

inductive Register
  | s
  | ds
  | dds
  deriving DecidableEq

def Register.code : Register → ℕ
  | s => REG_S
  | ds => REG_DS
  | dds => REG_DDS

structure Registers (V : Type*) where
  s : V
  ds : V
  dds : V

variable {V W : Type*}

def Registers.get (r : Registers V) : Register → V
  | .s => r.s
  | .ds => r.ds
  | .dds => r.dds

def Registers.set (r : Registers V) (v : V) : Register → Registers V
  | .s => { r with s := v }
  | .ds => { r with ds := v }
  | .dds => { r with dds := v }

def Registers.map (f : V → W) (r : Registers V) : Registers W where
  s := f r.s
  ds := f r.ds
  dds := f r.dds

def Registers.sample [Add V] (r : Registers V) : Registers V where
  s := r.s + (r.ds + r.dds)
  ds := r.ds + r.dds
  dds := r.dds

@[simp] theorem Registers.get_map (f : V → W) (r : Registers V) (reg : Register) :
    (r.map f).get reg = f (r.get reg) := by
  cases reg with
  | s => rfl
  | ds => rfl
  | dds => rfl

theorem Registers.get_set (r : Registers V) (v : V) (reg reg' : Register) :
    (r.set v reg).get reg' = if reg' = reg then v else r.get reg' := by
  cases reg <;> cases reg' <;> rfl

theorem Registers.map_sample [Add V] [Add W] {f : V → W} (hf : ∀ u v, f (u + v) = f u + f v)
    (r : Registers V) : (r.map f).sample = r.sample.map f := by
  simp only [Registers.sample, Registers.map, hf]

structure Point where
  x : ℤ
  y : ℤ
  le : ℕ
  sNum : ℕ

/-- The variables of `interpret`. -/
structure Machine where
  regs : Registers (ℤ × ℤ)
  points : List Point

def Machine.init : Machine where
  regs := { s := (0, 0), ds := (0, 0), dds := (0, 0) }
  points := []

def Machine.sample (pointSkip le : ℕ) (m : Machine) (i : ℕ) : Machine :=
  let regs := m.regs.sample
  { regs := regs
    points :=
      if i % pointSkip = 0 then
        m.points ++ [{ x := regs.s.1 >>> FIXED_POINT_BITS, y := regs.s.2 >>> FIXED_POINT_BITS,
                       le := le, sNum := i }]
      else
        m.points }

def decodedPoint (f : Fields) : ℤ × ℤ := (f.x <<< f.exp, f.y <<< f.exp)

def load (regs : Registers (ℤ × ℤ)) (f : Fields) : Except Error (Registers (ℤ × ℤ)) :=
  if f.reg = REG_S then
    .ok { regs with s := decodedPoint f }
  else if f.reg = REG_DS then
    .ok { regs with ds := decodedPoint f }
  else if f.reg = REG_DDS then
    .ok { regs with dds := decodedPoint f }
  else if f.reg ≠ REG_SP then
    .error .assertionFailed
  else if f.exp ≠ SP_NOP then
    .error .notImplemented
  else
    .ok regs

def Machine.exec (pointSkip : ℕ) (m : Machine) (word : Word) : Except Error Machine := do
  let f := unpack word
  let regs ← load m.regs f
  .ok ((List.range f.scnt).foldl (Machine.sample pointSkip f.le) { m with regs := regs })

def interpret (words : List Word) (pointSkip : ℕ) : Except Error Machine :=
  words.foldlM (Machine.exec pointSkip) Machine.init

def countSamples (words : List Word) : ℕ :=
  words.foldl (fun scnt word => scnt + (unpack word).scnt) 0

theorem load_register (regs : Registers (ℤ × ℤ)) {f : Fields} {r : Register}
    (h : f.reg = r.code) : load regs f = .ok (regs.set (decodedPoint f) r) := by
  rw [load, h]
  cases r with
  | s => rfl
  | ds => rfl
  | dds => rfl

theorem load_nop (regs : Registers (ℤ × ℤ)) {f : Fields} (h : f.reg = REG_SP)
    (hexp : f.exp = SP_NOP) : load regs f = .ok regs := by
  rw [load, h, hexp]
  rfl

theorem samples_regs (le : ℕ) (m : Machine) (l : List ℕ) :
    (l.foldl (Machine.sample 1 le) m).regs = Registers.sample^[l.length] m.regs ∧
      (l.foldl (Machine.sample 1 le) m).points.length = m.points.length + l.length := by
  induction l generalizing m with
  | nil => exact ⟨rfl, rfl⟩
  | cons i l ih =>
    obtain ⟨hregs, hpoints⟩ := ih (m.sample 1 le i)
    have hmod : i % 1 = 0 := Nat.mod_one i
    constructor
    · rw [List.foldl_cons, hregs, List.length_cons, Function.iterate_succ_apply]
      rfl
    · rw [List.foldl_cons, hpoints, List.length_cons, Machine.sample, if_pos hmod,
        List.length_append, List.length_singleton]
      omega

theorem interpret_append {words words' : List Word} {pointSkip : ℕ} {m : Machine}
    (h : interpret words pointSkip = .ok m) :
    interpret (words ++ words') pointSkip = words'.foldlM (Machine.exec pointSkip) m := by
  rw [interpret, List.foldlM_append]
  rw [interpret] at h
  rw [h]
  rfl

theorem interpret_concat {words : List Word} {word : Word} {pointSkip : ℕ} {m : Machine}
    (h : interpret words pointSkip = .ok m) :
    interpret (words ++ [word]) pointSkip = m.exec pointSkip word := by
  rw [interpret_append h, List.foldlM_cons]
  exact bind_pure _

theorem interpret_concat_ok {words : List Word} {word : Word} {pointSkip : ℕ} {m : Machine}
    (h : interpret (words ++ [word]) pointSkip = .ok m) :
    ∃ m₀, interpret words pointSkip = .ok m₀ ∧ m₀.exec pointSkip word = .ok m := by
  cases h₀ : interpret words pointSkip with
  | error e =>
    rw [interpret, List.foldlM_append] at h
    rw [interpret] at h₀
    rw [h₀] at h
    cases h
  | ok m₀ => exact ⟨m₀, rfl, by rw [← interpret_concat h₀, h]⟩

theorem exec_of_load {m : Machine} {word : Word} {regs : Registers (ℤ × ℤ)}
    (h : load m.regs (unpack word) = .ok regs) :
    ∃ m', m.exec 1 word = .ok m' ∧ m'.regs = Registers.sample^[(unpack word).scnt] regs ∧
      m'.points.length = m.points.length + (unpack word).scnt := by
  have hs := samples_regs (unpack word).le { m with regs := regs }
    (List.range (unpack word).scnt)
  rw [List.length_range] at hs
  refine ⟨_, ?_, hs⟩
  rw [Machine.exec, h]
  rfl

theorem exec_ok {m m' : Machine} {word : Word} (h : m.exec 1 word = .ok m') :
    ∃ regs, load m.regs (unpack word) = .ok regs ∧
      m'.regs = Registers.sample^[(unpack word).scnt] regs ∧
      m'.points.length = m.points.length + (unpack word).scnt := by
  cases hload : load m.regs (unpack word) with
  | error e =>
    rw [Machine.exec, hload] at h
    cases h
  | ok regs =>
    obtain ⟨m'', hexec, hm⟩ := exec_of_load hload
    rw [h] at hexec
    cases hexec
    exact ⟨regs, rfl, hm⟩

end NaviMisc.LaserProp
