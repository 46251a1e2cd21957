import NaviMisc.Lib.Lists
import NaviMisc.Lib.Worklist
import NaviMisc.Sbt86.Instruction

/-!
`BinaryImage.iFetch`, `Subroutine` and `DOSBinary` of scripts/sbt86.py: the
analysis that splits a program into subroutines, and the C functions generated
for them. Code pointers are linear addresses: a segment only matters to the
disassembler, which is a partial map here.
-/

namespace NaviMisc.Sbt86

open Lib

inductive AnalyzeError
  | disassemble (addr : ℕ)
  | dynamicBranchOrigin (op : Op)

structure BinaryImage where
  -- The instructions that `DOSBinary.patch` stuck in the cache, the last one first.
  patches : List Instruction
  disasm : ℕ → Option Instruction
  disasm_addr : ∀ {a i}, disasm a = some i → i.addr.linear = a

def BinaryImage.iFetch (image : BinaryImage) (addr : ℕ) : Except AnalyzeError Instruction :=
  match image.patches.find? fun i => i.addr.linear == addr with
  | some i => .ok i
  | none =>
    match image.disasm addr with
    | some i => .ok i
    | none => .error (.disassemble addr)

theorem BinaryImage.iFetch_addr {image : BinaryImage} {a : ℕ} {i : Instruction}
    (h : image.iFetch a = .ok i) : i.addr.linear = a := by
  rw [iFetch] at h
  split at h
  · rename_i j hj
    cases h
    have hp := List.find?_some hj
    exact beq_iff_eq.mp hp
  · split at h
    · rename_i j hj
      cases h
      exact image.disasm_addr hj
    · cases h

structure DOSBinary where
  image : BinaryImage
  entryPoint : ℕ
  dynBranches : ℕ → List Addr16
  hooks : ℕ → Option String

namespace Instruction

def isCall (i : Instruction) : Bool := i.op == .call && i.nextAddrs.length == 2

def pushes (i : Instruction) (dynTargets : List Addr16) : List ℕ :=
  ((if i.isCall then i.nextAddrs.take 1 else i.nextAddrs) ++
    if i.op = .jmp then dynTargets else []).map Addr16.linear

def callsTo (i : Instruction) (dynTargets : List Addr16) : List ℕ :=
  ((if i.isCall then i.nextAddrs.drop 1 else []) ++
    if i.op = .call then dynTargets else []).map Addr16.linear

def labelsTo (i : Instruction) (dynTargets : List Addr16) : List ℕ :=
  (i.labels ++ if i.op = .jmp then dynTargets else []).map Addr16.linear

end Instruction

structure Analysis where
  labels : List ℕ
  callsTo : List ℕ
  clockEnable : Bool

def Analysis.record (s : Analysis) (i : Instruction) (dynTargets : List Addr16) : Analysis where
  labels := i.labelsTo dynTargets ++ s.labels
  callsTo := i.callsTo dynTargets ++ s.callsTo
  clockEnable := s.clockEnable || i.op ∈ [Op.in_, .out]

structure Subroutine where
  entryPoint : ℕ
  labels : List ℕ
  callsTo : List ℕ
  clockEnable : Bool
  instructions : List Instruction

/-- A line of the body: where it comes from, whether a label stands before it, the hook and the
code, with the cycles added to `gClock` after it. -/
structure Line where
  addr : ℕ
  label : Bool
  hook : Option String
  code : Code
  cycles : Option ℕ

structure CFunction where
  entry : ℕ
  body : List Line

namespace CFunction

def labels (f : CFunction) : List ℕ := (f.body.filter Line.label).map Line.addr

def gotos (f : CFunction) : List ℕ := f.entry :: f.body.flatMap fun l => l.code.gotos

def calls (f : CFunction) : List ℕ := f.body.flatMap fun l => l.code.calls

end CFunction

namespace DOSBinary

variable (p : DOSBinary)

def dynTargets (i : Instruction) : List Addr16 := p.dynBranches i.addr.linear

def visit (ptr : ℕ) (s : Analysis) : Except AnalyzeError (List ℕ × Analysis) := do
  let i ← p.image.iFetch ptr
  if p.dynTargets i ≠ [] ∧ i.op ≠ .call ∧ i.op ≠ .jmp then .error (.dynamicBranchOrigin i.op)
  else return (i.pushes (p.dynTargets i), s.record i (p.dynTargets i))

/-- `Subroutine.analyze` -/
def analyzeSub (fuel entryPoint : ℕ) : Except (Worklist.Stop AnalyzeError) Subroutine := do
  let (memo, s) ← Worklist.search p.visit fuel [entryPoint] [] ⟨[entryPoint], [], false⟩
  let instructions ← ((memo.insertionSort (· ≤ ·)).mapM p.image.iFetch).mapError .failed
  return ⟨entryPoint, s.labels, s.callsTo, s.clockEnable, instructions⟩

def visitSub (fuel ptr : ℕ) (subroutines : List Subroutine) :
    Except (Worklist.Stop AnalyzeError) (List ℕ × List Subroutine) := do
  let sub ← p.analyzeSub fuel ptr
  return (sub.callsTo, sub :: subroutines)

def analyze (fuel : ℕ) : Except (Worklist.Stop (Worklist.Stop AnalyzeError)) (List Subroutine) := do
  let (_, subroutines) ← Worklist.search (p.visitSub fuel) fuel [p.entryPoint] [] []
  return subroutines

def genLine (sub : Subroutine) (i : Instruction) : Gen Line := do
  let (code, cycles) ← i.codegen (p.dynTargets i) sub.clockEnable
  return ⟨i.addr.linear, i.addr.linear ∈ sub.labels, p.hooks i.addr.linear, code, cycles⟩

/-- `Subroutine.codegen` -/
def codegenSub (sub : Subroutine) : Gen CFunction := do
  return ⟨sub.entryPoint, ← sub.instructions.mapM (p.genLine sub)⟩

def codegen (subroutines : List Subroutine) : Gen (List CFunction) :=
  subroutines.mapM p.codegenSub

end DOSBinary

end NaviMisc.Sbt86

/-!
What the analysis of scripts/sbt86.py finds, in terms of the program alone: a
subroutine holds the instructions reachable from its entry without a call, and
the subroutines are those reachable from the entry point by calls.
-/

namespace NaviMisc.Sbt86.DOSBinary

open Lib Lib.Lists Lib.Worklist

variable (p : DOSBinary)

def succs (a : ℕ) : List ℕ :=
  match p.image.iFetch a with
  | .ok i => i.pushes (p.dynTargets i)
  | .error _ => []

/-- The instruction belongs to the subroutine with entry `e`. -/
structure Contains (e : ℕ) (i : Instruction) : Prop where
  reaches : Reaches p.succs e i.addr.linear
  fetched : p.image.iFetch i.addr.linear = .ok i

def Labelled (e t : ℕ) : Prop := t = e ∨ ∃ i, p.Contains e i ∧ t ∈ i.labelsTo (p.dynTargets i)

def Calls (e t : ℕ) : Prop := ∃ i, p.Contains e i ∧ t ∈ i.callsTo (p.dynTargets i)

def Generated (e : ℕ) : Prop := Relation.ReflTransGen p.Calls p.entryPoint e

structure Analyzed (e : ℕ) (sub : Subroutine) : Prop where
  entryPoint : sub.entryPoint = e
  sorted : (sub.instructions.map fun i => i.addr.linear).SortedLT
  instructions : ∀ i, i ∈ sub.instructions ↔ p.Contains e i
  reached : ∀ a, Reaches p.succs e a → ∃ i ∈ sub.instructions, i.addr.linear = a
  labels : ∀ t, t ∈ sub.labels ↔ p.Labelled e t
  callsTo : ∀ t, t ∈ sub.callsTo ↔ p.Calls e t

variable {p}

theorem visit_ok {a : ℕ} {s s' : Analysis} {next : List ℕ} (h : p.visit a s = .ok (next, s')) :
    ∃ i, p.image.iFetch a = .ok i ∧ next = i.pushes (p.dynTargets i) ∧
      s' = s.record i (p.dynTargets i) := by
  obtain ⟨i, hi, h⟩ := bind_eq_ok h
  refine ⟨i, hi, ?_⟩
  split at h
  · cases h
  · cases h
    exact ⟨rfl, rfl⟩

theorem succs_eq {a : ℕ} {i : Instruction} (h : p.image.iFetch a = .ok i) :
    p.succs a = i.pushes (p.dynTargets i) := by
  rw [succs, h]

theorem visit_succs {a : ℕ} {s s' : Analysis} {next : List ℕ} (h : p.visit a s = .ok (next, s')) :
    next = p.succs a := by
  obtain ⟨i, hi, hnext, -⟩ := visit_ok h
  rw [hnext, succs_eq hi]

structure Recorded (p : DOSBinary) (e : ℕ) (memo : List ℕ) (s : Analysis) : Prop where
  fetched : ∀ a ∈ memo, ∃ i, p.image.iFetch a = .ok i
  labels : ∀ t, t ∈ s.labels ↔
    t = e ∨ ∃ a ∈ memo, ∃ i, p.image.iFetch a = .ok i ∧ t ∈ i.labelsTo (p.dynTargets i)
  callsTo : ∀ t, t ∈ s.callsTo ↔
    ∃ a ∈ memo, ∃ i, p.image.iFetch a = .ok i ∧ t ∈ i.callsTo (p.dynTargets i)

theorem Recorded.init (e : ℕ) : p.Recorded e [] ⟨[e], [], false⟩ := by
  constructor <;> simp

theorem Recorded.visit {e a : ℕ} {memo next : List ℕ} {s s' : Analysis} (hs : p.Recorded e memo s)
    (h : p.visit a s = .ok (next, s')) : p.Recorded e (a :: memo) s' := by
  obtain ⟨i, hi, -, rfl⟩ := visit_ok h
  have found (t : ℕ) (f : Instruction → List ℕ) :
      (∃ b ∈ a :: memo, ∃ j, p.image.iFetch b = .ok j ∧ t ∈ f j) ↔
        t ∈ f i ∨ ∃ b ∈ memo, ∃ j, p.image.iFetch b = .ok j ∧ t ∈ f j := by
    simp only [List.mem_cons, or_and_right, exists_or, exists_eq_left, hi, Except.ok.injEq,
      exists_eq_left']
  constructor
  · exact List.forall_mem_cons.mpr ⟨⟨i, hi⟩, hs.fetched⟩
  · intro t
    rw [found t fun j => j.labelsTo (p.dynTargets j), or_left_comm, ← hs.labels t]
    exact List.mem_append
  · intro t
    rw [found t fun j => j.callsTo (p.dynTargets j), ← hs.callsTo t]
    exact List.mem_append

theorem analyzeSub_ok {fuel e : ℕ} {sub : Subroutine} (h : p.analyzeSub fuel e = .ok sub) :
    ∃ memo s, search p.visit fuel [e] [] ⟨[e], [], false⟩ = .ok (memo, s) ∧
      (memo.insertionSort (· ≤ ·)).mapM p.image.iFetch = .ok sub.instructions ∧
      sub.entryPoint = e ∧ sub.labels = s.labels ∧ sub.callsTo = s.callsTo := by
  obtain ⟨⟨memo, s⟩, hrun, h⟩ := bind_eq_ok h
  obtain ⟨instructions, hfetch, h⟩ := bind_eq_ok h
  cases h
  refine ⟨memo, s, hrun, ?_, rfl, rfl, rfl⟩
  cases hm : (memo.insertionSort (· ≤ ·)).mapM p.image.iFetch with
  | error e => rw [hm] at hfetch; cases hfetch
  | ok l => rw [hm] at hfetch; cases hfetch; rfl

theorem addrs_eq {addrs : List ℕ} {l : List Instruction} (h : addrs.mapM p.image.iFetch = .ok l) :
    l.map (fun i => i.addr.linear) = addrs :=
  (map_eq_of_mapM (fun _ _ => BinaryImage.iFetch_addr) h).trans (List.map_id addrs)

theorem analyzeSub_spec {fuel e : ℕ} {sub : Subroutine} (h : p.analyzeSub fuel e = .ok sub) :
    p.Analyzed e sub := by
  obtain ⟨memo, s, hrun, hfetch, hentry, hlabels, hcalls⟩ := analyzeSub_ok h
  obtain ⟨hnodup, hreach⟩ := search_reaches (fun _ _ _ _ hv => visit_succs hv) hrun
  have hrec : p.Recorded e memo s :=
    search_state (fun _ _ _ _ _ hs _ hv => Recorded.visit hs hv) (Recorded.init e) hrun
  have contained (P : Instruction → Prop) :
      (∃ a ∈ memo, ∃ i, p.image.iFetch a = .ok i ∧ P i) ↔ ∃ i, p.Contains e i ∧ P i := by
    constructor
    · rintro ⟨a, ha, i, hi, hP⟩
      cases BinaryImage.iFetch_addr hi
      exact ⟨i, ⟨(hreach _).mp ha, hi⟩, hP⟩
    · rintro ⟨i, hi, hP⟩
      exact ⟨i.addr.linear, (hreach _).mpr hi.reaches, i, hi.fetched, hP⟩
  have hmem (a : ℕ) : a ∈ memo.insertionSort (· ≤ ·) ↔ Reaches p.succs e a :=
    (List.mem_insertionSort _).trans (hreach a)
  constructor
  · exact hentry
  · rw [addrs_eq hfetch]
    apply List.SortedLE.sortedLT_of_nodup
    · exact List.sortedLE_insertionSort
    · exact (List.perm_insertionSort _ memo).nodup_iff.mpr hnodup
  · intro i
    constructor
    · intro hi
      obtain ⟨a, ha, hi⟩ := of_mem_mapM hfetch hi
      cases BinaryImage.iFetch_addr hi
      exact ⟨(hmem _).mp ha, hi⟩
    · intro hi
      obtain ⟨j, hj, hij⟩ := mem_mapM hfetch ((hmem _).mpr hi.reaches)
      rw [hi.fetched] at hij
      cases hij
      exact hj
  · intro a ha
    obtain ⟨i, hi, hai⟩ := mem_mapM hfetch ((hmem a).mpr ha)
    exact ⟨i, hi, BinaryImage.iFetch_addr hai⟩
  · intro t
    rw [hlabels, hrec.labels, contained fun i => t ∈ i.labelsTo (p.dynTargets i)]
    rfl
  · intro t
    rw [hcalls, hrec.callsTo, contained fun i => t ∈ i.callsTo (p.dynTargets i)]
    rfl

structure Collected (p : DOSBinary) (fuel : ℕ) (memo : List ℕ) (subroutines : List Subroutine) :
    Prop where
  of_mem : ∀ sub ∈ subroutines, ∃ e ∈ memo, p.analyzeSub fuel e = .ok sub
  mem : ∀ e ∈ memo, ∃ sub ∈ subroutines, p.analyzeSub fuel e = .ok sub

theorem visitSub_ok {fuel e : ℕ} {subs subs' : List Subroutine} {next : List ℕ}
    (h : p.visitSub fuel e subs = .ok (next, subs')) :
    ∃ sub, p.analyzeSub fuel e = .ok sub ∧ next = sub.callsTo ∧ subs' = sub :: subs := by
  obtain ⟨sub, hsub, h⟩ := bind_eq_ok h
  cases h
  exact ⟨sub, hsub, rfl, rfl⟩

theorem Collected.visitSub {fuel e : ℕ} {memo next : List ℕ} {subs subs' : List Subroutine}
    (hc : p.Collected fuel memo subs) (h : p.visitSub fuel e subs = .ok (next, subs')) :
    p.Collected fuel (e :: memo) subs' := by
  obtain ⟨sub, hsub, -, rfl⟩ := visitSub_ok h
  constructor
  · rintro sub' (_ | ⟨_, hsub'⟩)
    · exact ⟨e, List.mem_cons_self .., hsub⟩
    · obtain ⟨e', he', h'⟩ := hc.of_mem sub' hsub'
      exact ⟨e', List.mem_cons_of_mem _ he', h'⟩
  · rintro e' (_ | ⟨_, he'⟩)
    · exact ⟨sub, List.mem_cons_self .., hsub⟩
    · obtain ⟨sub', hsub', h'⟩ := hc.mem e' he'
      exact ⟨sub', List.mem_cons_of_mem _ hsub', h'⟩

def callees (p : DOSBinary) (fuel e : ℕ) : List ℕ :=
  match p.analyzeSub fuel e with
  | .ok sub => sub.callsTo
  | .error _ => []

theorem callees_eq {fuel e : ℕ} {sub : Subroutine} (h : p.analyzeSub fuel e = .ok sub) :
    p.callees fuel e = sub.callsTo := by
  rw [callees, h]

theorem visitSub_callees {fuel e : ℕ} {subs subs' : List Subroutine} {next : List ℕ}
    (h : p.visitSub fuel e subs = .ok (next, subs')) : next = p.callees fuel e := by
  obtain ⟨sub, hsub, hnext, -⟩ := visitSub_ok h
  rw [hnext, callees_eq hsub]

theorem calls_of_mem_callees {fuel e t : ℕ} (h : t ∈ p.callees fuel e) : p.Calls e t := by
  rw [callees] at h
  split at h
  · rename_i sub hsub
    exact ((analyzeSub_spec hsub).callsTo t).mp h
  · cases h

theorem analyze_spec {fuel : ℕ} {subs : List Subroutine} (h : p.analyze fuel = .ok subs) :
    (∀ sub ∈ subs, ∃ e, p.Generated e ∧ p.Analyzed e sub) ∧
      ∀ e, p.Generated e → ∃ sub ∈ subs, p.Analyzed e sub := by
  obtain ⟨⟨memo, subs'⟩, hrun, h⟩ := bind_eq_ok h
  cases h
  have hreach : ∀ e, e ∈ memo ↔ Reaches (p.callees fuel) p.entryPoint e :=
    (search_reaches (fun _ _ _ _ hv => visitSub_callees hv) hrun).2
  have hcol : p.Collected fuel memo subs := by
    refine search_state (fun _ _ _ _ _ hc _ hv => Collected.visitSub hc hv) ?_ hrun
    constructor <;> simp
  have hgen (e : ℕ) : e ∈ memo ↔ p.Generated e := by
    rw [hreach]
    constructor
    · exact Relation.ReflTransGen.mono (fun _ _ => calls_of_mem_callees) _ _
    · intro hgen
      induction hgen with
      | refl => exact .refl
      | tail _ hcall ih =>
        obtain ⟨sub, -, hsub⟩ := hcol.mem _ ((hreach _).mpr ih)
        refine ih.tail ?_
        rw [callees_eq hsub]
        exact ((analyzeSub_spec hsub).callsTo _).mpr hcall
  constructor
  · intro sub hsub
    obtain ⟨e, he, hsub⟩ := hcol.of_mem sub hsub
    exact ⟨e, (hgen e).mp he, analyzeSub_spec hsub⟩
  · intro e he
    obtain ⟨sub, hsub, hsub'⟩ := hcol.mem e ((hgen e).mpr he)
    exact ⟨sub, hsub, analyzeSub_spec hsub'⟩

end NaviMisc.Sbt86.DOSBinary
