import NaviMisc.Sbt86.Subroutine

/-!
Control flow of the code that scripts/sbt86.py generates: jumps stay inside
their function, calls reach generated functions, and an instruction falls
through to the one at the next address, except where the emission in address
order ignores `nextAddrs`.
-/

namespace NaviMisc.Sbt86

open Lib Lib.Lists Lib.Worklist

/-- A conditional jump or `loop`, which jumps to `nextAddrs[-1]` whatever its operand is. -/
def Op.conditional (op : Op) : Bool := op.isCondJump || op == .loop

section instruction

variable {i : Instruction} {dynTargets : List Addr16} {code : Code} {clockEnable : Bool}
  {cycles : Option ℕ}

inductive Emits (i : Instruction) (dynTargets : List Addr16) (code : Code) : Prop
  | branch (hop : i.op.conditional = true) (t : Addr16) (ht : i.nextAddrs.getLast? = some t)
      (hgotos : code.gotos = [t.linear]) (hcalls : code.calls = [])
  | jmp (hop : i.op = .jmp) (arg : Operand) (hargs : i.args = [arg])
      (h : i.codegenJmp dynTargets arg = .ok code)
  | call (hop : i.op = .call) (arg : Operand) (hargs : i.args = [arg])
      (h : i.codegenCall dynTargets arg = .ok code)
  | other (hcond : i.op.conditional = false) (hcall : i.op ≠ .call)
      (hgotos : code.gotos = []) (hcalls : code.calls = [])

theorem unary_call {f : Operand → Gen Code} {args : List Operand}
    (h : (Method.unary f).call args = .ok code) : ∃ a, args = [a] ∧ f a = .ok code := by
  match args, h with
  | [a], h => exact ⟨a, rfl, h⟩

theorem nullary_call {c : Gen Code} {args : List Operand} (h : (Method.nullary c).call args = .ok code) :
    c = .ok code := by
  match args, h with
  | [], h => exact h

theorem binary_call {f : Operand → Operand → Gen Code} {args : List Operand}
    (h : (Method.binary f).call args = .ok code) : ∃ a b, f a b = .ok code := by
  match args, h with
  | [a, b], h => exact ⟨a, b, h⟩

theorem lastNext_ok {t : Addr16} (h : i.lastNext = .ok t) : i.nextAddrs.getLast? = some t := by
  rw [Instruction.lastNext] at h
  split at h
  · rename_i a ha
    cases h
    exact ha
  · cases h

theorem Op.conditional_of_branch {op : Op} {f : Instruction → Gen Code} (h : op.branch = some f) :
    op.conditional = true := by
  cases op <;> first | rfl | cases h

theorem Op.branch_shape {op : Op} {f : Instruction → Gen Code} (h : op.branch = some f) :
    (∃ c, f = Instruction.genBranch c) ∨ f = Instruction.codegenLoop := by
  cases op <;> cases h <;> first | exact .inr rfl | exact .inl ⟨_, rfl⟩

theorem Op.statement_falls {op : Op} {m : Method CStmt} (h : op.statement = some m) :
    op.conditional = false ∧ op ≠ .call := by
  cases op <;> first | exact ⟨rfl, Op.noConfusion⟩ | cases h

theorem branch_emits {f : Instruction → Gen Code} (hf : i.op.branch = some f)
    (h : (Method.unary fun _ => f i).call i.args = .ok code) : Emits i dynTargets code := by
  obtain ⟨_, -, h⟩ := unary_call h
  have hop := Op.conditional_of_branch hf
  obtain ⟨c, rfl⟩ | rfl := Op.branch_shape hf
  · obtain ⟨t, ht, h⟩ := bind_eq_ok h
    cases h
    exact .branch hop t (lastNext_ok ht) rfl rfl
  · obtain ⟨t, ht, h⟩ := bind_eq_ok h
    cases h
    exact .branch hop t (lastNext_ok ht) rfl rfl

theorem statement_emits {m : Method CStmt} (hm : i.op.statement = some m)
    (h : (m.map Code.stmt).call i.args = .ok code) : Emits i dynTargets code := by
  rw [Method.call_map] at h
  obtain ⟨hcond, hcall⟩ := Op.statement_falls hm
  cases hs : m.call i.args with
  | error e =>
    rw [hs] at h
    cases h
  | ok s =>
    rw [hs] at h
    cases h
    exact .other hcond hcall rfl rfl

theorem codegenInt_ok {arg : Operand} (h : Instruction.codegenInt arg = .ok code) :
    code.gotos = [] ∧ code.calls = [] := by
  cases arg <;> cases h
  exact ⟨rfl, rfl⟩

theorem codegenOut_ok {port value : Operand} (h : Instruction.codegenOut port value = .ok code) :
    code.gotos = [] ∧ code.calls = [] := by
  obtain ⟨_, -, h⟩ := bind_eq_ok h
  obtain ⟨_, -, h⟩ := bind_eq_ok h
  cases h
  exact ⟨rfl, rfl⟩

theorem codegenIn_ok {value port : Operand} (h : Instruction.codegenIn value port = .ok code) :
    code.gotos = [] ∧ code.calls = [] := by
  obtain ⟨_, -, h⟩ := bind_eq_ok h
  obtain ⟨_, -, h⟩ := bind_eq_ok h
  cases h
  exact ⟨rfl, rfl⟩

theorem method_emits {f : Method Code} (hf : i.method dynTargets = some f)
    (h : f.call i.args = .ok code) : Emits i dynTargets code := by
  rw [Instruction.method] at hf
  split at hf
  case h_1 hop =>
    cases hf
    obtain ⟨a, ha, h⟩ := unary_call h
    exact .jmp hop a ha h
  case h_2 hop =>
    cases hf
    obtain ⟨a, ha, h⟩ := unary_call h
    exact .call hop a ha h
  case h_3 hop | h_4 hop =>
    cases hf
    cases nullary_call h
    exact .other (by rw [hop]; rfl) (by rw [hop]; nofun) rfl rfl
  case h_5 hop =>
    cases hf
    obtain ⟨_, -, h⟩ := unary_call h
    obtain ⟨hgotos, hcalls⟩ := codegenInt_ok h
    exact .other (by rw [hop]; rfl) (by rw [hop]; nofun) hgotos hcalls
  case h_6 hop =>
    cases hf
    obtain ⟨_, _, h⟩ := binary_call h
    obtain ⟨hgotos, hcalls⟩ := codegenOut_ok h
    exact .other (by rw [hop]; rfl) (by rw [hop]; nofun) hgotos hcalls
  case h_7 hop =>
    cases hf
    obtain ⟨_, _, h⟩ := binary_call h
    obtain ⟨hgotos, hcalls⟩ := codegenIn_ok h
    exact .other (by rw [hop]; rfl) (by rw [hop]; nofun) hgotos hcalls
  case h_8 =>
    obtain hbranch | ⟨-, hstatement⟩ := Option.or_eq_some_iff.mp hf
    · obtain ⟨g, hg, rfl⟩ := Option.map_eq_some_iff.mp hbranch
      exact branch_emits hg h
    · obtain ⟨m, hm, rfl⟩ := Option.map_eq_some_iff.mp hstatement
      exact statement_emits hm h

theorem codegen_emits (h : i.codegen dynTargets clockEnable = .ok (code, cycles)) :
    Emits i dynTargets code := by
  rw [Instruction.codegen] at h
  split at h
  · cases h
  rename_i f hf
  obtain ⟨code', hcode, h⟩ := bind_eq_ok h
  obtain ⟨n, -, h⟩ := bind_eq_ok h
  cases h
  exact method_emits hf hcode

theorem mem_labels_of_getLast {t : Addr16} (hlabels : i.labels ≠ [])
    (ht : i.nextAddrs.getLast? = some t) : t ∈ i.labels := by
  rw [Instruction.nextAddrs, List.getLast?_append_of_ne_nil _ hlabels] at ht
  exact List.mem_of_getLast? ht

theorem nextAddrs_of_jmp (hop : i.op = .jmp) : i.nextAddrs = i.labels := by
  rw [Instruction.nextAddrs, hop]
  rfl

theorem mem_pushes {t : Addr16} (hop : i.op ≠ .call) (ht : t ∈ i.nextAddrs) :
    t.linear ∈ i.pushes dynTargets := by
  have hcall : i.isCall = false := by simp [Instruction.isCall, hop]
  rw [Instruction.pushes, hcall]
  exact List.mem_map_of_mem (List.mem_append_left _ ht)

theorem labelsTo_of_jmp (hop : i.op = .jmp) : i.labelsTo dynTargets = i.pushes dynTargets := by
  have hcall : i.isCall = false := by simp [Instruction.isCall, hop]
  rw [Instruction.labelsTo, Instruction.pushes, hcall, nextAddrs_of_jmp hop]
  rfl

theorem genTransfer_ok {static : ℕ → Code} {dynamic : CExpr → List (ℕ × ℕ) → Addr16 → Code}
    {arg : Operand} (hop : i.op.hasLabel = true) (hargs : i.args = [arg])
    (h : i.genTransfer static dynamic dynTargets arg = .ok code) :
    (∃ t, i.labels = [t] ∧ code = static t.linear) ∨
      i.labels = [] ∧ ∃ e, code = dynamic e (Instruction.switchCases dynTargets) i.addr := by
  have known {t : Addr16} (ht : i.labels = [t])
      (h : (do return static (← i.lastNext).linear) = Except.ok code) :
      ∃ t, i.labels = [t] ∧ code = static t.linear := by
    obtain ⟨t', ht', h⟩ := bind_eq_ok h
    have hmem := mem_labels_of_getLast (by rw [ht]; nofun) (lastNext_ok ht')
    rw [ht, List.mem_singleton] at hmem
    cases h
    exact ⟨t', by rw [ht, hmem], rfl⟩
  have unknown (hl : i.labels = [])
      (h : (if dynTargets = [] then .error .dynamicBranch
        else do return dynamic (← arg.codegen) (Instruction.switchCases dynTargets) i.addr) =
          Except.ok code) :
      i.labels = [] ∧ ∃ e, code = dynamic e (Instruction.switchCases dynTargets) i.addr := by
    split at h
    · cases h
    · obtain ⟨e, -, h⟩ := bind_eq_ok h
      cases h
      exact ⟨hl, e, rfl⟩
  rw [Instruction.labels, if_pos hop, hargs] at known unknown ⊢
  cases arg with
  | lit l => exact .inl (known rfl h)
  | far a => exact .inl (known rfl h)
  | reg n => exact .inr (unknown rfl h)
  | ind m => exact .inr (unknown rfl h)

theorem switchCases_targets :
    (Instruction.switchCases dynTargets).map Prod.snd = dynTargets.map Addr16.linear := by
  rw [Instruction.switchCases, List.map_map]
  rfl

theorem Emits.mem_gotos (h : Emits i dynTargets code) {t : ℕ} (ht : t ∈ code.gotos) :
    (i.op.conditional = true ∧ ∃ a, i.nextAddrs.getLast? = some a ∧ t = a.linear) ∨
      i.op = .jmp ∧ t ∈ i.labelsTo dynTargets := by
  cases h with
  | branch hop a ha hgotos =>
    rw [hgotos, List.mem_singleton] at ht
    exact .inl ⟨hop, a, ha, ht⟩
  | jmp hop arg hargs h =>
    right
    refine ⟨hop, ?_⟩
    rw [Instruction.labelsTo, if_pos hop, List.map_append, List.mem_append]
    obtain ⟨a, ha, rfl⟩ | ⟨-, e, rfl⟩ := genTransfer_ok (by rw [hop]; rfl) hargs h
    · left
      rw [ha]
      exact ht
    · right
      rw [← switchCases_targets]
      exact ht
  | call hop arg hargs h =>
    obtain ⟨a, -, rfl⟩ | ⟨-, e, rfl⟩ := genTransfer_ok (by rw [hop]; rfl) hargs h
    · cases ht
    · cases ht
  | other _ _ hgotos =>
    rw [hgotos] at ht
    cases ht

theorem Emits.goto_getLast (h : Emits i dynTargets code) (hop : i.op.conditional = true) :
    ∃ a, i.nextAddrs.getLast? = some a ∧ a.linear ∈ code.gotos := by
  cases h with
  | branch _ a ha hgotos => exact ⟨a, ha, by rw [hgotos]; exact List.mem_singleton_self _⟩
  | jmp hjmp => rw [hjmp] at hop; cases hop
  | call hcall => rw [hcall] at hop; cases hop
  | other hcond => rw [hcond] at hop; cases hop

theorem callsTo_of_length {t : Addr16} (hop : i.op = .call) (ht : i.labels = [t]) {n : ℕ}
    (hn : i.length = some n) : t.linear ∈ i.callsTo dynTargets := by
  have hnext : i.nextAddrs = [i.addr.add n, t] := by
    rw [Instruction.nextAddrs, hop, hn, ht]
    rfl
  have hcall : i.isCall = true := by rw [Instruction.isCall, hop, hnext]; rfl
  rw [Instruction.callsTo, hcall, hnext, List.map_append]
  exact List.mem_append_left _ (List.mem_singleton_self _)

theorem Emits.mem_calls (h : Emits i dynTargets code) {t : ℕ} (ht : t ∈ code.calls) :
    t ∈ i.callsTo dynTargets ∨
      i.op = .call ∧ i.length = none ∧ ∃ a ∈ i.labels, t = a.linear := by
  cases h with
  | branch _ _ _ _ hcalls =>
    rw [hcalls] at ht
    cases ht
  | jmp hop arg hargs h =>
    obtain ⟨a, -, rfl⟩ | ⟨-, e, rfl⟩ := genTransfer_ok (by rw [hop]; rfl) hargs h
    · cases ht
    · cases ht
  | call hop arg hargs h =>
    obtain ⟨a, ha, rfl⟩ | ⟨-, e, rfl⟩ := genTransfer_ok (by rw [hop]; rfl) hargs h
    · cases List.mem_singleton.mp ht
      by_cases hn : i.length = none
      · exact .inr ⟨hop, hn, a, by rw [ha]; exact List.mem_singleton_self a, rfl⟩
      · obtain ⟨n, hn⟩ := Option.ne_none_iff_exists'.mp hn
        exact .inl (callsTo_of_length hop ha hn)
    · left
      rw [Instruction.callsTo, if_pos hop, List.map_append, List.mem_append]
      right
      rw [← switchCases_targets]
      exact ht
  | other _ _ _ hcalls =>
    rw [hcalls] at ht
    cases ht

theorem Emits.call_label (h : Emits i dynTargets code) (hop : i.op = .call) {a : Addr16}
    (ha : a ∈ i.labels) : a.linear ∈ code.calls := by
  cases h with
  | branch hcond => rw [hop] at hcond; cases hcond
  | jmp hjmp => rw [hop] at hjmp; cases hjmp
  | call _ arg hargs h =>
    obtain ⟨t, ht, rfl⟩ | ⟨hl, -⟩ := genTransfer_ok (by rw [hop]; rfl) hargs h
    · rw [ht, List.mem_singleton] at ha
      rw [ha]
      exact List.mem_singleton_self _
    · rw [hl] at ha
      cases ha
  | other _ hcall => exact absurd hop hcall

end instruction

namespace DOSBinary

variable (p : DOSBinary)

def Translation (i : Instruction) (l : Line) : Prop :=
  l.addr = i.addr.linear ∧
    ∃ clockEnable, i.codegen (p.dynTargets i) clockEnable = .ok (l.code, l.cycles)

structure Emitted (e : ℕ) (f : CFunction) : Prop where
  entry : f.entry = e
  sorted : (f.body.map Line.addr).SortedLT
  reached : ∀ a, a ∈ f.body.map Line.addr ↔ Reaches p.succs e a
  translates : ∀ l ∈ f.body, ∃ i, p.Contains e i ∧ p.Translation i l
  translated : ∀ i, p.Contains e i → ∃ l ∈ f.body, p.Translation i l
  labels : ∀ t, t ∈ f.labels ↔ Reaches p.succs e t ∧ p.Labelled e t

variable {p}

theorem genLine_ok {sub : Subroutine} {i : Instruction} {l : Line} (h : p.genLine sub i = .ok l) :
    p.Translation i l ∧ l.label = decide (i.addr.linear ∈ sub.labels) := by
  obtain ⟨⟨code, cycles⟩, hcode, h⟩ := bind_eq_ok h
  cases h
  exact ⟨⟨rfl, sub.clockEnable, hcode⟩, rfl⟩

theorem codegenSub_spec {e : ℕ} {sub : Subroutine} {f : CFunction} (hsub : p.Analyzed e sub)
    (h : p.codegenSub sub = .ok f) : p.Emitted e f := by
  obtain ⟨body, hbody, h⟩ := bind_eq_ok h
  cases h
  have haddr : body.map Line.addr = sub.instructions.map fun i => i.addr.linear :=
    map_eq_of_mapM (fun _ _ hl => (genLine_ok hl).1.1) hbody
  have hreached (a : ℕ) : a ∈ body.map Line.addr ↔ Reaches p.succs e a := by
    rw [haddr, List.mem_map]
    constructor
    · rintro ⟨i, hi, rfl⟩
      exact ((hsub.instructions i).mp hi).reaches
    · exact hsub.reached a
  constructor
  · exact hsub.entryPoint
  · rw [haddr]
    exact hsub.sorted
  · exact hreached
  · intro l hl
    obtain ⟨i, hi, hil⟩ := of_mem_mapM hbody hl
    exact ⟨i, (hsub.instructions i).mp hi, (genLine_ok hil).1⟩
  · intro i hi
    obtain ⟨l, hl, hil⟩ := mem_mapM hbody ((hsub.instructions i).mpr hi)
    exact ⟨l, hl, (genLine_ok hil).1⟩
  · intro t
    rw [← hreached, ← hsub.labels, CFunction.labels, List.mem_map, List.mem_map]
    constructor
    · rintro ⟨l, hl, rfl⟩
      obtain ⟨hl, hlabel⟩ := List.mem_filter.mp hl
      obtain ⟨i, -, hil⟩ := of_mem_mapM hbody hl
      obtain ⟨⟨haddr, -⟩, hi⟩ := genLine_ok hil
      rw [hi, ← haddr] at hlabel
      exact ⟨⟨l, hl, rfl⟩, of_decide_eq_true hlabel⟩
    · rintro ⟨⟨l, hl, rfl⟩, hlabel⟩
      obtain ⟨i, -, hil⟩ := of_mem_mapM hbody hl
      obtain ⟨⟨haddr, -⟩, hi⟩ := genLine_ok hil
      refine ⟨l, List.mem_filter.mpr ⟨hl, ?_⟩, rfl⟩
      rw [hi, ← haddr]
      exact decide_eq_true hlabel

theorem codegen_spec {fuel : ℕ} {subs : List Subroutine} {out : List CFunction}
    (h : p.analyze fuel = .ok subs) (hout : p.codegen subs = .ok out) :
    (∀ f ∈ out, ∃ e, p.Generated e ∧ p.Emitted e f) ∧
      ∀ e, p.Generated e → ∃ f ∈ out, p.Emitted e f := by
  obtain ⟨hsubs, hgen⟩ := analyze_spec h
  constructor
  · intro f hf
    obtain ⟨sub, hsub, hf⟩ := of_mem_mapM hout hf
    obtain ⟨e, he, hsub⟩ := hsubs sub hsub
    exact ⟨e, he, codegenSub_spec hsub hf⟩
  · intro e he
    obtain ⟨sub, hsub, hsub'⟩ := hgen e he
    obtain ⟨f, hf, hsubf⟩ := mem_mapM hout hsub
    exact ⟨f, hf, codegenSub_spec hsub' hsubf⟩

theorem Contains.step {e a : ℕ} {i : Instruction} (hi : p.Contains e i)
    (ha : a ∈ i.pushes (p.dynTargets i)) : Reaches p.succs e a := by
  apply hi.reaches.tail
  rw [succs_eq hi.fetched]
  exact ha

theorem Translation.emits {i : Instruction} {l : Line} (h : p.Translation i l) :
    Emits i (p.dynTargets i) l.code := by
  obtain ⟨-, clockEnable, h⟩ := h
  exact codegen_emits h

variable (p)

def BranchesLabelled (e : ℕ) : Prop :=
  ∀ i, p.Contains e i → i.op.conditional = true → i.labels = [] →
    ∀ t, i.nextAddrs.getLast? = some t → p.Labelled e t.linear

def CallsGenerated (e : ℕ) : Prop :=
  ∀ i, p.Contains e i → i.op = .call → i.length = none → ∀ t ∈ i.labels, p.Generated t.linear

def NoOverlap (e : ℕ) : Prop :=
  ∀ i n, p.Contains e i → i.op.branches = false → i.length = some n →
    ∀ a, Reaches p.succs e a → i.addr.linear < a → i.addr.linear + n ≤ a

variable {p} {e : ℕ} {f : CFunction}

theorem Emitted.gotos_iff (hf : p.Emitted e f) :
    (∀ t ∈ f.gotos, t ∈ f.labels) ↔ p.BranchesLabelled e := by
  constructor
  · intro h i hi hop _ t ht
    obtain ⟨l, hl, hil⟩ := hf.translated i hi
    obtain ⟨a, ha, hgoto⟩ := hil.emits.goto_getLast hop
    rw [ht] at ha
    cases ha
    have hmem : t.linear ∈ f.gotos :=
      List.mem_cons_of_mem _ (List.mem_flatMap.mpr ⟨l, hl, hgoto⟩)
    exact ((hf.labels _).mp (h _ hmem)).2
  · intro h t ht
    rw [hf.labels]
    obtain rfl | ht := List.mem_cons.mp ht
    · rw [hf.entry]
      exact ⟨.refl, .inl rfl⟩
    obtain ⟨l, hl, ht⟩ := List.mem_flatMap.mp ht
    obtain ⟨i, hi, hil⟩ := hf.translates l hl
    obtain ⟨hop, a, ha, rfl⟩ | ⟨hop, ht⟩ := hil.emits.mem_gotos ht
    · have hcall : i.op ≠ .call := by
        intro hcall
        rw [hcall] at hop
        cases hop
      refine ⟨hi.step (mem_pushes hcall (List.mem_of_getLast? ha)), ?_⟩
      by_cases hlabels : i.labels = []
      · exact h i hi hop hlabels a ha
      · refine .inr ⟨i, hi, ?_⟩
        exact List.mem_map_of_mem (List.mem_append_left _ (mem_labels_of_getLast hlabels ha))
    · refine ⟨hi.step ?_, .inr ⟨i, hi, ht⟩⟩
      rw [← labelsTo_of_jmp hop]
      exact ht

theorem Emitted.calls_iff (hf : p.Emitted e f) (he : p.Generated e) :
    (∀ t ∈ f.calls, p.Generated t) ↔ p.CallsGenerated e := by
  constructor
  · intro h i hi hop _ t ht
    obtain ⟨l, hl, hil⟩ := hf.translated i hi
    exact h _ (List.mem_flatMap.mpr ⟨l, hl, hil.emits.call_label hop ht⟩)
  · intro h t ht
    obtain ⟨l, hl, ht⟩ := List.mem_flatMap.mp ht
    obtain ⟨i, hi, hil⟩ := hf.translates l hl
    obtain ht | ⟨hop, hlength, a, ha, rfl⟩ := hil.emits.mem_calls ht
    · exact he.tail ⟨i, hi, ht⟩
    · exact h i hi hop hlength a ha

variable (p) in
def FallsThrough (f : CFunction) : Prop :=
  ∀ (j : ℕ) (l : Line) (i : Instruction) (n : ℕ), f.body[j]? = some l →
    p.image.iFetch l.addr = .ok i → i.op.branches = false → i.length = some n →
      ∃ l' i', f.body[j + 1]? = some l' ∧ p.image.iFetch (l.addr + n) = .ok i' ∧
        p.Translation i' l'

theorem Contains.reaches_next {i : Instruction} (hi : p.Contains e i)
    (hop : i.op.branches = false) {n : ℕ} (hn : i.length = some n) :
    Reaches p.succs e (i.addr.linear + n) := by
  obtain ⟨hends, hlabel⟩ := Bool.or_eq_false_iff.mp hop
  have hcall : i.op ≠ .call := by
    intro hcall
    rw [hcall] at hlabel
    cases hlabel
  rw [← Addr16.linear_add]
  apply hi.step
  apply mem_pushes hcall
  rw [Instruction.nextAddrs, hends, hn]
  exact List.mem_cons_self ..

theorem Emitted.next_iff (hf : p.Emitted e f) {i : Instruction} (hi : p.Contains e i)
    (hop : i.op.branches = false) {n : ℕ} (hn : i.length = some n) {j : ℕ} {l : Line}
    (hj : f.body[j]? = some l) (hl : l.addr = i.addr.linear) :
    (f.body.map Line.addr)[j + 1]? = some (i.addr.linear + n) ↔
      ∀ a, Reaches p.succs e a → i.addr.linear < a → i.addr.linear + n ≤ a := by
  have hx : (f.body.map Line.addr)[j]? = some i.addr.linear := by
    rw [List.getElem?_map, hj, Option.map_some, hl]
  rw [Lists.next_iff hf.sorted hx ((hf.reached _).mpr (hi.reaches_next hop hn))
    (Nat.lt_add_of_pos_right (Instruction.length_pos hn))]
  simp only [hf.reached]

theorem Emitted.fallsThrough_iff (hf : p.Emitted e f) : p.FallsThrough f ↔ p.NoOverlap e := by
  constructor
  · intro h i n hi hop hn
    obtain ⟨l, hl, hil⟩ := hf.translated i hi
    obtain ⟨j, hj⟩ := List.mem_iff_getElem?.mp hl
    have hfetch : p.image.iFetch l.addr = .ok i := by
      rw [hil.1]
      exact hi.fetched
    obtain ⟨l', i', hj', hfetch', hil'⟩ := h j l i n hj hfetch hop hn
    apply (hf.next_iff hi hop hn hj hil.1).mp
    rw [List.getElem?_map, hj', Option.map_some, hil'.1, BinaryImage.iFetch_addr hfetch', hil.1]
  · intro h j l i n hj hfetch hop hn
    obtain ⟨i₀, hi, hil⟩ := hf.translates l (List.mem_of_getElem? hj)
    have hi₀ := hi.fetched
    rw [← hil.1, hfetch] at hi₀
    cases hi₀
    have hnext := (hf.next_iff hi hop hn hj hil.1).mpr (h i n hi hop hn)
    rw [List.getElem?_map] at hnext
    obtain ⟨l', hj', hl'⟩ := Option.map_eq_some_iff.mp hnext
    obtain ⟨i', hi', hil'⟩ := hf.translates l' (List.mem_of_getElem? hj')
    refine ⟨l', i', hj', ?_, hil'⟩
    rw [hil.1, ← hl', hil'.1]
    exact hi'.fetched

variable (p)

structure PreservesControlFlow (out : List CFunction) : Prop where
  gotos : ∀ f ∈ out, ∀ t ∈ f.gotos, t ∈ f.labels
  calls : ∀ f ∈ out, ∀ t ∈ f.calls, ∃ g ∈ out, g.entry = t
  fallsThrough : ∀ f ∈ out, p.FallsThrough f

structure WellLaidOut : Prop where
  branchesLabelled : ∀ e, p.Generated e → p.BranchesLabelled e
  callsGenerated : ∀ e, p.Generated e → p.CallsGenerated e
  noOverlap : ∀ e, p.Generated e → p.NoOverlap e

variable {p}

theorem preservesControlFlow_iff {fuel : ℕ} {subs : List Subroutine} {out : List CFunction}
    (h : p.analyze fuel = .ok subs) (hout : p.codegen subs = .ok out) :
    p.PreservesControlFlow out ↔ p.WellLaidOut := by
  obtain ⟨hemit, hgen⟩ := codegen_spec h hout
  have entry_iff (t : ℕ) : (∃ g ∈ out, g.entry = t) ↔ p.Generated t := by
    constructor
    · rintro ⟨g, hg, rfl⟩
      obtain ⟨e, he, hge⟩ := hemit g hg
      rw [hge.entry]
      exact he
    · intro ht
      obtain ⟨g, hg, hge⟩ := hgen t ht
      exact ⟨g, hg, hge.entry⟩
  constructor
  · intro hp
    constructor
    · intro e he
      obtain ⟨f, hf, hef⟩ := hgen e he
      exact hef.gotos_iff.mp (hp.gotos f hf)
    · intro e he
      obtain ⟨f, hf, hef⟩ := hgen e he
      exact (hef.calls_iff he).mp fun t ht => (entry_iff t).mp (hp.calls f hf t ht)
    · intro e he
      obtain ⟨f, hf, hef⟩ := hgen e he
      exact hef.fallsThrough_iff.mp (hp.fallsThrough f hf)
  · intro hw
    constructor
    · intro f hf
      obtain ⟨e, he, hef⟩ := hemit f hf
      exact hef.gotos_iff.mpr (hw.branchesLabelled e he)
    · intro f hf t ht
      obtain ⟨e, he, hef⟩ := hemit f hf
      exact (entry_iff t).mpr ((hef.calls_iff he).mpr (hw.callsGenerated e he) t ht)
    · intro f hf
      obtain ⟨e, he, hef⟩ := hemit f hf
      exact hef.fallsThrough_iff.mpr (hw.noOverlap e he)

end DOSBinary

def BinaryImage.ofListing (listing : List Instruction) : BinaryImage where
  patches := []
  disasm a := listing.find? fun i => i.addr.linear == a
  disasm_addr h := by
    have hp := List.find?_some h
    exact beq_iff_eq.mp hp

def codeAt (offset : ℕ) : Addr16 := .ofParts 0x70 offset

def branching : DOSBinary where
  image := .ofListing
    [⟨.call, codeAt 0, codeAt 0, [.lit (.const 5)], 3⟩,
     ⟨.jmp, codeAt 3, codeAt 0, [.reg (.w .bx)], 2⟩,
     ⟨.nop, codeAt 5, codeAt 0, [], 1⟩,
     ⟨.ret, codeAt 6, codeAt 0, [], 1⟩]
  entryPoint := 0x700
  dynBranches a := if a = 0x703 then [codeAt 0, codeAt 6] else []
  hooks _ := none

/-- `74 01 B8 90 90 C3`: the `jz` enters the middle of the `mov`. -/
def overlapping : DOSBinary where
  image := .ofListing
    [⟨.jz, codeAt 0, codeAt 0, [.lit (.const 3)], 2⟩,
     ⟨.mov, codeAt 2, codeAt 0, [.reg (.w .ax), .lit ⟨0x9090, codeAt 3, some 2, false⟩], 3⟩,
     ⟨.nop, codeAt 3, codeAt 0, [], 1⟩,
     ⟨.nop, codeAt 4, codeAt 0, [], 1⟩,
     ⟨.ret, codeAt 5, codeAt 0, [], 1⟩]
  entryPoint := 0x700
  dynBranches _ := []
  hooks _ := none

namespace DOSBinary

theorem preservesControlFlow_iff_branching : ∃ subs out, branching.analyze 8 = .ok subs ∧
    branching.codegen subs = .ok out ∧ branching.PreservesControlFlow out ∧
    branching.WellLaidOut := by
  refine ⟨_, _, rfl, rfl, ?_⟩
  rw [← @preservesControlFlow_iff branching 8 _ _ rfl rfl, and_self]
  constructor
  · decide
  · decide
  · intro f hf j l i n hj hfetch hop hn
    obtain _ | ⟨_, _ | ⟨_, ⟨⟩⟩⟩ := hf
    · match j, hj with
      | 0, hj =>
        cases hj
        cases hfetch
        cases hn
        exact ⟨_, _, rfl, rfl, rfl, false, rfl⟩
      | 1, hj =>
        cases hj
        cases hfetch
        cases hop
    · match j, hj with
      | 0, hj | 1, hj | 2, hj =>
        cases hj
        cases hfetch
        cases hop

theorem overlapping_diverges : ∃ subs out, overlapping.analyze 8 = .ok subs ∧
    overlapping.codegen subs = .ok out ∧ ¬ overlapping.PreservesControlFlow out := by
  refine ⟨_, _, rfl, rfl, fun h => ?_⟩
  obtain ⟨l, i, hl, hi, haddr, -⟩ :=
    h.fallsThrough _ (List.mem_singleton_self _) 1 _ _ 3 rfl rfl rfl rfl
  cases hl
  cases hi
  exact absurd haddr (by decide)

end DOSBinary

end NaviMisc.Sbt86
