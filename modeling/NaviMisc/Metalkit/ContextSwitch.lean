import NaviMisc.Metalkit.SaveContext

/-!
A trampoline gives its handler the context of what was interrupted, and resumes the context that
the handler leaves.
-/

namespace NaviMisc.Metalkit

open NaviMisc.Lib.WordMemory Reg Instr

variable {c s : Cpu} {g : Gate} {x arg handler : Word} {ctx : IntrContext}

def contextOf (s : Cpu) : IntrContext where
  edi := s.reg edi
  esi := s.reg esi
  ebp := s.reg ebp
  esp := s.reg esp - 12
  ebx := s.reg ebx
  edx := s.reg edx
  ecx := s.reg ecx
  eax := s.reg eax
  eip := s.eip
  cs := s.cs.setWidth 32
  eflags := s.eflags

theorem holds_read (m : Bytes) (a : Word) : Holds m a (IntrContext.read m a).words := by
  simp only [IntrContext.words, IntrContext.registers, List.cons_append, List.nil_append,
    holds_cons, holds_nil, IntrContext.read, BitVec.add_assoc, and_true]
  simp

theorem words_injective {ctx' : IntrContext} (h : ctx.words = ctx'.words) : ctx = ctx' := by
  cases ctx
  cases ctx'
  simpa [IntrContext.words, IntrContext.registers] using h

theorem read_of_holds {m : Bytes} {a : Word} (h : Holds m a ctx.words) :
    IntrContext.read m a = ctx := words_injective ((holds_read m a).unique h rfl)

theorem interrupt_holds : Holds (interrupt g s).mem (s.reg esp - 12)
    [s.eip, s.cs.setWidth 32, s.eflags] := by
  have h := @Cpu.holds_pushes s [] [s.eflags, s.cs.setWidth 32, s.eip] trivial (by simp)
  rw [Cpu.esp_pushes] at h
  exact h

theorem interrupt_esp : (interrupt g s).reg esp = s.reg esp - 12 :=
  @Cpu.esp_pushes s [s.eflags, s.cs.setWidth 32, s.eip]

theorem interrupt_reg {y : Reg} (hy : y ≠ esp) : (interrupt g s).reg y = s.reg y :=
  @Cpu.reg_pushes s [s.eflags, s.cs.setWidth 32, s.eip] _ hy

theorem interrupted_holds :
    Holds (next (interrupt g s) pusha).mem (s.reg esp - 44) (contextOf s).words := by
  have hinterrupt : Holds (interrupt g s).mem ((interrupt g s).reg esp)
      [s.eip, s.cs.setWidth 32, s.eflags] := by
    rw [interrupt_esp]
    exact interrupt_holds
  have h := pusha_holds (c := { interrupt g s with eip := g.offset + 1 }) hinterrupt (by simp)
  have hesp : s.reg esp - 44 = (interrupt g s).reg esp - 32 := by
    rw [interrupt_esp]
    bv_omega
  have hframe : frame (interrupt g s).reg ((interrupt g s).reg esp) ++
      [s.eip, s.cs.setWidth 32, s.eflags] = (contextOf s).words := by
    simp [frame, interrupt_esp, interrupt_reg, IntrContext.words, IntrContext.registers, contextOf]
  rw [hesp, ← hframe]
  exact h

theorem interrupted_esp : (next (interrupt g s) pusha).reg esp = s.reg esp - 44 := by
  have h : ∀ d : Cpu, (next d pusha).reg esp = d.reg esp - 32 := fun d =>
    pusha_esp (c := { d with eip := d.eip + 1 })
  rw [h, interrupt_esp]
  bv_omega

theorem entry_holds : Holds (execs (interrupt g s) (trampolineEntry arg handler)).mem
    (s.reg esp - 52) ([g.offset + 13, arg] ++ (contextOf s).words) := by
  have hcode : trampolineEntry arg handler =
      [pusha] ++ [push arg, movImm handler eax, call eax] := rfl
  have hcall : ∀ d : Cpu, (execs d [push arg, movImm handler eax, call eax]).mem =
      store (store d.mem (d.reg esp - 4) arg) (d.reg esp - 4 - 4) (d.eip + 5 + 5 + 2) :=
    fun _ => rfl
  have hesp : s.reg esp - 44 - 4 - 4 = s.reg esp - 52 := by bv_omega
  have heip : (next (interrupt g s) pusha).eip + 5 + 5 + 2 = g.offset + 13 := by
    have h : (next (interrupt g s) pusha).eip = g.offset + 1 := rfl
    rw [h]
    bv_omega
  rw [hcode, execs_append, execs_singleton, hcall, interrupted_esp, heip, ← hesp]
  exact (interrupted_holds.push (by simp [IntrContext.words, IntrContext.registers]) arg).push
    (by simp [IntrContext.words, IntrContext.registers]) (g.offset + 13)

theorem entry_esp : (execs (interrupt g s) (trampolineEntry arg handler)).reg esp =
    s.reg esp - 52 := by
  have hcode : trampolineEntry arg handler =
      [pusha] ++ [push arg, movImm handler eax, call eax] := rfl
  have hcall : ∀ d : Cpu, (execs d [push arg, movImm handler eax, call eax]).reg esp =
      d.reg esp - 4 - 4 := fun _ => rfl
  rw [hcode, execs_append, execs_singleton, hcall, interrupted_esp]
  bv_omega

theorem entry_eip : (execs (interrupt g s) (trampolineEntry arg handler)).eip = handler := by
  have hcode : trampolineEntry arg handler =
      [pusha] ++ [push arg, movImm handler eax, call eax] := rfl
  have hcall : ∀ d : Cpu, (execs d [push arg, movImm handler eax, call eax]).eip = handler :=
    fun _ => rfl
  rw [hcode, execs_append, hcall]

section Exit

def exitLoad : List Instr := [pop eax, movLoad 12 esp edi, lea 40 esp esi, addImm 8 edi, std]

theorem exitLoad_esp : (execs c exitLoad).reg esp = c.reg esp + 4 := rfl

theorem exitLoad_edi : (execs c exitLoad).reg edi = load c.mem (c.reg esp + 4 + 12) + 8 := rfl

theorem exitLoad_esi : (execs c exitLoad).reg esi = c.reg esp + 4 + 40 := rfl

theorem exitLoad_mem : (execs c exitLoad).mem = c.mem := rfl

theorem exitLoad_directionFlag : (execs c exitLoad).directionFlag = true := by
  have h : ∀ w : Word, (w ||| 1 <<< 10).getLsbD 10 = true := fun w => by simp
  exact h _

theorem exitCopy_mem (h : c.directionFlag = true) : (execs c [movsl, movsl, movsl]).mem =
    copyDown c.mem (c.reg esi) (c.reg edi) 3 := by
  have hnext : ∀ d : Cpu, (next d movsl).mem = store d.mem (d.reg edi) (load d.mem (d.reg esi)) :=
    fun _ => rfl
  have hesi : ∀ d : Cpu, d.directionFlag = true → (next d movsl).reg esi = d.reg esi - 4 := by
    intro d hd
    have hmovs : (next d movsl).reg esi = d.reg esi + d.stride := rfl
    rw [hmovs, Cpu.stride, hd]
    exact (BitVec.sub_eq_add_neg (d.reg esi) 4).symm
  have hedi : ∀ d : Cpu, d.directionFlag = true → (next d movsl).reg edi = d.reg edi - 4 := by
    intro d hd
    have hmovs : (next d movsl).reg edi = d.reg edi + d.stride := rfl
    rw [hmovs, Cpu.stride, hd]
    exact (BitVec.sub_eq_add_neg (d.reg edi) 4).symm
  have hflag : ∀ d : Cpu, d.directionFlag = true → (next d movsl).directionFlag = true :=
    fun _ hd => hd
  have h₁ := hflag c h
  rw [show execs c [movsl, movsl, movsl] = next (next (next c movsl) movsl) movsl from rfl,
    hnext, hnext, hnext, hesi _ h₁, hedi _ h₁, hesi _ h, hedi _ h]
  rfl

theorem exitCopy_esp : (execs c [movsl, movsl, movsl]).reg esp = c.reg esp := rfl

theorem exitSwitch (d : Cpu) : execs d [movLoad (-20) esp esp, iret] =
    let sp := load d.mem (d.reg esp + -20)
    { d.set esp (sp + 12) with
      eip := load d.mem sp
      cs := (load d.mem (sp + 4)).setWidth 16
      eflags := load d.mem (sp + 8) } := by
  have hset : ∀ w v : Word, (fun y => if y = esp then v else if y = esp then w else d.reg y) =
      fun y => if y = esp then v else d.reg y := by
    intro w v
    funext y
    split_ifs <;> rfl
  simp [execs, next, Instr.exec, Cpu.set, hset]

def IntrContext.reg (ctx : IntrContext) : Reg → Word
  | Reg.eax => ctx.eax
  | Reg.ecx => ctx.ecx
  | Reg.edx => ctx.edx
  | Reg.ebx => ctx.ebx
  | Reg.esp => ctx.esp
  | Reg.ebp => ctx.ebp
  | Reg.esi => ctx.esi
  | Reg.edi => ctx.edi

structure Resumed (ctx : IntrContext) (c c' : Cpu) : Prop where
  eip : c'.eip = ctx.eip
  cs : c'.cs = ctx.cs.setWidth 16
  eflags : c'.eflags = ctx.eflags
  stack : c'.reg esp = ctx.esp + 12
  registers : ∀ y, y ≠ esp → c'.reg y = ctx.reg y
  memory : ∀ x, ¬Inside ctx.esp 12 x → c'.mem x = c.mem x

theorem exitCopied (h : Holds c.mem (c.reg esp + 4) ctx.words)
    (hframe : (ctx.esp - (c.reg esp + 36)).toNat + 44 ≤ 2 ^ 32) :
    Holds (execs (execs c exitLoad) [movsl, movsl, movsl]).mem (c.reg esp + 4) ctx.registers ∧
      Holds (execs (execs c exitLoad) [movsl, movsl, movsl]).mem ctx.esp
        [ctx.eip, ctx.cs, ctx.eflags] ∧
      ∀ x, ¬Inside ctx.esp 12 x →
        (execs (execs c exitLoad) [movsl, movsl, movsl]).mem x = c.mem x := by
  have hsp : load c.mem (c.reg esp + 4 + 12) = ctx.esp := h.get (i := 3) rfl
  rw [exitCopy_mem exitLoad_directionFlag, exitLoad_mem, exitLoad_esi, exitLoad_edi, hsp]
  rw [IntrContext.words, holds_append] at h
  have hsrc : c.reg esp + 4 + 40 = c.reg esp + 36 + BitVec.ofNat 32 (4 * 3) - 4 := by bv_omega
  have hdst : ctx.esp + 8 = ctx.esp + BitVec.ofNat 32 (4 * 3) - 4 := by bv_omega
  rw [hsrc, hdst]
  have houtside : ∀ x, ¬Inside ctx.esp 12 x → copyDown c.mem
      (c.reg esp + 36 + BitVec.ofNat 32 (4 * 3) - 4)
      (ctx.esp + BitVec.ofNat 32 (4 * 3) - 4) 3 x = c.mem x :=
    fun x hx => copyDown_outside hx (by simp) c.mem _
  have hsaved : Holds c.mem (c.reg esp + 36) [ctx.eip, ctx.cs, ctx.eflags] := by
    have h36 : c.reg esp + 36 = c.reg esp + 4 + 32 := by rw [BitVec.add_assoc]; rfl
    rw [h36]
    exact h.2
  refine ⟨?_, hsaved.copyDown (by simp only [List.length_cons, List.length_nil]; omega), houtside⟩
  apply h.1.congr (by simp [IntrContext.registers])
  intro x hx
  apply houtside
  simp only [IntrContext.registers, List.length_cons, List.length_nil] at hx
  unfold Inside at *
  bv_omega

theorem exit_resumed (h : Holds c.mem (c.reg esp + 4) ctx.words)
    (hframe : (ctx.esp - (c.reg esp + 36)).toNat + 44 ≤ 2 ^ 32) :
    Resumed ctx c (execs c trampolineExit) := by
  have hcode : trampolineExit =
      exitLoad ++ ([movsl, movsl, movsl] ++ ([popa] ++ [movLoad (-20) esp esp, iret])) := rfl
  rw [hcode, execs_append, execs_append, execs_append, execs_singleton popa, exitSwitch]
  obtain ⟨hregisters, hsaved, houtside⟩ := exitCopied h hframe
  have hesp : (execs (execs c exitLoad) [movsl, movsl, movsl]).reg esp = c.reg esp + 4 := by
    rw [exitCopy_esp, exitLoad_esp]
  generalize execs (execs c exitLoad) [movsl, movsl, movsl] = d at *
  rw [← hesp] at hregisters
  have hpopa : ∀ y, y ≠ esp → (next d popa).reg y = ctx.reg y := fun y hy =>
    Cpu.popa_reg (c := { d with eip := d.eip + 1 }) (w := ctx.reg) hregisters hy
  have hpopped : (next d popa).reg esp + -20 = d.reg esp + 12 := by
    have hstack : (next d popa).reg esp = d.reg esp + 32 := Cpu.popa_esp
    rw [hstack, BitVec.add_assoc]
    rfl
  have hmem : (next d popa).mem = d.mem := rfl
  have hsp : load d.mem (d.reg esp + 12) = ctx.esp := hregisters.get (i := 3) rfl
  rw [hmem, hpopped, hsp]
  exact {
    eip := hsaved.1
    cs := congrArg (BitVec.setWidth 16) hsaved.2.1
    eflags := by
      rw [← hsaved.2.2.1, BitVec.add_assoc]
      rfl
    stack := by simp
    registers := fun y hy => (if_neg hy).trans (hpopa y hy)
    memory := houtside }

end Exit

end NaviMisc.Metalkit

/-!
Threads are switched by saving and restoring contexts, and by interrupts that return to another
context than they came from.
-/

namespace NaviMisc.Metalkit

open NaviMisc.Lib.WordMemory Reg Instr

def TrampolineAt (prog : Program) (addr i handler : Word) : Prop :=
  ∃ IntrDefaultHandler is,
    disassemble 15 (Intr_SetHandler (Intr_Init.tramp IntrDefaultHandler i) handler).bytes = some is ∧
      Loaded prog addr is

/-- Going up from the frame of the second interrupt, which has 44 bytes, to the one of the first,
the stack does not come round to its own bottom. -/
def FrameAtOrAbove (s₁ s₂ : Cpu) : Prop := (s₁.reg esp - s₂.reg esp).toNat + 44 ≤ 2 ^ 32

variable {prog : Program} {s s₁ s₂ c : Cpu} {addr i handler : Word}

theorem TrampolineAt.loaded (h : TrampolineAt prog addr i handler) :
    Loaded prog addr (trampolineEntry i handler) ∧ Loaded prog (addr + 13) trampolineExit := by
  obtain ⟨d, is, his, hloaded⟩ := h
  rw [disassemble_tramp] at his
  cases his
  exact loaded_append.mp hloaded

theorem TrampolineAt.run_entry (h : TrampolineAt prog addr i handler) (s : Cpu) :
    run prog 4 (interrupt (Intr_Init.idt addr) s) =
      some (execs (interrupt (Intr_Init.idt addr) s) (trampolineEntry i handler)) := by
  refine @run_loaded _ _ (trampolineEntry i handler) ?_ rfl
  have heip : (interrupt (Intr_Init.idt addr) s).eip = addr := offset_idt addr
  rw [heip]
  exact h.loaded.1

theorem TrampolineAt.run_exit (h : TrampolineAt prog addr i handler) (heip : c.eip = addr + 13) :
    run prog 11 c = some (execs c trampolineExit) := by
  refine @run_loaded _ _ trampolineExit ?_ rfl
  rw [heip]
  exact h.loaded.2

theorem exit_resumes {h₂ : Word} (ht : TrampolineAt prog addr i h₂) (hframe : FrameAtOrAbove s₁ s₂)
    {s₃ : Cpu} (heip : s₃.eip = addr + 13) (hesp : s₃.reg esp = s₂.reg esp - 48)
    (hread : IntrContext.read s₃.mem (s₂.reg esp - 44) = contextOf s₁) :
    ∃ s₄, run prog 11 s₃ = some s₄ ∧ s₄.eip = s₁.eip ∧ s₄.cs = s₁.cs ∧ s₄.eflags = s₁.eflags ∧
      (∀ y, s₄.reg y = s₁.reg y) ∧
        ∀ x, ¬Inside (s₁.reg esp - 12) 12 x → s₄.mem x = s₃.mem x := by
  have hstack : s₃.reg esp + 4 = s₂.reg esp - 44 := by
    rw [hesp]
    bv_omega
  have hwords : Holds s₃.mem (s₃.reg esp + 4) (contextOf s₁).words := by
    rw [hstack, ← hread]
    exact holds_read _ _
  have habove : ((contextOf s₁).esp - (s₃.reg esp + 36)).toNat + 44 ≤ 2 ^ 32 := by
    have hsp : (contextOf s₁).esp = s₁.reg esp - 12 := rfl
    rw [hsp, hesp]
    unfold FrameAtOrAbove at hframe
    bv_omega
  have hresumed := exit_resumed hwords habove
  refine ⟨_, ht.run_exit heip, hresumed.eip, ?_, hresumed.eflags, ?_, hresumed.memory⟩
  · rw [hresumed.cs]
    simp [contextOf]
  · intro y
    by_cases hy : y = esp
    · rw [hy, hresumed.stack]
      exact BitVec.sub_add_cancel (s₁.reg esp) 12
    · rw [hresumed.registers y hy]
      cases y <;> first | rfl | exact absurd rfl hy

theorem context_switch (prog : Program) {saveAddr restoreAddr : Word}
    (hsave : Loaded prog saveAddr Intr_SaveContext)
    (hrestore : Loaded prog restoreAddr Intr_RestoreContext) :
    (∀ (s : Cpu) (r ctx : Word), s.eip = saveAddr → s.directionFlag = false →
      load s.mem (s.reg esp) = r → load s.mem (s.reg esp + 4) = ctx →
      Apart (s.reg esp - 36) 44 ctx 44 →
      ∃ s₁, run prog 15 s = some s₁ ∧ s₁.eip = r ∧ s₁.reg eax = 0 ∧ s₁.reg esp = s.reg esp + 4 ∧
        ∀ s₂ : Cpu, s₂.eip = restoreAddr → s₂.directionFlag = false →
          load s₂.mem (s₂.reg esp + 4) = ctx → (∀ x, Inside ctx 44 x → s₂.mem x = s₁.mem x) →
          ∃ s₃, run prog 8 s₂ = some s₃ ∧ s₃.eip = r ∧ (∀ y, y ≠ esp → s₃.reg y = s.reg y) ∧
            s₃.reg esp = s.reg esp + 4 ∧
            ∀ x, ¬Inside (s.reg esp - 32) 32 x → s₂.mem x = s₁.mem x → s₃.mem x = s₁.mem x) ∧
    (∀ (s₁ s₂ : Cpu) (addr₁ addr₂ i₁ i₂ handler₁ handler₂ : Word),
      TrampolineAt prog addr₁ i₁ handler₁ → TrampolineAt prog addr₂ i₂ handler₂ →
      FrameAtOrAbove s₁ s₂ →
      ∃ e₁ e₂, run prog 4 (interrupt (Intr_Init.idt addr₁) s₁) = some e₁ ∧ e₁.eip = handler₁ ∧
        e₁.reg esp = s₁.reg esp - 52 ∧
        run prog 4 (interrupt (Intr_Init.idt addr₂) s₂) = some e₂ ∧ e₂.eip = handler₂ ∧
        e₂.reg esp = s₂.reg esp - 52 ∧
        ∀ s₃ : Cpu, s₃.eip = load e₂.mem (e₂.reg esp) → s₃.reg esp = e₂.reg esp + 4 →
          IntrContext.read s₃.mem (Intr_GetContext (e₂.reg esp)) =
            IntrContext.read e₁.mem (Intr_GetContext (e₁.reg esp)) →
          ∃ s₄, run prog 11 s₃ = some s₄ ∧ s₄.eip = s₁.eip ∧ s₄.cs = s₁.cs ∧
            s₄.eflags = s₁.eflags ∧ (∀ y, s₄.reg y = s₁.reg y) ∧
            ∀ x, ¬Inside (s₁.reg esp - 12) 12 x → s₄.mem x = s₃.mem x) := by
  constructor
  · intro s r ctx heip hflag hr hctx hapart
    have hsaved := save_saved hflag hr hctx hapart
    refine ⟨_, run_loaded (heip ▸ hsave) rfl, hsaved.returns, hsaved.result, hsaved.stack, ?_⟩
    intro s₂ heip₂ hflag₂ hctx₂ hsame
    have hrestored := restore_restored hsaved hr hapart hflag₂ hctx₂ hsame
    exact ⟨_, run_loaded (heip₂ ▸ hrestore) rfl, hrestored.returns, hrestored.registers,
      hrestored.stack, hrestored.memory⟩
  · intro s₁ s₂ addr₁ addr₂ i₁ i₂ handler₁ handler₂ ht₁ ht₂ hframe
    refine ⟨_, _, ht₁.run_entry s₁, entry_eip, entry_esp, ht₂.run_entry s₂, entry_eip, entry_esp, ?_⟩
    intro s₃ heip hesp hread
    have hcontext : ∀ sp : Word, Intr_GetContext (sp - 52) = sp - 44 := by
      intro sp
      unfold Intr_GetContext
      bv_omega
    have hframe₂ := @entry_holds s₂ (Intr_Init.idt addr₂) i₂ handler₂
    have hframe₁ := @entry_holds s₁ (Intr_Init.idt addr₁) i₁ handler₁
    rw [holds_append] at hframe₁
    have hbase : s₁.reg esp - 52 + 8 = s₁.reg esp - 44 := by bv_omega
    have hcaptured := read_of_holds hframe₁.2
    rw [entry_esp] at heip hesp
    rw [entry_esp, entry_esp, hcontext, hcontext, ← hbase] at hread
    apply exit_resumes ht₂ hframe
    · rw [heip, hframe₂.1, offset_idt]
    · rw [hesp]
      bv_omega
    · exact hread.trans hcaptured

def place (prog : Program) : Word → List Instr → Program
  | _, [] => prog
  | a, i :: is => fun x => if x = a then some i else place prog (a + BitVec.ofNat 32 i.size) is x

instance decidableLoaded (prog : Program) : ∀ (a : Word) (is : List Instr), Decidable (Loaded prog a is)
  | _, [] => instDecidableTrue
  | a, i :: is =>
    have := decidableLoaded prog (a + BitVec.ofNat 32 i.size) is
    inferInstanceAs (Decidable (prog a = some i ∧ _))

def kernel : Program :=
  place (place (place (fun _ => none) 0x1000 Intr_SaveContext) 0x2000 Intr_RestoreContext) 0x3000
    (trampolineEntry 32 0x4000 ++ trampolineExit)

def thread : Cpu where
  reg y := if y = esp then 0x9000 else if y = ebx then 7 else 0
  eip := 0x1000
  cs := 8
  eflags := 0x202
  mem := store (store (fun _ => 0) 0x9000 0x1234) 0x9004 0x5000

/-- The thread is resumed by a call on another stack, and out of an interrupt of another thread that
runs on an equal frame. -/
theorem context_switch_kernel :
    (∃ s₁ s₃, run kernel 15 thread = some s₁ ∧
      run kernel 8 { s₁ with
        eip := 0x2000
        eflags := 0
        reg := fun _ => 0x7000
        mem := store s₁.mem 0x7004 0x5000 } = some s₃ ∧ s₃.eip = 0x1234 ∧ s₃.reg ebx = 7 ∧
      s₃.reg esp = 0x9004) ∧
    ∃ e₁ e₂ s₄, run kernel 4 (interrupt (Intr_Init.idt 0x3000) thread) = some e₁ ∧
      run kernel 4 (interrupt (Intr_Init.idt 0x3000) { thread with eip := 0x5678 }) = some e₂ ∧
      run kernel 11 { e₁ with
        eip := load e₂.mem (e₂.reg esp)
        reg := fun _ => e₂.reg esp + 4 } = some s₄ ∧
      s₄.eip = 0x1000 ∧ s₄.eflags = 0x202 ∧ s₄.reg ebx = 7 ∧ s₄.reg esp = 0x9000 := by
  have hsave : Loaded kernel 0x1000 Intr_SaveContext := by decide
  have hrestore : Loaded kernel 0x2000 Intr_RestoreContext := by decide
  have ht : TrampolineAt kernel 0x3000 32 0x4000 :=
    ⟨0, _, disassemble_tramp 32 0x4000 0, by decide⟩
  constructor
  · obtain ⟨s₁, hrun, -, -, -, h⟩ := (context_switch kernel hsave hrestore).1 thread 0x1234 0x5000
      rfl (by decide) (by decide) (by decide) (by decide)
    obtain ⟨s₃, hrun₃, hr, hreg, hesp, -⟩ := h { s₁ with
      eip := 0x2000
      eflags := 0
      reg := fun _ => 0x7000
      mem := store s₁.mem 0x7004 0x5000 } rfl (by simp [Cpu.directionFlag])
      (load_store_same s₁.mem 0x7004 0x5000) (by
        intro x hx
        apply store_outside
        unfold Inside at *
        bv_omega)
    exact ⟨s₁, s₃, hrun, hrun₃, hr, hreg ebx (by decide), hesp⟩
  · obtain ⟨e₁, e₂, hrun₁, -, hesp₁, hrun₂, -, hesp₂, h⟩ :=
      (context_switch kernel hsave hrestore).2 thread { thread with eip := 0x5678 } 0x3000 0x3000
        32 32 0x4000 0x4000 ht ht (by unfold FrameAtOrAbove; decide)
    obtain ⟨s₄, hrun₄, heip, -, heflags, hreg, -⟩ := h { e₁ with
      eip := load e₂.mem (e₂.reg esp)
      reg := fun _ => e₂.reg esp + 4 } rfl rfl (by rw [hesp₁, hesp₂])
    exact ⟨e₁, e₂, s₄, hrun₁, hrun₂, hrun₄, heip, heflags, hreg ebx, hreg esp⟩

end NaviMisc.Metalkit
