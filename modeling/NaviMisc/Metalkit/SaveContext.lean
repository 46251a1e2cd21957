import NaviMisc.Metalkit.Intr

/-!
What is saved by Intr_SaveContext is put back by Intr_RestoreContext.
-/

namespace NaviMisc.Metalkit

open NaviMisc.Lib.WordMemory Reg Instr

variable {c : Cpu} {x p ctx r : Word} {vs ws : List Word} {n : ℕ}

def savePush : List Instr := [pusha, subMem 8 12 esp]

def saveCopy : List Instr := [mov esp esi, movLoad 36 esp edi, movImm 9 ecx, repMovsl]

def saveFlags : List Instr := [xor eax eax, movCs, stosl, pushf, pop eax, stosl]

def restoreLoad : List Instr := [movLoad 4 esp esi, movLoad 12 esi esp, subImm 24 esp]

def restoreCopy : List Instr := [mov esp edi, movImm 9 ecx, repMovsl]

def frame (w : Reg → Word) (sp : Word) : List Word :=
  [w edi, w esi, w ebp, sp, w ebx, w edx, w ecx, w eax]

theorem pusha_holds (h : Holds c.mem (c.reg esp) vs) (hn : 32 + 4 * vs.length ≤ 2 ^ 32) :
    Holds c.pusha.mem (c.reg esp - 32) (frame c.reg (c.reg esp) ++ vs) := by
  have hpushes := @Cpu.holds_pushes c vs ([eax, ecx, edx, ebx, esp, ebp, esi, edi].map c.reg) h
    (by rw [List.length_map, List.length_cons]; simp only [List.length_cons, List.length_nil]; omega)
  rw [Cpu.esp_pushes] at hpushes
  exact hpushes

theorem pusha_esp : c.pusha.reg esp = c.reg esp - 32 := by
  rw [Cpu.pusha, Cpu.esp_pushes]
  rfl

theorem pusha_outside (h : ¬Inside (c.reg esp - 32) 32 x) : c.pusha.mem x = c.mem x :=
  Cpu.mem_pushes h (by simp)

theorem savePush_esp : (execs c savePush).reg esp = c.reg esp - 32 :=
  @Cpu.esp_pushes c ([eax, ecx, edx, ebx, esp, ebp, esi, edi].map c.reg)

theorem savePush_mem : (execs c savePush).mem =
    store c.pusha.mem (c.reg esp - 32 + 12) (load c.pusha.mem (c.reg esp - 32 + 12) - 8) := by
  rw [← savePush_esp]
  rfl

theorem savePush_holds (h : Holds c.mem (c.reg esp) vs) (hn : 32 + 4 * vs.length ≤ 2 ^ 32) :
    Holds (execs c savePush).mem (c.reg esp - 32) (frame c.reg (c.reg esp - 8) ++ vs) := by
  have hpusha := pusha_holds h hn
  have hsp : load c.pusha.mem (c.reg esp - 32 + 12) = c.reg esp := hpusha.get (i := 3) rfl
  rw [savePush_mem, hsp]
  exact hpusha.set (i := 3) (by simp [frame]; omega) (by simp [frame]) (c.reg esp - 8)

theorem savePush_outside (h : ¬Inside (c.reg esp - 32) 32 x) :
    (execs c savePush).mem x = c.mem x := by
  rw [savePush_mem, store_outside, pusha_outside h]
  exact fun hx => h (hx.sub (by simp) (by simp))

theorem savePush_directionFlag : (execs c savePush).directionFlag = c.directionFlag :=
  Cpu.directionFlag_setStatus c.pusha _ _ _ _

theorem saveCopy_mem (h : c.directionFlag = false) : (execs c saveCopy).mem =
    copyUp c.mem (c.reg esp) (load c.mem (c.reg esp + 36)) 9 := Cpu.repMovs_mem h

theorem saveCopy_edi (h : c.directionFlag = false) : (execs c saveCopy).reg edi =
    load c.mem (c.reg esp + 36) + 36 := Cpu.repMovs_edi (n := 9) h

theorem saveCopy_esp : (execs c saveCopy).reg esp = c.reg esp :=
  Cpu.repMovs_reg (n := 9) (by decide) (by decide) (by decide)

theorem saveCopy_directionFlag : (execs c saveCopy).directionFlag = c.directionFlag :=
  congrArg (fun w : Word => w.getLsbD 10) (Cpu.repMovs_eflags (n := 9))

theorem storeFlags_mem (h : c.directionFlag = false) :
    (execs c [stosl, pushf, pop eax, stosl]).mem =
      store (store (store c.mem (c.reg edi) (c.reg eax)) (c.reg esp - 4) (c.eflags &&& pushfMask))
        (c.reg edi + 4) (c.eflags &&& pushfMask) := by
  have hflag : c.eflags[10] = false := by simpa [Cpu.directionFlag] using h
  simp [execs, next, Instr.exec, Cpu.stos, Cpu.push, Cpu.pop, Cpu.stride, Cpu.directionFlag, hflag]

theorem saveFlags_mem (h : c.directionFlag = false) : ∃ w f, (execs c saveFlags).mem =
    store (store (store c.mem (c.reg edi) w) (c.reg esp - 4) f) (c.reg edi + 4) f :=
  ⟨_, _, storeFlags_mem (c := next (next c (xor eax eax)) movCs)
    ((Cpu.directionFlag_setStatus c false false false _).trans h)⟩

theorem saveFlags_esp : (execs c saveFlags).reg esp = c.reg esp := by
  have h : (execs c saveFlags).reg esp = c.reg esp - 4 + 4 := rfl
  rw [h, BitVec.sub_add_cancel]

theorem saveCopied_holds (hflag : c.directionFlag = false) (hws : ws.length = 9)
    (h : Holds c.mem (c.reg esp) ws) (hctx : load c.mem (c.reg esp + 36) = ctx)
    (hapart : Apart (c.reg esp - 4) 44 ctx 44) :
    Holds (execs (execs c saveCopy) saveFlags).mem (c.reg esp) ws ∧
      Holds (execs (execs c saveCopy) saveFlags).mem ctx ws := by
  obtain ⟨w, f, hmem⟩ := saveFlags_mem (c := execs c saveCopy)
    (saveCopy_directionFlag.trans hflag)
  rw [saveCopy_mem hflag, saveCopy_edi hflag, saveCopy_esp, hctx, ← hws] at hmem
  rw [hmem]
  have hstack : Holds (copyUp c.mem (c.reg esp) ctx ws.length) (c.reg esp) ws := by
    apply h.congr (by omega)
    intro x hx
    apply copyUp_outside _ (by omega)
    unfold Apart Inside at *
    bv_omega
  have hcopied : Holds (copyUp c.mem (c.reg esp) ctx ws.length) ctx ws := by
    apply h.copyUp
    unfold Apart at *
    bv_omega
  constructor
  · refine ((hstack.store ?_).store ?_).store ?_ <;> unfold Apart at * <;> bv_omega
  · refine ((hcopied.store ?_).store ?_).store ?_ <;> unfold Apart at * <;> bv_omega

theorem saveCopied_outside (hflag : c.directionFlag = false)
    (hctx : load c.mem (c.reg esp + 36) = ctx) (hstack : ¬Inside (c.reg esp - 4) 4 x)
    (hx : ¬Inside ctx 44 x) : (execs (execs c saveCopy) saveFlags).mem x = c.mem x := by
  obtain ⟨w, f, hmem⟩ := saveFlags_mem (c := execs c saveCopy)
    (saveCopy_directionFlag.trans hflag)
  rw [saveCopy_mem hflag, saveCopy_edi hflag, saveCopy_esp, hctx] at hmem
  have hcopy : ¬Inside ctx (4 * 9) x := by
    unfold Inside at *
    omega
  have hcs : ¬Inside (ctx + 36) 4 x := fun h => hx (h.sub (by simp) (by simp))
  have hflags : ¬Inside (ctx + 36 + 4) 4 x := by
    rw [BitVec.add_assoc]
    exact fun h => hx (h.sub (by simp) (by simp))
  rw [hmem, store_outside _ _ hflags, store_outside _ _ hstack, store_outside _ _ hcs,
    copyUp_outside hcopy (by simp)]

section Return

variable {w : Reg → Word} {sp : Word}

theorem popa_holds (h : Holds c.mem (c.reg esp) (frame w sp ++ [r])) :
    (∀ y, y ≠ esp → (next c popa).reg y = w y) ∧
      load (next c popa).mem ((next c popa).reg esp) = r := by
  rw [holds_append] at h
  refine ⟨fun y hy => Cpu.popa_reg (c := { c with eip := c.eip + 1 }) h.1 hy, ?_⟩
  have hesp : (next c popa).reg esp = c.reg esp + 32 := Cpu.popa_esp
  rw [hesp]
  exact h.2.1

theorem return_eip (h : Holds c.mem (c.reg esp) (frame w sp ++ [r])) :
    (execs (next c popa) [ret]).eip = r := (popa_holds h).2

theorem return_reg (h : Holds c.mem (c.reg esp) (frame w sp ++ [r])) {y : Reg} (hy : y ≠ esp) :
    (execs (next c popa) [ret]).reg y = w y := (if_neg hy).trans ((popa_holds h).1 y hy)

theorem return_esp : (execs (next c popa) [ret]).reg esp = c.reg esp + 36 := by
  have h : ∀ d, (execs d [ret]).reg esp = d.reg esp + 4 := fun _ => rfl
  have hesp : (next c popa).reg esp = c.reg esp + 32 := Cpu.popa_esp
  rw [h, hesp, BitVec.add_assoc]
  rfl

theorem saveReturn_eip (h : Holds c.mem (c.reg esp) (frame w sp ++ [r])) :
    (execs (next c popa) [xor eax eax, ret]).eip = r := by
  have hret : ∀ d, (execs d [xor eax eax, ret]).eip = load d.mem (d.reg esp) := fun _ => rfl
  rw [hret, (popa_holds h).2]

theorem saveReturn_eax (d : Cpu) : (execs d [xor eax eax, ret]).reg eax = 0 := BitVec.xor_self

theorem saveReturn_reg (h : Holds c.mem (c.reg esp) (frame w sp ++ [r])) {y : Reg}
    (heax : y ≠ eax) (hesp : y ≠ esp) :
    (execs (next c popa) [xor eax eax, ret]).reg y = w y := by
  have hret : ∀ d, (execs d [xor eax eax, ret]).reg y = d.reg y := fun _ =>
    (if_neg hesp).trans (if_neg heax)
  rw [hret, (popa_holds h).1 y hesp]

theorem saveReturn_esp :
    (execs (next c popa) [xor eax eax, ret]).reg esp = c.reg esp + 36 := return_esp

end Return

section Restore

theorem restoreLoad_esi : (execs c restoreLoad).reg esi = load c.mem (c.reg esp + 4) := rfl

theorem restoreLoad_esp : (execs c restoreLoad).reg esp =
    load c.mem (load c.mem (c.reg esp + 4) + 12) - 24 := rfl

theorem restoreLoad_mem : (execs c restoreLoad).mem = c.mem := rfl

theorem restoreLoad_directionFlag : (execs c restoreLoad).directionFlag = c.directionFlag :=
  Cpu.directionFlag_setStatus _ _ _ _ _

theorem restoreCopy_mem (h : c.directionFlag = false) :
    (execs c restoreCopy).mem = copyUp c.mem (c.reg esi) (c.reg esp) 9 := Cpu.repMovs_mem (n := 9) h

theorem restoreCopy_esp : (execs c restoreCopy).reg esp = c.reg esp :=
  Cpu.repMovs_reg (n := 9) (by decide) (by decide) (by decide)

theorem restore_mem (hflag : c.directionFlag = false) (hctx : load c.mem (c.reg esp + 4) = ctx) :
    (execs (execs c restoreLoad) restoreCopy).mem =
      copyUp c.mem ctx (load c.mem (ctx + 12) - 24) 9 := by
  rw [restoreCopy_mem (restoreLoad_directionFlag.trans hflag), restoreLoad_mem, restoreLoad_esi,
    restoreLoad_esp, hctx]

theorem restore_esp (hctx : load c.mem (c.reg esp + 4) = ctx) :
    (execs (execs c restoreLoad) restoreCopy).reg esp = load c.mem (ctx + 12) - 24 := by
  rw [restoreCopy_esp, restoreLoad_esp, hctx]

end Restore

end NaviMisc.Metalkit

/-!
A thread that is saved runs on where it was saved, with its registers and its stack.
-/

namespace NaviMisc.Metalkit

open NaviMisc.Lib.WordMemory Reg Instr

variable {s s₁ s₂ : Cpu} {x r ctx : Word}

structure Saved (s s₁ : Cpu) (r ctx : Word) : Prop where
  returns : s₁.eip = r
  result : s₁.reg eax = 0
  stack : s₁.reg esp = s.reg esp + 4
  registers : ∀ y, y ≠ eax → y ≠ esp → s₁.reg y = s.reg y
  context : Holds s₁.mem ctx (frame s.reg (s.reg esp - 8) ++ [r])
  memory : ∀ x, ¬Inside (s.reg esp - 36) 36 x → ¬Inside ctx 44 x → s₁.mem x = s.mem x

theorem save_saved (hflag : s.directionFlag = false) (hr : load s.mem (s.reg esp) = r)
    (hctx : load s.mem (s.reg esp + 4) = ctx) (hapart : Apart (s.reg esp - 36) 44 ctx 44) :
    Saved s (execs s Intr_SaveContext) r ctx := by
  have hcode : Intr_SaveContext =
      savePush ++ (saveCopy ++ (saveFlags ++ ([popa] ++ [xor eax eax, ret]))) := rfl
  have hcall : Holds s.mem (s.reg esp) [r, ctx] := ⟨hr, hctx, trivial⟩
  have hpush := savePush_holds hcall (by simp)
  have hpushed : (execs s savePush).directionFlag = false := savePush_directionFlag.trans hflag
  have harg : load (execs s savePush).mem ((execs s savePush).reg esp + 36) = ctx := by
    rw [savePush_esp]
    exact hpush.get (i := 9) rfl
  have hesp : (execs s savePush).reg esp - 4 = s.reg esp - 36 := by
    rw [savePush_esp]
    bv_omega
  have hpop : (execs (execs (execs s savePush) saveCopy) saveFlags).reg esp = s.reg esp - 32 := by
    rw [saveFlags_esp, saveCopy_esp, savePush_esp]
  have hframe : Holds (execs s savePush).mem ((execs s savePush).reg esp)
      (frame s.reg (s.reg esp - 8) ++ [r]) := by
    have hwords : frame s.reg (s.reg esp - 8) ++ [r, ctx] =
        frame s.reg (s.reg esp - 8) ++ [r] ++ [ctx] := by rw [List.append_assoc]; rfl
    rw [hwords, holds_append] at hpush
    rw [savePush_esp]
    exact hpush.1
  obtain ⟨hstack, hcontext⟩ := saveCopied_holds hpushed rfl hframe harg (by rwa [hesp])
  rw [savePush_esp, ← hpop] at hstack
  rw [hcode, execs_append, execs_append, execs_append, execs_append, execs_singleton]
  exact {
    returns := saveReturn_eip hstack
    result := saveReturn_eax _
    stack := by
      rw [saveReturn_esp, hpop]
      bv_omega
    registers := fun _ heax hesp => saveReturn_reg hstack heax hesp
    context := hcontext
    memory := by
      intro x hx hctx
      have hflags : ¬Inside ((execs s savePush).reg esp - 4) 4 x := by
        rw [hesp]
        unfold Inside at *
        omega
      have hregs : ¬Inside (s.reg esp - 32) 32 x := by
        unfold Inside at *
        bv_omega
      exact (saveCopied_outside hpushed harg hflags hctx).trans (savePush_outside hregs) }

theorem Saved.load_return (h : Saved s s₁ r ctx) (hr : load s.mem (s.reg esp) = r)
    (hapart : Apart (s.reg esp - 36) 44 ctx 44) : load s₁.mem (s.reg esp) = r := by
  rw [← hr]
  apply load_congr
  intro x hx
  apply h.memory
  · unfold Inside at *
    bv_omega
  · unfold Inside Apart at *
    bv_omega

structure Restored (s s₁ s₂ s₃ : Cpu) (r : Word) : Prop where
  returns : s₃.eip = r
  stack : s₃.reg esp = s.reg esp + 4
  registers : ∀ y, y ≠ esp → s₃.reg y = s.reg y
  memory : ∀ x, ¬Inside (s.reg esp - 32) 32 x → s₂.mem x = s₁.mem x → s₃.mem x = s₁.mem x

theorem restore_restored (h : Saved s s₁ r ctx) (hr : load s.mem (s.reg esp) = r)
    (hapart : Apart (s.reg esp - 36) 44 ctx 44) (hflag : s₂.directionFlag = false)
    (hctx : load s₂.mem (s₂.reg esp + 4) = ctx)
    (hsame : ∀ x, Inside ctx 44 x → s₂.mem x = s₁.mem x) :
    Restored s s₁ s₂ (execs s₂ Intr_RestoreContext) r := by
  have hcode : Intr_RestoreContext = restoreLoad ++ (restoreCopy ++ ([popa] ++ [ret])) := rfl
  have hcontext : Holds s₂.mem ctx (frame s.reg (s.reg esp - 8) ++ [r]) := by
    apply h.context.congr (by simp [frame])
    intro x hx
    apply hsame
    exact Nat.lt_of_lt_of_le hx (by simp [frame])
  have hsp : load s₂.mem (ctx + 12) - 24 = s.reg esp - 32 := by
    rw [show load s₂.mem (ctx + 12) = s.reg esp - 8 from hcontext.get (i := 3) rfl]
    bv_omega
  have hmem := restore_mem hflag hctx
  have hesp := restore_esp hctx
  rw [hsp] at hmem hesp
  have hstack : Holds (execs (execs s₂ restoreLoad) restoreCopy).mem
      ((execs (execs s₂ restoreLoad) restoreCopy).reg esp)
      (frame s.reg (s.reg esp - 8) ++ [r]) := by
    rw [hmem, hesp]
    apply hcontext.copyUp
    simp only [frame, List.length_append, List.length_cons, List.length_nil]
    unfold Apart at *
    bv_omega
  have hreturn : ∀ d : Cpu, (execs (next d popa) [ret]).mem = d.mem := fun _ => rfl
  rw [hcode, execs_append, execs_append, execs_append, execs_singleton popa]
  exact {
    returns := return_eip hstack
    stack := by
      rw [return_esp, hesp]
      bv_omega
    registers := fun _ hy => return_reg hstack hy
    memory := by
      intro x hx hunchanged
      rw [hreturn]
      by_cases hinside : Inside (s.reg esp) 4 x
      · apply eq_of_load (a := s.reg esp) _ hinside
        rw [h.load_return hr hapart, ← hstack.get (i := 8) rfl, hesp]
        congr 1
        bv_omega
      · rw [hmem, copyUp_outside _ (by simp), hunchanged]
        unfold Inside at *
        bv_omega }

end NaviMisc.Metalkit
