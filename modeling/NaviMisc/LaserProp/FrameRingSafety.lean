import NaviMisc.LaserProp.FrameRing
import NaviMisc.Lib.Ring

/-!
The frames in the memory of the vector machine are kept until the machine has left them, except
where a frame is added to a ring without any space between its end and its head.
-/

namespace NaviMisc.LaserProp

open NaviMisc.Lib NaviMisc.Lib.BitFields NaviMisc.Lib.Outcome NaviMisc.Lib.Runs
open NaviMisc.Lib.SegmentRing

namespace VectorMachine

variable {vm : VectorMachine} {word : Word} {exp offset : ℕ}

theorem pack_special (exp offset : ℕ) :
    pack { reg := REG_SP, exp := exp, offset := offset } =
      place (BitVec.ofNat 32 exp) 18 4 ||| place (BitVec.ofNat 32 offset) 0 16 := by
  rw [pack_eq]
  change place 0#32 30 2 ||| place 0#32 29 1 ||| place 0#32 22 7 ||| _ ||| place 0#32 9 9 |||
    place 0#32 0 9 ||| _ = _
  simp only [place_zero, BitVec.zero_or, BitVec.or_zero]

theorem unpack_special (hexp : exp < 2 ^ 4) (hoffset : offset < 2 ^ 16) :
    (unpack (pack { reg := REG_SP, exp := exp, offset := offset })).reg = REG_SP ∧
      (unpack (pack { reg := REG_SP, exp := exp, offset := offset })).exp = exp ∧
        (unpack (pack { reg := REG_SP, exp := exp, offset := offset })).offset = offset := by
  rw [pack_special, unpack_eq]
  simp (disch := decide) only [field_or, field_place, field_place_of_disjoint, BitVec.or_zero,
    BitVec.zero_or]
  rw [toNat_ofNat_and_mask hexp (by decide), toNat_ofNat_and_mask hoffset (by decide)]
  exact ⟨rfl, rfl, rfl⟩

theorem execute_plain (h : Plain word) : vm.execute word = vm := by
  rw [execute]
  by_cases hreg : (unpack word).reg = REG_SP
  · rw [if_neg (not_not.mpr hreg), h hreg]
    rfl
  · rw [if_pos hreg]

theorem execute_jump (h : offset < 2 ^ 16) :
    vm.execute (pack { reg := REG_SP, exp := SP_JUMP, offset := offset }) =
      { vm with addr := offset } := by
  obtain ⟨hreg, hexp, hoffset⟩ := unpack_special (show SP_JUMP < 2 ^ 4 by decide) h
  rw [execute, if_neg (not_not.mpr hreg), if_pos hexp, hoffset]

theorem execute_inc (h : offset < 2 ^ 16) :
    vm.execute (pack { reg := REG_SP, exp := SP_INC, offset := offset }) =
      vm.store offset (vm.mem offset + 1) := by
  obtain ⟨hreg, hexp, hoffset⟩ := unpack_special (show SP_INC < 2 ^ 4 by decide) h
  rw [execute, if_neg (not_not.mpr hreg), hexp, hoffset]
  rfl

theorem spin_of_lt (h : vm.addr < vm.memSize) :
    vm.spin = execute (vm.mem vm.addr) { vm with addr := vm.addr + 1 } := by
  rw [spin, if_pos h]

end VectorMachine

namespace RemoteFrame

def Holds (f : RemoteFrame) (a : ℕ) : Prop := f.firstAddress ≤ a ∧ a < f.nextFreeAddr

def target (f : RemoteFrame) (after : List RemoteFrame) : ℕ :=
  (after.head?.map entryPoint).getD f.frameDataAddr

structure Loaded (mem : ℕ → Word) (f : RemoteFrame) (target : ℕ) : Prop where
  entry : mem f.entryPoint = pack { reg := REG_SP, exp := SP_INC, offset := f.swapCountAddr }
  data : ∀ i (h : i < f.words.length), mem (f.frameDataAddr + i) = f.words[i]
  exit : mem f.exitPoint = pack { reg := REG_SP, exp := SP_JUMP, offset := target }

def Linked (mem : ℕ → Word) : List RemoteFrame → Prop
  | [] => True
  | f :: after => Loaded mem f (f.target after) ∧ Linked mem after

variable {f g : RemoteFrame} {mem mem' : ℕ → Word} {t : ℕ} {l before after : List RemoteFrame}

theorem addresses (f : RemoteFrame) :
    f.entryPoint = f.firstAddress ∧ f.frameDataAddr = f.firstAddress + 1 ∧
      f.exitPoint = f.firstAddress + 1 + f.words.length ∧
        f.nextFreeAddr = f.firstAddress + 2 + f.words.length := by
  refine ⟨rfl, rfl, ?_, ?_⟩
  · rw [words, List.length_map]
    rfl
  · rw [words, List.length_map, nextFreeAddr, exitPoint, frameDataAddr, entryPoint]
    omega

theorem Loaded.congr (h : Loaded mem f t) (hmem : ∀ a, f.Holds a → mem' a = mem a) :
    Loaded mem' f t := by
  obtain ⟨hentry, hdata, hexit, hnext⟩ := f.addresses
  constructor
  · rw [hmem f.entryPoint ⟨by omega, by omega⟩, h.entry]
  · intro i hi
    rw [hmem (f.frameDataAddr + i) ⟨by omega, by omega⟩, h.data i hi]
  · rw [hmem f.exitPoint ⟨by omega, by omega⟩, h.exit]

theorem length_write (f : RemoteFrame) : f.write.2.length = f.words.length + 2 := by
  rw [write, List.length_append, List.length_append, List.length_singleton, List.length_singleton]
  omega

theorem Loaded.of_write (mem : ℕ → Word) (f : RemoteFrame) :
    Loaded (Memory.copy mem f.write.1 f.write.2) f f.frameDataAddr := by
  obtain ⟨hentry, hdata, hexit, hnext⟩ := f.addresses
  have hlength := f.length_write
  have hcopy (i : ℕ) (hi : i < f.write.2.length) :
      Memory.copy mem f.write.1 f.write.2 (f.entryPoint + i) = f.write.2[i] :=
    Memory.copy_inside hi
  constructor
  · exact hcopy 0 (by omega)
  · intro i hi
    have h := hcopy (1 + i) (by omega)
    rw [← Nat.add_assoc] at h
    refine h.trans ?_
    simp only [write]
    rw [List.getElem_append_left (by simp; omega), List.getElem_append_right (by simp)]
    simp
  · have h := hcopy (1 + f.words.length) (by omega)
    have haddr : f.entryPoint + (1 + f.words.length) = f.exitPoint := by omega
    rw [haddr] at h
    refine h.trans ?_
    simp only [write]
    rw [List.getElem_append_right (by rw [List.length_append]; exact Nat.le_refl _)]
    simp

theorem copy_write_of_not_holds {a : ℕ} (h : ¬f.Holds a) :
    Memory.copy mem f.write.1 f.write.2 a = mem a := by
  obtain ⟨hentry, hdata, hexit, hnext⟩ := f.addresses
  rw [Holds, not_and_or, Nat.not_le, Nat.not_lt] at h
  rcases h with hlt | hge
  · exact Memory.copy_of_lt hlt
  · apply Memory.copy_of_ge
    rw [f.length_write]
    change f.entryPoint + _ ≤ a
    omega

theorem Linked.congr (h : Linked mem l) (hmem : ∀ f ∈ l, ∀ a, f.Holds a → mem' a = mem a) :
    Linked mem' l := by
  induction l with
  | nil => trivial
  | cons f l ih =>
    rw [List.forall_mem_cons] at hmem
    exact ⟨h.1.congr hmem.1, ih h.2 hmem.2⟩

theorem Linked.loaded (h : Linked mem (before ++ f :: after)) : Loaded mem f (f.target after) := by
  induction before with
  | nil => exact h.1
  | cons g before ih => exact ih h.2

theorem Loaded.relink {t' : ℕ} (h : Loaded mem f t)
    (hmem : ∀ a, f.Holds a → a ≠ f.exitPoint → mem' a = mem a)
    (hexit' : mem' f.exitPoint = pack { reg := REG_SP, exp := SP_JUMP, offset := t' }) :
    Loaded mem' f t' := by
  obtain ⟨hentry, hdata, hexit, hnext⟩ := f.addresses
  constructor
  · rw [hmem f.entryPoint ⟨by omega, by omega⟩ (by omega), h.entry]
  · intro i hi
    rw [hmem (f.frameDataAddr + i) ⟨by omega, by omega⟩ (by omega), h.data i hi]
  · exact hexit'

theorem holds_exitPoint (f : RemoteFrame) : f.Holds f.exitPoint := by
  obtain ⟨hentry, hdata, hexit, hnext⟩ := f.addresses
  exact ⟨by omega, by omega⟩

theorem not_holds_of_apart (h : Apart firstAddress nextFreeAddr f g) {a : ℕ} (hf : f.Holds a) :
    ¬g.Holds a := by
  rintro ⟨hge, hlt⟩
  obtain ⟨hge', hlt'⟩ := hf
  rcases h with h | h
  · omega
  · omega

theorem Linked.concat {last rf : RemoteFrame} (h : Linked mem l) (hlast : l.getLast? = some last)
    (hapart : l.Pairwise (Apart firstAddress nextFreeAddr))
    (hmem : ∀ f ∈ l, ∀ a, f.Holds a → a ≠ last.exitPoint → mem' a = mem a)
    (hlink : mem' last.exitPoint =
      pack { reg := REG_SP, exp := SP_JUMP, offset := rf.entryPoint })
    (hrf : Loaded mem' rf rf.frameDataAddr) : Linked mem' (l ++ [rf]) := by
  induction l with
  | nil => cases hlast
  | cons f l ih =>
    rw [List.forall_mem_cons] at hmem
    cases l with
    | nil =>
      cases hlast
      exact ⟨h.1.relink hmem.1 hlink, hrf, trivial⟩
    | cons g l =>
      rw [List.getLast?_cons_cons] at hlast
      obtain ⟨hf, hrest⟩ := List.pairwise_cons.mp hapart
      have hne (a : ℕ) (ha : f.Holds a) : a ≠ last.exitPoint := by
        rintro rfl
        exact not_holds_of_apart (hf last (List.mem_of_getLast? hlast)) ha last.holds_exitPoint
      exact ⟨h.1.congr fun a ha => hmem.1 a ha (hne a ha), ih h.2 hlast hrest hmem.2⟩

end RemoteFrame

namespace RemoteFrameQueue

open RemoteFrame

def Within (addr : ℕ) (f : RemoteFrame) (after : List RemoteFrame) : Prop :=
  f.frameDataAddr ≤ addr ∧ addr ≤ f.exitPoint ∨ ∃ g, after.head? = some g ∧ addr = g.entryPoint

structure Runs (q : RemoteFrameQueue) (before : List RemoteFrame) (f : RemoteFrame)
    (after : List RemoteFrame) : Prop where
  queue : q.queue = before ++ f :: after
  count : q.vm.mem q.swapCountAddr = q.swapCount + BitVec.ofNat 32 before.length
  within : Within q.vm.addr f after

structure Stands (q : RemoteFrameQueue) : Prop where
  memSize : q.swapCountAddr < q.vm.memSize
  small : q.swapCountAddr < 2 ^ 16
  placed : Placed firstAddress nextFreeAddr q.swapCountAddr q.queue
  counter : ∀ f ∈ q.queue, f.swapCountAddr = q.swapCountAddr
  linked : Linked q.vm.mem q.queue

structure Keeps (q : RemoteFrameQueue) : Prop where
  stands : q.Stands
  runs : ∃ before f after, q.Runs before f after ∧
    ∀ v, q.answer = some v → ∃ j ≤ before.length, v = q.swapCount + BitVec.ofNat 32 j

structure Safe (q : RemoteFrameQueue) : Prop where
  apart : q.queue.Pairwise (Apart firstAddress nextFreeAddr)
  below : ∀ f ∈ q.queue, f.nextFreeAddr ≤ q.swapCountAddr
  addr : ∃ f ∈ q.queue, f.Holds q.vm.addr

variable {q : RemoteFrameQueue} {f : RemoteFrame} {before after : List RemoteFrame}

theorem Keeps.safe (h : q.Keeps) : q.Safe := by
  obtain ⟨hstands, before, f, after, hruns, -⟩ := h
  refine ⟨hstands.placed.apart, fun f hf => (hstands.placed.bounds hf).2, ?_⟩
  obtain ⟨hentry, hdata, hexit, hnext⟩ := f.addresses
  rw [hruns.queue]
  rcases hruns.within with ⟨hge, hle⟩ | ⟨g, hg, haddr⟩
  · exact ⟨f, by simp, by omega, by omega⟩
  · obtain ⟨hentry', hdata', hexit', hnext'⟩ := g.addresses
    have hmem : g ∈ after := List.mem_of_head? hg
    exact ⟨g, by simp [hmem], by omega, by omega⟩

theorem Runs.mem (h : q.Runs before f after) : f ∈ q.queue := by
  rw [h.queue]
  simp

theorem Runs.loaded (hstands : q.Stands) (h : q.Runs before f after) :
    Loaded q.vm.mem f (f.target after) := by
  have hlinked := hstands.linked
  rw [h.queue] at hlinked
  exact hlinked.loaded

theorem Stands.loaded_bounds (h : q.Stands) (hf : f ∈ q.queue) :
    f.entryPoint < q.swapCountAddr ∧ f.exitPoint < q.swapCountAddr := by
  have hnext := (h.placed.bounds hf).2
  obtain ⟨hentry, hdata, hexit, hnext'⟩ := f.addresses
  omega

theorem Stands.lt_memSize (h : q.Stands) (hf : f ∈ q.queue) {a : ℕ} (ha : a ≤ f.exitPoint) :
    a < q.vm.memSize :=
  (ha.trans_lt (h.loaded_bounds hf).2).trans h.memSize

theorem spin_inside (hstands : q.Stands) (hruns : q.Runs before f after)
    (haddr : f.frameDataAddr ≤ q.vm.addr) (haddr' : q.vm.addr ≤ f.exitPoint) :
    ∃ addr, q.vm.spin = { q.vm with addr := addr } ∧ Within addr f after := by
  obtain ⟨hentry, hdata, hexit, hnext⟩ := f.addresses
  have hloaded := hruns.loaded hstands
  rw [VectorMachine.spin_of_lt (hstands.lt_memSize hruns.mem haddr')]
  by_cases hend : q.vm.addr = f.exitPoint
  · have hmem : f.target after < 2 ^ 16 := by
      have hsmall := hstands.small
      cases after with
      | nil =>
        have hlt := (hstands.loaded_bounds hruns.mem).2
        change f.frameDataAddr < _
        omega
      | cons g after =>
        have hg : g ∈ q.queue := by
          rw [hruns.queue]
          simp
        exact (hstands.loaded_bounds hg).1.trans hsmall
    rw [hend, hloaded.exit, VectorMachine.execute_jump hmem]
    refine ⟨f.target after, rfl, ?_⟩
    cases after with
    | nil =>
      left
      change f.frameDataAddr ≤ f.frameDataAddr ∧ f.frameDataAddr ≤ f.exitPoint
      omega
    | cons g after => exact Or.inr ⟨g, rfl, rfl⟩
  · have hi : q.vm.addr - f.frameDataAddr < f.words.length := by omega
    have hword := hloaded.data _ hi
    rw [Nat.add_sub_cancel' haddr] at hword
    have hplain : Plain f.words[q.vm.addr - f.frameDataAddr] := by
      simp only [words, List.getElem_map]
      exact Subtype.property _
    rw [hword, VectorMachine.execute_plain hplain]
    exact ⟨q.vm.addr + 1, rfl, Or.inl (by omega)⟩

theorem spin_keeps (h : q.Keeps) : Keeps { q with vm := q.vm.spin } := by
  obtain ⟨hstands, before, f, after, hruns, hanswer⟩ := h
  rcases hruns.within with ⟨haddr, haddr'⟩ | ⟨g, hg, haddr⟩
  · obtain ⟨addr, hspin, hwithin⟩ := spin_inside hstands hruns haddr haddr'
    rw [hspin]
    exact ⟨⟨hstands.memSize, hstands.small, hstands.placed, hstands.counter, hstands.linked⟩,
      before, f, after, ⟨hruns.queue, hruns.count, hwithin⟩, hanswer⟩
  · -- the entry of the next frame counts the swap
    obtain ⟨after, rfl⟩ : ∃ rest, after = g :: rest := by
      cases after with
      | nil => cases hg
      | cons g' after =>
        cases hg
        exact ⟨after, rfl⟩
    have hqueue : q.queue = before ++ [f] ++ g :: after := by
      rw [hruns.queue, List.append_assoc]
      rfl
    have hmem : g ∈ q.queue := by
      rw [hqueue]
      simp
    obtain ⟨hentry, hdata, hexit, hnext⟩ := g.addresses
    have hlinked := hstands.linked
    rw [hqueue] at hlinked
    have hword := hlinked.loaded.entry
    rw [hstands.counter g hmem, ← haddr] at hword
    have hspin : q.vm.spin = { q.vm with
        addr := q.vm.addr + 1
        mem := Function.update q.vm.mem q.swapCountAddr (q.vm.mem q.swapCountAddr + 1) } := by
      have hlt : q.vm.addr < q.vm.memSize := hstands.lt_memSize hmem (by omega)
      rw [VectorMachine.spin_of_lt hlt, hword, VectorMachine.execute_inc hstands.small,
        VectorMachine.store, if_pos hstands.memSize]
    rw [hspin]
    refine ⟨⟨hstands.memSize, hstands.small, hstands.placed, hstands.counter, ?_⟩,
      before ++ [f], g, after, ⟨hqueue, ?_, ?_⟩, ?_⟩
    · apply hstands.linked.congr
      intro f' hf' a ha
      have hnext' := (hstands.placed.bounds hf').2
      exact Function.update_of_ne (Nat.ne_of_lt (ha.2.trans_le hnext')) _ _
    · change Function.update q.vm.mem q.swapCountAddr _ q.swapCountAddr = _
      rw [Function.update_self, hruns.count, List.length_append, List.length_singleton,
        BitVec.ofNat_add, BitVec.add_assoc]
      rfl
    · left
      change g.frameDataAddr ≤ q.vm.addr + 1 ∧ q.vm.addr + 1 ≤ g.exitPoint
      omega
    · intro v hv
      obtain ⟨j, hj, hv⟩ := hanswer v hv
      refine ⟨j, ?_, hv⟩
      rw [List.length_append]
      omega

theorem answer_keeps (h : q.Keeps) :
    Keeps { q with answer := q.answer.or (some (q.vm.mem q.swapCountAddr)) } := by
  obtain ⟨hstands, before, f, after, hruns, hanswer⟩ := h
  refine ⟨⟨hstands.memSize, hstands.small, hstands.placed, hstands.counter, hstands.linked⟩,
    before, f, after, ⟨hruns.queue, hruns.count, hruns.within⟩, ?_⟩
  intro v hv
  cases hq : q.answer with
  | some v' =>
    change q.answer.or _ = some v at hv
    rw [hq] at hv
    exact hanswer v (hq.trans hv)
  | none =>
    change q.answer.or _ = some v at hv
    rw [hq] at hv
    cases hv
    exact ⟨before.length, le_rfl, hruns.count⟩

theorem Runs.length_lt (hstands : q.Stands) (h : q.Runs before f after) :
    before.length < 2 ^ 32 := by
  have hlength := hstands.placed.length_le
  have hsmall := hstands.small
  rw [h.queue, List.length_append] at hlength
  omega

theorem retire_keeps {swapCount : Word} {j : ℕ} (ackFrames : List RemoteFrame) (hstands : q.Stands)
    (hruns : q.Runs before f after) (hj : j ≤ before.length)
    (hcount : swapCount = q.swapCount + BitVec.ofNat 32 j) :
    Yields (fun _ => False) (fun r => r.1.Stands ∧ ∃ before', r.1.Runs before' f after)
      (q.retire swapCount ackFrames) := by
  have hlt := hruns.length_lt hstands
  induction j generalizing q before ackFrames with
  | zero =>
    rw [retire, if_pos (hcount.trans (BitVec.add_zero _))]
    exact ⟨hstands, before, hruns⟩
  | succ j ih =>
    have hne : swapCount ≠ q.swapCount := by
      intro h
      rw [hcount] at h
      have hzero : BitVec.ofNat 32 (j + 1) = 0#32 := by simpa using h
      have hmod := congrArg BitVec.toNat hzero
      rw [BitVec.toNat_ofNat, Nat.mod_eq_of_lt (by omega)] at hmod
      cases hmod
    obtain ⟨g, before, rfl⟩ := List.exists_cons_of_length_pos (Nat.zero_lt_of_lt hj)
    have hrest : before ++ f :: after ≠ [] := by simp
    rw [retire, if_neg hne]
    split
    · rename_i g' front rest hqueue
      rw [hruns.queue, List.cons_append, List.cons.injEq] at hqueue
      obtain ⟨rfl, hqueue⟩ := hqueue
      rw [List.length_cons] at hj hlt
      have hplaced := hstands.placed
      have hcounter := hstands.counter
      have hlinked := hstands.linked
      rw [hruns.queue] at hplaced hcounter hlinked
      rw [List.cons_append] at hplaced hcounter hlinked
      rw [List.forall_mem_cons] at hcounter
      rw [← hqueue]
      apply ih
      · exact ⟨hstands.memSize, hstands.small, hplaced.tail hrest, hcounter.2, hlinked.2⟩
      · refine ⟨rfl, ?_, hruns.within⟩
        change q.vm.mem q.swapCountAddr = q.swapCount + 1 + BitVec.ofNat 32 before.length
        rw [hruns.count, List.length_cons, BitVec.ofNat_add, BitVec.add_assoc,
          BitVec.add_comm (BitVec.ofNat 32 before.length)]
        rfl
      · omega
      · change swapCount = q.swapCount + 1 + BitVec.ofNat 32 j
        rw [hcount, BitVec.ofNat_add, BitVec.add_assoc, BitVec.add_comm (BitVec.ofNat 32 j)]
        rfl
      · omega
    · rename_i hqueue
      obtain ⟨front, rest, hfront⟩ := List.exists_cons_of_ne_nil hrest
      exact hqueue g front rest (by rw [hruns.queue, List.cons_append, hfront])

theorem poll_keeps {swapCount : Word} (h : q.Keeps) (hanswer : q.answer = some swapCount) :
    Yields (fun _ => False) (fun r => r.1.Keeps) (q.pollSwap swapCount) := by
  obtain ⟨hstands, before, f, after, hruns, hanswers⟩ := h
  obtain ⟨j, hj, hcount⟩ := hanswers swapCount hanswer
  apply (retire_keeps [] hstands hruns hj hcount).bind
  rintro ⟨q', ackFrames⟩ ⟨hstands', before', hruns'⟩
  refine ⟨⟨hstands'.memSize, hstands'.small, hstands'.placed, hstands'.counter, hstands'.linked⟩,
    before', f, after, ⟨hruns'.queue, hruns'.count, hruns'.within⟩, ?_⟩
  rintro v ⟨⟩

/-- A frame that is not refused by its latency is to be added to a ring that ends where its head
begins, and there is room for it above the end or below the head. -/
def ExactFit (q : RemoteFrameQueue) : Event → Prop
  | .append instructions =>
    q.queueDuration < q.maxLatency ∧ ∃ head last, q.queue.head? = some head ∧
      q.queue.getLast? = some last ∧ last.nextFreeAddr = head.firstAddress ∧
        (last.nextFreeAddr + instructions.length + 2 ≤ q.swapCountAddr ∨
          instructions.length + 2 ≤ head.firstAddress)
  | _ => False

def WritesApart (q : RemoteFrameQueue) : Event → Prop
  | .append instructions => ∀ prev rf, q.accepts instructions = .ok (some (prev, rf)) →
    ∀ w ∈ writes prev rf, ∀ a, w.1 ≤ a → a < w.1 + w.2.length → ∀ f ∈ q.queue, f.Holds a →
      q.queue.getLast? = some f ∧ a = f.exitPoint
  | _ => True

theorem place_eq_some {instructions : List Instruction} {head last rf : RemoteFrame}
    (h : q.place instructions head last = some rf)
    (hne : ¬(last.nextFreeAddr = head.firstAddress ∧
      (last.nextFreeAddr + instructions.length + 2 ≤ q.swapCountAddr ∨
        instructions.length + 2 ≤ head.firstAddress)))
    (hhead : head.firstAddress ≤ q.swapCountAddr) :
    rf.swapCountAddr = q.swapCountAddr ∧
      (rf.firstAddress = last.nextFreeAddr ∧
          (head.firstAddress < last.nextFreeAddr ∧ rf.nextFreeAddr ≤ q.swapCountAddr ∨
            rf.nextFreeAddr ≤ head.firstAddress) ∨
        rf.firstAddress = 0 ∧ head.firstAddress < last.nextFreeAddr ∧
          rf.nextFreeAddr ≤ head.firstAddress) := by
  have hnext (a : ℕ) : (⟨instructions, a, q.swapCountAddr⟩ : RemoteFrame).nextFreeAddr =
      a + instructions.length + 2 := by
    simp only [nextFreeAddr, exitPoint, frameDataAddr, entryPoint]
    omega
  rw [place] at h
  dsimp only at h
  split_ifs at h with hfull hwrap hroom
  · rw [hnext] at hfull hwrap hroom
    cases h
    rw [hnext]
    exact ⟨rfl, Or.inr ⟨rfl, by omega, by omega⟩⟩
  · rw [hnext] at hfull hwrap
    cases h
    rw [hnext]
    exact ⟨rfl, Or.inl ⟨rfl, by omega⟩⟩

theorem Stands.queue_ne_nil (h : q.Stands) : q.queue ≠ [] := by
  obtain ⟨upper, lower, -, -, -, hqueue, hne, -⟩ := h.placed
  rw [hqueue]
  exact List.append_ne_nil_of_left_ne_nil hne lower

theorem accepts_yields {instructions : List Instruction} (h : q.Stands)
    (hfit : ¬q.ExactFit (.append instructions)) :
    Yields (fun _ => False) (fun r => ∀ prev rf, r = some (prev, rf) →
      q.queue.getLast? = some prev ∧ rf.swapCountAddr = q.swapCountAddr ∧
        Placed firstAddress nextFreeAddr q.swapCountAddr (q.queue ++ [rf]))
      (q.accepts instructions) := by
  rw [accepts]
  split_ifs with hlatency
  · rintro prev rf ⟨⟩
  have hhead := List.head?_eq_some_head h.queue_ne_nil
  have hlast := List.getLast?_eq_some_getLast h.queue_ne_nil
  rw [hhead, hlast]
  intro prev rf hplace
  obtain ⟨rf', hplace, heq⟩ := Option.map_eq_some_iff.mp hplace
  cases heq
  have hbounds := h.placed.bounds (List.mem_of_head? hhead)
  have hne : ¬((q.queue.getLast h.queue_ne_nil).nextFreeAddr =
      (q.queue.head h.queue_ne_nil).firstAddress ∧
        ((q.queue.getLast h.queue_ne_nil).nextFreeAddr + instructions.length + 2 ≤
            q.swapCountAddr ∨
          instructions.length + 2 ≤ (q.queue.head h.queue_ne_nil).firstAddress)) := by
    rintro ⟨hend, hroom⟩
    exact hfit ⟨lt_of_not_ge hlatency, _, _, hhead, hlast, hend, hroom⟩
  obtain ⟨hcounter, hplaced⟩ := place_eq_some hplace hne (by omega)
  obtain ⟨hentry, hdata, hexit, hnext⟩ := rf.addresses
  exact ⟨rfl, hcounter, h.placed.concat hhead hlast (by omega) hplaced⟩

theorem accepted_apart {rf : RemoteFrame}
    (hplaced : Placed firstAddress nextFreeAddr q.swapCountAddr (q.queue ++ [rf])) {a : ℕ}
    (hf : f ∈ q.queue) (ha : f.Holds a) : ¬rf.Holds a := by
  have hapart := (List.pairwise_append.mp hplaced.apart).2.2 f hf rf (List.mem_singleton.mpr rfl)
  exact not_holds_of_apart hapart ha

theorem append_keeps {instructions : List Instruction} (h : q.Keeps)
    (hfit : ¬q.ExactFit (.append instructions)) :
    Yields (fun _ => False) (fun r => r.1.Keeps) (q.append instructions) := by
  apply (accepts_yields h.stands hfit).bind
  rintro (_ | ⟨last, rf⟩) haccepts
  · exact h
  obtain ⟨hlast, hcounter, hplaced⟩ := haccepts last rf rfl
  obtain ⟨hstands, before, f, after, hruns, hanswer⟩ := h
  have hmem : last ∈ q.queue := List.mem_of_getLast? hlast
  have hbounds := hplaced.bounds (@List.mem_concat_self _ q.queue rf)
  have hnot (f : RemoteFrame) (hf : f ∈ q.queue) (a : ℕ) (ha : f.Holds a) : ¬rf.Holds a :=
    accepted_apart hplaced hf ha
  let mem₁ : ℕ → Word := Memory.copy q.vm.mem rf.write.1 rf.write.2
  let mem₂ : ℕ → Word := Memory.copy mem₁ (last.linkTo rf).1 (last.linkTo rf).2
  have hlink : mem₂ last.exitPoint =
      pack { reg := REG_SP, exp := SP_JUMP, offset := rf.entryPoint } :=
    Memory.copy_inside (n := 0) (show 0 < (last.linkTo rf).2.length from Nat.one_pos)
  have hother (a : ℕ) (ha : a ≠ last.exitPoint) : mem₂ a = mem₁ a := by
    rcases Nat.lt_or_gt_of_ne ha with hlt | hgt
    · exact Memory.copy_of_lt hlt
    · exact Memory.copy_of_ge hgt
  have hkept (f : RemoteFrame) (hf : f ∈ q.queue) (a : ℕ) (ha : f.Holds a)
      (hne : a ≠ last.exitPoint) : mem₂ a = q.vm.mem a :=
    (hother a hne).trans (copy_write_of_not_holds (hnot f hf a ha))
  have hrf : Loaded mem₂ rf rf.frameDataAddr := by
    refine (Loaded.of_write q.vm.mem rf).congr fun a ha => hother a ?_
    rintro rfl
    exact hnot last hmem _ last.holds_exitPoint ha
  have hcount : mem₂ q.swapCountAddr = q.vm.mem q.swapCountAddr := by
    have hlt := (hstands.loaded_bounds hmem).2
    refine (hother _ (Nat.ne_of_gt hlt)).trans (copy_write_of_not_holds ?_)
    rintro ⟨-, hrf⟩
    omega
  refine ⟨⟨hstands.memSize, hstands.small, hplaced, ?_, ?_⟩, before, f, after ++ [rf],
    ⟨?_, hcount.trans hruns.count, ?_⟩, hanswer⟩
  · intro f' hf'
    rcases List.mem_append.mp hf' with hf' | hf'
    · exact hstands.counter f' hf'
    · rw [List.mem_singleton.mp hf']
      exact hcounter
  · exact hstands.linked.concat hlast hstands.placed.apart hkept hlink hrf
  · change q.queue ++ [rf] = _
    rw [hruns.queue, List.append_assoc]
    rfl
  · rcases hruns.within with hinside | ⟨g, hg, haddr⟩
    · exact Or.inl hinside
    · refine Or.inr ⟨g, ?_, haddr⟩
      rw [List.head?_append, hg]
      rfl

theorem handle_keeps (h : q.Keeps) (e : Event) (hfit : ¬q.ExactFit e) :
    Yields (fun _ => False) Keeps (q.handle e) := by
  cases e with
  | append instructions =>
    apply (append_keeps h hfit).bind
    exact fun r hr => hr
  | spin => exact spin_keeps h
  | answer => exact answer_keeps h
  | poll =>
    rw [handle]
    cases hanswer : q.answer with
    | none => exact h
    | some swapCount =>
      apply (poll_keeps h hanswer).bind
      exact fun r hr => hr

theorem writes_apart (h : q.Keeps) (e : Event) (hfit : ¬q.ExactFit e) : q.WritesApart e := by
  cases e with
  | append instructions =>
    intro last rf haccepts w hw a hge hlt f hf ha
    obtain ⟨hlast, -, hplaced⟩ :=
      (accepts_yields h.stands hfit).of_ok haccepts last rf rfl
    rw [writes, List.mem_pair] at hw
    rcases hw with rfl | rfl
    · refine absurd ?_ (accepted_apart hplaced hf ha)
      obtain ⟨hentry, hdata, hexit, hnext⟩ := rf.addresses
      rw [rf.length_write] at hlt
      change rf.entryPoint ≤ a at hge
      change a < rf.entryPoint + _ at hlt
      exact ⟨by omega, by omega⟩
    · have hexit : a = last.exitPoint := Nat.le_antisymm (Nat.le_of_lt_succ hlt) hge
      by_cases heq : f = last
      · rw [heq]
        exact ⟨hlast, hexit⟩
      · have hapart := h.stands.placed.apart.forall hf (List.mem_of_getLast? hlast) heq
        rw [hexit] at ha
        exact absurd last.holds_exitPoint (not_holds_of_apart hapart ha)
  | spin => trivial
  | answer => trivial
  | poll => trivial

theorem init_keeps {vm : VectorMachine} (maxLatency : ℚ) (hmin : 7 ≤ vm.memSize)
    (hmax : vm.memSize ≤ 2 ^ 16) : (init vm maxLatency).Keeps := by
  let nullFrame : RemoteFrame := ⟨blankFrame, 1, vm.memSize - 1⟩
  let vm₁ : VectorMachine := vm.stop.write (vm.memSize - 1, [0])
  let vm₂ : VectorMachine := vm₁.write nullFrame.write
  have hjump : vm₂.jump nullFrame.frameDataAddr = { vm₂ with addr := nullFrame.frameDataAddr } :=
    VectorMachine.execute_jump (show 2 < 2 ^ 16 by decide)
  have hsize : vm₂.memSize = vm.memSize := rfl
  have hinit : init vm maxLatency =
      { vm := { vm₂ with addr := nullFrame.frameDataAddr }
        maxLatency := maxLatency
        swapCountAddr := vm.memSize - 1
        swapCount := 0
        queue := [nullFrame]
        queueDuration := nullFrame.duration
        answer := none } := by
    rw [← hjump]
    rfl
  have hlast : nullFrame.nextFreeAddr ≤ vm.memSize - 1 := by
    change 6 ≤ _
    omega
  rw [hinit]
  refine ⟨⟨?_, ?_, ?_, ?_, ?_⟩, [], nullFrame, [], ⟨rfl, ?_, ?_⟩, ?_⟩
  · change vm.memSize - 1 < vm.memSize
    omega
  · change vm.memSize - 1 < 2 ^ 16
    omega
  · exact Placed.singleton (show 1 < 6 by decide) hlast
  · intro f hf
    rw [List.mem_singleton.mp hf]
  · exact ⟨Loaded.of_write vm₁.mem nullFrame, trivial⟩
  · have hnot : ¬nullFrame.Holds (vm.memSize - 1) := by
      rintro ⟨-, hlt⟩
      omega
    refine (copy_write_of_not_holds hnot).trans ?_
    exact Memory.copy_inside (n := 0) (show 0 < [(0 : Word)].length from Nat.one_pos)
  · exact Or.inl (show 2 ≤ 2 ∧ 2 ≤ 5 by decide)
  · rintro v ⟨⟩

def advance (r : Except Error RemoteFrameQueue) (e : Event) : Except Error RemoteFrameQueue := do
  (← r).handle e

section Overwritten

def blankMachine (memSize : ℕ) : VectorMachine := ⟨memSize, fun _ => 0, 0⟩

def nops (n : ℕ) : List Instruction := List.replicate n ⟨0, by decide⟩

def swapOnce : List Event := .append (nops 3) :: (List.replicate 5 .spin ++ [.answer, .poll])

def fitExactly : List Event := swapOnce ++ [.append (nops 4), .append (nops 0)]

end Overwritten

end RemoteFrameQueue

end NaviMisc.LaserProp
