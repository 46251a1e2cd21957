import NaviMisc.LaserProp.Beam
import NaviMisc.Lib.Memory

/-!
The queue of frames in the memory of the vector machine (client/VectorMachine.py), and how the
machine (src/VectorMachine.spin) goes through that memory.
-/

namespace NaviMisc.LaserProp

open NaviMisc.Lib

def SP_JUMP : ℕ := 1
def SP_CLEAR : ℕ := 2
def SP_INC : ℕ := 3
def SP_RESET : ℕ := 4

def Plain (word : Word) : Prop :=
  (unpack word).reg = REG_SP → (unpack word).exp = SP_NOP

instance (word : Word) : Decidable (Plain word) := inferInstanceAs (Decidable (_ → _))

abbrev Instruction := { word : Word // Plain word }

structure VectorMachine where
  memSize : ℕ
  mem : ℕ → Word
  addr : ℕ

namespace VectorMachine

def jmp1 : Word := pack { reg := REG_SP, exp := SP_JUMP, scnt := 1 }

def store (a : ℕ) (word : Word) (vm : VectorMachine) : VectorMachine :=
  { vm with mem := if a < vm.memSize then Function.update vm.mem a word else vm.mem }

def execute (instr : Word) (vm : VectorMachine) : VectorMachine :=
  let f := unpack instr
  if f.reg ≠ REG_SP then
    vm
  else if f.exp = SP_JUMP then
    { vm with addr := f.offset }
  else if f.exp = SP_CLEAR then
    vm.store f.offset 0
  else if f.exp = SP_INC then
    vm.store f.offset (vm.mem f.offset + 1)
  else if f.exp = SP_RESET then
    { vm.store 0 jmp1 with addr := 0 }
  else
    vm

def spin (vm : VectorMachine) : VectorMachine :=
  let instr := if vm.addr < vm.memSize then vm.mem vm.addr else 0
  execute instr { vm with addr := vm.addr + 1 }

/-- `write` of the conduit: words for the addresses from the first one on. -/
def write (vm : VectorMachine) (w : ℕ × List Word) : VectorMachine :=
  { vm with mem := Memory.copy vm.mem w.1 w.2 }

def cmd (word : Word) (vm : VectorMachine) : VectorMachine := vm.execute word

def jump (offset : ℕ) (vm : VectorMachine) : VectorMachine :=
  vm.cmd (pack { reg := REG_SP, exp := SP_JUMP, offset := offset })

def stop (vm : VectorMachine) : VectorMachine :=
  (vm.write (0, [jmp1])).cmd (pack { reg := REG_SP, exp := SP_RESET })

end VectorMachine

structure RemoteFrame where
  instructions : List Instruction
  firstAddress : ℕ
  swapCountAddr : ℕ

namespace RemoteFrame

def words (f : RemoteFrame) : List Word := f.instructions.map Subtype.val

def timeInstructions (words : List Word) : ℚ := countSamples words / SAMPLE_HZ

def duration (f : RemoteFrame) : ℚ := timeInstructions f.words
def entryPoint (f : RemoteFrame) : ℕ := f.firstAddress
def frameDataAddr (f : RemoteFrame) : ℕ := f.entryPoint + 1
def exitPoint (f : RemoteFrame) : ℕ := f.frameDataAddr + f.instructions.length
def nextFreeAddr (f : RemoteFrame) : ℕ := f.exitPoint + 1

def write (f : RemoteFrame) : ℕ × List Word :=
  (f.entryPoint, [pack { reg := REG_SP, exp := SP_INC, offset := f.swapCountAddr }] ++ f.words ++
    [pack { reg := REG_SP, exp := SP_JUMP, offset := f.frameDataAddr }])

def linkTo (f next : RemoteFrame) : ℕ × List Word :=
  (f.exitPoint, [pack { reg := REG_SP, exp := SP_JUMP, offset := next.entryPoint }])

end RemoteFrame

def blankFrame : List Instruction :=
  [⟨pack { reg := REG_DDS }, by decide⟩, ⟨pack { reg := REG_DS }, by decide⟩,
    ⟨pack { reg := REG_S, scnt := 1 }, by decide⟩]

structure RemoteFrameQueue where
  vm : VectorMachine
  maxLatency : ℚ
  swapCountAddr : ℕ
  swapCount : Word
  queue : List RemoteFrame
  queueDuration : ℚ
  answer : Option Word

namespace RemoteFrameQueue

def init (vm : VectorMachine) (maxLatency : ℚ) : RemoteFrameQueue :=
  let swapCountAddr := vm.memSize - 1
  let nullFrame : RemoteFrame := ⟨blankFrame, 1, swapCountAddr⟩
  let vm := (vm.stop.write (swapCountAddr, [0])).write nullFrame.write
  { vm := vm.jump nullFrame.frameDataAddr
    maxLatency := maxLatency
    swapCountAddr := swapCountAddr
    swapCount := 0
    queue := [nullFrame]
    queueDuration := nullFrame.duration
    answer := none }

/-- The loop of `_pollSwap`, with the frames that it acknowledges. -/
def retire (swapCount : Word) (q : RemoteFrameQueue) (ackFrames : List RemoteFrame) :
    Except Error (RemoteFrameQueue × List RemoteFrame) :=
  if swapCount = q.swapCount then
    .ok (q, ackFrames)
  else
    match _hq : q.queue with
    | _ :: front :: rest =>
      retire swapCount
        { q with
          swapCount := q.swapCount + 1
          queue := front :: rest
          queueDuration := q.queueDuration - front.duration } (ackFrames ++ [front])
    | _ => .error .assertionFailed
termination_by q.queue.length
decreasing_by
  rw [_hq]
  exact Nat.lt_succ_self _

/-- `_pollSwap` with the next read, which has no answer yet. -/
def pollSwap (swapCount : Word) (q : RemoteFrameQueue) :
    Except Error (RemoteFrameQueue × List RemoteFrame) := do
  let (q, ackFrames) ← q.retire swapCount []
  .ok ({ q with answer := none }, ackFrames)

/-- Where `append` puts a frame after `last`, if there is room for it. -/
def place (q : RemoteFrameQueue) (instructions : List Instruction) (head last : RemoteFrame) :
    Option RemoteFrame :=
  let rf : RemoteFrame := ⟨instructions, last.nextFreeAddr, q.swapCountAddr⟩
  if rf.firstAddress < head.firstAddress ∧ rf.nextFreeAddr > head.firstAddress then
    none
  else if rf.nextFreeAddr > q.swapCountAddr then
    let rf : RemoteFrame := ⟨instructions, 0, q.swapCountAddr⟩
    if rf.nextFreeAddr > head.firstAddress then none else some rf
  else
    some rf

/-- The frame that `append` adds to the queue, and the one before it. -/
def accepts (q : RemoteFrameQueue) (instructions : List Instruction) :
    Except Error (Option (RemoteFrame × RemoteFrame)) :=
  if q.queueDuration ≥ q.maxLatency then
    .ok none
  else
    match q.queue.head?, q.queue.getLast? with
    | some head, some last => .ok ((q.place instructions head last).map fun rf => (last, rf))
    | _, _ => .error .assertionFailed

/-- What `append` writes to the memory of the machine. -/
def writes (prev rf : RemoteFrame) : List (ℕ × List Word) := [rf.write, prev.linkTo rf]

def append (q : RemoteFrameQueue) (instructions : List Instruction) :
    Except Error (RemoteFrameQueue × Bool) := do
  match ← q.accepts instructions with
  | none => .ok (q, false)
  | some (prev, rf) =>
    .ok ({ q with
      queue := q.queue ++ [rf]
      queueDuration := q.queueDuration + rf.duration
      vm := (writes prev rf).foldl .write q.vm }, true)

inductive Event
  | append (instructions : List Instruction)
  | spin
  | answer
  | poll

/-- A call of `append`, an instruction of the machine, its answer to the read of the swap counter,
or the delivery of that. -/
def handle (q : RemoteFrameQueue) : Event → Except Error RemoteFrameQueue
  | .append instructions => do .ok (← q.append instructions).1
  | .spin => .ok { q with vm := q.vm.spin }
  | .answer => .ok { q with answer := q.answer.or (some (q.vm.mem q.swapCountAddr)) }
  | .poll =>
    match q.answer with
    | none => .ok q
    | some swapCount => do .ok (← q.pollSwap swapCount).1

end RemoteFrameQueue

end NaviMisc.LaserProp
