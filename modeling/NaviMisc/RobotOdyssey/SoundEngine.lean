import NaviMisc.Lib.Ring

/-!
The timestamp FIFO of include/soundEngine.h between the two processors:
`writeSpeakerTimestamp` on the ARM9 and `timerCallback` on the ARM7. One step
is one access to the shared `IPCBuffer` by either side.
-/

namespace NaviMisc.RobotOdyssey.SoundEngine

open Lib

def FIFO_SIZE : ℕ := 512

def SAMPLES_PER_FRAME : ℕ := 256

def PC_CLOCK_HZ : ℕ := 4770000

def SAMPLE_RATE : ℕ := 16384

def CLOCKS_PER_SAMPLE : ℕ := PC_CLOCK_HZ / SAMPLE_RATE

inductive Writer
  | idle
  | loadHead (timestamp : BitVec 32)
  | loadTail (timestamp : BitVec 32) (head : ℕ)
  | storeFifo (timestamp : BitVec 32) (head nextHead : ℕ)
  | storeHead (timestamp : BitVec 32) (nextHead : ℕ)

structure Frame where
  remaining : ℕ
  bufPtr : ℕ

/-- Where `timerCallback` stands, with its locals. `startHead` to `startFifo` look for a stream to
start; the others are the loops that generate samples. -/
inductive Reader
  | idle
  | startHead (bufPtr : ℕ)
  | startTail (bufPtr head : ℕ)
  | startTime (bufPtr : ℕ)
  | startFifo (bufPtr tail : ℕ)
  | loopHead (f : Frame)
  | loopTail (f : Frame) (head : ℕ)
  | loadFifo (f : Frame) (head tail : ℕ)
  | storeTail (f : Frame) (tail : ℕ) (timestamp : BitVec 32)
  | reloadHead (f : Frame) (tail : ℕ)

structure State where
  head : ℕ
  tail : ℕ
  fifo : ℕ → BitVec 32
  buffer : ℕ → BitVec 8
  bufferIndex : ℕ
  streaming : Bool
  edgeState : BitVec 8
  currentTime : BitVec 32
  writer : Writer
  reader : Reader
  /-- the timestamps published by a store of `head` and those passed by a store of `tail`, in order -/
  written : List (BitVec 32)
  consumed : List (BitVec 32)

namespace State

def memset (s : State) (bufPtr n : ℕ) : State :=
  { s with buffer := fun i => if bufPtr ≤ i ∧ i < bufPtr + n then s.edgeState else s.buffer i }

def write (s : State) : State :=
  match s.writer with
  | .idle => s
  | .loadHead timestamp => { s with writer := .loadTail timestamp s.head }
  | .loadTail timestamp head =>
    let nextHead := (head + 1) &&& (FIFO_SIZE - 1)
    if nextHead = s.tail then { s with writer := .loadHead timestamp }
    else { s with writer := .storeFifo timestamp head nextHead }
  | .storeFifo timestamp head nextHead =>
    { s with fifo := Function.update s.fifo head timestamp, writer := .storeHead timestamp nextHead }
  | .storeHead timestamp nextHead =>
    { s with head := nextHead, writer := .idle, written := s.written ++ [timestamp] }

def callback (s : State) : State :=
  let bufPtr := s.bufferIndex
  let s := { s with bufferIndex := s.bufferIndex ^^^ SAMPLES_PER_FRAME }
  if s.streaming then { s with reader := .loopHead ⟨SAMPLES_PER_FRAME, bufPtr⟩ }
  else { s with reader := .startHead bufPtr }

def sample (s : State) (f : Frame) : State :=
  let s := { s with
    currentTime := s.currentTime + BitVec.ofNat 32 CLOCKS_PER_SAMPLE
    buffer := Function.update s.buffer f.bufPtr s.edgeState }
  if f.remaining - 1 = 0 then { s with reader := .idle }
  else { s with reader := .loopHead ⟨f.remaining - 1, f.bufPtr + 1⟩ }

def slurp (s : State) (f : Frame) (head tail : ℕ) : State :=
  if head ≠ tail then { s with reader := .loadFifo f head tail } else s.sample f

def read (s : State) : State :=
  match s.reader with
  | .idle => s
  | .startHead bufPtr => { s with reader := .startTail bufPtr s.head }
  | .startTail bufPtr head =>
    if head ≠ s.tail then { s with reader := .startTime bufPtr }
    else { s.memset bufPtr SAMPLES_PER_FRAME with reader := .idle }
  | .startTime bufPtr => { s with reader := .startFifo bufPtr s.tail }
  | .startFifo bufPtr tail =>
    let s := { s with currentTime := s.fifo tail, streaming := true }
    { s.memset bufPtr SAMPLES_PER_FRAME with reader := .idle }
  | .loopHead f => { s with reader := .loopTail f s.head }
  | .loopTail f head =>
    if head = s.tail then
      { s.memset f.bufPtr f.remaining with streaming := false, reader := .idle }
    else s.slurp f head s.tail
  | .loadFifo f _ tail =>
    let timestamp := s.fifo tail
    if (timestamp - s.currentTime).toInt ≤ 0 then
      { s with
        edgeState := s.edgeState ^^^ 0x80
        reader := .storeTail f ((tail + 1) &&& (FIFO_SIZE - 1)) timestamp }
    else s.sample f
  | .storeTail f tail timestamp =>
    { s with tail := tail, reader := .reloadHead f tail, consumed := s.consumed ++ [timestamp] }
  | .reloadHead f tail => s.slurp f s.head tail

end State

inductive Step : State → State → Prop
  | call (s : State) (timestamp : BitVec 32) : s.writer = .idle →
      Step s { s with writer := .loadHead timestamp }
  | write (s : State) : Step s s.write
  | tick (s : State) : s.reader = .idle → Step s s.callback
  | read (s : State) : Step s s.read

def State.count (s : State) : ℕ := (s.head + FIFO_SIZE - s.tail) % FIFO_SIZE

def State.pending (s : State) : List (BitVec 32) := Ring.contents FIFO_SIZE s.fifo s.tail s.count

structure State.Start (s : State) : Prop where
  head : s.head < FIFO_SIZE
  tail : s.tail < FIFO_SIZE
  writer : s.writer = .idle
  reader : s.reader = .idle
  written : s.written = s.pending
  consumed : s.consumed = []

def Writer.Fits (head : ℕ) (fifo : ℕ → BitVec 32) (n : ℕ) : Writer → Prop
  | idle | loadHead _ => True
  | loadTail _ h => h = head
  | storeFifo _ h next => h = head ∧ next = (head + 1) % FIFO_SIZE ∧ n + 1 < FIFO_SIZE
  | storeHead timestamp next => next = (head + 1) % FIFO_SIZE ∧ n + 1 < FIFO_SIZE ∧ fifo head = timestamp

def Reader.Fits (tail : ℕ) (fifo : ℕ → BitVec 32) (n : ℕ) : Reader → Prop
  | idle | startHead _ | startTail _ _ | startTime _ | loopHead _ => True
  | startFifo _ t => t = tail
  | loopTail _ h => ∃ k, k ≤ n ∧ h = (tail + k) % FIFO_SIZE
  | loadFifo _ _ t => t = tail ∧ 0 < n
  | storeTail _ t timestamp => t = (tail + 1) % FIFO_SIZE ∧ 0 < n ∧ fifo tail = timestamp
  | reloadHead _ t => t = tail

structure State.Inv (s : State) (n : ℕ) : Prop where
  count_lt : n < FIFO_SIZE
  tail_lt : s.tail < FIFO_SIZE
  head : s.head = (s.tail + n) % FIFO_SIZE
  written : s.written = s.consumed ++ Ring.contents FIFO_SIZE s.fifo s.tail n
  writer : s.writer.Fits s.head s.fifo n
  reader : s.reader.Fits s.tail s.fifo n

theorem and_mask (n : ℕ) : n &&& (FIFO_SIZE - 1) = n % FIFO_SIZE := Nat.and_two_pow_sub_one_eq_mod n 9

theorem Writer.Fits.drop {w : Writer} {head n : ℕ} {fifo : ℕ → BitVec 32} (h : w.Fits head fifo (n + 1)) :
    w.Fits head fifo n := by
  cases w with
  | storeFifo timestamp head next => exact ⟨h.1, h.2.1, Nat.lt_of_succ_lt h.2.2⟩
  | storeHead timestamp next => exact ⟨h.1, Nat.lt_of_succ_lt h.2.1, h.2.2⟩
  | _ => exact h

theorem Reader.Fits.grow {r : Reader} {tail n : ℕ} {fifo : ℕ → BitVec 32} (h : r.Fits tail fifo n) :
    r.Fits tail fifo (n + 1) := by
  cases r with
  | loopTail f head =>
    obtain ⟨k, hk, hhead⟩ := h
    exact ⟨k, Nat.le_succ_of_le hk, hhead⟩
  | loadFifo f head t => exact ⟨h.1, Nat.succ_pos n⟩
  | storeTail f t timestamp => exact ⟨h.1, Nat.succ_pos n, h.2.2⟩
  | _ => exact h

namespace State.Inv

variable {s : State} {n : ℕ}

theorem slot_ne_head (h : s.Inv n) {i : ℕ} (hi : i < n) : (s.tail + i) % FIFO_SIZE ≠ s.head := by
  intro heq
  rw [h.head] at heq
  exact Nat.ne_of_lt hi (Ring.slot_injective (hi.trans h.count_lt) h.count_lt heq)

theorem tail_ne_head (h : s.Inv n) (hn : 0 < n) : s.tail ≠ s.head := by
  have hne := h.slot_ne_head hn
  rwa [Nat.add_zero, Nat.mod_eq_of_lt h.tail_lt] at hne

theorem congr {s' : State} (h : s.Inv n) (hhead : s'.head = s.head) (htail : s'.tail = s.tail)
    (hfifo : s'.fifo = s.fifo) (hwritten : s'.written = s.written) (hconsumed : s'.consumed = s.consumed)
    (hwriter : s'.writer.Fits s.head s.fifo n) (hreader : s'.reader.Fits s.tail s.fifo n) : s'.Inv n := by
  refine ⟨h.count_lt, ?_, ?_, ?_, ?_, ?_⟩
  · rw [htail]
    exact h.tail_lt
  · rw [hhead, htail]
    exact h.head
  · rw [hwritten, hconsumed, hfifo, htail]
    exact h.written
  · rw [hhead, hfifo]
    exact hwriter
  · rw [htail, hfifo]
    exact hreader

theorem write (h : s.Inv n) : ∃ n', s.write.Inv n' := by
  have hfits := h.writer
  unfold State.write
  split
  · exact ⟨n, h⟩
  · exact ⟨n, h.congr rfl rfl rfl rfl rfl rfl h.reader⟩
  · rename_i timestamp head hpc
    rw [hpc] at hfits
    have hhead : head = s.head := hfits
    by_cases hfull : (head + 1) &&& (FIFO_SIZE - 1) = s.tail
    · rw [if_pos hfull]
      exact ⟨n, h.congr rfl rfl rfl rfl rfl trivial h.reader⟩
    · rw [if_neg hfull]
      refine ⟨n, h.congr rfl rfl rfl rfl rfl ⟨hhead, ?_, ?_⟩ h.reader⟩
      · rw [and_mask, hhead]
      · have hlt := h.count_lt
        have htail := h.tail_lt
        rw [and_mask, hhead, h.head] at hfull
        simp only [FIFO_SIZE] at *
        omega
  · rename_i timestamp head next hpc
    rw [hpc] at hfits
    obtain ⟨rfl, hnext, hroom⟩ := hfits
    refine ⟨n, h.count_lt, h.tail_lt, h.head, ?_, ⟨hnext, hroom, Function.update_self ..⟩, ?_⟩
    · change s.written = s.consumed ++ Ring.contents FIFO_SIZE (Function.update s.fifo s.head timestamp) s.tail n
      rw [h.written, h.head, Ring.contents_update _ _ h.count_lt]
    · have hreader := h.reader
      change s.reader.Fits s.tail (Function.update s.fifo s.head timestamp) n
      cases hr : s.reader with
      | storeTail f t v =>
        rw [hr] at hreader
        obtain ⟨ht, hn, hv⟩ := hreader
        exact ⟨ht, hn, (Function.update_of_ne (h.tail_ne_head hn) ..).trans hv⟩
      | _ =>
        rw [hr] at hreader
        exact hreader
  · rename_i timestamp next hpc
    rw [hpc] at hfits
    obtain ⟨hnext, hroom, hslot⟩ := hfits
    refine ⟨n + 1, hroom, h.tail_lt, ?_, ?_, trivial, h.reader.grow⟩
    · change next = (s.tail + (n + 1)) % FIFO_SIZE
      rw [hnext, h.head, Nat.mod_add_mod, Nat.add_assoc]
    · change s.written ++ [timestamp] = s.consumed ++ Ring.contents FIFO_SIZE s.fifo s.tail (n + 1)
      rw [h.written, Ring.contents_succ, ← h.head, hslot, List.append_assoc]

theorem memset_idle (h : s.Inv n) (bufPtr k : ℕ) :
    ({ s.memset bufPtr k with reader := .idle } : State).Inv n :=
  h.congr rfl rfl rfl rfl rfl h.writer trivial

theorem sample (h : s.Inv n) (f : Frame) : (s.sample f).Inv n := by
  unfold State.sample
  split
  · exact h.congr rfl rfl rfl rfl rfl h.writer trivial
  · exact h.congr rfl rfl rfl rfl rfl h.writer trivial

theorem slurp (h : s.Inv n) (f : Frame) {head tail : ℕ} (ht : tail = s.tail)
    (hhead : ∃ k, k ≤ n ∧ head = (s.tail + k) % FIFO_SIZE) : (s.slurp f head tail).Inv n := by
  unfold State.slurp
  split
  · rename_i hne
    obtain ⟨k, hk, rfl⟩ := hhead
    refine h.congr rfl rfl rfl rfl rfl h.writer ⟨ht, ?_⟩
    apply Nat.pos_of_ne_zero
    rintro rfl
    rw [Nat.le_zero.mp hk, ht, Nat.add_zero, Nat.mod_eq_of_lt h.tail_lt] at hne
    exact hne rfl
  · exact h.sample f

theorem callback (h : s.Inv n) : s.callback.Inv n := by
  unfold State.callback
  dsimp only
  split
  · exact h.congr rfl rfl rfl rfl rfl h.writer trivial
  · exact h.congr rfl rfl rfl rfl rfl h.writer trivial

theorem read (h : s.Inv n) : ∃ n', s.read.Inv n' := by
  have hfits := h.reader
  unfold State.read
  split
  · exact ⟨n, h⟩
  · exact ⟨n, h.congr rfl rfl rfl rfl rfl h.writer trivial⟩
  · split
    · exact ⟨n, h.congr rfl rfl rfl rfl rfl h.writer trivial⟩
    · exact ⟨n, h.memset_idle ..⟩
  · exact ⟨n, h.congr rfl rfl rfl rfl rfl h.writer rfl⟩
  · exact ⟨n, h.congr rfl rfl rfl rfl rfl h.writer trivial⟩
  · exact ⟨n, h.congr rfl rfl rfl rfl rfl h.writer ⟨n, Nat.le_refl n, h.head⟩⟩
  · rename_i f head hpc
    rw [hpc] at hfits
    split
    · exact ⟨n, h.congr rfl rfl rfl rfl rfl h.writer trivial⟩
    · exact ⟨n, h.slurp f rfl hfits⟩
  · rename_i f head tail hpc
    rw [hpc] at hfits
    obtain ⟨rfl, hn⟩ := hfits
    dsimp only
    split
    · exact ⟨n, h.congr rfl rfl rfl rfl rfl h.writer ⟨and_mask _, hn, rfl⟩⟩
    · exact ⟨n, h.sample f⟩
  · -- the element at the tail leaves the queue
    rename_i f tail timestamp hpc
    rw [hpc] at hfits
    obtain ⟨rfl, hn, htime⟩ := hfits
    obtain ⟨m, rfl⟩ := Nat.exists_eq_add_of_le' hn
    refine ⟨m, Nat.lt_of_succ_lt h.count_lt, Nat.mod_lt _ (by decide), ?_, ?_, h.writer.drop, rfl⟩
    · change s.head = ((s.tail + 1) % FIFO_SIZE + m) % FIFO_SIZE
      rw [h.head, Nat.mod_add_mod, Nat.add_assoc, Nat.add_comm 1 m]
    · change s.written = (s.consumed ++ [timestamp]) ++
        Ring.contents FIFO_SIZE s.fifo ((s.tail + 1) % FIFO_SIZE) m
      rw [h.written, Ring.contents_cons, Nat.mod_eq_of_lt h.tail_lt, htime, List.append_assoc]
      rfl
  · rename_i f tail hpc
    rw [hpc] at hfits
    exact ⟨n, h.slurp f hfits ⟨n, Nat.le_refl n, h.head⟩⟩

theorem step {s' : State} (h : s.Inv n) (hstep : Step s s') : ∃ n', s'.Inv n' := by
  cases hstep with
  | call timestamp hidle => exact ⟨n, h.congr rfl rfl rfl rfl rfl trivial h.reader⟩
  | write => exact h.write
  | tick hidle => exact ⟨n, h.callback⟩
  | read => exact h.read

theorem count_eq (h : s.Inv n) : s.count = n := by
  have hlt := h.count_lt
  have htail := h.tail_lt
  rw [State.count, h.head]
  simp only [FIFO_SIZE] at *
  omega

end State.Inv

theorem State.Start.inv {s : State} (h : s.Start) : s.Inv s.count := by
  refine ⟨Nat.mod_lt _ (by decide), h.tail, ?_, ?_, ?_, ?_⟩
  · have hhead := h.head
    have htail := h.tail
    rw [State.count]
    simp only [FIFO_SIZE] at *
    omega
  · rw [h.written, h.consumed]
    rfl
  · rw [h.writer]
    trivial
  · rw [h.reader]
    trivial

theorem inv_of_reachable {s₀ s : State} (h₀ : s₀.Start) (h : Relation.ReflTransGen Step s₀ s) :
    ∃ n, s.Inv n := by
  induction h with
  | refl => exact ⟨_, h₀.inv⟩
  | tail _ hstep ih =>
    obtain ⟨n, hn⟩ := ih
    exact hn.step hstep

/-- In every interleaving what was written is what was consumed followed by what is pending, in
order; the FIFO holds at most `FIFO_SIZE - 1` timestamps; and a store into `fifo` never hits a slot
that is pending. -/
theorem fifo_exact {s₀ s : State} (h₀ : s₀.Start) (h : Relation.ReflTransGen Step s₀ s) :
    s.written = s.consumed ++ s.pending ∧ s.written.length ≤ s.consumed.length + (FIFO_SIZE - 1) ∧
      s.head < FIFO_SIZE ∧ s.tail < FIFO_SIZE ∧
      ∀ timestamp head next, s.writer = .storeFifo timestamp head next →
        head < FIFO_SIZE ∧ ∀ i, i < s.count → (s.tail + i) % FIFO_SIZE ≠ head := by
  obtain ⟨n, hn⟩ := inv_of_reachable h₀ h
  have hwritten : s.written = s.consumed ++ s.pending := by rw [State.pending, hn.count_eq, hn.written]
  have hhead : s.head < FIFO_SIZE := by
    rw [hn.head]
    exact Nat.mod_lt _ (by decide)
  refine ⟨hwritten, ?_, hhead, hn.tail_lt, ?_⟩
  · rw [hwritten, List.length_append, State.pending, Ring.length_contents, hn.count_eq]
    exact Nat.add_le_add_left (Nat.le_pred_of_lt hn.count_lt) _
  · intro timestamp head next hpc
    have hfits := hn.writer
    rw [hpc] at hfits
    rw [hfits.1, hn.count_eq]
    exact ⟨hhead, fun i hi => hn.slot_ne_head hi⟩

def State.initial : State where
  head := 0
  tail := 0
  fifo := fun _ => 0
  buffer := fun _ => 0
  bufferIndex := 0
  streaming := false
  edgeState := 0
  currentTime := 0
  writer := .idle
  reader := .idle
  written := []
  consumed := []

theorem fifo_exact_initial :
    let s := ({ State.initial with writer := .loadHead 7 } : State).write.write.write.write
    s.written = [7] ∧ s.written = s.consumed ++ s.pending := by
  have hstep (s : State) : Relation.ReflTransGen Step s s.write := .single (.write s)
  have hcall : Relation.ReflTransGen Step State.initial { State.initial with writer := .loadHead 7 } :=
    .single (.call _ 7 rfl)
  have hrun := (((hcall.trans (hstep _)).trans (hstep _)).trans (hstep _)).trans (hstep _)
  have hstart : State.initial.Start := ⟨by decide, by decide, rfl, rfl, rfl, rfl⟩
  exact ⟨rfl, (fifo_exact hstart hrun).1⟩

end NaviMisc.RobotOdyssey.SoundEngine
