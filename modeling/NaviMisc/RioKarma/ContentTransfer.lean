import Mathlib.Data.List.Count
import Mathlib.Tactic.Ring

/-!
`ContentTransfer` of `RioKarma/Filesystem.py` on the throttled request queue of
`RioKarma/Pearl.py`.
-/

namespace NaviMisc.RioKarma.ContentTransfer

abbrev Chunk := ℕ × ℕ

/-- `last` is the chunk whose success is chained to the result of the transfer. -/
inductive Owner
  | chunk (chunk : Chunk) (last : Bool)
  | other

structure QueuedRequest where
  owner : Owner
  called : Bool

/-- What may wait for the queue: `_next`, or a client that sends as many requests as the head of
its list says, and waits again. -/
inductive Callable
  | next
  | other (sends : List ℕ)
  deriving DecidableEq

/-- The protocol with its transfer. `fired` are the calls of `result.callback` and
`result.errback`; `requested` and `replies` are kept for the record. -/
structure State where
  preferredBacklog : ℕ
  requestQueue : List QueuedRequest
  queueListeners : List Callable
  blockSize : ℕ
  blockSize_pos : 0 < blockSize
  offset : ℕ
  remaining : ℕ
  fired : List Bool
  requested : List Chunk
  replies : List (Chunk × Bool)

abbrev Stack := List Callable

def checkQueueListeners (s : State) (stack : Stack) : State × Stack :=
  if s.requestQueue.length < s.preferredBacklog then
    ({ s with queueListeners := [] }, s.queueListeners ++ stack)
  else (s, stack)

def throttle (s : State) (callable : Callable) (stack : Stack) : State × Stack :=
  checkQueueListeners { s with queueListeners := s.queueListeners ++ [callable] } stack

def sent (s : State) : State :=
  let chunkLen := min s.remaining s.blockSize
  { s with
    requestQueue := s.requestQueue ++
      [⟨.chunk (s.offset, chunkLen) (s.remaining - chunkLen = 0), false⟩]
    requested := s.requested ++ [(s.offset, chunkLen)]
    remaining := s.remaining - chunkLen
    offset := s.offset + chunkLen }

def next (s : State) (stack : Stack) : State × Stack :=
  if s.fired ≠ [] then (s, stack)
  else if s.remaining = 0 then ({ s with fired := s.fired ++ [true] }, stack)
  else if (sent s).remaining = 0 then (sent s, stack)
  else throttle (sent s) .next stack

def call : Callable → State → Stack → State × Stack
  | .next, s, stack => next s stack
  | .other [], s, stack => (s, stack)
  | .other (n :: sends), s, stack =>
    throttle { s with requestQueue := s.requestQueue ++ List.replicate n ⟨.other, false⟩ }
      (.other sends) stack

def Callable.weight : Callable → ℕ
  | .next => 1
  | .other sends => sends.length + 1

def weight (s : State) (stack : Stack) : ℕ :=
  s.remaining + (stack.map Callable.weight).sum + (s.queueListeners.map Callable.weight).sum

theorem weight_check (s : State) (stack : Stack) :
    weight (checkQueueListeners s stack).1 (checkQueueListeners s stack).2 = weight s stack := by
  rw [checkQueueListeners]
  split
  · simp only [weight, List.map_append, List.sum_append, List.map_nil, List.sum_nil]
    omega
  · rfl

theorem weight_throttle (s : State) (callable : Callable) (stack : Stack) :
    weight (throttle s callable stack).1 (throttle s callable stack).2 =
      weight s stack + callable.weight := by
  rw [throttle, weight_check]
  simp only [weight, List.map_append, List.sum_append, List.map_cons, List.map_nil, List.sum_cons,
    List.sum_nil]
  omega

theorem weight_call (c : Callable) (s : State) (stack : Stack) :
    weight (call c s stack).1 (call c s stack).2 < weight s (c :: stack) := by
  have hcons : weight s (c :: stack) = weight s stack + c.weight := by
    simp only [weight, List.map_cons, List.sum_cons]
    omega
  rw [hcons]
  cases c with
  | next =>
    have hpos := s.blockSize_pos
    rw [call, next]
    split
    · exact Nat.lt_succ_self _
    split
    · exact Nat.lt_succ_self _
    split
    · simp only [weight, sent, Callable.weight]
      omega
    · rw [weight_throttle]
      simp only [weight, sent, Callable.weight]
      omega
  | other sends =>
    cases sends with
    | nil => exact Nat.lt_succ_self _
    | cons n sends =>
      rw [call, weight_throttle]
      simp only [weight, Callable.weight, List.length_cons]
      omega

def callAll (s : State) : Stack → State
  | [] => s
  | c :: stack => callAll (call c s stack).1 (call c s stack).2
termination_by stack => weight s stack
decreasing_by exact weight_call c s stack

inductive Event
  | reply (success : Bool)
  | drop
  | send
  | throttle (sends : List ℕ)

/-- The result of the request at the head is fired. An error that comes after the result of the
transfer is kept from it, as is the error of calling it back twice. -/
def reply (s : State) (success : Bool) : State :=
  match s.requestQueue with
  | ⟨.chunk chunk last, false⟩ :: queue =>
    { s with
      requestQueue := ⟨.chunk chunk last, true⟩ :: queue
      replies := s.replies ++ [(chunk, success)]
      fired :=
        if s.fired ≠ [] then s.fired
        else if success then (if last then s.fired ++ [true] else s.fired)
        else s.fired ++ [false] }
  | ⟨.other, false⟩ :: queue => { s with requestQueue := ⟨.other, true⟩ :: queue }
  | _ => s

def drop (s : State) : State :=
  match s.requestQueue with
  | ⟨_, true⟩ :: queue =>
    let (s, stack) := checkQueueListeners { s with requestQueue := queue } []
    callAll s stack
  | _ => s

def step (s : State) : Event → State
  | .reply success => reply s success
  | .drop => drop s
  | .send => { s with requestQueue := s.requestQueue ++ [⟨.other, false⟩] }
  | .throttle sends =>
    let (s, stack) := throttle s (.other sends) []
    callAll s stack

def start (preferredBacklog length blockSize : ℕ) (h : 0 < blockSize) (called : List Bool)
    (listeners : List (List ℕ)) : State :=
  callAll
    { preferredBacklog
      requestQueue := called.map fun called => ⟨.other, called⟩
      queueListeners := listeners.map .other
      blockSize
      blockSize_pos := h
      offset := 0
      remaining := length
      fired := []
      requested := []
      replies := [] } [.next]

def partition (length blockSize : ℕ) : List Chunk :=
  (List.range ((length + blockSize - 1) / blockSize)).map fun i =>
    (i * blockSize, min blockSize (length - i * blockSize))

section partition

variable {length blockSize k : ℕ}

theorem take_partition_succ (hpos : 0 < blockSize) (h : k * blockSize < length) :
    (partition length blockSize).take (k + 1) = (partition length blockSize).take k ++
      [(k * blockSize, min blockSize (length - k * blockSize))] := by
  have hk : k < (length + blockSize - 1) / blockSize := by
    apply (Nat.le_div_iff_mul_le hpos).mpr
    rw [Nat.succ_mul]
    omega
  rw [partition, ← List.map_take, ← List.map_take, List.take_range, List.take_range,
    Nat.min_eq_left hk, Nat.min_eq_left hk.le, List.range_succ, List.map_append]
  rfl

theorem take_partition (hpos : 0 < blockSize) (h : length ≤ k * blockSize) :
    (partition length blockSize).take k = partition length blockSize := by
  apply List.take_of_length_le
  rw [partition, List.length_map, List.length_range]
  apply Nat.le_of_lt_succ
  apply (Nat.div_lt_iff_lt_mul hpos).mpr
  rw [Nat.succ_mul]
  omega

end partition

def pending (requestQueue : List QueuedRequest) : List (Chunk × Bool) :=
  requestQueue.filterMap fun
    | ⟨.chunk chunk last, false⟩ => some (chunk, last)
    | _ => none

inductive Truthful (blocks : List Chunk) : List Bool → List (Chunk × Bool) → Prop
  | running {replies : List (Chunk × Bool)} (h : ∀ r ∈ replies, r.2 = true) : Truthful blocks [] replies
  | succeeded {replies : List (Chunk × Bool)} (h : replies = blocks.map fun chunk => (chunk, true)) :
    Truthful blocks [true] replies
  | failed {replies : List (Chunk × Bool)} (h : ∃ r ∈ replies, r.2 = false) :
    Truthful blocks [false] replies

structure Inv (length blockSize : ℕ) (s : State) (stack : Stack) : Prop where
  size : s.blockSize = blockSize
  requested : s.requested = (partition length blockSize).take s.requested.length
  offset : s.offset = min (s.requested.length * blockSize) length
  remaining : s.offset + s.remaining = length
  replied : s.replies.map Prod.fst ++ (pending s.requestQueue).map Prod.fst = s.requested
  early : ∀ c ∈ (pending s.requestQueue).dropLast, c.2 = false
  late : ∀ c ∈ pending s.requestQueue, c.2 = true → s.remaining = 0
  once : (stack ++ s.queueListeners).count .next ≤ 1
  stopped : s.remaining = 0 → length ≠ 0 → .next ∉ stack ++ s.queueListeners
  truthful : Truthful (partition length blockSize) s.fired s.replies

section invariant

variable {length blockSize : ℕ} {s : State} {stack : Stack}

theorem Inv.check (h : Inv length blockSize s stack) :
    Inv length blockSize (checkQueueListeners s stack).1 (checkQueueListeners s stack).2 := by
  rw [checkQueueListeners]
  split
  · refine ⟨h.size, h.requested, h.offset, h.remaining, h.replied, h.early, h.late, ?_, ?_, h.truthful⟩
    · have honce := h.once
      simp only [List.append_nil]
      rw [List.count_append] at honce ⊢
      omega
    · intro hremaining hlength
      have hstopped := h.stopped hremaining hlength
      simp only [List.append_nil]
      rwa [List.mem_append, or_comm, ← List.mem_append]
  · exact h

theorem pending_append (q q' : List QueuedRequest) : pending (q ++ q') = pending q ++ pending q' :=
  List.filterMap_append

theorem pending_other (n : ℕ) (called : Bool) : pending (List.replicate n ⟨.other, called⟩) = [] := by
  rw [pending, List.filterMap_eq_nil_iff]
  intro r hr
  rw [List.eq_of_mem_replicate hr]

theorem Inv.other (h : Inv length blockSize s stack) {q : List QueuedRequest} (hq : pending q = [])
    {listeners : List Callable} (hlisteners : .next ∉ listeners) :
    Inv length blockSize { s with
      requestQueue := s.requestQueue ++ q, queueListeners := s.queueListeners ++ listeners } stack where
  size := h.size
  requested := h.requested
  offset := h.offset
  remaining := h.remaining
  replied := by
    simp only [pending_append, hq, List.append_nil]
    exact h.replied
  early := by
    simp only [pending_append, hq, List.append_nil]
    exact h.early
  late := by
    simp only [pending_append, hq, List.append_nil]
    exact h.late
  once := by
    have honce := h.once
    simp only [List.count_append, List.count_eq_zero.mpr hlisteners, Nat.add_zero] at honce ⊢
    exact honce
  stopped := by
    intro hremaining hlength
    have hstopped := h.stopped hremaining hlength
    simp only [← List.append_assoc]
    rw [List.mem_append, not_or]
    exact ⟨hstopped, hlisteners⟩
  truthful := h.truthful

theorem Inv.tail {c : Callable} (h : Inv length blockSize s (c :: stack)) : Inv length blockSize s stack where
  size := h.size
  requested := h.requested
  offset := h.offset
  remaining := h.remaining
  replied := h.replied
  early := h.early
  late := h.late
  once := le_trans (List.count_le_count_cons) h.once
  stopped hremaining hlength hmem := h.stopped hremaining hlength (List.mem_cons_of_mem c hmem)
  truthful := h.truthful

theorem Inv.empty (h : Inv length blockSize s (.next :: stack)) (hremaining : s.remaining = 0) :
    s.replies = (partition length blockSize).map fun chunk => (chunk, true) := by
  have hlength : length = 0 := by
    by_contra hlength
    exact h.stopped hremaining hlength List.mem_cons_self
  have hpartition : partition length blockSize = [] := by
    rw [← take_partition (h.size ▸ s.blockSize_pos) (k := 0) (by omega), List.take_zero]
  have hrequested := h.requested
  have hreplied := h.replied
  rw [hrequested, hpartition, List.take_nil, List.append_eq_nil_iff, List.map_eq_nil_iff] at hreplied
  rw [hreplied.1, hpartition]
  rfl

theorem Inv.sent (h : Inv length blockSize s (.next :: stack)) (hremaining : s.remaining ≠ 0) :
    Inv length blockSize (sent s) stack := by
  have hlength := h.remaining
  have hpos := s.blockSize_pos
  obtain rfl := h.size
  have hoffset : s.offset = s.requested.length * s.blockSize := by
    have := h.offset
    omega
  have hchunk : min s.remaining s.blockSize =
      min s.blockSize (length - s.requested.length * s.blockSize) := by omega
  -- The last block of all is not among those that wait, for something remains.
  have hlate : ∀ c ∈ pending s.requestQueue, c.2 = false := by
    intro c hc
    rw [← Bool.not_eq_true]
    exact fun hlast => hremaining (h.late c hc hlast)
  refine ⟨rfl, ?_, ?_, ?_, ?_, ?_, ?_, h.tail.once, ?_, h.truthful⟩
  · simp only [ContentTransfer.sent, List.length_append, List.length_singleton]
    rw [take_partition_succ hpos (by omega), ← h.requested, hoffset, hchunk]
  · simp only [ContentTransfer.sent, List.length_append, List.length_singleton, Nat.succ_mul]
    omega
  · simp only [ContentTransfer.sent]
    omega
  · simp only [ContentTransfer.sent, pending_append, List.map_append]
    rw [← List.append_assoc, h.replied]
    rfl
  · simp only [ContentTransfer.sent, pending_append]
    intro c hc
    change c ∈ (pending s.requestQueue ++ [_]).dropLast at hc
    rw [List.dropLast_concat] at hc
    exact hlate c hc
  · simp only [ContentTransfer.sent, pending_append]
    intro c hc hlast
    rcases List.mem_append.mp hc with hc | hc
    · rw [hlate c hc] at hlast
      cases hlast
    · rw [List.mem_singleton.mp hc] at hlast
      exact of_decide_eq_true hlast
  · intro _ _ hmem
    have honce := h.once
    rw [List.cons_append, List.count_cons_self] at honce
    have := List.count_pos_iff.mpr hmem
    simp only [ContentTransfer.sent] at this
    omega

theorem Inv.next (h : Inv length blockSize s (.next :: stack)) :
    Inv length blockSize (next s stack).1 (next s stack).2 := by
  rw [ContentTransfer.next]
  split
  · exact h.tail
  rename_i hrunning
  rw [not_not] at hrunning
  split
  · rename_i hremaining
    have htail := h.tail
    refine ⟨htail.size, htail.requested, htail.offset, htail.remaining, htail.replied, htail.early, htail.late,
      htail.once, htail.stopped, ?_⟩
    simp only [hrunning, List.nil_append]
    exact Truthful.succeeded (h.empty hremaining)
  rename_i hremaining
  have hsent := h.sent hremaining
  split
  · exact hsent
  rename_i hmore
  apply Inv.check
  refine ⟨hsent.size, hsent.requested, hsent.offset, hsent.remaining, hsent.replied, hsent.early, hsent.late,
    ?_, fun hnone => absurd hnone hmore, hsent.truthful⟩
  have honce := h.once
  rw [List.cons_append, List.count_cons_self] at honce
  rw [← List.append_assoc, List.count_append, List.count_singleton_self]
  exact honce

theorem Inv.call {c : Callable} (h : Inv length blockSize s (c :: stack)) :
    Inv length blockSize (call c s stack).1 (call c s stack).2 := by
  cases c with
  | next => exact h.next
  | other sends =>
    cases sends with
    | nil => exact h.tail
    | cons n sends =>
      apply Inv.check
      exact h.tail.other (pending_other n false) (by simp)

theorem Inv.callAll (h : Inv length blockSize s stack) : Inv length blockSize (callAll s stack) [] := by
  induction s, stack using callAll.induct with
  | case1 s =>
    rw [ContentTransfer.callAll]
    exact h
  | case2 s c stack ih =>
    rw [ContentTransfer.callAll]
    exact ih h.call

theorem Inv.start (preferredBacklog : ℕ) (hpos : 0 < blockSize) (called : List Bool)
    (listeners : List (List ℕ)) :
    Inv length blockSize (start preferredBacklog length blockSize hpos called listeners) [] := by
  have hpending : pending (called.map fun called => ⟨.other, called⟩) = [] := by
    rw [pending, List.filterMap_map]
    exact List.filterMap_eq_nil_iff.mpr fun _ _ => rfl
  have hother : .next ∉ listeners.map Callable.other := by simp
  apply Inv.callAll
  refine ⟨rfl, rfl, ?_, Nat.zero_add _, ?_, ?_, ?_, ?_, ?_, .running (by simp)⟩
  · simp only [List.length_nil, Nat.zero_mul, Nat.zero_min]
  · simp only [hpending, List.map_nil, List.append_nil]
  · simp [hpending]
  · simp [hpending]
  · rw [List.count_append, List.count_eq_zero.mpr hother, List.count_singleton_self]
  · exact fun hremaining hlength => absurd hremaining hlength

theorem Inv.drop (h : Inv length blockSize s []) : Inv length blockSize (drop s) [] := by
  rw [ContentTransfer.drop]
  split
  · rename_i owner queue hqueue
    have hpending : pending queue = pending s.requestQueue := by
      rw [hqueue]
      cases owner <;> rfl
    apply Inv.callAll
    apply Inv.check
    refine ⟨h.size, h.requested, h.offset, h.remaining, ?_, ?_, ?_, h.once, h.stopped, h.truthful⟩
    · simp only [hpending, h.replied]
    · simp only [hpending]
      exact h.early
    · simp only [hpending]
      exact h.late
  · exact h

theorem Inv.last {chunk : Chunk} {queue : List QueuedRequest} (h : Inv length blockSize s stack)
    (hqueue : pending s.requestQueue = (chunk, true) :: pending queue) :
    pending queue = [] ∧ s.replies.map Prod.fst ++ [chunk] = partition length blockSize := by
  have hnone : pending queue = [] := by
    by_contra hsome
    have hearly := h.early (chunk, true) <| by
      rw [hqueue, List.dropLast_cons_of_ne_nil hsome]
      exact List.mem_cons_self
    cases hearly
  have hremaining : s.remaining = 0 := h.late (chunk, true) (hqueue ▸ List.mem_cons_self) rfl
  have hall : s.requested = partition length blockSize := by
    have hoffset := h.offset
    have hlength := h.remaining
    rw [h.requested]
    apply take_partition (h.size ▸ s.blockSize_pos)
    omega
  have hreplied := h.replied
  rw [hqueue, hnone, hall] at hreplied
  exact ⟨hnone, hreplied⟩

theorem Inv.not_succeeded {c : Chunk × Bool} {queue : List (Chunk × Bool)}
    (h : Inv length blockSize s stack) (hqueue : pending s.requestQueue = c :: queue) :
    s.replies ≠ (partition length blockSize).map fun chunk => (chunk, true) := by
  intro hreplies
  have hlength := congrArg List.length h.replied
  have hrequested := congrArg List.length h.requested
  rw [hqueue, hreplies, List.length_append] at hlength
  rw [List.length_take] at hrequested
  simp only [List.length_map, List.length_cons] at hlength
  omega

theorem eq_map_true {replies : List (Chunk × Bool)} (h : ∀ r ∈ replies, r.2 = true) :
    replies = (replies.map Prod.fst).map fun chunk => (chunk, true) := by
  rw [List.map_map]
  conv_lhs => rw [← List.map_id replies]
  apply List.map_congr_left
  intro r hr
  exact Prod.ext rfl (h r hr)

theorem Inv.reply (h : Inv length blockSize s stack) (success : Bool) :
    Inv length blockSize (reply s success) stack := by
  rw [ContentTransfer.reply]
  split
  · rename_i chunk last queue hqueue
    have hpending : pending s.requestQueue = (chunk, last) :: pending queue := by
      rw [hqueue]
      rfl
    have hcalled : pending (⟨.chunk chunk last, true⟩ :: queue) = pending queue := rfl
    refine ⟨h.size, h.requested, h.offset, h.remaining, ?_, ?_, ?_, h.once, h.stopped, ?_⟩
    · simp only [hcalled, List.map_append]
      rw [← h.replied, hpending, List.append_assoc]
      rfl
    · simp only [hcalled]
      intro c hc
      apply h.early c
      have hsome : pending queue ≠ [] := List.ne_nil_of_mem (List.dropLast_subset _ hc)
      rw [hpending, List.dropLast_cons_of_ne_nil hsome]
      exact List.mem_cons_of_mem _ hc
    · simp only [hcalled]
      intro c hc
      exact h.late c (hpending ▸ List.mem_cons_of_mem _ hc)
    · have htruthful := h.truthful
      simp only
      generalize hfired : s.fired = fired at htruthful ⊢
      cases htruthful with
      | succeeded hreplies => exact absurd hreplies (h.not_succeeded hpending)
      | failed hfailed =>
        obtain ⟨r, hr, hfailed⟩ := hfailed
        rw [if_pos (by simp)]
        exact Truthful.failed ⟨r, List.mem_append_left _ hr, hfailed⟩
      | running hsucceeded =>
        rw [if_neg (by simp), List.nil_append]
        cases success with
        | false =>
          exact Truthful.failed ⟨(chunk, false), List.mem_append_right _ List.mem_cons_self, rfl⟩
        | true =>
          have hall : ∀ r ∈ s.replies ++ [(chunk, true)], r.2 = true := by
            intro r hr
            rcases List.mem_append.mp hr with hr | hr
            · exact hsucceeded r hr
            · rw [List.mem_singleton.mp hr]
          cases last with
          | false => exact Truthful.running hall
          | true =>
            apply Truthful.succeeded
            rw [eq_map_true hall, List.map_append, ← (h.last hpending).2]
            rfl
  · rename_i queue hqueue
    have hpending : pending s.requestQueue = pending (⟨.other, true⟩ :: queue) := by
      rw [hqueue]
      rfl
    refine ⟨h.size, h.requested, h.offset, h.remaining, ?_, ?_, ?_, h.once, h.stopped, h.truthful⟩
    · simp only [← hpending, h.replied]
    · simp only [← hpending]
      exact h.early
    · simp only [← hpending]
      exact h.late
  · exact h

theorem Inv.step (h : Inv length blockSize s []) (event : Event) :
    Inv length blockSize (step s event) [] := by
  cases event with
  | reply success => exact h.reply success
  | drop => exact h.drop
  | send =>
    have hother := h.other (pending_other 1 false) List.not_mem_nil
    rwa [List.append_nil] at hother
  | throttle sends =>
    apply Inv.callAll
    apply Inv.check
    have hlisteners : Callable.next ∉ [Callable.other sends] := by simp
    have hother := h.other (pending_other 0 false) hlisteners
    rwa [List.replicate_zero, List.append_nil] at hother

theorem Inv.run (h : Inv length blockSize s []) (events : List Event) :
    Inv length blockSize (events.foldl ContentTransfer.step s) [] := by
  induction events generalizing s with
  | nil => exact h
  | cons event events ih => exact ih (h.step event)

end invariant

theorem Truthful.length_le {blocks : List Chunk} {fired : List Bool} {replies : List (Chunk × Bool)}
    (h : Truthful blocks fired replies) : fired.length ≤ 1 := by
  cases h <;> simp

theorem Truthful.success {blocks : List Chunk} {fired : List Bool} {replies : List (Chunk × Bool)}
    (h : Truthful blocks fired replies) (hfired : true ∈ fired) :
    replies = blocks.map fun chunk => (chunk, true) := by
  cases h with
  | running _ => cases hfired
  | succeeded h => exact h
  | failed _ => simp at hfired

theorem Truthful.failure {blocks : List Chunk} {fired : List Bool} {replies : List (Chunk × Bool)}
    (h : Truthful blocks fired replies) : fired = [false] ↔ ∃ r ∈ replies, r.2 = false := by
  cases h with
  | running h =>
    refine ⟨fun hfired => (List.cons_ne_nil _ _ hfired.symm).elim, ?_⟩
    rintro ⟨r, hr, hfailed⟩
    rw [h r hr] at hfailed
    cases hfailed
  | succeeded h =>
    refine ⟨fun hfired => absurd hfired (by decide), ?_⟩
    rintro ⟨r, hr, hfailed⟩
    rw [h] at hr
    obtain ⟨chunk, _, rfl⟩ := List.mem_map.mp hr
    cases hfailed
  | failed h => exact ⟨fun _ => h, fun _ => rfl⟩

theorem transfer_truthful (preferredBacklog length : ℕ) {blockSize : ℕ} (hpos : 0 < blockSize)
    (called : List Bool) (listeners : List (List ℕ)) (events : List Event) :
    let s := events.foldl step (start preferredBacklog length blockSize hpos called listeners)
    s.requested <+: partition length blockSize ∧ s.replies.map Prod.fst <+: s.requested ∧
      s.fired.length ≤ 1 ∧
      (true ∈ s.fired → s.replies = (partition length blockSize).map fun chunk => (chunk, true)) ∧
      (s.fired = [false] ↔ ∃ r ∈ s.replies, r.2 = false) := by
  have hstart : Inv length blockSize
      (start preferredBacklog length blockSize hpos called listeners) [] := .start ..
  have h := hstart.run events
  intro s
  refine ⟨?_, ⟨_, h.replied⟩, h.truthful.length_le, h.truthful.success, h.truthful.failure⟩
  rw [h.requested]
  exact List.take_prefix _ _

theorem transfer_truthful_twice : 0 < 3 ∧
    let s := [Event.reply true, .drop, .reply false].foldl step
      (start 2 7 3 (by decide) [true] [])
    s.requested <+: partition 7 3 ∧ s.replies.map Prod.fst <+: s.requested ∧ s.fired.length ≤ 1 ∧
      (true ∈ s.fired → s.replies = (partition 7 3).map fun chunk => (chunk, true)) ∧
      (s.fired = [false] ↔ ∃ r ∈ s.replies, r.2 = false) :=
  ⟨by decide, transfer_truthful 2 7 (by decide) [true] [] [.reply true, .drop, .reply false]⟩

end NaviMisc.RioKarma.ContentTransfer
