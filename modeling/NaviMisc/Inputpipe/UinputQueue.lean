import NaviMisc.Inputpipe.PacketWrite
import NaviMisc.Lib.Ring

/-!
The event queue of `uinput.c`: `uinput_dev_event` puts events into a ring buffer
and `uinput_read` takes them out.
-/

namespace NaviMisc.Inputpipe

def UINPUT_BUFFER_SIZE : ℕ := 16

namespace UinputQueue

structure UinputDevice where
  created : Bool
  head : ℕ
  tail : ℕ
  buff : ℕ → InputEvent

def uinputOpen : UinputDevice where
  created := false
  head := 0
  tail := 0
  buff := fun _ => ⟨⟨0, 0⟩, 0, 0, 0⟩

def stored (now : Timeval) (type code value : BitVec 32) : InputEvent :=
  ⟨now, type.setWidth 16, code.setWidth 16, value⟩

def uinputDevEvent (udev : UinputDevice) (now : Timeval) (type code value : BitVec 32) :
    UinputDevice :=
  { udev with
    buff := Function.update udev.buff udev.head (stored now type code value)
    head := (udev.head + 1) % UINPUT_BUFFER_SIZE }

inductive Errno
  | ENODEV
  | EAGAIN
  | ERESTARTSYS
  | EFAULT
  deriving DecidableEq

/-- The copy loop of `uinput_read`. `size` is `sizeof(struct input_event)`; `writable` counts the
events that `copy_to_user` can still store. -/
def readLoop (size count : ℕ) :
    ℕ → UinputDevice → ℕ → ℕ → List InputEvent → UinputDevice × Except Errno (List InputEvent)
  | 0, udev, _, _, copied => (udev, .ok copied)
  | fuel + 1, udev, retval, writable, copied =>
    if udev.head ≠ udev.tail ∧ retval + size ≤ count then
      match writable with
      | 0 => (udev, .error .EFAULT)
      | writable + 1 =>
        readLoop size count fuel { udev with tail := (udev.tail + 1) % UINPUT_BUFFER_SIZE }
          (retval + size) writable (copied ++ [udev.buff udev.tail])
    else (udev, .ok copied)

/-- The events returned by `uinput_read`, or its error; `none` while it sleeps. The loop has at
most one round for each slot. -/
def uinputRead (size : ℕ) (udev : UinputDevice) (count writable : ℕ) (nonblock interrupted : Bool) :
    Option (UinputDevice × Except Errno (List InputEvent)) :=
  if ¬udev.created then some (udev, .error .ENODEV)
  else if udev.head = udev.tail ∧ nonblock then some (udev, .error .EAGAIN)
  else if udev.head ≠ udev.tail then
    some (readLoop size count UINPUT_BUFFER_SIZE udev 0 writable [])
  else if interrupted then some (udev, .error .ERESTARTSYS)
  else none

def uinputPoll (udev : UinputDevice) : Bool := decide (udev.head ≠ udev.tail)

def count (udev : UinputDevice) : ℕ :=
  (udev.head + UINPUT_BUFFER_SIZE - udev.tail) % UINPUT_BUFFER_SIZE

def pending (udev : UinputDevice) : List InputEvent :=
  Lib.Ring.contents UINPUT_BUFFER_SIZE udev.buff udev.tail (count udev)

structure InRange (udev : UinputDevice) : Prop where
  head_lt : udev.head < UINPUT_BUFFER_SIZE
  tail_lt : udev.tail < UINPUT_BUFFER_SIZE

variable {udev : UinputDevice}

@[simp] theorem length_pending (udev : UinputDevice) : (pending udev).length = count udev :=
  Lib.Ring.length_contents ..

theorem count_eq_zero_iff (h : InRange udev) : count udev = 0 ↔ udev.head = udev.tail := by
  obtain ⟨hh, ht⟩ := h
  simp only [UINPUT_BUFFER_SIZE] at hh ht
  simp only [count, UINPUT_BUFFER_SIZE]
  omega

theorem count_lt (udev : UinputDevice) : count udev < UINPUT_BUFFER_SIZE :=
  Nat.mod_lt _ (Nat.zero_lt_succ 15)

section event

variable (now : Timeval) (type code value : BitVec 32)

theorem inRange_devEvent (h : InRange udev) : InRange (uinputDevEvent udev now type code value) :=
  ⟨Nat.mod_lt _ (Nat.zero_lt_succ 15), h.tail_lt⟩

theorem pending_devEvent (h : InRange udev) (hroom : count udev + 1 < UINPUT_BUFFER_SIZE) :
    pending (uinputDevEvent udev now type code value) =
      pending udev ++ [stored now type code value] := by
  obtain ⟨hh, ht⟩ := h
  have hcount : count (uinputDevEvent udev now type code value) = count udev + 1 := by
    simp only [count, uinputDevEvent, UINPUT_BUFFER_SIZE] at *
    omega
  have hslot : (udev.tail + count udev) % UINPUT_BUFFER_SIZE = udev.head := by
    simp only [count, UINPUT_BUFFER_SIZE] at *
    omega
  have hbuff : (uinputDevEvent udev now type code value).buff =
      Function.update udev.buff ((udev.tail + count udev) % UINPUT_BUFFER_SIZE)
        (stored now type code value) := by
    rw [hslot]
    rfl
  have htail : (uinputDevEvent udev now type code value).tail = udev.tail := rfl
  rw [pending, hcount, Lib.Ring.contents_succ, hbuff, htail, Function.update_self,
    Lib.Ring.contents_update _ _ (count_lt udev)]
  rfl

theorem pending_devEvent_full (h : InRange udev) (hfull : count udev + 1 = UINPUT_BUFFER_SIZE) :
    pending (uinputDevEvent udev now type code value) = [] := by
  obtain ⟨hh, ht⟩ := h
  have hcount : count (uinputDevEvent udev now type code value) = 0 := by
    simp only [count, uinputDevEvent, UINPUT_BUFFER_SIZE] at *
    omega
  rw [← List.length_eq_zero_iff, length_pending, hcount]

end event

section loop

variable {size limit fuel retval writable : ℕ} {copied : List InputEvent}

theorem pending_cons (h : InRange udev) (hne : udev.head ≠ udev.tail) :
    pending udev = udev.buff udev.tail ::
      pending { udev with tail := (udev.tail + 1) % UINPUT_BUFFER_SIZE } := by
  have hpos : count udev ≠ 0 := fun hzero => hne ((count_eq_zero_iff h).mp hzero)
  obtain ⟨n, hn⟩ := Nat.exists_eq_succ_of_ne_zero hpos
  obtain ⟨hh, ht⟩ := h
  have hcount : count { udev with tail := (udev.tail + 1) % UINPUT_BUFFER_SIZE } = n := by
    simp only [count, UINPUT_BUFFER_SIZE] at *
    omega
  rw [pending, hn, Lib.Ring.contents_cons, Nat.mod_eq_of_lt ht, pending, hcount]

structure Advances (udev udev' : UinputDevice) (n : ℕ) : Prop where
  inRange : InRange udev'
  created_eq : udev'.created = udev.created
  pending_eq : pending udev' = (pending udev).drop n

theorem readLoop_spec (h : InRange udev) (hfuel : count udev < fuel) (hsize : 0 < size) :
    (min ((limit - retval) / size) (count udev) ≤ writable →
      ∃ udev', Advances udev udev' ((limit - retval) / size) ∧
        readLoop size limit fuel udev retval writable copied =
          (udev', .ok (copied ++ (pending udev).take ((limit - retval) / size)))) ∧
    (writable < min ((limit - retval) / size) (count udev) →
      ∃ udev', Advances udev udev' writable ∧
        readLoop size limit fuel udev retval writable copied = (udev', .error .EFAULT)) := by
  induction fuel generalizing udev retval writable copied with
  | zero => exact absurd hfuel (Nat.not_lt_zero _)
  | succ fuel ih =>
    unfold readLoop
    by_cases hmore : udev.head ≠ udev.tail ∧ retval + size ≤ limit
    · obtain ⟨hne, hle⟩ := hmore
      have hdiv : (limit - retval) / size = (limit - (retval + size)) / size + 1 := by
        rw [Nat.div_eq_sub_div hsize (Nat.le_sub_of_add_le' hle), Nat.sub_sub]
      have hcons := pending_cons h hne
      have hcount : count udev =
          count { udev with tail := (udev.tail + 1) % UINPUT_BUFFER_SIZE } + 1 := by
        rw [← length_pending, hcons, List.length_cons, length_pending]
      rw [if_pos ⟨hne, hle⟩, hdiv, hcount, Nat.add_min_add_right]
      cases writable with
      | zero =>
        constructor
        · intro hmin
          exact absurd hmin (Nat.not_succ_le_zero _)
        · intro _
          exact ⟨udev, ⟨h, rfl, rfl⟩, rfl⟩
      | succ writable =>
        have hrange : InRange { udev with tail := (udev.tail + 1) % UINPUT_BUFFER_SIZE } :=
          ⟨h.head_lt, Nat.mod_lt _ (Nat.zero_lt_succ 15)⟩
        obtain ⟨hok, hfault⟩ := @ih { udev with tail := (udev.tail + 1) % UINPUT_BUFFER_SIZE }
          (retval + size) writable (copied ++ [udev.buff udev.tail]) hrange (by omega)
        constructor
        · intro hmin
          obtain ⟨udev', ⟨hr, hc, hp⟩, hloop⟩ := hok (Nat.le_of_succ_le_succ hmin)
          refine ⟨udev', ⟨hr, hc, ?_⟩, ?_⟩
          · rw [hp, hcons, List.drop_succ_cons]
          · simpa [hcons] using hloop
        · intro hmin
          obtain ⟨udev', ⟨hr, hc, hp⟩, hloop⟩ := hfault (Nat.lt_of_succ_lt_succ hmin)
          refine ⟨udev', ⟨hr, hc, ?_⟩, hloop⟩
          rw [hp, hcons, List.drop_succ_cons]
    · have hstop : pending udev = [] ∨ (limit - retval) / size = 0 := by
        by_cases hne : udev.head = udev.tail
        · left
          rw [← List.length_eq_zero_iff, length_pending, count_eq_zero_iff h, hne]
        · right
          apply Nat.div_eq_of_lt
          omega
      rw [if_neg hmore]
      constructor
      · intro _
        refine ⟨udev, ⟨h, rfl, ?_⟩, ?_⟩
        · rcases hstop with hnil | hzero
          · rw [hnil, List.drop_nil]
          · rw [hzero, List.drop_zero]
        · rcases hstop with hnil | hzero
          · rw [hnil, List.take_nil, List.append_nil]
          · rw [hzero, List.take_zero, List.append_nil]
      · intro hmin
        rcases hstop with hnil | hzero
        · rw [← length_pending, hnil] at hmin
          simp at hmin
        · simp [hzero] at hmin

theorem read_empty (hc : udev.created = true) (he : udev.head = udev.tail) (limit writable : ℕ)
    (nonblock interrupted : Bool) :
    uinputRead size udev limit writable nonblock interrupted =
      if nonblock then some (udev, .error .EAGAIN)
      else if interrupted then some (udev, .error .ERESTARTSYS) else none := by
  simp [uinputRead, hc, he]

theorem read_nonempty (hc : udev.created = true) (hne : udev.head ≠ udev.tail)
    (limit writable : ℕ) (nonblock interrupted : Bool) :
    uinputRead size udev limit writable nonblock interrupted =
      some (readLoop size limit UINPUT_BUFFER_SIZE udev 0 writable []) := by
  simp [uinputRead, hc, hne]

end loop

structure Log where
  udev : UinputDevice
  accepted : List InputEvent
  delivered : List InputEvent

inductive Action
  | event (now : Timeval) (type code value : BitVec 32)
  | read (count writable : ℕ) (nonblock interrupted : Bool)

namespace Log

def start : Log := ⟨{ uinputOpen with created := true }, [], []⟩

def step (size : ℕ) (l : Log) : Action → Log
  | .event now type code value =>
    { l with
      udev := uinputDevEvent l.udev now type code value
      accepted := l.accepted ++ [stored now type code value] }
  | .read count writable nonblock interrupted =>
    match uinputRead size l.udev count writable nonblock interrupted with
    | some (udev, .ok events) => { l with udev := udev, delivered := l.delivered ++ events }
    | some (udev, .error _) => { l with udev := udev }
    | none => l

/-- Every read returns the next accepted events that were not returned before, as many as `count`
has room for. -/
def Exact (size : ℕ) (l : Log) : Prop :=
  ∃ rest, l.accepted = l.delivered ++ rest ∧
    ∀ count writable nonblock interrupted, count / size ≤ writable →
      (uinputRead size l.udev count writable nonblock interrupted).map Prod.snd =
        if rest = [] then
          if nonblock then some (.error .EAGAIN)
          else if interrupted then some (.error .ERESTARTSYS) else none
        else some (.ok (rest.take (count / size)))

/-- The queue has room for the event; no copy fails after another one of the same read. -/
def Safe (size : ℕ) (l : Log) : Action → Prop
  | .event _ _ _ _ => count l.udev + 1 < UINPUT_BUFFER_SIZE
  | .read limit writable _ _ => writable = 0 ∨ min (limit / size) (count l.udev) ≤ writable

structure Live (l : Log) : Prop where
  inRange : InRange l.udev
  created : l.udev.created = true

variable {size : ℕ} {l : Log}

theorem read_spec (h : l.Live) (hsize : 0 < size) (limit writable : ℕ)
    (nonblock interrupted : Bool) :
    (pending l.udev = [] ∧ l.step size (.read limit writable nonblock interrupted) = l ∧
      (uinputRead size l.udev limit writable nonblock interrupted).map Prod.snd =
        if nonblock then some (.error .EAGAIN)
        else if interrupted then some (.error .ERESTARTSYS) else none) ∨
    (pending l.udev ≠ [] ∧ min (limit / size) (count l.udev) ≤ writable ∧
      (uinputRead size l.udev limit writable nonblock interrupted).map Prod.snd =
        some (.ok ((pending l.udev).take (limit / size))) ∧
      ∃ udev', Advances l.udev udev' (limit / size) ∧
        l.step size (.read limit writable nonblock interrupted) =
          ⟨udev', l.accepted, l.delivered ++ (pending l.udev).take (limit / size)⟩) ∨
    (writable < min (limit / size) (count l.udev) ∧ ∃ udev', Advances l.udev udev' writable ∧
      l.step size (.read limit writable nonblock interrupted) =
        ⟨udev', l.accepted, l.delivered⟩) := by
  by_cases he : l.udev.head = l.udev.tail
  · left
    have hnil : pending l.udev = [] := by
      rw [← List.length_eq_zero_iff, length_pending, count_eq_zero_iff h.inRange, he]
    refine ⟨hnil, ?_, ?_⟩
    · rw [step, read_empty h.created he]
      cases nonblock <;> cases interrupted <;> rfl
    · rw [read_empty h.created he]
      cases nonblock <;> cases interrupted <;> rfl
  · right
    have hnil : pending l.udev ≠ [] := by
      rw [← List.length_pos_iff, length_pending, Nat.pos_iff_ne_zero, Ne,
        count_eq_zero_iff h.inRange]
      exact he
    have hread := @read_nonempty l.udev size h.created he limit writable nonblock interrupted
    obtain ⟨hok, hfault⟩ := @readLoop_spec l.udev size limit UINPUT_BUFFER_SIZE 0 writable []
      h.inRange (count_lt l.udev) hsize
    rw [Nat.sub_zero] at hok hfault
    rcases Nat.lt_or_ge writable (min (limit / size) (count l.udev)) with hlt | hge
    · right
      obtain ⟨udev', hadv, hloop⟩ := hfault hlt
      refine ⟨hlt, udev', hadv, ?_⟩
      rw [step, hread, hloop]
    · left
      obtain ⟨udev', hadv, hloop⟩ := hok hge
      rw [List.nil_append] at hloop
      refine ⟨hnil, hge, ?_, udev', hadv, ?_⟩
      · rw [hread, hloop]
        rfl
      · rw [step, hread, hloop]

theorem Live.step (h : l.Live) (hsize : 0 < size) (a : Action) : (l.step size a).Live := by
  cases a with
  | event now type code value => exact ⟨inRange_devEvent now type code value h.inRange, h.created⟩
  | read limit writable nonblock interrupted =>
    rcases read_spec h hsize limit writable nonblock interrupted with
      ⟨-, hstep, -⟩ | ⟨-, -, -, udev', hadv, hstep⟩ | ⟨-, udev', hadv, hstep⟩
    · rw [hstep]
      exact h
    · rw [hstep]
      exact ⟨hadv.inRange, hadv.created_eq.trans h.created⟩
    · rw [hstep]
      exact ⟨hadv.inRange, hadv.created_eq.trans h.created⟩

theorem exact_iff (h : l.Live) (hsize : 0 < size) :
    l.Exact size ↔ l.accepted = l.delivered ++ pending l.udev := by
  constructor
  · rintro ⟨rest, hacc, hread⟩
    let n := rest.length + UINPUT_BUFFER_SIZE
    have hn : n * size / size = n := Nat.mul_div_cancel n hsize
    have hresult := hread (n * size) n true false hn.le
    have hall : (pending l.udev).take n = pending l.udev := by
      apply List.take_of_length_le
      rw [length_pending]
      exact (count_lt l.udev).le.trans (Nat.le_add_left _ _)
    have hrest : rest.take n = rest := List.take_of_length_le (Nat.le_add_right _ _)
    rcases read_spec h hsize (n * size) n true false with
      ⟨hnil, -, hr⟩ | ⟨hne, -, hr, -⟩ | ⟨hlt, -⟩
    · by_cases hr0 : rest = []
      · rw [hacc, hr0, hnil]
      · rw [hr, if_neg hr0] at hresult
        cases hresult
    · rw [hn, hall] at hr
      rw [hn, hrest] at hresult
      by_cases hr0 : rest = []
      · rw [hr, if_pos hr0] at hresult
        cases hresult
      · rw [hr, if_neg hr0] at hresult
        obtain rfl : pending l.udev = rest := by simpa using hresult
        exact hacc
    · rw [hn] at hlt
      have := count_lt l.udev
      omega
  · intro hacc
    refine ⟨pending l.udev, hacc, ?_⟩
    intro limit writable nonblock interrupted hroom
    rcases read_spec h hsize limit writable nonblock interrupted with
      ⟨hnil, -, hr⟩ | ⟨hne, -, hr, -⟩ | ⟨hlt, -⟩
    · rw [hr, if_pos hnil]
    · rw [hr, if_neg hne]
    · omega

theorem step_exact_iff (h : l.Live) (hsize : 0 < size) (hexact : l.Exact size) (a : Action) :
    (l.step size a).Exact size ↔ l.Safe size a := by
  have hacc := (exact_iff h hsize).mp hexact
  rw [exact_iff (h.step hsize a) hsize]
  cases a with
  | event now type code value =>
    have hlt := count_lt l.udev
    rcases Nat.lt_or_ge (count l.udev + 1) UINPUT_BUFFER_SIZE with hroom | hfull
    · refine iff_of_true ?_ hroom
      rw [step, pending_devEvent now type code value h.inRange hroom, hacc, List.append_assoc]
    · refine iff_of_false ?_ (Nat.not_lt.mpr hfull)
      have hcount : count l.udev + 1 = UINPUT_BUFFER_SIZE := by omega
      intro hlost
      rw [step, pending_devEvent_full now type code value h.inRange hcount, hacc] at hlost
      have hlength := congrArg List.length hlost
      simp at hlength
  | read limit writable nonblock interrupted =>
    rcases read_spec h hsize limit writable nonblock interrupted with
      ⟨hnil, hstep, -⟩ | ⟨-, hge, -, udev', hadv, hstep⟩ | ⟨hlt, udev', hadv, hstep⟩
    · rw [hstep]
      refine iff_of_true hacc (.inr ?_)
      rw [← length_pending, hnil, List.length_nil, Nat.min_zero]
      exact Nat.zero_le _
    · rw [hstep]
      refine iff_of_true ?_ (.inr hge)
      rw [hadv.pending_eq, List.append_assoc, List.take_append_drop]
      exact hacc
    · rw [hstep]
      simp only [hadv.pending_eq, hacc, List.append_cancel_left_eq, Safe, Nat.not_le.mpr hlt,
        or_false]
      constructor
      · intro hdrop
        have hlength := congrArg List.length hdrop
        rw [List.length_drop, length_pending] at hlength
        omega
      · rintro rfl
        rfl

theorem live_start : start.Live := ⟨⟨Nat.zero_lt_succ 15, Nat.zero_lt_succ 15⟩, rfl⟩

theorem exact_start (hsize : 0 < size) : start.Exact size :=
  (exact_iff live_start hsize).mpr rfl

/-- The queue delivers what it accepted in exactly the runs in which no event finds 15 others
unread and no copy to user space fails half-way through a read. -/
theorem delivers_iff (hsize : 0 < size) (run : List Action) :
    Lib.Runs.Always (step size) (Exact size) start run ↔
      Lib.Runs.Meets (step size) (Safe size) start run :=
  Lib.Runs.always_iff_meets (I := Live) (fun _ a h => h.step hsize a)
    (fun _ a h hexact => step_exact_iff h hsize hexact a) live_start (exact_start hsize) run

theorem delivers_iff_one_request :
    Lib.Runs.Always (step 24) (Exact 24) start
      [.event ⟨0, 0⟩ 0x101#32 1#32 0#32, .read 24 1 true false] := by
  apply (delivers_iff (by simp) _).mpr
  simp [Lib.Runs.Meets, Safe, count, start, uinputOpen, UINPUT_BUFFER_SIZE]

/-- Sixteen announcements and no read: the reader finds an empty queue. -/
theorem sixteen_requests_lost : ¬Lib.Runs.Always (step 24) (Exact 24) start
    (List.replicate 16 (.event ⟨0, 0⟩ 0x101#32 1#32 0#32)) := by
  intro h
  obtain ⟨rest, hacc, hread⟩ := h.last
  have hresult := hread 384 16 true false le_rfl
  by_cases hrest : rest = []
  · rw [hrest] at hacc
    cases hacc
  · rw [if_neg hrest] at hresult
    cases hresult

end Log

end UinputQueue

end NaviMisc.Inputpipe
