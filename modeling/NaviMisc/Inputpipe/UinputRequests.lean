import NaviMisc.Inputpipe.ForceFeedback

/-!
Force-feedback requests of `uinput.c`: processes that wait for an answer, and the
ioctls with which a program in user space answers.
-/

namespace NaviMisc.Inputpipe

open ForceFeedback (FFEffect)

def UINPUT_NUM_REQUESTS : ℕ := 16

namespace UinputRequests

def EINVAL : ℤ := 22
def ERESTARTSYS : ℤ := 512

inductive Call
  | uploadEffect (effect : FFEffect)
  | eraseEffect (effectId : ℤ)

/-- The union `u` is given as both of its members; `effect` is the effect that the pointer leads
to, if it is not null. -/
structure UinputRequest where
  id : Fin UINPUT_NUM_REQUESTS
  code : ℕ
  retval : ℤ
  completed : Bool
  effect : Option FFEffect
  effectId : ℤ

structure Udev where
  requests : Fin UINPUT_NUM_REQUESTS → Option ℕ
  memory : ℕ → UinputRequest

inductive Fault
  | nullDereference
  deriving DecidableEq

def Call.code : Call → ℕ
  | .uploadEffect _ => UI_FF_UPLOAD
  | .eraseEffect _ => UI_FF_ERASE

def cleared (code : ℕ) : UinputRequest where
  id := ⟨0, Nat.zero_lt_succ 15⟩
  code := code
  retval := 0
  completed := false
  effect := none
  effectId := 0

def UinputRequest.assign (req : UinputRequest) : Call → UinputRequest
  | .uploadEffect effect => { req with effect := some effect }
  | .eraseEffect effectId => { req with effectId := effectId }

namespace Udev

def write (udev : Udev) (r : ℕ) (req : UinputRequest) : Udev :=
  { udev with memory := Function.update udev.memory r req }

def uinputRequestAllocId (udev : Udev) (r : ℕ) : Option Udev :=
  match (List.finRange UINPUT_NUM_REQUESTS).find? fun id => (udev.requests id).isNone with
  | some id => some {
      requests := Function.update udev.requests id (some r)
      memory := Function.update udev.memory r { udev.memory r with id := id } }
  | none => none

theorem toNat_lt_requests {id : ℤ} (h : 0 ≤ id ∧ id < UINPUT_NUM_REQUESTS) :
    id.toNat < UINPUT_NUM_REQUESTS := (Int.toNat_lt h.1).mpr h.2

def uinputRequestFind (udev : Udev) (id : ℤ) : Except Fault (Option ℕ) :=
  if h : 0 ≤ id ∧ id < UINPUT_NUM_REQUESTS then
    match udev.requests ⟨id.toNat, toNat_lt_requests h⟩ with
    | none => .error .nullDereference
    | some r => .ok (if (udev.memory r).completed then none else some r)
  else .ok none

def accepts (code : ℕ) (req : UinputRequest) : Bool :=
  decide (req.code = code) && (decide (code ≠ UI_FF_UPLOAD) || req.effect.isSome)

def requestFor (udev : Udev) (code : ℕ) (id : ℤ) : Except Fault (Option ℕ) := do
  let req ← udev.uinputRequestFind id
  return req.filter fun r => accepts code (udev.memory r)

def beginRequest {α : Type} (udev : Udev) (code : ℕ) (id : ℤ) (read : UinputRequest → Option α) :
    Except Fault (ℤ × Option α) := do
  match ← udev.requestFor code id with
  | some r => return (0, read (udev.memory r))
  | none => return (-EINVAL, none)

def beginFFUpload (udev : Udev) (id : ℤ) : Except Fault (ℤ × Option FFEffect) :=
  udev.beginRequest UI_FF_UPLOAD id fun req => req.effect

def beginFFErase (udev : Udev) (id : ℤ) : Except Fault (ℤ × Option ℤ) :=
  udev.beginRequest UI_FF_ERASE id fun req => some req.effectId

def endRequest (udev : Udev) (code : ℕ) (id : ℤ) (answer : UinputRequest → UinputRequest) :
    Except Fault (ℤ × Udev) := do
  match ← udev.requestFor code id with
  | some r => return (0, udev.write r (answer (udev.memory r)))
  | none => return (-EINVAL, udev)

def answerFFUpload (retval : ℤ) (effect : FFEffect) (req : UinputRequest) : UinputRequest :=
  { req with retval := retval, effect := some effect, completed := true }

def answerFFErase (retval : ℤ) (req : UinputRequest) : UinputRequest :=
  { req with retval := retval, completed := true }

def endFFUpload (udev : Udev) (id retval : ℤ) (effect : FFEffect) : Except Fault (ℤ × Udev) :=
  udev.endRequest UI_FF_UPLOAD id (answerFFUpload retval effect)

def endFFErase (udev : Udev) (id retval : ℤ) : Except Fault (ℤ × Udev) :=
  udev.endRequest UI_FF_ERASE id (answerFFErase retval)

end Udev

/-- How far a requester has got. In `waiting` it has no id yet, in `woken` it waits no more but
still has one. -/
inductive Phase
  | unused
  | waiting (call : Call)
  | allocated (call : Call)
  | announced
  | woken
  | done

def Phase.pending : Phase → Bool
  | .allocated _ => true
  | .announced => true
  | .woken => true
  | _ => false

structure Completion where
  request : ℕ
  answered : Option ℕ

structure State where
  udev : Udev
  phase : ℕ → Phase
  announced : List (ℤ × ℕ)
  completions : List Completion

/-- Requesters are told apart by a number. The last argument of an answer is the request whose
announcement it answers; an id that was never read from an announcement has none. -/
inductive Action
  | init (r : ℕ) (call : Call)
  | allocId (r : ℕ)
  | interruptInit (r : ℕ)
  | announce (r : ℕ)
  | wake (r : ℕ) (interrupted : Bool)
  | release (r : ℕ)
  | beginFFUpload (id : ℤ)
  | beginFFErase (id : ℤ)
  | endFFUpload (id retval : ℤ) (effect : FFEffect) (answers : Option ℕ)
  | endFFErase (id retval : ℤ) (answers : Option ℕ)

namespace State

def setPhase (s : State) (r : ℕ) (phase : Phase) : State :=
  { s with phase := Function.update s.phase r phase }

def freeSlot (s : State) (id : Fin UINPUT_NUM_REQUESTS) : State :=
  { s with udev := { s.udev with requests := Function.update s.udev.requests id none } }

def answered (s : State) (id : ℤ) (answers : Option ℕ) : Option ℕ :=
  answers.filter fun r => decide ((id, r) ∈ s.announced)

def complete (s : State) (code : ℕ) (id : ℤ) (answers : Option ℕ)
    (ioctl : Except Fault (ℤ × Udev)) : Except Fault State := do
  let request ← s.udev.requestFor code id
  let (_, udev) ← ioctl
  return { s with
    udev := udev
    completions := s.completions ++ (request.map fun r => ⟨r, s.answered id answers⟩).toList }

def setReq (s : State) (r : ℕ) (req : UinputRequest) : State :=
  { s with udev := s.udev.write r req }

def perform (s : State) : Action → Except Fault State
  | .init r call =>
    match s.phase r with
    | .unused => .ok ((s.setReq r (cleared call.code)).setPhase r (.waiting call))
    | _ => .ok s
  | .allocId r =>
    match s.phase r, s.udev.uinputRequestAllocId r with
    | .waiting call, some udev => .ok ({ s with udev := udev }.setPhase r (.allocated call))
    | _, _ => .ok s
  | .interruptInit r =>
    match s.phase r with
    | .waiting _ =>
      let req := { s.udev.memory r with retval := -ERESTARTSYS }
      .ok ((s.setReq r req).setPhase r .done)
    | _ => .ok s
  | .announce r =>
    match s.phase r with
    | .allocated call =>
      let event : ℤ × ℕ := (((s.udev.memory r).id : ℕ), r)
      let s := s.setReq r ((s.udev.memory r).assign call)
      .ok ({ s with announced := s.announced ++ [event] }.setPhase r .announced)
    | _ => .ok s
  | .wake r interrupted =>
    match s.phase r with
    | .announced =>
      let req := s.udev.memory r
      if req.completed then .ok (s.setPhase r .woken)
      else if interrupted then
        .ok ((s.setReq r { req with retval := -ERESTARTSYS }).setPhase r .woken)
      else .ok s
    | _ => .ok s
  | .release r =>
    match s.phase r with
    | .woken => .ok ((s.freeSlot (s.udev.memory r).id).setPhase r .done)
    | _ => .ok s
  | .beginFFUpload id => do
    let _ ← s.udev.beginFFUpload id
    return s
  | .beginFFErase id => do
    let _ ← s.udev.beginFFErase id
    return s
  | .endFFUpload id retval effect answers =>
    s.complete UI_FF_UPLOAD id answers (s.udev.endFFUpload id retval effect)
  | .endFFErase id retval answers =>
    s.complete UI_FF_ERASE id answers (s.udev.endFFErase id retval)

def start : State where
  udev := ⟨fun _ => none, fun _ => cleared 0⟩
  phase := fun _ => .unused
  announced := []
  completions := []

end State

def step : Except Fault State → Action → Except Fault State
  | .error fault, _ => .error fault
  | .ok s, a => s.perform a

namespace State

def Table (s : State) : Prop :=
  ∀ id r, s.udev.requests id = some r ↔
    (s.phase r).pending = true ∧ (s.udev.memory r).id = id

variable {s : State} {r : ℕ}

theorem Table.setPhase (h : s.Table) {phase : Phase}
    (hp : phase.pending = (s.phase r).pending) : (s.setPhase r phase).Table := by
  intro id r'
  have hphase : ((s.setPhase r phase).phase r').pending = (s.phase r').pending := by
    rw [State.setPhase]
    dsimp only
    by_cases hr : r' = r
    · subst hr
      rw [Function.update_self, hp]
    · rw [Function.update_of_ne hr]
  rw [hphase]
  exact h id r'

theorem Table.setReq (h : s.Table) {req : UinputRequest}
    (hid : (s.phase r).pending = true → req.id = (s.udev.memory r).id) : (s.setReq r req).Table := by
  intro id r'
  rw [State.setReq, Udev.write]
  dsimp only
  rw [h id r']
  apply and_congr_right
  intro hp
  by_cases hr : r' = r
  · subst hr
    rw [Function.update_self, hid hp]
  · rw [Function.update_of_ne hr]

theorem Table.setReq_setPhase (h : s.Table) {req : UinputRequest} {phase : Phase}
    (hid : (s.phase r).pending = true → req.id = (s.udev.memory r).id)
    (hp : phase.pending = (s.phase r).pending) : ((s.setReq r req).setPhase r phase).Table :=
  (h.setReq hid).setPhase hp

theorem Table.freeSlot (h : s.Table) (hp : (s.phase r).pending = true) {phase : Phase}
    (hphase : phase.pending = false) :
    ((s.freeSlot (s.udev.memory r).id).setPhase r phase).Table := by
  have hr : s.udev.requests (s.udev.memory r).id = some r := (h _ r).mpr ⟨hp, rfl⟩
  intro id r'
  rw [State.setPhase, State.freeSlot]
  dsimp only
  by_cases hr' : r' = r
  · subst hr'
    rw [Function.update_self, hphase]
    by_cases hid : id = (s.udev.memory r').id
    · simp [hid]
    · rw [Function.update_of_ne hid, h id r']
      simp [Ne.symm hid]
  · rw [Function.update_of_ne hr']
    by_cases hid : id = (s.udev.memory r).id
    · subst hid
      rw [Function.update_self, ← h _ r', hr]
      simp [Ne.symm hr']
    · rw [Function.update_of_ne hid]
      exact h id r'

theorem allocId_spec {udev udev' : Udev} (h : udev.uinputRequestAllocId r = some udev') :
    ∃ id, udev.requests id = none ∧ udev' =
      ⟨Function.update udev.requests id (some r),
        Function.update udev.memory r { udev.memory r with id := id }⟩ := by
  rw [Udev.uinputRequestAllocId] at h
  split at h
  · rename_i id hfind
    cases h
    have hfree : (udev.requests id).isNone = true :=
      List.find?_some (p := fun id => (udev.requests id).isNone) hfind
    exact ⟨id, Option.isNone_iff_eq_none.mp hfree, rfl⟩
  · cases h

theorem Table.allocId (h : s.Table) (hp : (s.phase r).pending = false) {udev : Udev}
    (halloc : s.udev.uinputRequestAllocId r = some udev) {phase : Phase}
    (hphase : phase.pending = true) : ({ s with udev := udev }.setPhase r phase).Table := by
  obtain ⟨id, hfree, rfl⟩ := allocId_spec halloc
  intro id' r'
  rw [State.setPhase]
  dsimp only
  by_cases hr : r' = r
  · subst hr
    rw [Function.update_self, Function.update_self, and_iff_right hphase]
    by_cases hid : id' = id
    · simp [hid]
    · rw [Function.update_of_ne hid, h id' r', hp]
      simp [Ne.symm hid]
  · rw [Function.update_of_ne hr, Function.update_of_ne hr]
    by_cases hid : id' = id
    · subst hid
      rw [Function.update_self, ← h id' r', hfree]
      simp [Ne.symm hr]
    · rw [Function.update_of_ne hid]
      exact h id' r'

end State

def Udev.Held (udev : Udev) (id : ℤ) : Prop :=
  ∀ i : Fin UINPUT_NUM_REQUESTS, (i : ℤ) = id → udev.requests i ≠ none

structure Udev.Open (udev : Udev) (code r : ℕ) : Prop where
  not_completed : (udev.memory r).completed = false
  accepts : Udev.accepts code (udev.memory r) = true

theorem Udev.requestFor_cases (udev : Udev) (code : ℕ) (id : ℤ) :
    (¬udev.Held id ∧ udev.requestFor code id = .error .nullDereference) ∨
    (udev.Held id ∧ udev.requestFor code id = .ok none ∧
      ∀ (i : Fin UINPUT_NUM_REQUESTS) r, (i : ℤ) = id → udev.requests i = some r →
        ¬udev.Open code r) ∨
    ∃ i r, ((i : Fin UINPUT_NUM_REQUESTS) : ℤ) = id ∧ udev.requests i = some r ∧
      udev.Open code r ∧ udev.requestFor code id = .ok (some r) := by
  rw [requestFor, uinputRequestFind]
  by_cases hid : 0 ≤ id ∧ id < UINPUT_NUM_REQUESTS
  · rw [dif_pos hid]
    have heq : ∀ i : Fin UINPUT_NUM_REQUESTS, (i : ℤ) = id → i = ⟨id.toNat, by omega⟩ := by
      intro i hi
      apply Fin.ext
      dsimp only
      omega
    have hcast : ((⟨id.toNat, by omega⟩ : Fin UINPUT_NUM_REQUESTS) : ℤ) = id :=
      Int.toNat_of_nonneg hid.1
    cases hslot : udev.requests ⟨id.toNat, by omega⟩ with
    | none => exact .inl ⟨fun hheld => hheld _ hcast hslot, rfl⟩
    | some r =>
      have hheld : udev.Held id := by
        intro i hi
        rw [heq i hi, hslot]
        exact Option.some_ne_none r
      by_cases hopen : udev.Open code r
      · refine .inr (.inr ⟨_, r, hcast, hslot, hopen, ?_⟩)
        simp [hopen.not_completed, hopen.accepts, bind, Except.bind, pure, Except.pure]
      · refine .inr (.inl ⟨hheld, ?_, ?_⟩)
        · by_cases hcompleted : (udev.memory r).completed = true
          · simp [hcompleted, bind, Except.bind, pure, Except.pure]
          · have haccepts : Udev.accepts code (udev.memory r) = false := by
              apply Bool.eq_false_iff.mpr
              intro haccepts
              exact hopen ⟨Bool.eq_false_iff.mpr hcompleted, haccepts⟩
            simp [hcompleted, haccepts, bind, Except.bind, pure, Except.pure]
        · intro i r' hi hr'
          rw [heq i hi, hslot] at hr'
          cases hr'
          exact hopen
  · rw [dif_neg hid]
    refine .inr (.inl ⟨?_, rfl, ?_⟩)
    · intro i hi
      have hlt := i.isLt
      omega
    · intro i r hi
      have hlt := i.isLt
      omega

namespace State

variable {s : State} {r : ℕ}

def Steps (s : State) (a : Action) : Prop :=
  ∃ s', s.perform a = .ok s' ∧ s'.Table ∧ s'.completions = s.completions

theorem steps_init (h : s.Table) (r : ℕ) (call : Call) : s.Steps (.init r call) := by
  rw [Steps, perform]
  split
  · rename_i hphase
    refine ⟨_, rfl, ?_, rfl⟩
    apply h.setReq_setPhase
    · intro hp
      rw [hphase] at hp
      cases hp
    · rw [hphase]
      rfl
  · exact ⟨s, rfl, h, rfl⟩

theorem steps_allocId (h : s.Table) (r : ℕ) : s.Steps (.allocId r) := by
  rw [Steps, perform]
  split
  · rename_i call udev hphase halloc
    refine ⟨_, rfl, ?_, rfl⟩
    apply h.allocId _ halloc rfl
    rw [hphase]
    rfl
  · exact ⟨s, rfl, h, rfl⟩

theorem steps_interruptInit (h : s.Table) (r : ℕ) : s.Steps (.interruptInit r) := by
  rw [Steps, perform]
  split
  · rename_i call hphase
    refine ⟨_, rfl, ?_, rfl⟩
    apply h.setReq_setPhase
    · exact fun _ => rfl
    · rw [hphase]
      rfl
  · exact ⟨s, rfl, h, rfl⟩

theorem assign_id (req : UinputRequest) (call : Call) : (req.assign call).id = req.id := by
  cases call with
  | uploadEffect effect => rfl
  | eraseEffect effectId => rfl

theorem steps_announce (h : s.Table) (r : ℕ) : s.Steps (.announce r) := by
  rw [Steps, perform]
  split
  · rename_i call hphase
    refine ⟨_, rfl, ?_, rfl⟩
    apply Table.setReq_setPhase h
    · exact fun _ => assign_id _ call
    · rw [hphase]
      rfl
  · exact ⟨s, rfl, h, rfl⟩

theorem steps_wake (h : s.Table) (r : ℕ) (interrupted : Bool) : s.Steps (.wake r interrupted) := by
  rw [Steps, perform]
  split
  · rename_i hphase
    have hpending : Phase.woken.pending = (s.phase r).pending := by
      rw [hphase]
      rfl
    dsimp only
    split
    · exact ⟨_, rfl, h.setPhase hpending, rfl⟩
    split
    · exact ⟨_, rfl, h.setReq_setPhase (fun _ => rfl) hpending, rfl⟩
    · exact ⟨s, rfl, h, rfl⟩
  · exact ⟨s, rfl, h, rfl⟩

theorem steps_release (h : s.Table) (r : ℕ) : s.Steps (.release r) := by
  rw [Steps, perform]
  split
  · rename_i hphase
    refine ⟨_, rfl, ?_, rfl⟩
    apply h.freeSlot _ rfl
    rw [hphase]
    rfl
  · exact ⟨s, rfl, h, rfl⟩

def Matched (s : State) : Prop :=
  ∀ c ∈ s.completions, ∀ r, c.answered = some r → c.request = r

def Distinct (s : State) : Prop :=
  ∀ r r', (s.phase r).pending = true → (s.phase r').pending = true →
    (s.udev.memory r).id = (s.udev.memory r').id → r = r'

theorem Table.distinct (h : s.Table) : s.Distinct := by
  intro r r' hr hr' hid
  have hslot := (h _ r).mpr ⟨hr, rfl⟩
  have hslot' := (h _ r').mpr ⟨hr', rfl⟩
  rw [← hid, hslot] at hslot'
  exact Option.some.inj hslot'

def Addressed (s : State) (code : ℕ) (id : ℤ) (answers : Option ℕ) : Prop :=
  ∀ (i : Fin UINPUT_NUM_REQUESTS) r r', (i : ℤ) = id → s.udev.requests i = some r →
    s.udev.Open code r → s.answered id answers = some r' → r = r'

end State

/-- What holds of every state that is reached: pending requests have different ids, no ioctl has
followed a null pointer, and no answer has completed another request than that it answers. -/
def Safe : Except Fault State → Prop
  | .error _ => False
  | .ok s => s.Distinct ∧ s.Matched

def Tabled : Except Fault State → Prop
  | .error _ => True
  | .ok s => s.Table

def Proper : Except Fault State → Action → Prop
  | .ok s, .beginFFUpload id => s.udev.Held id
  | .ok s, .beginFFErase id => s.udev.Held id
  | .ok s, .endFFUpload id _ _ answers => s.udev.Held id ∧ s.Addressed UI_FF_UPLOAD id answers
  | .ok s, .endFFErase id _ answers => s.udev.Held id ∧ s.Addressed UI_FF_ERASE id answers
  | _, _ => True

theorem Udev.held_of_slot {udev : Udev} {i : Fin UINPUT_NUM_REQUESTS} {id : ℤ} {r : ℕ}
    (hi : (i : ℤ) = id) (hslot : udev.requests i = some r) : udev.Held id := by
  intro j hj
  have hij : j = i := Fin.ext (by omega)
  rw [hij, hslot]
  exact Option.some_ne_none r

theorem begin_spec (s : State) {α : Type} (code : ℕ) (id : ℤ) (read : UinputRequest → Option α) :
    (¬s.udev.Held id ∧ (do let _ ← s.udev.beginRequest code id read; return s) =
        (.error .nullDereference : Except Fault State)) ∨
      (s.udev.Held id ∧ (do let _ ← s.udev.beginRequest code id read; return s) =
        (.ok s : Except Fault State)) := by
  rw [Udev.beginRequest]
  rcases s.udev.requestFor_cases code id with ⟨hheld, hreq⟩ | ⟨hheld, hreq, -⟩ |
    ⟨i, r, hi, hslot, -, hreq⟩
  · rw [hreq]
    exact .inl ⟨hheld, rfl⟩
  · rw [hreq]
    exact .inr ⟨hheld, rfl⟩
  · rw [hreq]
    exact .inr ⟨Udev.held_of_slot hi hslot, rfl⟩

section complete

variable {s : State} {code : ℕ} {id : ℤ} {answers : Option ℕ}
  {answer : UinputRequest → UinputRequest}

theorem State.complete_cases (h : s.Table) (hid : ∀ req, (answer req).id = req.id) :
    (¬s.udev.Held id ∧ s.complete code id answers (s.udev.endRequest code id answer) =
      .error .nullDereference) ∨
    (s.udev.Held id ∧ s.Addressed code id answers ∧
      ∃ s', s.complete code id answers (s.udev.endRequest code id answer) = .ok s' ∧ s'.Table ∧
        s'.completions = s.completions) ∨
    ∃ i r, ((i : Fin UINPUT_NUM_REQUESTS) : ℤ) = id ∧ s.udev.requests i = some r ∧
      s.udev.Open code r ∧
      ∃ s', s.complete code id answers (s.udev.endRequest code id answer) = .ok s' ∧ s'.Table ∧
        s'.completions = s.completions ++ [⟨r, s.answered id answers⟩] := by
  rw [complete, Udev.endRequest]
  rcases s.udev.requestFor_cases code id with ⟨hheld, hreq⟩ | ⟨hheld, hreq, hclosed⟩ |
    ⟨i, r, hi, hslot, hopen, hreq⟩
  · rw [hreq]
    exact .inl ⟨hheld, rfl⟩
  · rw [hreq]
    refine .inr (.inl ⟨hheld, ?_, _, rfl, h, List.append_nil _⟩)
    intro i r r' hi hslot hopen
    exact absurd hopen (hclosed i r hi hslot)
  · rw [hreq]
    have htable : (s.setReq r (answer (s.udev.memory r))).Table := h.setReq fun _ => hid _
    exact .inr (.inr ⟨i, r, hi, hslot, hopen, _, rfl, htable, rfl⟩)

theorem safe_complete_iff (h : s.Table) (hs : Safe (.ok s))
    (hid : ∀ req, (answer req).id = req.id) :
    Safe (s.complete code id answers (s.udev.endRequest code id answer)) ↔
      s.udev.Held id ∧ s.Addressed code id answers := by
  rcases @State.complete_cases s code id answers answer h hid with
    ⟨hheld, hrun⟩ | ⟨hheld, haddr, s', hrun, htable, hsame⟩ |
    ⟨i, r, hi, hslot, hopen, s', hrun, htable, hmore⟩
  · rw [hrun]
    exact iff_of_false (fun hsafe => hsafe) fun hp => hheld hp.1
  · rw [hrun]
    apply iff_of_true _ ⟨hheld, haddr⟩
    refine ⟨htable.distinct, ?_⟩
    rw [State.Matched, hsame]
    exact hs.2
  · have hold : ∀ c ∈ s.completions, ∀ r, c.answered = some r → c.request = r := hs.2
    rw [hrun, and_iff_right (Udev.held_of_slot hi hslot), Safe, and_iff_right htable.distinct,
      State.Matched, hmore, List.forall_mem_append, and_iff_right hold, List.forall_mem_singleton]
    constructor
    · intro hmatch j r₁ r₂ hj hslot' _ hanswers
      have hij : j = i := Fin.ext (by omega)
      rw [hij, hslot] at hslot'
      cases hslot'
      exact hmatch r₂ hanswers
    · intro haddr r' hanswers
      exact haddr i r r' hi hslot hopen hanswers

theorem tabled_complete (h : s.Table) (hid : ∀ req, (answer req).id = req.id) :
    Tabled (s.complete code id answers (s.udev.endRequest code id answer)) := by
  rcases @State.complete_cases s code id answers answer h hid with
    ⟨-, hrun⟩ | ⟨-, -, s', hrun, htable, -⟩ | ⟨i, r, -, -, -, s', hrun, htable, -⟩
  · rw [hrun]
    trivial
  · rw [hrun]
    exact htable
  · rw [hrun]
    exact htable

end complete

theorem State.Steps.tabled {s : State} {a : Action} (h : s.Steps a) : Tabled (s.perform a) := by
  obtain ⟨s', hrun, htable, -⟩ := h
  rw [hrun]
  exact htable

theorem State.Steps.safe {s : State} {a : Action} (h : s.Steps a) (hs : Safe (.ok s)) :
    Safe (s.perform a) := by
  obtain ⟨s', hrun, htable, hsame⟩ := h
  rw [hrun]
  refine ⟨htable.distinct, ?_⟩
  rw [State.Matched, hsame]
  exact hs.2

theorem tabled_begin {s : State} (h : s.Table) {α : Type} (code : ℕ) (id : ℤ)
    (read : UinputRequest → Option α) :
    Tabled (do let _ ← s.udev.beginRequest code id read; return s) := by
  rcases begin_spec s code id read with ⟨-, hrun⟩ | ⟨-, hrun⟩
  · rw [hrun]
    trivial
  · rw [hrun]
    exact h

theorem safe_begin_iff {s : State} (hs : Safe (.ok s)) {α : Type} (code : ℕ) (id : ℤ)
    (read : UinputRequest → Option α) :
    Safe (do let _ ← s.udev.beginRequest code id read; return s) ↔ s.udev.Held id := by
  rcases begin_spec s code id read with ⟨hheld, hrun⟩ | ⟨hheld, hrun⟩
  · rw [hrun]
    exact iff_of_false (fun hsafe => hsafe) hheld
  · rw [hrun]
    exact iff_of_true hs hheld

theorem tabled_step (s : Except Fault State) (a : Action) (h : Tabled s) : Tabled (step s a) := by
  cases s with
  | error fault => trivial
  | ok s =>
    cases a with
    | init r call => exact (State.steps_init h r call).tabled
    | allocId r => exact (State.steps_allocId h r).tabled
    | interruptInit r => exact (State.steps_interruptInit h r).tabled
    | announce r => exact (State.steps_announce h r).tabled
    | wake r interrupted => exact (State.steps_wake h r interrupted).tabled
    | release r => exact (State.steps_release h r).tabled
    | beginFFUpload id => exact tabled_begin h _ id _
    | beginFFErase id => exact tabled_begin h _ id _
    | endFFUpload id retval effect answers => exact tabled_complete h fun _ => rfl
    | endFFErase id retval answers => exact tabled_complete h fun _ => rfl

theorem safe_step_iff {s : State} (h : s.Table) (hs : Safe (.ok s)) (a : Action) :
    Safe (step (.ok s) a) ↔ Proper (.ok s) a := by
  cases a with
  | init r call => exact iff_of_true ((State.steps_init h r call).safe hs) trivial
  | allocId r => exact iff_of_true ((State.steps_allocId h r).safe hs) trivial
  | interruptInit r => exact iff_of_true ((State.steps_interruptInit h r).safe hs) trivial
  | announce r => exact iff_of_true ((State.steps_announce h r).safe hs) trivial
  | wake r interrupted => exact iff_of_true ((State.steps_wake h r interrupted).safe hs) trivial
  | release r => exact iff_of_true ((State.steps_release h r).safe hs) trivial
  | beginFFUpload id => exact safe_begin_iff hs _ id _
  | beginFFErase id => exact safe_begin_iff hs _ id _
  | endFFUpload id retval effect answers => exact safe_complete_iff h hs fun _ => rfl
  | endFFErase id retval answers => exact safe_complete_iff h hs fun _ => rfl

theorem table_start : State.start.Table := by
  intro id r
  apply iff_of_false
  · intro hslot
    cases hslot
  · rintro ⟨hp, -⟩
    cases hp

theorem safe_start : Safe (.ok State.start) :=
  ⟨table_start.distinct, fun _ hc => absurd hc List.not_mem_nil⟩

theorem always_matched_iff (run : List Action) :
    Lib.Runs.Always step Safe (.ok State.start) run ↔
      Lib.Runs.Meets step Proper (.ok State.start) run := by
  have htable : Tabled (.ok State.start) := table_start
  apply Lib.Runs.always_iff_meets tabled_step _ htable safe_start
  rintro (fault | s) a h hs
  · exact hs.elim
  · exact safe_step_iff h hs a

/-- An ioctl for an id that nobody has; and the late answer to a request that has given up, after
another has taken its id. -/
theorem mismatched : ¬Lib.Runs.Always step Safe (.ok State.start) [.beginFFErase 0] ∧
    ¬Lib.Runs.Always step Safe (.ok State.start)
      [.init 0 (.eraseEffect 3), .allocId 0, .announce 0, .wake 0 true, .release 0,
        .init 1 (.eraseEffect 4), .allocId 1, .announce 1, .endFFErase 0 0 (some 0)] := by
  constructor
  · intro h
    exact h.2.head
  · intro h
    have hmatched := h.last.2 ⟨1, some 0⟩ List.mem_cons_self 0 rfl
    cases hmatched

end UinputRequests

end NaviMisc.Inputpipe
