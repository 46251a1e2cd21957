import Mathlib.Data.BitVec
import Mathlib.Tactic.Ring
import NaviMisc.Lib.Runs

/-!
The outputs of the controller hub (gchub.c). Any number of calls and of completions run at once;
each section under a lock and each read or write without one is a step.
-/

namespace NaviMisc.Wasabi

open NaviMisc.Lib.Runs

abbrev NUM_PORTS : ℕ := 4

abbrev Port := Fin NUM_PORTS

def LED_OFF : BitVec 32 := 0

def LED_RED : BitVec 32 := 1

def LED_GREEN : BitVec 32 := 2

def GCHUB_RUMBLE_PORT : Port → BitVec 16
  | 0 => 0x01
  | 1 => 0x02
  | 2 => 0x04
  | 3 => 0x08

def GCHUB_LED_PORT_RED : Port → BitVec 16
  | 0 => 0x80
  | 1 => 0x20
  | 2 => 0x08
  | 3 => 0x02

def GCHUB_LED_PORT_GREEN : Port → BitVec 16
  | 0 => 0x40
  | 1 => 0x10
  | 2 => 0x04
  | 3 => 0x01

structure Outputs where
  rumble : ℤ
  led_color : BitVec 32
  deriving DecidableEq

def Outputs.off : Outputs := ⟨0, LED_OFF⟩

structure StatusRequest where
  wValue : BitVec 16
  wIndex : BitVec 16
  deriving DecidableEq

def orAll (l : List (BitVec 16)) : BitVec 16 := l.foldl (· ||| ·) 0

local instance neZeroPorts : NeZero NUM_PORTS := ⟨by decide⟩

def ports : List Port := [0, 1, 2, 3]

def statusRequest (outputs : Port → Outputs) : StatusRequest where
  wValue := orAll (ports.map fun p => if (outputs p).rumble ≠ 0 then GCHUB_RUMBLE_PORT p else 0)
  wIndex := orAll (ports.map (fun p =>
      if (outputs p).led_color &&& LED_RED ≠ 0 then GCHUB_LED_PORT_RED p else 0) ++
    ports.map (fun p =>
      if (outputs p).led_color &&& LED_GREEN ≠ 0 then GCHUB_LED_PORT_GREEN p else 0))

inductive Change
  | rumble (port : Port) (rumble : ℤ)
  | led (port : Port) (led_color : BitVec 32)

def Change.port : Change → Port
  | rumble p _ | led p _ => p

def Change.apply (o : Outputs) : Change → Outputs
  | rumble _ r => { o with rumble := r }
  | led _ l => { o with led_color := l }

inductive Pc
  | idle
  /-- The setters that are still to be called, and then gchub_sync_output_status. -/
  | setting (changes : List Change)
  /-- The loop over the dirty flags. -/
  | checking (i : ℕ) (dirty : ℕ)
  | locking
  /-- gchub_out_request_irq comes to its lock. -/
  | completed
  /-- The loop of gchub_fill_output_request, and the request when it is done. -/
  | filling (port : ℕ) (outputs : Port → Outputs)
  | submitting

structure Hub (Thread : Type) where
  outputs : Port → Outputs
  dirty : Port → Bool
  out_status_in_progress : Bool
  out_status_pending_sync : Bool
  out_status_request : StatusRequest
  inFlight : ℕ
  sent : List StatusRequest
  pc : Thread → Pc

inductive Event (Thread : Type)
  | call (t : Thread) (changes : List Change)
  | complete (t : Thread)
  | run (t : Thread)

variable {Thread : Type} [DecidableEq Thread]

def Hub.goto (s : Hub Thread) (t : Thread) (pc : Pc) : Hub Thread :=
  { s with pc := Function.update s.pc t pc }

def Hub.set (s : Hub Thread) (c : Change) : Hub Thread :=
  if c.apply (s.outputs c.port) = s.outputs c.port then s
  else { s with
    outputs := Function.update s.outputs c.port (c.apply (s.outputs c.port))
    dirty := Function.update s.dirty c.port true }

def Hub.runThread (s : Hub Thread) (t : Thread) : Hub Thread :=
  match s.pc t with
  | .idle => s
  | .setting (c :: changes) => (s.set c).goto t (.setting changes)
  | .setting [] => s.goto t (.checking 0 0)
  | .checking i dirty =>
    if h : i < NUM_PORTS then
      s.goto t (.checking (i + 1) (if s.dirty ⟨i, h⟩ then dirty + 1 else dirty))
    else s.goto t (if dirty = 0 then .idle else .locking)
  | .locking =>
    if s.out_status_in_progress then { s with out_status_pending_sync := true }.goto t .idle
    else { s with out_status_in_progress := true }.goto t (.filling 0 fun _ => Outputs.off)
  | .completed =>
    if s.out_status_pending_sync then
      { s with out_status_pending_sync := false }.goto t (.filling 0 fun _ => Outputs.off)
    else { s with
      out_status_pending_sync := false
      out_status_in_progress := false }.goto t .idle
  | .filling i outputs =>
    if h : i < NUM_PORTS then
      { s with dirty := Function.update s.dirty ⟨i, h⟩ false }.goto t
        (.filling (i + 1) (Function.update outputs ⟨i, h⟩ (s.outputs ⟨i, h⟩)))
    else { s with out_status_request := statusRequest outputs }.goto t .submitting
  | .submitting => { s with
      inFlight := s.inFlight + 1
      sent := s.sent ++ [s.out_status_request] }.goto t .idle

def Hub.step (s : Hub Thread) : Event Thread → Hub Thread
  | .call t changes => match s.pc t with
    | .idle => s.goto t (.setting changes)
    | _ => s
  | .complete t => match s.pc t with
    | .idle => if 0 < s.inFlight then { s with inFlight := s.inFlight - 1 }.goto t .completed else s
    | _ => s
  | .run t => s.runThread t

/-- Nothing is on at first. -/
def Hub.probed : Hub Thread where
  outputs _ := Outputs.off
  dirty _ := false
  out_status_in_progress := false
  out_status_pending_sync := false
  out_status_request := ⟨0, 0⟩
  inFlight := 0
  sent := []
  pc _ := .idle

def Hub.shown (s : Hub Thread) : StatusRequest := s.sent.getLast?.getD ⟨0, 0⟩

end NaviMisc.Wasabi

/-!
No change of the outputs is lost, in any order of the calls and the completions.
-/

namespace NaviMisc.Wasabi

open NaviMisc.Lib.Runs

variable {Thread : Type} [DecidableEq Thread] {s : Hub Thread} {t u : Thread} {pc' : Pc} {p : Port}

def Pc.Busy : Pc → Prop
  | .completed | .filling _ _ | .submitting => True
  | _ => False

def Pc.Making : Pc → Prop
  | .filling _ _ | .submitting => True
  | _ => False

def Pc.Sees (p : Port) : Pc → Prop
  | .setting _ | .locking => True
  | .checking i dirty => i ≤ p ∨ dirty ≠ 0
  | .filling i _ => i ≤ p
  | _ => False

structure Hub.Exclusive (s : Hub Thread) : Prop where
  unique : ∀ t u, (s.pc t).Busy → (s.pc u).Busy → t = u
  inFlight : s.inFlight ≤ 1
  busy : ∀ t, (s.pc t).Busy → s.inFlight = 0 ∧ s.out_status_in_progress = true
  held : s.out_status_in_progress = true → s.inFlight = 1 ∨ ∃ t, (s.pc t).Busy
  progress : s.inFlight = 1 → s.out_status_in_progress = true
  pending : s.out_status_pending_sync = true → s.out_status_in_progress = true

structure Hub.Covered (s : Hub Thread) (newest : Port → Outputs) : Prop where
  ports : ∀ p, s.outputs p = newest p ∨
    (s.dirty p = true ∧ (s.out_status_pending_sync = true ∨ ∃ t, (s.pc t).Sees p))
  filling : ∀ t i outputs, s.pc t = .filling i outputs → ∀ p : Port, p < i → outputs p = newest p
  submitting : ∀ t, s.pc t = .submitting → s.out_status_request = statusRequest newest
  shown : (∀ t, ¬(s.pc t).Making) → s.shown = statusRequest newest

@[simp]
theorem pc_goto_self : (s.goto t pc').pc t = pc' := by simp [Hub.goto]

theorem pc_goto_of_ne (h : u ≠ t) : (s.goto t pc').pc u = s.pc u := by simp [Hub.goto, h]

theorem Hub.Exclusive.goto (h : s.Exclusive) (hpc : ¬(s.pc t).Busy) (hpc' : ¬pc'.Busy) :
    (s.goto t pc').Exclusive := by
  have hbusy : ∀ u, ((s.goto t pc').pc u).Busy ↔ (s.pc u).Busy := by
    intro u
    by_cases hu : u = t
    · subst hu
      rw [pc_goto_self]
      exact iff_of_false hpc' hpc
    · rw [pc_goto_of_ne hu]
  exact {
    unique := fun u v hu hv => h.unique u v ((hbusy u).mp hu) ((hbusy v).mp hv)
    inFlight := h.inFlight
    busy := fun u hu => h.busy u ((hbusy u).mp hu)
    held := fun hp => (h.held hp).imp_right fun ⟨u, hu⟩ => ⟨u, (hbusy u).mpr hu⟩
    progress := h.progress
    pending := h.pending }

theorem Hub.Exclusive.keep (h : s.Exclusive) (hpc : (s.pc t).Busy) (hpc' : pc'.Busy) :
    (s.goto t pc').Exclusive := by
  have hbusy : ∀ u, ((s.goto t pc').pc u).Busy ↔ (s.pc u).Busy := by
    intro u
    by_cases hu : u = t
    · subst hu
      rw [pc_goto_self]
      exact iff_of_true hpc' hpc
    · rw [pc_goto_of_ne hu]
  exact {
    unique := fun u v hu hv => h.unique u v ((hbusy u).mp hu) ((hbusy v).mp hv)
    inFlight := h.inFlight
    busy := fun u hu => h.busy u ((hbusy u).mp hu)
    held := fun hp => (h.held hp).imp_right fun ⟨u, hu⟩ => ⟨u, (hbusy u).mpr hu⟩
    progress := h.progress
    pending := h.pending }

omit [DecidableEq Thread] in
theorem set_pc (s : Hub Thread) (c : Change) : (s.set c).pc = s.pc := by
  unfold Hub.set
  split_ifs <;> rfl

omit [DecidableEq Thread] in
theorem Hub.Exclusive.set (h : s.Exclusive) (c : Change) : (s.set c).Exclusive := by
  unfold Hub.set
  split_ifs
  · exact h
  · exact ⟨h.unique, h.inFlight, h.busy, h.held, h.progress, h.pending⟩

theorem Hub.Exclusive.release (h : s.Exclusive) (hpc : (s.pc t).Busy) :
    ∀ u, ¬((s.goto t .idle).pc u).Busy := by
  intro u hu
  by_cases hut : u = t
  · subst hut
    rw [pc_goto_self] at hu
    exact hu
  · rw [pc_goto_of_ne hut] at hu
    exact hut (h.unique u t hu hpc)

theorem Hub.Exclusive.runThread (h : s.Exclusive) (t : Thread) : (s.runThread t).Exclusive := by
  unfold Hub.runThread
  split
  case h_1 => exact h
  case h_2 c changes hpc =>
    apply (h.set c).goto _ id
    rw [set_pc, hpc]
    exact id
  case h_3 hpc => exact h.goto (by rw [hpc]; exact id) id
  case h_4 i dirty hpc =>
    have hpc' : ¬(s.pc t).Busy := by
      rw [hpc]
      exact id
    split_ifs <;> exact h.goto hpc' id
  case h_5 hpc =>
    split_ifs with hprogress
    · have hpending : ({ s with out_status_pending_sync := true } : Hub Thread).Exclusive :=
        ⟨h.unique, h.inFlight, h.busy, h.held, h.progress, fun _ => hprogress⟩
      exact hpending.goto (by dsimp only; rw [hpc]; exact id) id
    · have hfree : ∀ u, ¬(s.pc u).Busy := fun u hu => hprogress (h.busy u hu).2
      have hflight : s.inFlight = 0 := by
        have hle := h.inFlight
        by_contra hne
        exact hprogress (h.progress (by omega))
      exact {
        unique := by
          intro u v hu hv
          have hself : ∀ w, (({ s with out_status_in_progress := true }.goto t
              (.filling 0 fun _ => Outputs.off) : Hub Thread).pc w).Busy → w = t := by
            intro w hw
            by_contra hne
            rw [pc_goto_of_ne hne] at hw
            exact hfree w hw
          rw [hself u hu, hself v hv]
        inFlight := h.inFlight
        busy := fun _ _ => ⟨hflight, rfl⟩
        held := fun _ => Or.inr ⟨t, by rw [pc_goto_self]; trivial⟩
        progress := fun _ => rfl
        pending := fun _ => rfl }
  case h_6 hpc =>
    have hbusy : (s.pc t).Busy := by rw [hpc]; trivial
    split_ifs with hpending
    · have hkept : ({ s with out_status_pending_sync := false } : Hub Thread).Exclusive :=
        ⟨h.unique, h.inFlight, h.busy, h.held, h.progress, nofun⟩
      exact hkept.keep hbusy trivial
    · have hfree := h.release hbusy
      have hflight := (h.busy t hbusy).1
      exact {
        unique := fun u _ hu _ => absurd hu (hfree u)
        inFlight := h.inFlight
        busy := fun u hu => absurd hu (hfree u)
        held := nofun
        progress := fun hone => absurd (hflight.symm.trans hone) (by decide)
        pending := nofun }
  case h_7 i outputs hpc =>
    have hbusy : (s.pc t).Busy := by rw [hpc]; trivial
    split_ifs with hi
    · exact Hub.Exclusive.keep (s := { s with dirty := _ })
        ⟨h.unique, h.inFlight, h.busy, h.held, h.progress, h.pending⟩ hbusy trivial
    · exact Hub.Exclusive.keep (s := { s with out_status_request := _ })
        ⟨h.unique, h.inFlight, h.busy, h.held, h.progress, h.pending⟩ hbusy trivial
  case h_8 hpc =>
    have hbusy : (s.pc t).Busy := by rw [hpc]; trivial
    have hfree := h.release hbusy
    obtain ⟨hflight, hprogress⟩ := h.busy t hbusy
    have hone : s.inFlight + 1 = 1 := by rw [hflight]
    exact {
      unique := fun u _ hu _ => absurd hu (hfree u)
      inFlight := Nat.le_of_eq hone
      busy := fun u hu => absurd hu (hfree u)
      held := fun _ => Or.inl hone
      progress := fun _ => hprogress
      pending := fun _ => hprogress }

theorem Hub.Exclusive.step (h : s.Exclusive) (e : Event Thread) : (s.step e).Exclusive := by
  cases e with
  | call t changes =>
    cases hpc : s.pc t <;> simp only [Hub.step, hpc] <;> try exact h
    exact h.goto (by rw [hpc]; exact id) id
  | complete t =>
    cases hpc : s.pc t <;> simp only [Hub.step, hpc] <;> try exact h
    split_ifs with hflight
    · have hone : s.inFlight = 1 := by
        have := h.inFlight
        omega
      have hfree : ∀ u, ¬(s.pc u).Busy := fun u hu => by
        have := (h.busy u hu).1
        omega
      have hself : ∀ w, (({ s with inFlight := s.inFlight - 1 }.goto t .completed :
          Hub Thread).pc w).Busy → w = t := by
        intro w hw
        by_contra hne
        rw [pc_goto_of_ne hne] at hw
        exact hfree w hw
      have hzero : s.inFlight - 1 = 0 := by omega
      exact {
        unique := fun u v hu hv => (hself u hu).trans (hself v hv).symm
        inFlight := by
          have hle : s.inFlight - 1 ≤ 1 := by omega
          exact hle
        busy := fun _ _ => ⟨hzero, h.progress hone⟩
        held := fun _ => Or.inr ⟨t, by rw [pc_goto_self]; trivial⟩
        progress := fun _ => h.progress hone
        pending := h.pending }
    · exact h
  | run t => exact h.runThread t

section Covered

variable {newest : Port → Outputs}

theorem Hub.Covered.goto (h : s.Covered newest) (hpc : ¬(s.pc t).Making) (hpc' : ¬pc'.Making)
    (hsees : ∀ p, s.dirty p = true → (s.pc t).Sees p →
      s.out_status_pending_sync = true ∨ pc'.Sees p) : (s.goto t pc').Covered newest where
  ports p := by
    refine (h.ports p).imp_right fun ⟨hdirty, hseen⟩ => ⟨hdirty, ?_⟩
    rcases hseen with hpending | ⟨u, hu⟩
    · exact Or.inl hpending
    · by_cases hut : u = t
      · subst hut
        exact (hsees p hdirty hu).imp_right fun hu' => ⟨u, by rwa [pc_goto_self]⟩
      · exact Or.inr ⟨u, by rwa [pc_goto_of_ne hut]⟩
  filling u i outputs hu := by
    by_cases hut : u = t
    · subst hut
      rw [pc_goto_self] at hu
      exact absurd (by rw [hu]; trivial) hpc'
    · rw [pc_goto_of_ne hut] at hu
      exact h.filling u i outputs hu
  submitting u hu := by
    by_cases hut : u = t
    · subst hut
      rw [pc_goto_self] at hu
      exact absurd (by rw [hu]; trivial) hpc'
    · rw [pc_goto_of_ne hut] at hu
      exact h.submitting u hu
  shown hall := by
    apply h.shown
    intro u
    by_cases hut : u = t
    · subst hut
      exact hpc
    · have hu := hall u
      rwa [pc_goto_of_ne hut] at hu

omit [DecidableEq Thread] in
theorem Hub.Covered.set (h : s.Covered newest) (c : Change) (hpc : ∃ cs, s.pc t = .setting cs) :
    (s.set c).Covered newest := by
  obtain ⟨cs, hpc⟩ := hpc
  unfold Hub.set
  split_ifs
  · exact h
  · refine ⟨fun p => ?_, h.filling, h.submitting, h.shown⟩
    by_cases hp : p = c.port
    · subst hp
      exact Or.inr ⟨Function.update_self _ _ _, Or.inr ⟨t, by dsimp only; rw [hpc]; trivial⟩⟩
    · dsimp only
      rw [Function.update_of_ne hp, Function.update_of_ne hp]
      exact h.ports p

theorem not_sees_of_done {i : ℕ} (hi : ¬i < NUM_PORTS) : ¬(Pc.checking i 0).Sees p := by
  have hp := p.isLt
  simp only [Pc.Sees]
  omega

theorem Hub.Covered.begin (h : s.Covered newest) (t : Thread) (progress pending : Bool)
    (outputs : Port → Outputs) :
    ({ s with
      out_status_in_progress := progress
      out_status_pending_sync := pending }.goto t (.filling 0 outputs)).Covered newest where
  ports p := by
    refine (h.ports p).imp_right fun ⟨hdirty, _⟩ => ⟨hdirty, Or.inr ⟨t, ?_⟩⟩
    rw [pc_goto_self]
    exact Nat.zero_le _
  filling u i outputs hu p hp := by
    by_cases hut : u = t
    · subst hut
      rw [pc_goto_self] at hu
      injection hu with hi
      exact absurd hp (by omega)
    · rw [pc_goto_of_ne hut] at hu
      exact h.filling u i outputs hu p hp
  submitting u hu := by
    by_cases hut : u = t
    · subst hut
      rw [pc_goto_self] at hu
      cases hu
    · rw [pc_goto_of_ne hut] at hu
      exact h.submitting u hu
  shown hall := absurd (by rw [pc_goto_self]; trivial) (hall t)

theorem Hub.Covered.take (h : s.Covered newest) (hs : s.Exclusive) {i : ℕ} (hi : i < NUM_PORTS)
    {outputs : Port → Outputs} (hpc : s.pc t = .filling i outputs) :
    ({ s with dirty := Function.update s.dirty ⟨i, hi⟩ false }.goto t
      (.filling (i + 1) (Function.update outputs ⟨i, hi⟩ (s.outputs ⟨i, hi⟩)))).Covered
        (Function.update newest ⟨i, hi⟩ (s.outputs ⟨i, hi⟩)) where
  ports p := by
    by_cases hp : p = ⟨i, hi⟩
    · subst hp
      rw [Function.update_self]
      exact Or.inl rfl
    · have hpi : (p : ℕ) ≠ i := fun hpi => hp (Fin.ext hpi)
      rw [Function.update_of_ne hp]
      refine (h.ports p).imp_right fun ⟨hdirty, hseen⟩ => ⟨?_, hseen.imp_right ?_⟩
      · exact (Function.update_of_ne hp _ _).trans hdirty
      · rintro ⟨u, hu⟩
        refine ⟨u, ?_⟩
        by_cases hut : u = t
        · subst hut
          rw [hpc] at hu
          rw [pc_goto_self]
          exact Nat.lt_of_le_of_ne hu (Ne.symm hpi)
        · rwa [pc_goto_of_ne hut]
  filling u j outputs' hu p hp := by
    by_cases hut : u = t
    · subst hut
      rw [pc_goto_self] at hu
      injection hu with hj houtputs
      subst hj houtputs
      by_cases hpi : p = ⟨i, hi⟩
      · subst hpi
        rw [Function.update_self, Function.update_self]
      · rw [Function.update_of_ne hpi, Function.update_of_ne hpi]
        apply h.filling u i outputs hpc
        have : (p : ℕ) ≠ i := fun h => hpi (Fin.ext h)
        omega
    · rw [pc_goto_of_ne hut] at hu
      exact absurd (hs.unique u t (by dsimp only at hu; rw [hu]; trivial) (by rw [hpc]; trivial)) hut
  submitting u hu := by
    by_cases hut : u = t
    · subst hut
      rw [pc_goto_self] at hu
      cases hu
    · rw [pc_goto_of_ne hut] at hu
      exact absurd (hs.unique u t (by dsimp only at hu; rw [hu]; trivial) (by rw [hpc]; trivial)) hut
  shown hall := absurd (by rw [pc_goto_self]; trivial) (hall t)

theorem Hub.Covered.fill (h : s.Covered newest) (hs : s.Exclusive) {i : ℕ} (hi : ¬i < NUM_PORTS)
    {outputs : Port → Outputs} (hpc : s.pc t = .filling i outputs) :
    ({ s with out_status_request := statusRequest outputs }.goto t .submitting).Covered newest where
  ports p := by
    refine (h.ports p).imp_right fun ⟨hdirty, hseen⟩ => ⟨hdirty, hseen.imp_right ?_⟩
    rintro ⟨u, hu⟩
    refine ⟨u, ?_⟩
    by_cases hut : u = t
    · subst hut
      rw [hpc] at hu
      have hp := p.isLt
      simp only [Pc.Sees] at hu
      omega
    · rwa [pc_goto_of_ne hut]
  filling u j outputs' hu := by
    by_cases hut : u = t
    · subst hut
      rw [pc_goto_self] at hu
      cases hu
    · rw [pc_goto_of_ne hut] at hu
      exact h.filling u j outputs' hu
  submitting u hu := by
    by_cases hut : u = t
    · have houtputs : outputs = newest := by
        funext p
        have hp := p.isLt
        exact h.filling t i outputs hpc p (by omega)
      exact congrArg statusRequest houtputs
    · rw [pc_goto_of_ne hut] at hu
      exact absurd (hs.unique u t (by dsimp only at hu; rw [hu]; trivial) (by rw [hpc]; trivial)) hut
  shown hall := absurd (by rw [pc_goto_self]; trivial) (hall t)

theorem Hub.Covered.submit (h : s.Covered newest) (hpc : s.pc t = .submitting) :
    ({ s with
      inFlight := s.inFlight + 1
      sent := s.sent ++ [s.out_status_request] }.goto t .idle).Covered newest where
  ports p := by
    refine (h.ports p).imp_right fun ⟨hdirty, hseen⟩ => ⟨hdirty, hseen.imp_right ?_⟩
    rintro ⟨u, hu⟩
    refine ⟨u, ?_⟩
    by_cases hut : u = t
    · subst hut
      rw [hpc] at hu
      exact hu.elim
    · rwa [pc_goto_of_ne hut]
  filling u j outputs' hu := by
    by_cases hut : u = t
    · subst hut
      rw [pc_goto_self] at hu
      cases hu
    · rw [pc_goto_of_ne hut] at hu
      exact h.filling u j outputs' hu
  submitting u hu := h.submitting t hpc
  shown _ := by
    rw [← h.submitting t hpc]
    simp [Hub.shown, Hub.goto]

theorem Hub.Covered.runThread (h : s.Covered newest) (hs : s.Exclusive) (t : Thread) :
    ∃ newest', (s.runThread t).Covered newest' := by
  unfold Hub.runThread
  split
  case h_1 => exact ⟨newest, h⟩
  case h_2 c changes hpc =>
    have hset : (s.set c).pc t = .setting (c :: changes) := by rw [set_pc, hpc]
    refine ⟨newest, (h.set c ⟨_, hpc⟩).goto ?_ id fun _ _ _ => Or.inr trivial⟩
    rw [hset]
    exact id
  case h_3 hpc =>
    exact ⟨newest, h.goto (by rw [hpc]; exact id) id fun _ _ _ => Or.inr (Or.inl (Nat.zero_le _))⟩
  case h_4 i dirty hpc =>
    have hmaking : ¬(s.pc t).Making := by
      rw [hpc]
      exact id
    split_ifs with hi hport hzero
    · exact ⟨newest, h.goto hmaking id fun _ _ _ => Or.inr (Or.inr (Nat.succ_ne_zero dirty))⟩
    · refine ⟨newest, h.goto hmaking id fun p hdirty hp => Or.inr ?_⟩
      rw [hpc] at hp
      refine hp.imp_left fun hip => ?_
      have hne : i ≠ p := by
        rintro rfl
        exact hport hdirty
      omega
    · subst hzero
      refine ⟨newest, h.goto hmaking id fun p _ hp => ?_⟩
      rw [hpc] at hp
      exact absurd hp (not_sees_of_done hi)
    · exact ⟨newest, h.goto hmaking id fun _ _ _ => Or.inr trivial⟩
  case h_5 hpc =>
    split_ifs with hprogress
    · have hpending : ({ s with out_status_pending_sync := true } : Hub Thread).Covered newest :=
        ⟨fun p => (h.ports p).imp_right fun ⟨hdirty, _⟩ => ⟨hdirty, Or.inl rfl⟩, h.filling,
          h.submitting, h.shown⟩
      refine ⟨newest, hpending.goto ?_ id fun _ _ _ => Or.inl rfl⟩
      dsimp only
      rw [hpc]
      exact id
    · exact ⟨newest, h.begin t true s.out_status_pending_sync _⟩
  case h_6 hpc =>
    split_ifs with hpending
    · exact ⟨newest, h.begin t s.out_status_in_progress false _⟩
    · have hdone : ({ s with
          out_status_pending_sync := false
          out_status_in_progress := false } : Hub Thread).Covered newest :=
        ⟨fun p => (h.ports p).imp_right fun ⟨hdirty, hseen⟩ =>
          ⟨hdirty, hseen.imp_left fun hp => absurd hp hpending⟩, h.filling, h.submitting, h.shown⟩
      refine ⟨newest, hdone.goto ?_ id fun p _ hp => ?_⟩
      · dsimp only
        rw [hpc]
        exact id
      · dsimp only at hp
        rw [hpc] at hp
        exact hp.elim
  case h_7 i outputs hpc =>
    split_ifs with hi
    · exact ⟨_, h.take hs hi hpc⟩
    · exact ⟨newest, h.fill hs hi hpc⟩
  case h_8 hpc => exact ⟨newest, h.submit hpc⟩

theorem Hub.Covered.step (h : s.Covered newest) (hs : s.Exclusive) (e : Event Thread) :
    ∃ newest', (s.step e).Covered newest' := by
  cases e with
  | call t changes =>
    cases hpc : s.pc t <;> simp only [Hub.step, hpc] <;> try exact ⟨newest, h⟩
    exact ⟨newest, h.goto (by rw [hpc]; exact id) id fun _ _ _ => Or.inr trivial⟩
  | complete t =>
    cases hpc : s.pc t <;> simp only [Hub.step, hpc] <;> try exact ⟨newest, h⟩
    split_ifs
    · have hflight : ({ s with inFlight := s.inFlight - 1 } : Hub Thread).Covered newest :=
        ⟨h.ports, h.filling, h.submitting, h.shown⟩
      refine ⟨newest, hflight.goto ?_ id fun p _ hp => ?_⟩
      · dsimp only
        rw [hpc]
        exact id
      · dsimp only at hp
        rw [hpc] at hp
        exact hp.elim
    · exact ⟨newest, h⟩
  | run t => exact h.runThread hs t

omit [DecidableEq Thread] in
theorem Hub.Covered.shown_eq (h : s.Covered newest) (hs : s.Exclusive) (hflight : s.inFlight = 0)
    (hidle : ∀ t, s.pc t = .idle) : s.shown = statusRequest s.outputs := by
  have hprogress : ¬s.out_status_in_progress = true := fun hp => by
    rcases hs.held hp with hone | ⟨t, ht⟩
    · omega
    · rw [hidle t] at ht
      exact ht
  have houtputs : s.outputs = newest := by
    funext p
    rcases h.ports p with hp | ⟨-, hpending | ⟨t, ht⟩⟩
    · exact hp
    · exact absurd (hs.pending hpending) hprogress
    · rw [hidle t] at ht
      exact ht.elim
  rw [houtputs]
  apply h.shown
  intro t
  rw [hidle t]
  exact id

end Covered

omit [DecidableEq Thread] in
theorem exclusive_probed : (Hub.probed : Hub Thread).Exclusive where
  unique _ _ ht := ht.elim
  inFlight := Nat.zero_le 1
  busy _ ht := ht.elim
  held := nofun
  progress := nofun
  pending := nofun

omit [DecidableEq Thread] in
theorem covered_probed : (Hub.probed : Hub Thread).Covered fun _ => Outputs.off where
  ports _ := Or.inl rfl
  filling := nofun
  submitting := nofun
  shown _ := by
    have h : statusRequest (fun _ => Outputs.off) = ⟨0, 0⟩ := by decide
    exact h.symm

theorem outputs_kept (events : List (Event Thread)) :
    Always Hub.step (fun s : Hub Thread => s.inFlight ≤ 1 ∧
      (s.inFlight = 0 → (∀ t, s.pc t = .idle) → s.shown = statusRequest s.outputs))
      Hub.probed events := by
  have hrun : Always Hub.step (fun s : Hub Thread => s.Exclusive ∧ ∃ newest, s.Covered newest)
      Hub.probed events := by
    apply always_of_invariant
    · rintro s e ⟨hs, newest, h⟩
      exact ⟨hs.step e, h.step hs e⟩
    · exact ⟨exclusive_probed, _, covered_probed⟩
  apply hrun.mono
  rintro s ⟨hs, newest, h⟩
  exact ⟨hs.inFlight, h.shown_eq hs⟩

end NaviMisc.Wasabi
