import NaviMisc.Inputpipe.ServerDevice

/-!
When the server creates a client's device, and what it writes to it.
-/

namespace NaviMisc.Inputpipe.Server

open Lib.ByteOrder (Endian Byte)
open Lib.Bits (wordsBit)

def UinputCall.creates : UinputCall → Bool
  | .devCreate result => decide (0 ≤ result)
  | _ => false

def successes (calls : List UinputCall) : ℕ := calls.countP UinputCall.creates

def EventsAfterCreate (calls : List UinputCall) : Prop :=
  ∀ i ev, calls[i]? = some (.writeEvent ev) → 0 < successes (calls.take i)

structure Ledger (created : Bool) (calls : List UinputCall) : Prop where
  at_most_one : successes calls ≤ 1
  created_iff : created = true ↔ 0 < successes calls
  events_after : EventsAfterCreate calls

theorem successes_append (calls more : List UinputCall) :
    successes (calls ++ more) = successes calls + successes more :=
  List.countP_append

theorem successes_of_quiet {calls : List UinputCall} (h : ∀ c ∈ calls, c.Quiet) :
    successes calls = 0 := by
  apply List.countP_eq_zero.mpr
  intro c hc
  have hquiet := h c hc
  cases c with
  | devCreate result => exact hquiet.elim
  | _ => exact Bool.false_ne_true

theorem EventsAfterCreate.append {calls more : List UinputCall} (h : EventsAfterCreate calls)
    (hmore : ∀ ev, .writeEvent ev ∈ more → 0 < successes calls) :
    EventsAfterCreate (calls ++ more) := by
  intro i ev hi
  by_cases hlt : i < calls.length
  · rw [List.getElem?_append_left hlt] at hi
    rw [List.take_append_of_le_length hlt.le]
    exact h i ev hi
  · have hge := Nat.le_of_not_lt hlt
    rw [List.getElem?_append_right hge] at hi
    rw [List.take_append, List.take_of_length_le hge, successes_append]
    have hpos := hmore ev (List.mem_of_getElem? hi)
    omega

theorem Ledger.append {created : Bool} {calls more : List UinputCall} (h : Ledger created calls)
    (hnone : successes more = 0) (hmore : ∀ ev, .writeEvent ev ∈ more → created = true) :
    Ledger created (calls ++ more) := by
  have heq : successes (calls ++ more) = successes calls := by
    rw [successes_append, hnone, Nat.add_zero]
  refine ⟨heq ▸ h.at_most_one, heq ▸ h.created_iff, ?_⟩
  apply h.events_after.append
  intro ev hev
  exact h.created_iff.mp (hmore ev hev)

theorem Ledger.create {calls : List UinputCall} (h : Ledger false calls) (info : UinputUserDev)
    (writeResult : ℤ) {createResult : ℤ} (hres : 0 ≤ createResult) :
    Ledger true (calls ++ [.writeDevInfo info writeResult, .devCreate createResult]) := by
  have hzero : successes calls = 0 := by
    have hcreated := h.created_iff
    simp only [Bool.false_eq_true, false_iff, Nat.not_lt, Nat.le_zero] at hcreated
    exact hcreated
  have hone : successes (calls ++ [.writeDevInfo info writeResult, .devCreate createResult]) = 1 := by
    rw [successes_append, hzero]
    simp [successes, UinputCall.creates, hres]
  refine ⟨hone.le, by simp [hone], ?_⟩
  apply h.events_after.append
  simp

theorem Ledger.not_create {calls : List UinputCall} (info : UinputUserDev) (writeResult : ℤ)
    {createResult : ℤ} (hres : 0 ≤ createResult) :
    ¬Ledger false (calls ++ [.writeDevInfo info writeResult, .devCreate createResult]) := by
  intro h
  have hcreated := h.created_iff
  rw [successes_append] at hcreated
  simp [successes, UinputCall.creates, hres] at hcreated

structure Ordinary (e : Endian) (old : Client) (p : Incoming) (new : Client)
    (calls : List UinputCall) : Prop where
  type_ne : p.type ≠ IPIPE_CREATE
  axis_nonneg : ∀ axis min max, absinfoOf e p = some (axis, min, max) → 0 ≤ axis
  deviceCreated_eq : new.deviceCreated = old.deviceCreated
  evSynBit_eq : new.evSynBit = rememberedSyn old.evSynBit (evBitmapOf e p)
  no_success : successes calls = 0
  created_of_event : ∀ ev, .writeEvent ev ∈ calls → old.deviceCreated = true

theorem evBitmapOf_eq_none {e : Endian} {p : Incoming} (h : p.type ≠ IPIPE_DEVICE_BITS) :
    evBitmapOf e p = none :=
  if_neg fun hp => h hp.1

theorem Ordinary.of_quiet {e : Endian} {old new : Client} {p : Incoming} {calls : List UinputCall}
    (htype : p.type ≠ IPIPE_CREATE) (habs : p.type ≠ IPIPE_DEVICE_ABSINFO)
    (hcreated : new.deviceCreated = old.deviceCreated)
    (hsyn : new.evSynBit = rememberedSyn old.evSynBit (evBitmapOf e p))
    (hquiet : ∀ c ∈ calls, c.Quiet) : Ordinary e old p new calls where
  type_ne := htype
  axis_nonneg := by
    intro axis min max hp
    rw [Session.absinfoOf_eq_none habs] at hp
    cases hp
  deviceCreated_eq := hcreated
  evSynBit_eq := hsyn
  no_success := successes_of_quiet hquiet
  created_of_event := fun ev hev => (hquiet _ hev).elim

theorem receivedEvent_ordinary {e : Endian} {p : Incoming} (htype : p.type = IPIPE_EVENT)
    (self : Client) : ∃ calls, receivedEvent e self p.content = .ok (self, calls) ∧
      Ordinary e self p self calls := by
  have hcreate : p.type ≠ IPIPE_CREATE := by simp [htype, IPIPE_EVENT, IPIPE_CREATE]
  have habs : p.type ≠ IPIPE_DEVICE_ABSINFO := by simp [htype, IPIPE_EVENT, IPIPE_DEVICE_ABSINFO]
  have hbits : p.type ≠ IPIPE_DEVICE_BITS := by simp [htype, IPIPE_EVENT, IPIPE_DEVICE_BITS]
  have hsyn : self.evSynBit = rememberedSyn self.evSynBit (evBitmapOf e p) := by
    rw [evBitmapOf_eq_none hbits]
    rfl
  have hquiet : Ordinary e self p self [] := .of_quiet hcreate habs rfl hsyn (by simp)
  rw [receivedEvent]
  split
  · exact ⟨_, rfl, hquiet⟩
  split
  · exact ⟨_, rfl, hquiet⟩
  · rename_i hcreated
    refine ⟨_, rfl, { hquiet with no_success := ?_, created_of_event := ?_ }⟩
    · split
      · rfl
      · rfl
    · exact fun _ _ => Decidable.not_not.mp hcreated

theorem setAbsinfo_ordinary {e : Endian} {p : Incoming} (htype : p.type = IPIPE_DEVICE_ABSINFO)
    (self : Client) :
    ((∃ axis min max, absinfoOf e p = some (axis, min, max) ∧ axis < 0) ∧
      setAbsinfo e self p.content = .error .outOfBounds) ∨
    ∃ client, setAbsinfo e self p.content = .ok (client, []) ∧ Ordinary e self p client [] := by
  have hordinary {client : Client} (hcreated : client.deviceCreated = self.deviceCreated)
      (hsyn : client.evSynBit = self.evSynBit)
      (haxis : ∀ axis min max, absinfoOf e p = some (axis, min, max) → 0 ≤ axis) :
      Ordinary e self p client [] := by
    refine ⟨?_, haxis, hcreated, ?_, rfl, by simp⟩
    · simp [htype, IPIPE_DEVICE_ABSINFO, IPIPE_CREATE]
    · rw [evBitmapOf_eq_none, hsyn]
      · rfl
      · simp [htype, IPIPE_DEVICE_ABSINFO, IPIPE_DEVICE_BITS]
  rcases setAbsinfo_cases (e := e) htype self with
    ⟨hnone, hset⟩ | ⟨axis, min, max, hsome, ⟨hmax, hset⟩ | ⟨hneg, hset⟩ | ⟨i, rfl, fuzz, flat, hset⟩⟩
  · refine .inr ⟨self, hset, hordinary rfl rfl ?_⟩
    intro axis min max hp
    rw [hnone] at hp
    cases hp
  · refine .inr ⟨self, hset, hordinary rfl rfl ?_⟩
    intro axis' min' max' hp
    rw [hsome] at hp
    cases hp
    omega
  · exact .inl ⟨⟨axis, min, max, hsome, hneg⟩, hset⟩
  · refine .inr ⟨_, hset, hordinary rfl rfl ?_⟩
    intro axis' min' max' hp
    rw [hsome] at hp
    cases hp
    exact Int.natCast_nonneg i

theorem received_lifecycle (e : Endian) (p : Incoming) (self : Client) :
    ((∃ axis min max, absinfoOf e p = some (axis, min, max) ∧ axis < 0) ∧
      clientReceivedPacket e p.env self p.type p.content = .error .outOfBounds) ∨
    (p.type = IPIPE_CREATE ∧
      clientReceivedPacket e p.env self p.type p.content = create p.env self) ∨
    ∃ client calls, clientReceivedPacket e p.env self p.type p.content = .ok (client, calls) ∧
      Ordinary e self p client calls := by
  rcases received_cases e p.env self p.type p.content with
    ⟨htype, hrun⟩ | ⟨htype, hrun⟩ | ⟨htype, hrun⟩ | ⟨htype, hrun⟩ | hcreate |
    ⟨htype, self', calls, hrun, hkeeps, hquiet⟩
  · obtain ⟨calls, hevent, hordinary⟩ := receivedEvent_ordinary (e := e) htype self
    exact .inr (.inr ⟨self, calls, hrun.trans hevent, hordinary⟩)
  · obtain ⟨name, hset, -⟩ := setName_spec self p.content
    have hbits : p.type ≠ IPIPE_DEVICE_BITS := by
      simp [htype, IPIPE_DEVICE_NAME, IPIPE_DEVICE_BITS]
    refine .inr (.inr ⟨_, _, hrun.trans hset, .of_quiet ?_ ?_ rfl ?_ (by simp)⟩)
    · simp [htype, IPIPE_DEVICE_NAME, IPIPE_CREATE]
    · simp [htype, IPIPE_DEVICE_NAME, IPIPE_DEVICE_ABSINFO]
    · rw [evBitmapOf_eq_none hbits]
      rfl
  · rcases setAbsinfo_ordinary (e := e) htype self with ⟨hneg, hset⟩ | ⟨client, hset, hordinary⟩
    · exact .inl ⟨hneg, hrun.trans hset⟩
    · exact .inr (.inr ⟨client, [], hrun.trans hset, hordinary⟩)
  · obtain ⟨calls, hset, hquiet⟩ := setBits_spec (e := e) htype self
    refine .inr (.inr ⟨_, _, hrun.trans hset, .of_quiet ?_ ?_ rfl rfl hquiet⟩)
    · simp [htype, IPIPE_DEVICE_BITS, IPIPE_CREATE]
    · simp [htype, IPIPE_DEVICE_BITS, IPIPE_DEVICE_ABSINFO]
  · exact .inr (.inl hcreate)
  · simp only [List.mem_cons, List.not_mem_nil, or_false, not_or] at htype
    obtain ⟨-, -, habs, hbits, hcreate⟩ := htype
    refine .inr (.inr ⟨_, _, hrun, .of_quiet hcreate habs hkeeps.deviceCreated_eq ?_ hquiet⟩)
    rw [evBitmapOf_eq_none hbits, hkeeps.evSynBit_eq]
    rfl

def eventCalls (evSyn : Bool) (ev : InputEvent) : List UinputCall :=
  if evSyn then [.writeEvent ev]
  else [.writeEvent ev, .writeEvent { ev with type := BitVec.ofNat 16 EV_SYN, code := 0, value := 0 }]

theorem receivedEvent_eq {e : Endian} {self : Client} {content : List Byte}
    (hlength : content.length = sizeofIpipeEvent) (hcreated : self.deviceCreated = true) :
    receivedEvent e self content = .ok (self, eventCalls self.evSynBit (ntohInputEvent e content)) := by
  rw [receivedEvent, if_neg (not_not.mpr hlength), if_neg (not_not.mpr hcreated), eventCalls]
  dsimp only
  cases self.evSynBit with
  | false => rfl
  | true => rfl

theorem length_eventCalls (evSyn : Bool) (ev : InputEvent) :
    (eventCalls evSyn ev).length = if evSyn then 1 else 2 := by
  cases evSyn with
  | false => rfl
  | true => rfl

namespace Session

def EventsSynced (e : Endian) (s : Session) : Prop :=
  s.client.deviceCreated = true → ∀ env content, content.length = sizeofIpipeEvent →
    clientReceivedPacket e env s.client IPIPE_EVENT content =
      .ok (s.client, eventCalls (wordsBit s.evBitmap EV_SYN) (ntohInputEvent e content))

def Lifecycle (e : Endian) : Except Fault Session → Prop
  | .error _ => False
  | .ok s => Ledger s.client.deviceCreated s.calls ∧ EventsSynced e s

def Remembers : Except Fault Session → Prop
  | .error _ => True
  | .ok s => s.evBitmap ≠ [] → s.client.evSynBit = wordsBit s.evBitmap EV_SYN

structure RegularPacket (e : Endian) (s : Session) (p : Incoming) : Prop where
  axis_nonneg : ∀ axis min max, absinfoOf e p = some (axis, min, max) → 0 ≤ axis
  written_of_created : p.type = IPIPE_CREATE → s.client.deviceCreated = false →
    0 ≤ p.env.createResult → 0 ≤ p.env.writeResult
  synced_of_created : p.type = IPIPE_CREATE → s.client.deviceCreated = false →
    0 ≤ p.env.createResult → s.evBitmap = [] → s.client.evSynBit = false
  bitmap_not_empty : s.client.deviceCreated = true → evBitmapOf e p = some [] →
    s.client.evSynBit = false

def Regular (e : Endian) : Except Fault Session → Incoming → Prop
  | .error _, _ => True
  | .ok s, p => RegularPacket e s p

theorem eventsSynced_iff {e : Endian} {s : Session} :
    EventsSynced e s ↔
      (s.client.deviceCreated = true → s.client.evSynBit = wordsBit s.evBitmap EV_SYN) := by
  constructor
  · intro h hcreated
    have hlength : (List.replicate 16 (0 : Byte)).length = sizeofIpipeEvent := rfl
    have hevent := h hcreated zeroEnv _ hlength
    have hreceived := receivedEvent_eq (e := e) hlength hcreated
    have hcalls := Except.ok.inj (hevent.symm.trans hreceived)
    have hlengths := congrArg (fun r => r.2.length) hcalls
    simp only [length_eventCalls] at hlengths
    cases hsyn : s.client.evSynBit <;> cases hbit : wordsBit s.evBitmap EV_SYN <;>
      simp [hsyn, hbit] at hlengths ⊢
  · intro h hcreated env content hlength
    rw [← h hcreated]
    exact receivedEvent_eq hlength hcreated

variable {e : Endian} {s : Session} {p : Incoming}

theorem lifecycle_step_ordinary {client : Client} {calls : List UinputCall}
    (h : Lifecycle e (.ok s))
    (hrun : clientReceivedPacket e p.env s.client p.type p.content = .ok (client, calls))
    (ho : Ordinary e s.client p client calls) :
    Lifecycle e (step e (.ok s) p) ↔ RegularPacket e s p := by
  have hledger : Ledger client.deviceCreated (s.calls ++ calls) := by
    rw [ho.deviceCreated_eq]
    exact h.1.append ho.no_success ho.created_of_event
  have hregular : RegularPacket e s p ↔
      (s.client.deviceCreated = true → evBitmapOf e p = some [] → s.client.evSynBit = false) := by
    constructor
    · exact RegularPacket.bitmap_not_empty
    · exact fun hbitmap => ⟨ho.axis_nonneg, fun htype => absurd htype ho.type_ne,
        fun htype => absurd htype ho.type_ne, hbitmap⟩
  rw [step_ok hrun, hregular, Lifecycle, and_iff_right hledger, eventsSynced_iff]
  dsimp only
  rw [ho.deviceCreated_eq, ho.evSynBit_eq]
  apply imp_congr_right
  intro hcreated
  have hsynced := eventsSynced_iff.mp h.2 hcreated
  cases evBitmapOf e p with
  | none => simp [rememberedSyn, hsynced]
  | some bitmap =>
    cases bitmap with
    | nil => simp [rememberedSyn]
    | cons byte bytes => simp [rememberedSyn]

theorem lifecycle_step_create (h : Lifecycle e (.ok s)) (hrem : Remembers (.ok s))
    (htype : p.type = IPIPE_CREATE)
    (hrun : clientReceivedPacket e p.env s.client p.type p.content = create p.env s.client) :
    Lifecycle e (step e (.ok s) p) ↔ RegularPacket e s p := by
  have habs : absinfoOf e p = none := absinfoOf_eq_none (by
    simp [htype, IPIPE_CREATE, IPIPE_DEVICE_ABSINFO])
  have hbitmap : evBitmapOf e p = none := evBitmapOf_eq_none (by
    simp [htype, IPIPE_CREATE, IPIPE_DEVICE_BITS])
  have hregular : RegularPacket e s p ↔
      (s.client.deviceCreated = false → 0 ≤ p.env.createResult →
        0 ≤ p.env.writeResult ∧ (s.evBitmap = [] → s.client.evSynBit = false)) := by
    constructor
    · exact fun hp hcreated hres => ⟨hp.written_of_created htype hcreated hres,
        hp.synced_of_created htype hcreated hres⟩
    · exact fun hp => ⟨by simp [habs], fun _ hcreated hres => (hp hcreated hres).1,
        fun _ hcreated hres => (hp hcreated hres).2, by simp [hbitmap]⟩
  rw [hregular]
  cases hcreated : s.client.deviceCreated with
  | true =>
    have hcreate : create p.env s.client = .ok (s.client, []) := if_pos hcreated
    rw [step_ok (hrun.trans hcreate), hbitmap]
    apply iff_of_true
    · refine ⟨h.1.append rfl (by simp), ?_⟩
      exact h.2
    · simp
  | false =>
    have hledger : Ledger false s.calls := by
      rw [← hcreated]
      exact h.1
    rw [create, if_neg (by simp [hcreated])] at hrun
    by_cases hcreateRes : p.env.createResult < 0
    · rw [if_pos (.inr hcreateRes)] at hrun
      rw [step_ok hrun, hbitmap]
      apply iff_of_true
      · refine ⟨h.1.append ?_ (by simp), ?_⟩
        · simp [successes, UinputCall.creates, hcreateRes]
        · exact h.2
      · intro _ hres
        omega
    by_cases hwriteRes : p.env.writeResult < 0
    · rw [if_pos (.inl hwriteRes)] at hrun
      rw [step_ok hrun]
      apply iff_of_false
      · intro hlife
        have hnot := hlife.1
        dsimp only at hnot
        rw [hcreated] at hnot
        exact Ledger.not_create _ _ (Int.not_lt.mp hcreateRes) hnot
      · intro hp
        have := (hp rfl (Int.not_lt.mp hcreateRes)).1
        omega
    · rw [if_neg (not_or.mpr ⟨hwriteRes, hcreateRes⟩)] at hrun
      rw [step_ok hrun, hbitmap, Lifecycle,
        and_iff_right (hledger.create _ _ (Int.not_lt.mp hcreateRes)), eventsSynced_iff]
      simp only [Option.getD_none, forall_const, Int.not_lt.mp hcreateRes,
        Int.not_lt.mp hwriteRes, true_and]
      constructor
      · intro hsyn hempty
        rw [hsyn, hempty, Lib.Bits.wordsBit_nil]
      · intro hsyn
        by_cases hempty : s.evBitmap = []
        · rw [hsyn hempty, hempty, Lib.Bits.wordsBit_nil]
        · exact hrem hempty

theorem lifecycle_step_iff (h : Lifecycle e (.ok s)) (hrem : Remembers (.ok s)) :
    Lifecycle e (step e (.ok s) p) ↔ RegularPacket e s p := by
  rcases received_lifecycle e p s.client with
    ⟨⟨axis, min, max, hsome, hneg⟩, hrun⟩ | ⟨htype, hrun⟩ | ⟨client, calls, hrun, ho⟩
  · rw [step_error hrun]
    apply iff_of_false id
    intro hp
    have := hp.axis_nonneg axis min max hsome
    omega
  · exact lifecycle_step_create h hrem htype hrun
  · exact lifecycle_step_ordinary h hrun ho

theorem remembers_step (s : Except Fault Session) (p : Incoming) (h : Remembers s) :
    Remembers (step e s p) := by
  cases s with
  | error fault => trivial
  | ok s =>
    rcases received_lifecycle e p s.client with ⟨-, hrun⟩ | ⟨htype, hrun⟩ | ⟨client, calls, hrun, ho⟩
    · rw [step_error hrun]
      trivial
    · obtain ⟨created, calls, hcreate⟩ := create_spec p.env s.client
      have hbitmap : evBitmapOf e p = none := evBitmapOf_eq_none (by
        simp [htype, IPIPE_CREATE, IPIPE_DEVICE_BITS])
      rw [step_ok (hrun.trans hcreate), hbitmap]
      exact h
    · rw [step_ok hrun, Remembers]
      dsimp only
      rw [ho.evSynBit_eq]
      cases evBitmapOf e p with
      | none => exact h
      | some bitmap =>
        cases bitmap with
        | nil => simp
        | cons byte bytes => simp [rememberedSyn]

theorem lifecycle_init (e : Endian) (addr : List Byte) : Lifecycle e (.ok (init addr)) := by
  refine ⟨⟨Nat.zero_le 1, by simp [init, successes], ?_⟩, eventsSynced_iff.mpr ?_⟩
  · intro i ev hi
    simp [init] at hi
  · intro hcreated
    cases hcreated

theorem always_lifecycle_iff (e : Endian) (addr : List Byte) (packets : List Incoming) :
    Lib.Runs.Always (step e) (Lifecycle e) (.ok (init addr)) packets ↔
      Lib.Runs.Meets (step e) (Regular e) (.ok (init addr)) packets := by
  apply Lib.Runs.always_iff_meets (I := Remembers) remembers_step _ _ (lifecycle_init e addr)
  · rintro (fault | s) p hrem h
    · exact h.elim
    · exact lifecycle_step_iff h hrem
  · intro hne
    exact absurd rfl hne

/-- Writing the description fails, and the device is created nevertheless. -/
theorem unwritten_device_created : ¬Lib.Runs.Always (step .little) (Lifecycle .little)
    (.ok (init [])) [⟨IPIPE_CREATE, [], { zeroEnv with writeResult := -22 }⟩] := by
  intro h
  have hcreated := h.2.head.1.created_iff
  simp [init, successes, UinputCall.creates, zeroEnv] at hcreated

end Session

end NaviMisc.Inputpipe.Server
