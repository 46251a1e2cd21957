import NaviMisc.Inputpipe.PacketWrite

/-!
Force-feedback effects of `packet.c`, converted to network order and back.
-/

namespace NaviMisc.Inputpipe

open Lib.ByteOrder (Endian)

namespace ForceFeedback

def FF_RUMBLE : BitVec 16 := 0x50
def FF_PERIODIC : BitVec 16 := 0x51
def FF_CONSTANT : BitVec 16 := 0x52
def FF_SPRING : BitVec 16 := 0x53
def FF_FRICTION : BitVec 16 := 0x54
def FF_DAMPER : BitVec 16 := 0x55
def FF_INERTIA : BitVec 16 := 0x56
def FF_RAMP : BitVec 16 := 0x57

/-- The memory of the union `u` by half-words. All its fields are 16 bits wide, but for the two of
`ff_periodic_effect` that only a custom waveform uses; these are left out. -/
abbrev Union := ℕ → BitVec 16

structure FFTrigger where
  button : BitVec 16
  interval : BitVec 16

structure FFReplay where
  length : BitVec 16
  delay : BitVec 16

structure FFEffect where
  type : BitVec 16
  id : BitVec 16
  direction : BitVec 16
  trigger : FFTrigger
  replay : FFReplay
  u : Union

structure IpipeFFEffect where
  type : BitVec 16
  id : BitVec 16
  direction : BitVec 16
  triggerButton : BitVec 16
  triggerInterval : BitVec 16
  replayLength : BitVec 16
  replayDelay : BitVec 16
  u : Union

section layout

def attackLength : ℕ := 0
def attackLevel : ℕ := 1
def fadeLength : ℕ := 2
def fadeLevel : ℕ := 3

def constantLevel : ℕ := 0
def constantEnvelope : ℕ := 1

def rampStartLevel : ℕ := 0
def rampEndLevel : ℕ := 1
def rampEnvelope : ℕ := 2

def periodicWaveform : ℕ := 0
def periodicPeriod : ℕ := 1
def periodicMagnitude : ℕ := 2
def periodicOffset : ℕ := 3
def periodicPhase : ℕ := 4
def periodicEnvelope : ℕ := 5

def condition (i : ℕ) : ℕ := 6 * i
def rightSaturation : ℕ := 0
def leftSaturation : ℕ := 1
def rightCoeff : ℕ := 2
def leftCoeff : ℕ := 3
def deadband : ℕ := 4
def center : ℕ := 5

def rumbleStrongMagnitude : ℕ := 0
def rumbleWeakMagnitude : ℕ := 1

end layout

def assign (f : BitVec 16 → BitVec 16) (src : Union) (k : ℕ) (dst : Union) : Union :=
  Function.update dst k (f (src k))

def htonFFEnvelope (e : Endian) (host : Union) (envelope : ℕ) (net : Union) : Union :=
  net |> assign (htons e) host (envelope + attackLength)
    |> assign (htons e) host (envelope + attackLevel)
    |> assign (htons e) host (envelope + fadeLength)
    |> assign (htons e) host (envelope + fadeLevel)

def ntohFFEnvelope (e : Endian) (net : Union) (envelope : ℕ) (host : Union) : Union :=
  host |> assign (ntohs e) net (envelope + attackLength)
    |> assign (ntohs e) net (envelope + attackLevel)
    |> assign (ntohs e) net (envelope + fadeLength)
    |> assign (ntohs e) net (envelope + fadeLevel)

def htonFFCondition (e : Endian) (host : Union) (net : Union) (i : ℕ) : Union :=
  net |> assign (htons e) host (condition i + rightSaturation)
    |> assign (htons e) host (condition i + leftSaturation)
    |> assign (htons e) host (condition i + rightCoeff)
    |> assign (htons e) host (condition i + leftCoeff)
    |> assign (htons e) host (condition i + deadband)
    |> assign (htons e) host (condition i + center)

def ntohFFCondition (e : Endian) (net : Union) (host : Union) (i : ℕ) : Union :=
  host |> assign (ntohs e) net (condition i + rightSaturation)
    |> assign (ntohs e) net (condition i + leftSaturation)
    |> assign (ntohs e) net (condition i + rightCoeff)
    |> assign (ntohs e) net (condition i + leftCoeff)
    |> assign (ntohs e) net (condition i + deadband)
    |> assign (ntohs e) net (condition i + center)

def htonFFUnion (e : Endian) (type : BitVec 16) (host net : Union) : Union :=
  if type = FF_CONSTANT then
    net |> assign (htons e) host constantLevel
      |> htonFFEnvelope e host constantEnvelope
  else if type = FF_RAMP then
    net |> assign (htons e) host rampStartLevel
      |> assign (htons e) host rampEndLevel
      |> htonFFEnvelope e host rampEnvelope
  else if type = FF_PERIODIC then
    net |> assign (htons e) host periodicWaveform
      |> assign (htons e) host periodicPeriod
      |> assign (htons e) host periodicMagnitude
      |> assign (htons e) host periodicOffset
      |> assign (htons e) host periodicPhase
      |> htonFFEnvelope e host periodicEnvelope
  else if type = FF_SPRING ∨ type = FF_FRICTION then
    (List.range 2).foldl (htonFFCondition e host) net
  else if type = FF_RUMBLE then
    net |> assign (htons e) host rumbleStrongMagnitude
      |> assign (htons e) host rumbleWeakMagnitude
  else net

def ntohFFUnion (e : Endian) (type : BitVec 16) (net host : Union) : Union :=
  if type = FF_CONSTANT then
    host |> assign (ntohs e) net constantLevel
      |> ntohFFEnvelope e net constantEnvelope
  else if type = FF_RAMP then
    host |> assign (ntohs e) net rampStartLevel
      |> assign (ntohs e) net rampEndLevel
      |> ntohFFEnvelope e net rampEnvelope
  else if type = FF_PERIODIC then
    host |> assign (ntohs e) net periodicWaveform
      |> assign (ntohs e) net periodicPeriod
      |> assign (ntohs e) net periodicMagnitude
      |> assign (ntohs e) net periodicOffset
      |> assign (ntohs e) net periodicPhase
      |> ntohFFEnvelope e net periodicEnvelope
  else if type = FF_SPRING ∨ type = FF_FRICTION then
    (List.range 2).foldl (ntohFFCondition e net) host
  else if type = FF_RUMBLE then
    host |> assign (ntohs e) net rumbleStrongMagnitude
      |> assign (ntohs e) net rumbleWeakMagnitude
  else host

/-- `net` is what the struct to be sent held before. -/
def htonFFEffect (e : Endian) (net : IpipeFFEffect) (host : FFEffect) : IpipeFFEffect where
  type := htons e host.type
  id := htons e host.id
  direction := htons e host.direction
  triggerButton := htons e host.trigger.button
  triggerInterval := htons e host.trigger.interval
  replayLength := htons e host.replay.length
  replayDelay := htons e host.replay.delay
  u := htonFFUnion e host.type host.u net.u

/-- `host` is what the receiving struct held before. -/
def ntohFFEffect (e : Endian) (host : FFEffect) (net : IpipeFFEffect) : FFEffect where
  type := ntohs e net.type
  id := ntohs e net.id
  direction := ntohs e net.direction
  trigger := ⟨ntohs e net.triggerButton, ntohs e net.triggerInterval⟩
  replay := ⟨ntohs e net.replayLength, ntohs e net.replayDelay⟩
  u := ntohFFUnion e (ntohs e net.type) net.u host.u

def usedFields (type : BitVec 16) : List ℕ :=
  if type = FF_CONSTANT then List.range 5
  else if type = FF_RAMP then List.range 6
  else if type = FF_PERIODIC then List.range 9
  else if type = FF_SPRING ∨ type = FF_FRICTION ∨ type = FF_DAMPER ∨ type = FF_INERTIA then
    List.range 12
  else if type = FF_RUMBLE then List.range 2
  else []

structure SameEffect (x y : FFEffect) : Prop where
  type_eq : x.type = y.type
  id_eq : x.id = y.id
  direction_eq : x.direction = y.direction
  trigger_eq : x.trigger = y.trigger
  replay_eq : x.replay = y.replay
  u_eq : ∀ k ∈ usedFields y.type, x.u k = y.u k

section conversion

variable (f : BitVec 16 → BitVec 16) (src dst : Union)

theorem assignAll_apply (ks : List ℕ) (k : ℕ) :
    ks.foldl (fun d k => assign f src k d) dst k = if k ∈ ks then f (src k) else dst k := by
  induction ks generalizing dst with
  | nil => rfl
  | cons k' ks ih =>
    rw [List.foldl_cons, ih]
    by_cases hk : k = k'
    · subst hk
      simp [assign]
    · simp [assign, hk]

end conversion

def convertedFields (type : BitVec 16) : List ℕ :=
  if type = FF_DAMPER ∨ type = FF_INERTIA then [] else usedFields type

theorem convertedFields_of_not_mem {type : BitVec 16}
    (h : type ∉ [FF_CONSTANT, FF_RAMP, FF_PERIODIC, FF_SPRING, FF_FRICTION, FF_RUMBLE]) :
    convertedFields type = [] := by
  simp only [List.mem_cons, List.not_mem_nil, or_false, not_or] at h
  obtain ⟨h₁, h₂, h₃, h₄, h₅, h₆⟩ := h
  by_cases hlost : type = FF_DAMPER ∨ type = FF_INERTIA
  · rw [convertedFields, if_pos hlost]
  · have hnone := not_or.mp hlost
    simp [convertedFields, usedFields, h₁, h₂, h₃, h₄, h₅, h₆, hnone.1, hnone.2]

theorem htonFFUnion_apply (e : Endian) (type : BitVec 16) (host net : Union) (k : ℕ) :
    htonFFUnion e type host net k = if k ∈ convertedFields type then htons e (host k) else net k := by
  by_cases h : type ∈ [FF_CONSTANT, FF_RAMP, FF_PERIODIC, FF_SPRING, FF_FRICTION, FF_RUMBLE]
  · rw [← assignAll_apply]
    simp only [List.mem_cons, List.not_mem_nil, or_false] at h
    rcases h with rfl | rfl | rfl | rfl | rfl | rfl <;> rfl
  · rw [convertedFields_of_not_mem h]
    simp only [List.mem_cons, List.not_mem_nil, or_false, not_or] at h
    simp [htonFFUnion, h]

theorem ntohFFUnion_apply (e : Endian) (type : BitVec 16) (net host : Union) (k : ℕ) :
    ntohFFUnion e type net host k = if k ∈ convertedFields type then ntohs e (net k) else host k := by
  by_cases h : type ∈ [FF_CONSTANT, FF_RAMP, FF_PERIODIC, FF_SPRING, FF_FRICTION, FF_RUMBLE]
  · rw [← assignAll_apply]
    simp only [List.mem_cons, List.not_mem_nil, or_false] at h
    rcases h with rfl | rfl | rfl | rfl | rfl | rfl <;> rfl
  · rw [convertedFields_of_not_mem h]
    simp only [List.mem_cons, List.not_mem_nil, or_false, not_or] at h
    simp [ntohFFUnion, h]

/-- An effect survives the wire unless its type is one of the two that neither switch statement
handles; of these only what the receiving struct already held is left. -/
theorem roundTrip_iff (e : Endian) (effect host : FFEffect) (net : IpipeFFEffect) :
    SameEffect (ntohFFEffect e host (htonFFEffect e net effect)) effect ↔
      (effect.type = FF_DAMPER ∨ effect.type = FF_INERTIA →
        ∀ k ∈ usedFields effect.type, host.u k = effect.u k) := by
  have hu : ∀ k, (ntohFFEffect e host (htonFFEffect e net effect)).u k =
      if k ∈ convertedFields effect.type then effect.u k else host.u k := by
    intro k
    simp only [ntohFFEffect, htonFFEffect, ntohs_htons, ntohFFUnion_apply, htonFFUnion_apply]
    split <;> simp
  constructor
  · intro hsame hlost k hk
    rw [← hsame.u_eq k hk, hu, convertedFields, if_pos hlost]
    simp
  · intro hhost
    refine ⟨?_, ?_, ?_, ?_, ?_, ?_⟩
    · simp [ntohFFEffect, htonFFEffect]
    · simp [ntohFFEffect, htonFFEffect]
    · simp [ntohFFEffect, htonFFEffect]
    · simp [ntohFFEffect, htonFFEffect]
    · simp [ntohFFEffect, htonFFEffect]
    · intro k hk
      rw [hu, convertedFields]
      by_cases hlost : effect.type = FF_DAMPER ∨ effect.type = FF_INERTIA
      · rw [if_pos hlost, if_neg (List.not_mem_nil), hhost hlost k hk]
      · rw [if_neg hlost, if_pos hk]

theorem damper_lost : ∃ effect host net, effect.type = FF_DAMPER ∧
    ¬SameEffect (ntohFFEffect .little host (htonFFEffect .little net effect)) effect := by
  refine ⟨⟨FF_DAMPER, 0, 0, ⟨0, 0⟩, ⟨0, 0⟩, fun _ => 1⟩, ⟨0, 0, 0, ⟨0, 0⟩, ⟨0, 0⟩, fun _ => 0⟩,
    ⟨0, 0, 0, 0, 0, 0, 0, fun _ => 0⟩, rfl, ?_⟩
  intro hsame
  have hsaturation := hsame.u_eq 0 (by decide)
  cases hsaturation

end ForceFeedback

end NaviMisc.Inputpipe
