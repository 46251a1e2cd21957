import NaviMisc.Inputpipe.ServerSession

/-!
The device description that the server keeps for a client, against the check of
`uinput.c` that it has to pass.
-/

namespace NaviMisc.Inputpipe.Server

open Lib.ByteOrder (Endian Byte)

def INT_MAX : ℤ := 2147483647
def EINVAL : ℤ := 22

structure AxisValid (min max flat : BitVec 32) : Prop where
  min_lt_max : min.toInt < max.toInt
  min_le_flat : min.toInt ≤ flat.toInt
  flat_le_max : flat.toInt ≤ max.toInt

def axisInvalid (dev : UinputUserDev) (cnt : Fin (ABS_MAX + 1)) : Bool :=
  (dev.absmax cnt).sle (dev.absmin cnt) ||
    ((dev.absflat cnt).slt (dev.absmin cnt) || (dev.absmax cnt).slt (dev.absflat cnt))

def uinputValidateAbsbits (absbit : ℕ → Bool) (dev : UinputUserDev) : ℤ :=
  if (List.finRange ABS_MAX).any fun cnt => absbit cnt && axisInvalid dev cnt.castSucc then -EINVAL
  else 0

def repairMax (min max : BitVec 32) : BitVec 32 := if max.slt (min + 2) then min + 2 else max

def repairFlat (min max flat : BitVec 32) : BitVec 32 :=
  let flat := if flat.sle min then min + 1 else flat
  if max.sle flat then max - 1 else flat

def Repairable (min max : BitVec 32) : Prop :=
  min.toInt < INT_MAX - 1 ∨ min.toInt = INT_MAX - 1 ∧ max.toInt = INT_MAX

theorem toInt_range (x : BitVec 32) : -INT_MAX - 1 ≤ x.toInt ∧ x.toInt ≤ INT_MAX := by
  have hle := @BitVec.le_toInt 32 x
  have hlt := @BitVec.toInt_lt 32 x
  simp only [INT_MAX]
  omega

theorem toInt_add {x y : BitVec 32} (hle : -INT_MAX - 1 ≤ x.toInt + y.toInt)
    (hlt : x.toInt + y.toInt ≤ INT_MAX) : (x + y).toInt = x.toInt + y.toInt := by
  apply BitVec.toInt_add_of_not_saddOverflow
  simp only [INT_MAX] at hle hlt
  simp [BitVec.saddOverflow]
  omega

theorem toInt_sub_one {x : BitVec 32} (h : -INT_MAX - 1 < x.toInt) :
    (x - 1).toInt = x.toInt - 1 := by
  have hrange := toInt_range x
  apply BitVec.toInt_sub_of_not_ssubOverflow
  simp only [INT_MAX] at h hrange
  simp [BitVec.ssubOverflow]
  omega

theorem add_two_eq {min : BitVec 32} (h : min.toInt = INT_MAX - 1) : (min + 2).toInt = -INT_MAX - 1 := by
  have hmin : min = 0x7FFFFFFE := BitVec.eq_of_toInt_eq h
  rw [hmin]
  rfl

theorem repairMax_of_lt {min : BitVec 32} (h : min.toInt < INT_MAX - 1) (max : BitVec 32) :
    min.toInt + 2 ≤ (repairMax min max).toInt := by
  have hrange := toInt_range min
  have htwo : (2 : BitVec 32).toInt = 2 := rfl
  have hadd : (min + 2).toInt = min.toInt + 2 := by
    apply toInt_add <;> omega
  rw [repairMax]
  split
  · exact hadd.ge
  · rename_i hle
    rw [BitVec.slt_iff_toInt_lt] at hle
    omega

theorem repairMax_of_eq {min : BitVec 32} (h : min.toInt = INT_MAX - 1) (max : BitVec 32) :
    repairMax min max = max := by
  have hrange := toInt_range max
  have hadd := add_two_eq h
  rw [repairMax, if_neg]
  rw [BitVec.slt_iff_toInt_lt]
  omega

theorem repairFlat_bounds {min max : BitVec 32} (h : min.toInt < max.toInt) (flat : BitVec 32) :
    min.toInt ≤ (repairFlat min max flat).toInt ∧ (repairFlat min max flat).toInt ≤ max.toInt := by
  have hmin := toInt_range min
  have hmax := toInt_range max
  have hone : (1 : BitVec 32).toInt = 1 := rfl
  have hadd : (min + 1).toInt = min.toInt + 1 := by
    apply toInt_add <;> omega
  have hsub : (max - 1).toInt = max.toInt - 1 := by
    apply toInt_sub_one
    omega
  simp only [repairFlat]
  split <;> split <;> rename_i hlow hhigh <;> simp only [BitVec.sle_iff_toInt_le] at hlow hhigh <;>
    omega

theorem axisValid_repair_iff (min max flat : BitVec 32) :
    AxisValid min (repairMax min max) (repairFlat min (repairMax min max) flat) ↔
      Repairable min max := by
  have hrange := toInt_range min
  have hmax := toInt_range (repairMax min max)
  constructor
  · rintro ⟨hlt, -, -⟩
    by_cases heq : min.toInt = INT_MAX - 1
    · rw [repairMax_of_eq heq] at hlt hmax
      exact .inr ⟨heq, by omega⟩
    · exact .inl (by omega)
  · intro h
    have hlt : min.toInt < (repairMax min max).toInt := by
      rcases h with h | ⟨heq, hmax⟩
      · have := repairMax_of_lt h max
        omega
      · rw [repairMax_of_eq heq]
        omega
    have hflat := repairFlat_bounds hlt flat
    exact ⟨hlt, hflat.1, hflat.2⟩

def setAxis (dev : UinputUserDev) (i : Fin (ABS_MAX + 1)) (min max fuzz flat : BitVec 32) :
    UinputUserDev :=
  { dev with
    absmax := Function.update dev.absmax i (repairMax min max)
    absmin := Function.update dev.absmin i min
    absfuzz := Function.update dev.absfuzz i fuzz
    absflat := Function.update dev.absflat i (repairFlat min (repairMax min max) flat) }

theorem setAbsinfo_cases {e : Endian} {p : Incoming} (htype : p.type = IPIPE_DEVICE_ABSINFO)
    (self : Client) :
    (absinfoOf e p = none ∧ setAbsinfo e self p.content = .ok (self, [])) ∨
    ∃ axis min max, absinfoOf e p = some (axis, min, max) ∧
      ((ABS_MAX < axis ∧ setAbsinfo e self p.content = .ok (self, [])) ∨
      (axis < 0 ∧ setAbsinfo e self p.content = .error .outOfBounds) ∨
      ∃ i : Fin (ABS_MAX + 1), i = axis ∧ ∃ fuzz flat, setAbsinfo e self p.content =
        .ok ({ self with devInfo := setAxis self.devInfo i min max fuzz flat }, [])) := by
  rw [absinfoOf, setAbsinfo]
  by_cases hlength : p.content.length = sizeofIpipeAbsinfo
  · refine .inr ⟨_, _, _, if_pos ⟨htype, hlength⟩, ?_⟩
    rw [if_neg (not_not.mpr hlength)]
    dsimp only
    by_cases hmax : (ntohl e (word e p.content 0)).toInt > ABS_MAX
    · exact .inl ⟨hmax, if_pos hmax⟩
    rw [if_neg hmax]
    by_cases hneg : (ntohl e (word e p.content 0)).toInt < 0
    · refine .inr (.inl ⟨hneg, dif_neg ?_⟩)
      omega
    · refine .inr (.inr ⟨⟨(ntohl e (word e p.content 0)).toInt.toNat, by omega⟩, ?_, _, _,
        dif_pos (by omega)⟩)
      exact Int.toNat_of_nonneg (not_lt.mp hneg)
  · exact .inl ⟨if_neg fun h => hlength h.2, if_pos hlength⟩

theorem axisValid_setAxis_iff (dev : UinputUserDev) (i : Fin (ABS_MAX + 1))
    (min max fuzz flat : BitVec 32) :
    AxisValid ((setAxis dev i min max fuzz flat).absmin i)
      ((setAxis dev i min max fuzz flat).absmax i) ((setAxis dev i min max fuzz flat).absflat i) ↔
      Repairable min max := by
  simp only [setAxis, Function.update_self]
  exact axisValid_repair_iff min max flat

theorem axisValid_setAxis_of_ne (dev : UinputUserDev) {i j : Fin (ABS_MAX + 1)} (h : j ≠ i)
    (min max fuzz flat : BitVec 32) :
    AxisValid ((setAxis dev i min max fuzz flat).absmin j)
      ((setAxis dev i min max fuzz flat).absmax j) ((setAxis dev i min max fuzz flat).absflat j) ↔
      AxisValid (dev.absmin j) (dev.absmax j) (dev.absflat j) := by
  simp only [setAxis, Function.update_of_ne h]

def NameTerminated (dev : UinputUserDev) : Prop := ∃ i < UINPUT_MAX_NAME_SIZE, dev.name i = 0

namespace Session

/-- No access out of bounds so far, the name ends within its array, and the kernel accepts every
axis that the client has described. -/
def Safe : Except Fault Session → Prop
  | .error _ => False
  | .ok s => NameTerminated s.client.devInfo ∧ ∀ i : Fin (ABS_MAX + 1), s.axes i →
    AxisValid (s.client.devInfo.absmin i) (s.client.devInfo.absmax i) (s.client.devInfo.absflat i)

def Sound (e : Endian) (p : Incoming) : Prop :=
  ∀ axis min max, absinfoOf e p = some (axis, min, max) → axis ≤ ABS_MAX →
    0 ≤ axis ∧ Repairable min max

theorem absinfoOf_eq_none {e : Endian} {p : Incoming} (h : p.type ≠ IPIPE_DEVICE_ABSINFO) :
    absinfoOf e p = none :=
  if_neg fun hp => h hp.1

variable {e : Endian} {s : Session} {p : Incoming}

theorem Sound.of_type_ne (h : p.type ≠ IPIPE_DEVICE_ABSINFO) : Sound e p := by
  intro axis min max hp
  rw [absinfoOf_eq_none h] at hp
  cases hp

theorem safe_step_of_type_ne {client : Client} {calls : List UinputCall}
    (h : Safe (.ok s)) (htype : p.type ≠ IPIPE_DEVICE_ABSINFO)
    (hrun : clientReceivedPacket e p.env s.client p.type p.content = .ok (client, calls))
    (hname : NameTerminated client.devInfo) (hmin : client.devInfo.absmin = s.client.devInfo.absmin)
    (hmax : client.devInfo.absmax = s.client.devInfo.absmax)
    (hflat : client.devInfo.absflat = s.client.devInfo.absflat) : Safe (step e (.ok s) p) := by
  rw [step_ok hrun]
  refine ⟨hname, ?_⟩
  intro i hi
  rw [absinfoOf_eq_none htype] at hi
  rw [hmin, hmax, hflat]
  rcases hi with hi | ⟨min, max, hp, -⟩
  · exact h.2 i hi
  · cases hp

theorem safe_step_absinfo_iff (h : Safe (.ok s)) (htype : p.type = IPIPE_DEVICE_ABSINFO)
    (hrun : clientReceivedPacket e p.env s.client p.type p.content =
      setAbsinfo e s.client p.content) : Safe (step e (.ok s) p) ↔ Sound e p := by
  rcases setAbsinfo_cases (e := e) htype s.client with
    ⟨hnone, hset⟩ | ⟨axis, min, max, hsome, hset⟩
  · rw [step_ok (hrun.trans hset)]
    apply iff_of_true
    · refine ⟨h.1, ?_⟩
      rintro i (hi | ⟨min, max, hp, -⟩)
      · exact h.2 i hi
      · rw [hnone] at hp
        cases hp
    · intro axis min max hp
      rw [hnone] at hp
      cases hp
  have hsound : Sound e p ↔ (axis ≤ ABS_MAX → 0 ≤ axis ∧ Repairable min max) := by
    constructor
    · intro hs
      exact hs axis min max hsome
    · intro hs axis' min' max' hp
      rw [hsome] at hp
      cases hp
      exact hs
  rw [hsound]
  rcases hset with ⟨hmax, hset⟩ | ⟨hneg, hset⟩ | ⟨i, rfl, fuzz, flat, hset⟩
  · rw [step_ok (hrun.trans hset)]
    apply iff_of_true
    · refine ⟨h.1, ?_⟩
      rintro i (hi | ⟨min', max', hp, hi⟩)
      · exact h.2 i hi
      · rw [hsome] at hp
        cases hp
        omega
    · intro hle
      omega
  · rw [step_error (hrun.trans hset)]
    apply iff_of_false
    · exact id
    · simp only [ABS_MAX]
      omega
  · have hle : (i : ℤ) ≤ ABS_MAX := by
      have := i.isLt
      omega
    have hnonneg : (0 : ℤ) ≤ i := Int.natCast_nonneg i
    rw [step_ok (hrun.trans hset)]
    constructor
    · intro hsafe _
      exact ⟨hnonneg, (axisValid_setAxis_iff ..).mp (hsafe.2 i (.inr ⟨min, max, hsome, hle⟩))⟩
    · intro hrepair
      refine ⟨h.1, ?_⟩
      intro j hj
      by_cases hij : j = i
      · rw [hij]
        exact (axisValid_setAxis_iff ..).mpr (hrepair hle).2
      · rcases hj with hj | ⟨min', max', hp, -⟩
        · exact (axisValid_setAxis_of_ne _ hij ..).mpr (h.2 j hj)
        · rw [hsome] at hp
          simp only [Option.some.injEq, Prod.mk.injEq, Nat.cast_inj] at hp
          exact absurd (Fin.ext hp.1.symm) hij

theorem safe_step_iff (h : Safe (.ok s)) : Safe (step e (.ok s) p) ↔ Sound e p := by
  rcases received_cases e p.env s.client p.type p.content with
    ⟨htype, hrun⟩ | ⟨htype, hrun⟩ | ⟨htype, hrun⟩ | ⟨htype, hrun⟩ | ⟨htype, hrun⟩ |
    ⟨htype, self', calls, hrun, hkeeps, -⟩
  · obtain ⟨calls, hevent⟩ := receivedEvent_spec e s.client p.content
    have hne : p.type ≠ IPIPE_DEVICE_ABSINFO := by simp [htype, IPIPE_EVENT, IPIPE_DEVICE_ABSINFO]
    apply iff_of_true _ (Sound.of_type_ne hne)
    exact safe_step_of_type_ne h hne (hrun.trans hevent) h.1 rfl rfl rfl
  · obtain ⟨name, hset, hname⟩ := setName_spec s.client p.content
    have hne : p.type ≠ IPIPE_DEVICE_ABSINFO := by
      simp [htype, IPIPE_DEVICE_NAME, IPIPE_DEVICE_ABSINFO]
    apply iff_of_true _ (Sound.of_type_ne hne)
    exact safe_step_of_type_ne h hne (hrun.trans hset) hname rfl rfl rfl
  · exact safe_step_absinfo_iff h htype hrun
  · obtain ⟨calls, hset, -⟩ := setBits_spec (e := e) htype s.client
    have hne : p.type ≠ IPIPE_DEVICE_ABSINFO := by
      simp [htype, IPIPE_DEVICE_BITS, IPIPE_DEVICE_ABSINFO]
    apply iff_of_true _ (Sound.of_type_ne hne)
    exact safe_step_of_type_ne h hne (hrun.trans hset) h.1 rfl rfl rfl
  · obtain ⟨created, calls, hcreate⟩ := create_spec p.env s.client
    have hne : p.type ≠ IPIPE_DEVICE_ABSINFO := by
      simp [htype, IPIPE_CREATE, IPIPE_DEVICE_ABSINFO]
    apply iff_of_true _ (Sound.of_type_ne hne)
    exact safe_step_of_type_ne h hne (hrun.trans hcreate) h.1 rfl rfl rfl
  · have hne : p.type ≠ IPIPE_DEVICE_ABSINFO := by
      intro heq
      apply htype
      simp [heq]
    have hname : NameTerminated self'.devInfo := by
      obtain ⟨i, hi, hzero⟩ := h.1
      exact ⟨i, hi, by rw [hkeeps.name_eq, hzero]⟩
    apply iff_of_true _ (Sound.of_type_ne hne)
    exact safe_step_of_type_ne h hne hrun hname hkeeps.absmin_eq hkeeps.absmax_eq hkeeps.absflat_eq

theorem safe_init (addr : List Byte) : Safe (.ok (init addr)) :=
  ⟨⟨0, Nat.zero_lt_succ 79, rfl⟩, fun _ hi => hi.elim⟩

theorem always_safe_iff (e : Endian) (addr : List Byte) (packets : List Incoming) :
    Lib.Runs.Always (step e) Safe (.ok (init addr)) packets ↔ ∀ p ∈ packets, Sound e p := by
  rw [← Lib.Runs.meets_const_iff]
  apply Lib.Runs.always_iff_meets (I := fun _ => True) (fun _ _ _ => trivial) _ trivial
    (safe_init addr)
  rintro (fault | s) p - h
  · exact h.elim
  · exact safe_step_iff h

/-- An absinfo for axis -1. -/
theorem negative_axis_unsafe : ¬Lib.Runs.Always (step .little) Safe (.ok (init []))
    [⟨IPIPE_DEVICE_ABSINFO, [0xFF, 0xFF, 0xFF, 0xFF, 0, 0, 0, 0, 0, 0, 0, 0, 0, 0, 0, 0, 0, 0, 0, 0],
      zeroEnv⟩] := by
  intro h
  exact h.2.head

end Session

end NaviMisc.Inputpipe.Server
