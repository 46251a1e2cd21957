import NaviMisc.SpiMemEmulator.SramArbitration

/-!
The log of the controller is a history of one memory, and every request is finished.
-/

namespace NaviMisc.SpiMemEmulator

open NaviMisc.Lib
open NaviMisc.Lib.AtomicObject

namespace SramBoard

variable {late : Bool} {b : SramBoard} {t : SramTick} {c : SramClient}

theorem finished_rd3 (h : b.ctrl.state = .rd3 c) :
    finished b.ctrl .c1 ++ finished b.ctrl .c2 = [.ret c (some b.ctrl.byteRd)] := by
  cases c <;> simp [finished, SramCtrl.finishRd, SramCtrl.finishWr, h]

theorem finished_wr4 (h : b.ctrl.state = .wr4 c) :
    finished b.ctrl .c1 ++ finished b.ctrl .c2 = [.ret c none] := by
  cases c <;> simp [finished, SramCtrl.finishRd, SramCtrl.finishWr, h]

theorem finished_of_not (h : ∀ c, ¬Finishing c b.ctrl) :
    finished b.ctrl .c1 ++ finished b.ctrl .c2 = [] := by
  have hfinish : ∀ c, b.ctrl.finishRd c = false ∧ b.ctrl.finishWr c = false := fun c =>
    ⟨beq_eq_false_iff_ne.mpr fun hstate => h c (Or.inl hstate),
      beq_eq_false_iff_ne.mpr fun hstate => h c (Or.inr hstate)⟩
  simp [finished, hfinish]

theorem Phase.we_of_not (h : b.Phase late) (hnot : ∀ c, ¬Finishing c b.ctrl) :
    b.ctrl.we = false := by
  rw [Phase] at h
  cases hstate : b.ctrl.state with
  | idle => rw [hstate] at h; exact h
  | rd1 c => rw [hstate] at h; exact h.2.1
  | rd2 c => rw [hstate] at h; exact h.2.1
  | rd3 c => exact absurd (Or.inl hstate) (hnot c)
  | wr1 c => rw [hstate] at h; exact h.2.1
  | wr2 c => rw [hstate] at h; exact h.2.1
  | wr3 c =>
    rw [hstate] at h
    obtain ⟨data, -, hwe, -⟩ := h
    exact hwe
  | wr4 c => exact absurd (Or.inr hstate) (hnot c)

theorem Reading.pendingOp (h : b.Reading c) : b.pendingOp c = some (.read b.ctrl.addr) := by
  rw [SramBoard.pendingOp, SramCtrl.pending, h.1, Bool.true_or, if_pos rfl, h.2]

theorem Writing.pendingOp {data : Byte} (h : b.Writing c data) :
    b.pendingOp c = some (.write b.ctrl.addr data) := by
  rw [SramBoard.pendingOp, SramCtrl.pending, h.1, Bool.or_true, if_pos rfl, h.2]

theorem update_pendingOp (h : ∀ c', Finishing c' b.ctrl ↔ c' = c) :
    Function.update b.pendingOp c none =
      fun c' => if Finishing c' b.ctrl then none else b.pendingOp c' := by
  funext c'
  rw [Function.update_apply]
  by_cases hc : c' = c
  · rw [if_pos hc, if_pos ((h c').mpr hc)]
  · rw [if_neg hc, if_neg (hc ∘ (h c').mp)]

theorem Invariant.history_finished (h : b.Invariant late) (t : SramTick) :
    history SramOp.effect b.session (finished b.ctrl .c1 ++ finished b.ctrl .c2) =
      some ⟨(b.clock late t).content,
        fun c => if Finishing c b.ctrl then none else b.pendingOp c⟩ := by
  have hphase := h.phase
  by_cases hfinishing : ∃ c, Finishing c b.ctrl
  · obtain ⟨c, hstate | hstate⟩ := hfinishing
    · rw [Phase, hstate] at hphase
      obtain ⟨hreading, hwe, hword⟩ := hphase
      have hbyte : b.ctrl.byteRd = b.content b.ctrl.addr := by rw [byteRd_eq, hword, content_eq]
      have hclient : ∀ c', Finishing c' b.ctrl ↔ c' = c := by
        intro c'
        rw [Finishing, hstate]
        simp [eq_comm]
      rw [finished_rd3 hstate, (content_clock_of_idle hwe).1, ← update_pendingOp hclient, hbyte]
      have hpending : b.session.pending c = some (.read b.ctrl.addr) := hreading.pendingOp
      exact (history_singleton _).trans (next_ret hpending)
    · rw [Phase, hstate] at hphase
      obtain ⟨data, hwriting, hwe, hdrv, hout⟩ := hphase
      have hclient : ∀ c', Finishing c' b.ctrl ↔ c' = c := by
        intro c'
        rw [Finishing, hstate]
        simp [eq_comm]
      rw [finished_wr4 hstate, content_clock_of_write hwe hdrv hout, ← update_pendingOp hclient]
      have hpending : b.session.pending c = some (.write b.ctrl.addr data) := hwriting.pendingOp
      exact (history_singleton _).trans (next_ret hpending)
  · rw [not_exists] at hfinishing
    rw [finished_of_not hfinishing, (content_clock_of_idle (Phase.we_of_not hphase hfinishing)).1]
    simp only [if_neg (hfinishing _)]
    rfl

theorem history_begun {s : Session SramClient Content SramOp}
    (h : begins (t.port c) ≠ none → s.pending c = none) :
    history SramOp.effect s (begun t c) =
      some ⟨s.object, Function.update s.pending c ((begins (t.port c)).or (s.pending c))⟩ := by
  rw [begun]
  cases hbegins : begins (t.port c) with
  | none =>
    rw [Option.none_or, Function.update_eq_self]
    rfl
  | some op =>
    rw [hbegins] at h
    exact (history_singleton _).trans (next_call (h (Option.some_ne_none op)) op)

theorem begins_eq_none_iff (p : SramPort) :
    begins p = none ↔ p.beginRd = false ∧ p.beginWr = false := by
  rw [begins]
  cases p.beginRd <;> cases p.beginWr <;> simp

theorem Invariant.pendingOp_clock (h : b.Invariant late) (c : SramClient) :
    (b.clock late t).pendingOp c =
      (begins (t.port c)).or (if Finishing c b.ctrl then none else b.pendingOp c) := by
  have hphase := h.phase
  rw [pendingOp, SramCtrl.pending, pendingRd_clock, pendingWr_clock, request_clock]
  cases hbegins : begins (t.port c) with
  | some op =>
    have hport : (t.port c).beginRd = true ∨ (t.port c).beginWr = true := by
      by_contra hnot
      rw [not_or, Bool.not_eq_true, Bool.not_eq_true, ← begins_eq_none_iff, hbegins] at hnot
      cases hnot
    rcases hport with hport | hport <;> simp [setResetFlipflop, hport]
  | none =>
    obtain ⟨hrd, hwr⟩ := (begins_eq_none_iff _).mp hbegins
    rw [hrd, hwr]
    by_cases hfinishing : Finishing c b.ctrl
    · rw [if_pos hfinishing]
      rcases hfinishing with hstate | hstate
      · rw [Phase, hstate] at hphase
        have hread := h.read c hphase.1.1
        have hnot : b.ctrl.pendingWr c = false := by
          rw [Bool.eq_false_iff]
          intro hpending
          rw [h.write c hpending] at hread
          cases hread
        simp [setResetFlipflop, SramCtrl.finishRd, hstate, hnot]
      · rw [Phase, hstate] at hphase
        obtain ⟨data, hwriting, -⟩ := hphase
        have hwrite := h.write c hwriting.1
        have hnot : b.ctrl.pendingRd c = false := by
          rw [Bool.eq_false_iff]
          intro hpending
          rw [h.read c hpending] at hwrite
          cases hwrite
        simp [setResetFlipflop, SramCtrl.finishWr, hstate, hnot]
    · rw [if_neg hfinishing]
      rw [Finishing, not_or] at hfinishing
      have hfinish : b.ctrl.finishRd c = false ∧ b.ctrl.finishWr c = false :=
        ⟨beq_eq_false_iff_ne.mpr hfinishing.1, beq_eq_false_iff_ne.mpr hfinishing.2⟩
      rw [hfinish.1, hfinish.2]
      rfl

theorem Invariant.linearized (h : b.Invariant late) (ht : b.Disciplined t) {initial : Content}
    (hlog : b.Linearized initial) : (b.clock late t).Linearized initial := by
  have hnone : ∀ c, begins (t.port c) ≠ none → b.pendingOp c = none := by
    intro c hbegins
    have hpending : ¬b.ctrl.pending c = true := fun hpending => hbegins ((ht c).2 hpending).1
    rw [pendingOp, if_neg hpending]
  have hlog' : (b.clock late t).log =
      b.log ++ (finished b.ctrl .c1 ++ finished b.ctrl .c2) ++ begun t .c1 ++ begun t .c2 := by
    rw [← List.append_assoc]
    rfl
  rw [Linearized, hlog', history_append, history_append, history_append, hlog, Option.bind_some,
    h.history_finished t, Option.bind_some]
  rw [history_begun, Option.bind_some, history_begun]
  · refine congrArg (fun p => some (Session.mk _ p)) ?_
    funext c
    rw [h.pendingOp_clock]
    cases c <;> simp
  · intro hbegins
    simp [hnone .c2 hbegins]
  · intro hbegins
    simp [hnone .c1 hbegins]

def serving : SramState → Option (SramClient × ℕ)
  | .idle => none
  | .rd1 c => some (c, 3)
  | .rd2 c => some (c, 2)
  | .rd3 c => some (c, 1)
  | .wr1 c => some (c, 4)
  | .wr2 c => some (c, 3)
  | .wr3 c => some (c, 2)
  | .wr4 c => some (c, 1)

def rank (c : SramClient) (r : SramCtrl) : ℕ :=
  match serving r.state with
  | none => if c = .c2 ∧ r.pending .c1 = true then 10 else 5
  | some (c', n) => if c' = c then n else n + 5

theorem serving_pos {s : SramState} {n : ℕ} (h : serving s = some (c, n)) : 0 < n := by
  cases s <;> simp [serving] at h <;> omega

theorem rank_pos (c : SramClient) (r : SramCtrl) : 0 < rank c r := by
  rw [rank]
  cases h : serving r.state with
  | none =>
    dsimp only
    split_ifs <;> omega
  | some p =>
    have hpos := serving_pos h
    dsimp only
    split_ifs <;> omega

theorem rank_le (c : SramClient) (r : SramCtrl) : rank c r ≤ 10 := by
  rw [rank]
  cases r.state <;> simp only [serving] <;> split_ifs <;> omega

theorem serving_clock (hstate : serving b.ctrl.state = some (c, n + 2)) :
    serving (b.clock late t).ctrl.state = some (c, n + 1) := by
  cases h : b.ctrl.state <;> rw [h] at hstate <;> simp [serving] at hstate
  all_goals
    obtain ⟨rfl, hn⟩ := hstate
    simp only [clock, SramCtrl.clock, h, serving]
    simp
    omega

theorem finishing_iff (r : SramCtrl) : Finishing c r ↔ serving r.state = some (c, 1) := by
  rw [Finishing]
  cases r.state <;> simp [serving]

theorem serving_of_finishing (h : Finishing c b.ctrl) :
    serving (b.clock late t).ctrl.state = none := by
  rcases h with hstate | hstate <;> simp only [clock, SramCtrl.clock, hstate, serving]

theorem pending_iff : b.ctrl.pending c = true ↔ b.pendingOp c ≠ none := by
  rw [pendingOp]
  cases b.ctrl.pending c <;> simp

theorem Phase.pending (h : b.Phase late) {n : ℕ} (hserving : serving b.ctrl.state = some (c, n)) :
    b.ctrl.pending c = true := by
  rw [Phase] at h
  rw [SramCtrl.pending, Bool.or_eq_true]
  cases hstate : b.ctrl.state <;> rw [hstate] at h hserving <;> simp [serving] at hserving
  all_goals obtain ⟨rfl, -⟩ := hserving
  · exact Or.inl h.1.1
  · exact Or.inl h.1.1
  · exact Or.inl h.1.1
  · obtain ⟨⟨data, hwriting⟩, -⟩ := h
    exact Or.inr hwriting.1
  · obtain ⟨⟨data, hwriting⟩, -⟩ := h
    exact Or.inr hwriting.1
  · obtain ⟨data, hwriting, -⟩ := h
    exact Or.inr hwriting.1
  · obtain ⟨data, hwriting, -⟩ := h
    exact Or.inr hwriting.1

theorem serving_idle (hstate : b.ctrl.state = .idle) (hpending : b.ctrl.pending c = true)
    (hfirst : c = .c2 → b.ctrl.pending .c1 = false) :
    ∃ n ≤ 4, serving (b.clock late t).ctrl.state = some (c, n) := by
  have hnext : (b.clock late t).ctrl.state =
      if b.ctrl.pendingRd .c1 then .rd1 .c1
      else if b.ctrl.pendingWr .c1 then .wr1 .c1
      else if b.ctrl.pendingRd .c2 then .rd1 .c2
      else if b.ctrl.pendingWr .c2 then .wr1 .c2
      else .idle := by
    simp only [clock, SramCtrl.clock, hstate]
  rw [hnext]
  rw [SramCtrl.pending] at hpending hfirst
  cases c with
  | c1 =>
    cases hrd : b.ctrl.pendingRd .c1 with
    | true => exact ⟨3, by decide, rfl⟩
    | false =>
      rw [hrd, Bool.false_or] at hpending
      rw [hpending]
      exact ⟨4, by decide, rfl⟩
  | c2 =>
    have hnot := hfirst rfl
    rw [Bool.or_eq_false_iff] at hnot
    rw [hnot.1, hnot.2]
    cases hrd : b.ctrl.pendingRd .c2 with
    | true => exact ⟨3, by decide, rfl⟩
    | false =>
      rw [hrd, Bool.false_or] at hpending
      rw [hpending]
      exact ⟨4, by decide, rfl⟩

theorem Invariant.rank_clock (h : b.Invariant late) (ht : b.Disciplined t)
    (hpending : b.ctrl.pending c = true) (hnot : ¬Finishing c b.ctrl) :
    (b.clock late t).ctrl.pending c = true ∧
      rank c (b.clock late t).ctrl < rank c b.ctrl := by
  constructor
  · rw [pending_iff, h.pendingOp_clock, if_neg hnot]
    rw [pending_iff] at hpending
    cases begins (t.port c) with
    | none => exact hpending
    | some op => exact Option.some_ne_none op
  cases hserving : serving b.ctrl.state with
  | none =>
    have hstate : b.ctrl.state = .idle := by
      cases hstate : b.ctrl.state <;> rw [hstate] at hserving <;> simp [serving] at hserving ⊢
    by_cases hfirst : c = .c2 ∧ b.ctrl.pending .c1 = true
    · obtain ⟨n, hn, hnext⟩ :=
        @serving_idle late b t .c1 hstate hfirst.2 (fun hc => by cases hc)
      rw [rank, rank, hserving, hnext]
      simp [hfirst]
      omega
    · have hlast : c = .c2 → b.ctrl.pending .c1 = false := fun hc =>
        Bool.eq_false_iff.mpr fun hc1 => hfirst ⟨hc, hc1⟩
      obtain ⟨n, hn, hnext⟩ := @serving_idle late b t c hstate hpending hlast
      rw [rank, rank, hserving, hnext]
      simp only [if_neg hfirst, if_true]
      omega
  | some p =>
    obtain ⟨c', n⟩ := p
    match n with
    | 0 => exact absurd (serving_pos hserving) (Nat.lt_irrefl 0)
    | n + 2 =>
      rw [rank, rank, hserving, @serving_clock late b t c' n hserving]
      dsimp only
      split_ifs <;> omega
    | 1 =>
      have hother : c' ≠ c := by
        rintro rfl
        exact hnot ((finishing_iff _).mpr hserving)
      have hstate := @serving_of_finishing late b t c' ((finishing_iff _).mpr hserving)
      have hlast : ¬(c = .c2 ∧ (b.clock late t).ctrl.pending .c1 = true) := by
        rintro ⟨rfl, hc1⟩
        have hc' : c' = .c1 := by cases c' <;> simp at hother ⊢
        subst hc'
        have hbegins := ((ht .c1).2 (Phase.pending h.phase hserving)).1
        rw [pending_iff, h.pendingOp_clock, hbegins,
          if_pos ((finishing_iff _).mpr hserving)] at hc1
        exact hc1 rfl
      rw [rank, rank, hserving, hstate]
      simp only [if_neg hlast, if_neg hother]
      omega

def Run (late : Bool) (b : SramBoard) (ticks : List SramTick) : Prop :=
  Runs.Meets (clock late) (fun b t => b.Disciplined t ∧ b.Fresh) b ticks

theorem Invariant.run {initial : Content} {ticks : List SramTick} (h : b.Invariant late)
    (hlog : b.Linearized initial) (hrun : b.Run late ticks) :
    Runs.Always (SramBoard.clock late) (fun b => b.Invariant late ∧ b.Linearized initial) b ticks := by
  refine Runs.Meets.always (fun b t hb ht => ?_) ⟨h, hlog⟩ hrun
  exact ⟨hb.1.clock ht.1 ht.2, hb.1.linearized ht.1 hb.2⟩

theorem Invariant.finishes {ticks : List SramTick} (h : b.Invariant late)
    (hrun : b.Run late ticks) (hpending : b.ctrl.pending c = true)
    (hlength : rank c b.ctrl ≤ ticks.length) :
    ∃ n < rank c b.ctrl, Finishing c ((ticks.take n).foldl (SramBoard.clock late) b).ctrl := by
  induction ticks generalizing b with
  | nil => exact absurd hlength (Nat.not_le.mpr (rank_pos c b.ctrl))
  | cons t ticks ih =>
    by_cases hfinishing : Finishing c b.ctrl
    · exact ⟨0, rank_pos c b.ctrl, hfinishing⟩
    · obtain ⟨⟨ht, hfresh⟩, hrun⟩ := hrun
      obtain ⟨hpending', hlt⟩ := @Invariant.rank_clock late b t c h ht hpending hfinishing
      rw [List.length_cons] at hlength
      obtain ⟨n, hn, hfinish⟩ := ih (h.clock ht hfresh) hrun hpending' (by omega)
      exact ⟨n + 1, by omega, hfinish⟩

theorem Linearized.reset (content1 content2 : BitVec 18 → BitVec 16)
    (request : SramClient → SramOp) :
    (reset content1 content2 request).Linearized (reset content1 content2 request).content := rfl

/-- In every run that is fresh at each write, the clients share one memory, and each request is
finished within ten clocks. -/
theorem arbitration (late : Bool) (content1 content2 : BitVec 18 → BitVec 16)
    (request : SramClient → SramOp) {ticks : List SramTick}
    (hrun : (reset content1 content2 request).Run late ticks) :
    let start := reset content1 content2 request
    Runs.Always (clock late) (Linearized start.content) start ticks ∧
      ∀ l l' c, ticks = l ++ l' → (l.foldl (clock late) start).ctrl.pending c = true →
        10 ≤ l'.length →
          ∃ n < 10, Finishing c ((l ++ l'.take n).foldl (clock late) start).ctrl := by
  intro start
  have hstart : start.Invariant late := Invariant.reset content1 content2 request
  constructor
  · exact (hstart.run (Linearized.reset content1 content2 request) hrun).mono fun b hb => hb.2
  · rintro l l' c rfl hpending hlength
    obtain ⟨hl, hl'⟩ := Runs.meets_append.mp hrun
    have hinvariant :=
      (hstart.run (Linearized.reset content1 content2 request) hl).last.1
    obtain ⟨n, hn, hfinish⟩ :=
      hinvariant.finishes hl' hpending (Nat.le_trans (rank_le c _) hlength)
    refine ⟨n, Nat.lt_of_lt_of_le hn (rank_le c _), ?_⟩
    rw [List.foldl_append]
    exact hfinish

def writeTicks (floating : BitVec 16) : List SramTick :=
  tick true :: List.replicate 10 (tick false)
where
  tick (beginWr : Bool) : SramTick := {
    port
      | .c1 => ⟨beginWr, false, 0, 0x11⟩
      | .c2 => ⟨false, false, 0, 0⟩
    floating1 := floating
    floating2 := floating
    x16 := 0
    x20 := 0 }

def filled : SramBoard := reset (fun _ => 0xaaaa) (fun _ => 0xaaaa) fun _ => .read 0

theorem disciplined_iff : b.Disciplined t ↔
    (¬((t.port .c1).beginRd = true ∧ (t.port .c1).beginWr = true) ∧
      (b.ctrl.pending .c1 = true → begins (t.port .c1) = none ∧ Holds (t.port .c1) (b.request .c1))) ∧
    (¬((t.port .c2).beginRd = true ∧ (t.port .c2).beginWr = true) ∧
      (b.ctrl.pending .c2 = true →
        begins (t.port .c2) = none ∧ Holds (t.port .c2) (b.request .c2))) :=
  ⟨fun h => ⟨h .c1, h .c2⟩, fun h c => by cases c; exacts [h.1, h.2]⟩

instance (p : SramPort) : DecidablePred (Holds p)
  | .read _ => inferInstanceAs (Decidable (_ = _))
  | .write _ _ => inferInstanceAs (Decidable (_ ∧ _))

instance (b : SramBoard) (t : SramTick) : Decidable (b.Disciplined t) :=
  decidable_of_iff' _ disciplined_iff

instance (b : SramBoard) : Decidable b.Fresh :=
  decidable_of_iff' ((b.ctrl.state = .wr2 .c1 ∨ b.ctrl.state = .wr2 .c2) →
    kept b.ctrl.addr b.ctrl.wordRd = kept b.ctrl.addr (b.word b.ctrl.addr))
    ⟨fun h hstate => hstate.elim (h .c1) (h .c2),
      fun h c hstate => h (by cases c; exacts [Or.inl hstate, Or.inr hstate])⟩

/-- The latch has what floated on the bus, and the next byte is lost. -/
theorem arbitration_floating :
    Runs.Meets (clock true) Disciplined filled (writeTicks 0) ∧
      ¬Runs.Always (clock true) (Linearized filled.content) filled (writeTicks 0) := by
  constructor
  · decide +kernel
  · intro h
    have hbyte := congrArg (Option.map fun s => s.object 1) h.last
    revert hbyte
    decide +kernel

theorem arbitration_fresh :
    Runs.Always (clock true) (Linearized filled.content) filled (writeTicks 0xaa00) ∧
      ∃ n < 10, Finishing .c1 (([writeTicks.tick 0xaa00 true] ++
        (List.replicate 10 (writeTicks.tick 0xaa00 false)).take n).foldl (clock true) filled).ctrl := by
  have hrun : Runs.Meets (clock true) (fun b t => b.Disciplined t ∧ b.Fresh) filled
      (writeTicks 0xaa00) := by decide +kernel
  obtain ⟨halways, hfinish⟩ :=
    arbitration true (fun _ => 0xaaaa) (fun _ => 0xaaaa) (fun _ => .read 0) hrun
  exact ⟨halways, hfinish [writeTicks.tick 0xaa00 true] _ .c1 rfl (by decide +kernel) (by decide)⟩

end SramBoard

end NaviMisc.SpiMemEmulator
