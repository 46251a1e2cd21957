import NaviMisc.Lib.Runs
import NaviMisc.SpiMemEmulator.CallSteps

/-!
Calls of `memRead` and `memWrite` return, and the memory they see is a memory.
-/

namespace NaviMisc.SpiMemEmulator

open NaviMisc.Lib
open NaviMisc.Lib.ByteStuffing

namespace Board

variable {M : Content} {access : Option Access} {access' : Access} {b : Board}

section Clock

variable {results : List (List Byte) × Content}

def helpful (b : Board) : Chance :=
  if ¬b.answered then .finish
  else if b.toBoard ≠ [] then .deliver
  else if 0 < b.unsent then .ready
  else .host

theorem memRank_eq (h : Accessing b.sio.mem b.request access) :
    memRank b = if access = none then 0 else if b.request.isSome then 1 else 2 := by
  rw [memRank]
  match access with
  | none => rw [h.2.1, h.2.2.1, h.2.2.2]; rfl
  | some .read =>
    rw [h.2.1, h.2.2]
    cases b.sio.mem.memBeginRd <;> rfl
  | some .write =>
    rw [h.1, h.2.2]
    cases b.sio.mem.memBeginWr <;> rfl

theorem Serving.memRank_clock (h : Serving M (some access') b) (c : Choice)
    (hnext : Serving M (nextAccess c (some access') b) (b.clock c)) :
    memRank (b.clock c) < memRank b ∨
      memRank (b.clock c) = memRank b ∧ c.finish = false ∧
        nextAccess c (some access') b = some access' := by
  rw [memRank_eq h.accessing, memRank_eq hnext.accessing, if_neg (Option.some_ne_none access')]
  cases hrequest : b.request with
  | none =>
    have hfinished := finished_eq_none hrequest c
    have hsome : (b.clock c).request.isSome = true := by
      match access', h.accessing with
      | .read, haccessing =>
        have hrd := haccessing.2.2
        rw [hrequest] at hrd
        split_ifs at hrd with hbegin
        rw [Board.clock, hbegin]
        rfl
      | .write, haccessing =>
        have hwr := haccessing.2.2
        rw [hrequest] at hwr
        split_ifs at hwr with hbegin
        rw [Board.clock, hbegin, haccessing.1]
        rfl
    have hsame : nextAccess c (some access') b = some access' := by
      rw [nextAccess, hfinished]
      rfl
    rw [hsame, if_neg (Option.some_ne_none access'), hsome]
    exact Or.inl (Nat.lt_succ_self 1)
  | some request =>
    have hbegin : b.sio.mem.memBeginRd = false ∧ b.sio.mem.memBeginWr = false := by
      match access', h.accessing with
      | .read, haccessing =>
        have hrd := haccessing.2.2
        rw [hrequest] at hrd
        split_ifs at hrd with hbegin
        exact ⟨Bool.eq_false_iff.mpr hbegin, haccessing.2.1⟩
      | .write, haccessing =>
        have hwr := haccessing.2.2
        rw [hrequest] at hwr
        split_ifs at hwr with hbegin
        exact ⟨haccessing.1, Bool.eq_false_iff.mpr hbegin⟩
    cases hfinish : c.finish with
    | true =>
      have hdone : nextAccess c (some access') b = none := by
        rw [nextAccess, finished, hfinish, hrequest]
        rfl
      rw [hdone]
      exact Or.inl Nat.one_pos
    | false =>
      have hsame : nextAccess c (some access') b = some access' := by
        rw [nextAccess, finished, hfinish]
        rfl
      have hsome : (b.clock c).request = some request := by
        rw [Board.clock, hbegin.1, hbegin.2, finished, hfinish, hrequest]
        rfl
      rw [hsame, if_neg (Option.some_ne_none access'), hsome]
      exact Or.inr ⟨rfl, rfl, rfl⟩

theorem memRank_le (b : Board) : memRank b ≤ 2 := by
  rw [memRank]
  split_ifs <;> omega

theorem nextAccess_eq_none {c : Choice} (hdelivered : b.delivered c = none)
    (hshown : b.sio.tx.shown = none) : nextAccess c none b = none := by
  have hnot : ¬(b.sio.rx.cmdIsWrite && b.sio.rx.cmdDataStrobe (b.input c)) = true := by
    rw [cmdIsWrite_iff, hdelivered]
    rintro ⟨address, a, -, hdata⟩
    cases hdata
  rw [nextAccess, if_neg hnot, (SioTransmit.shown_eq_none_iff.mp hshown).2, Bool.and_false]
  rfl

theorem txRank_clock (c : Choice) (hshown : b.sio.tx.shown = none) :
    txRank (b.clock c) ≤ txRank b ∧ (txRank (b.clock c) = txRank b →
      (b.txReady = true → (b.clock c).sio.tx.shown = none) ∧
        (b.txReady = false → b.answered = true → c.ready = false)) := by
  obtain ⟨hflag, hstrobe⟩ := SioTransmit.shown_eq_none_iff.mp hshown
  have hready : (b.clock c).txReady = (b.txReady || c.ready && b.answered) := by
    rw [clock, hflag, hstrobe]
    rfl
  rw [txRank, txRank, hready, hshown]
  cases (b.clock c).sio.tx.shown <;> cases b.txReady <;> cases c.ready <;> cases b.answered <;> simp

theorem Invariant.clock_stage (h : Invariant results M access b) (c : Choice) :
    Serving M (nextAccess c access b) (b.clock c) ∧ Stage M (nextAccess c access b) (b.clock c) ∧
      (b.sio.tx.shown ≠ none → (b.clock c).unsent < b.unsent ∧ b.host.waiting ≠ none) ∧
      (b.sio.tx.shown = none → b.toBoard = [] → 0 < b.unsent → b.txReady = true →
        (b.clock c).sio.tx.shown ≠ none) := by
  have hstage := h.stage
  have hhost : (b.clock c).host = b.host := rfl
  rw [Stage] at hstage
  rw [Stage, unsent, unsent, hhost]
  cases hwaiting : b.host.waiting with
  | none =>
    rw [hwaiting] at hstage
    have hrest := AtRest.clock hstage c
    have hnone := hstage.quiescent.shown
    refine ⟨h.serving.clock c fun hne => absurd hrest.quiescent.shown hne, hrest,
      fun hne => absurd hnone hne, fun _ _ hpos => absurd hpos (Nat.lt_irrefl 0)⟩
  | some sent =>
    obtain ⟨packet, task⟩ := sent
    rw [hwaiting] at hstage
    obtain ⟨cmdId, block, data, hexpected, hasked | ⟨k, hanswering⟩⟩ := hstage
    · have hnone := hasked.quiescent.shown
      have hlen : ∀ r : SioReceive, r.cmdId = cmdId → r.cmdReplyLen.toNat = block.length :=
        fun r hr => (hexpected.fits.replyDataLen r hr).trans hexpected.replyDataLen.symm
      have hto : b.toBoard ≠ [] := by
        rcases hasked.toBoard with ⟨before, -, -, hto⟩ | ⟨bytes, rest, -, hlt, hsplit, hto⟩
        · rw [hto]
          exact List.append_ne_nil_of_right_ne_nil _ (List.cons_ne_nil _ _)
        · rw [hto, Ne, List.map_eq_nil_iff]
          rintro rfl
          have hlength := congrArg List.length hsplit
          rw [List.append_nil, List.length_append, Heard.command] at hlength
          simp only [List.length_cons, List.length_nil] at hlength
          omega
      rcases hasked.clock c (nextAccess c access b) hlen with hasked' | hanswering
      · exact ⟨h.serving.clock c fun hne => absurd hasked'.quiescent.shown hne,
          ⟨cmdId, block, data, hexpected, Or.inl hasked'⟩, fun hne => absurd hnone hne,
          fun _ hnil => absurd hnil hto⟩
      · have hnone' : (b.clock c).sio.tx.shown = none :=
          hanswering.shown.resolve_right fun hpos => Nat.lt_irrefl 0 hpos.1
        exact ⟨h.serving.clock c fun hne => absurd hnone' hne,
          ⟨cmdId, block, data, hexpected, Or.inr ⟨0, hanswering⟩⟩, fun hne => absurd hnone hne,
          fun _ hnil => absurd hnil hto⟩
    · have hemitted := hanswering.emitted_eq
      have hk := hanswering.replying.le
      have hdata := hexpected.replyDataLen
      by_cases hshown : b.sio.tx.shown = none
      · rw [sentCount, if_pos hshown] at hemitted
        by_cases hissue : b.txReady = true ∧ k < 4 + block.length
        · obtain ⟨hanswering', hne, hready⟩ :=
            hanswering.clock_issue h.serving hexpected.bytes c hshown hissue.1 hissue.2
          obtain ⟨address', hheard⟩ := hanswering'.heard
          exact ⟨h.serving.clock c fun _ => ⟨hready, ⟨cmdId, address', hheard⟩, hanswering'.flag⟩,
            ⟨cmdId, block, data, hexpected, Or.inr ⟨k + 1, hanswering'⟩⟩,
            fun hne => absurd hshown hne, fun _ _ _ _ => hne⟩
        · have hwait : b.txReady = false ∨ k = 4 + block.length := by
            rw [not_and_or, Bool.not_eq_true] at hissue
            exact hissue.imp_right fun hge => by omega
          obtain ⟨hanswering', hnone'⟩ := hanswering.clock_silent h.serving c hshown hwait
          refine ⟨h.serving.clock c fun hne => absurd hnone' hne,
            ⟨cmdId, block, data, hexpected, Or.inr ⟨k, hanswering'⟩⟩,
            fun hne => absurd hshown hne, fun _ _ hpos hready => ?_⟩
          rw [hemitted] at hpos
          dsimp only at hpos
          exact absurd ⟨hready, by omega⟩ hissue
      · obtain ⟨hanswering', hnone'⟩ := hanswering.clock_shown h.serving c hshown
        have hpos := (hanswering.shown.resolve_left hshown).1
        have hemitted' := hanswering'.emitted_eq
        rw [sentCount, if_pos hnone'] at hemitted'
        rw [sentCount, if_neg hshown] at hemitted
        refine ⟨h.serving.clock c fun hne => absurd hnone' hne,
          ⟨cmdId, block, data, hexpected, Or.inr ⟨k, hanswering'⟩⟩,
          fun _ => ⟨?_, Option.some_ne_none _⟩, fun hnone => absurd hnone hshown⟩
        rw [hemitted, hemitted']
        dsimp only
        omega

theorem rank_eq (b : Board) : rank b = (b.host.calls.map work).sum + 8 * b.toBoard.length +
    memRank b + txRank b + waitingRank b := rfl

theorem Invariant.clock (h : Invariant results M access b) (c : Choice) :
    Invariant results M (nextAccess c access b) (b.clock c) ∧
      (rank (b.clock c) < rank b ∨ rank (b.clock c) = rank b ∧ helpful (b.clock c) = helpful b ∧
        (helpful b = .host ∨ ¬offered c (helpful b))) := by
  obtain ⟨hserving, hstage, hsent, hissued⟩ := h.clock_stage c
  refine ⟨⟨hserving, hstage, h.raised, h.short, h.returned, h.final⟩, ?_⟩
  have hhost : (b.clock c).host = b.host := rfl
  have hmem := memRank_le (b.clock c)
  have hto : (b.clock c).toBoard.length ≤ b.toBoard.length := by
    cases hdelivered : b.delivered c with
    | none => rw [toBoard_clock_of_none hdelivered]
    | some s =>
      rw [toBoard_clock_of_some hdelivered]
      exact Nat.le_succ _
  rw [rank_eq, rank_eq, hhost]
  by_cases hshown : b.sio.tx.shown = none
  · have hport : (b.clock c).port = b.port := by
      rw [Board.clock, sent_eq, hshown, ite_self]
      rfl
    have hunsent : (b.clock c).unsent = b.unsent := by rw [unsent, unsent, hhost, hport]
    have hwaiting : waitingRank (b.clock c) = waitingRank b := by
      rw [waitingRank, waitingRank, hhost, hunsent]
    obtain ⟨htx, hsame⟩ := txRank_clock c hshown
    rw [hwaiting]
    cases hdelivered : b.delivered c with
    | some s =>
      have hlength := congrArg List.length (toBoard_clock_of_some hdelivered)
      rw [List.length_cons] at hlength
      exact Or.inl (by omega)
    | none =>
      have hsameTo := toBoard_clock_of_none hdelivered
      have haccess : memRank (b.clock c) < memRank b ∨ memRank (b.clock c) = memRank b ∧
          nextAccess c access b = access ∧ (access ≠ none → c.finish = false) := by
        cases access with
        | none =>
          have hnext := nextAccess_eq_none hdelivered hshown
          rw [hnext] at hserving
          rw [memRank_eq h.serving.accessing, memRank_eq hserving.accessing]
          exact Or.inr ⟨rfl, hnext, fun hne => absurd rfl hne⟩
        | some access' =>
          rcases h.serving.memRank_clock c hserving with hlt | ⟨heq, hfinish, hnext⟩
          · exact Or.inl hlt
          · exact Or.inr ⟨heq, hnext, fun _ => hfinish⟩
      rw [hsameTo]
      rcases haccess with hlt | ⟨heq, hnext, hfinish⟩
      · exact Or.inl (by omega)
      rcases Nat.lt_or_eq_of_le htx with hlt | hequal
      · exact Or.inl (by omega)
      refine Or.inr ⟨by omega, ?_, ?_⟩
      · have hanswered : (b.clock c).answered = b.answered := by
          rw [Bool.eq_iff_iff, hserving.accessing.answered_iff, h.serving.accessing.answered_iff,
            hnext]
        rw [helpful, helpful, hanswered, hsameTo, hunsent]
      · by_cases hanswered : b.answered = true
        · by_cases hempty : b.toBoard = []
          · by_cases hpos : 0 < b.unsent
            · rw [helpful, if_neg (not_not_intro hanswered), if_neg (not_not_intro hempty),
                if_pos hpos]
              refine Or.inr fun hready => ?_
              have hnot : b.txReady = false := by
                rw [Bool.eq_false_iff]
                intro htxReady
                exact hissued hshown hempty hpos htxReady ((hsame hequal).1 htxReady)
              rw [offered, (hsame hequal).2 hnot hanswered] at hready
              cases hready
            · rw [helpful, if_neg (not_not_intro hanswered), if_neg (not_not_intro hempty),
                if_neg hpos]
              exact Or.inl rfl
          · rw [helpful, if_neg (not_not_intro hanswered), if_pos hempty]
            refine Or.inr fun hdeliver => ?_
            rw [offered] at hdeliver
            rw [delivered, hanswered, hdeliver] at hdelivered
            exact hempty (List.head?_eq_none_iff.mp hdelivered)
        · rw [helpful, if_pos hanswered]
          rw [h.serving.accessing.answered_iff] at hanswered
          rw [offered, hfinish hanswered]
          exact Or.inr Bool.false_ne_true
  · obtain ⟨hlt, hne⟩ := hsent hshown
    have htx : txRank b = 1 := by
      rw [txRank, Option.isSome_iff_ne_none.mpr hshown]
      rfl
    have htx' : txRank (b.clock c) ≤ 3 := by
      rw [txRank]
      split_ifs <;> omega
    have hwaiting : waitingRank (b.clock c) + 8 ≤ waitingRank b := by
      rw [waitingRank, waitingRank, hhost]
      cases hsome : b.host.waiting with
      | none => exact absurd hsome hne
      | some sent =>
        dsimp only
        omega
    exact Or.inl (by omega)

end Clock

section Calls

variable {results : List (List Byte) × Content}

structure Done (b : Board) : Prop where
  waiting : b.host.waiting = none
  calls : b.host.calls = []
  toBoard : b.toBoard = []
  answered : b.answered = true

theorem helpful_host (h : helpful b = .host) :
    b.answered = true ∧ b.toBoard = [] ∧ b.unsent = 0 := by
  by_cases hanswered : b.answered = true
  · by_cases hempty : b.toBoard = []
    · refine ⟨hanswered, hempty, Nat.eq_zero_of_not_pos fun hpos => ?_⟩
      rw [helpful, if_neg (not_not_intro hanswered), if_neg (not_not_intro hempty),
        if_pos hpos] at h
      cases h
    · rw [helpful, if_neg (not_not_intro hanswered), if_pos hempty] at h
      cases h
  · rw [helpful, if_pos hanswered] at h
    cases h

theorem Waiting.calls (h : b.Waiting) (hunsent : b.unsent = 0) :
    b.host.waiting = none ∧ b.host.calls = [] := by
  rw [Waiting] at h
  rw [unsent] at hunsent
  cases hwaiting : b.host.waiting with
  | none =>
    rw [hwaiting] at h
    exact ⟨rfl, h⟩
  | some sent =>
    rw [hwaiting] at h hunsent
    dsimp only at h hunsent
    omega

theorem Invariant.step (h : Invariant results M access b) (c : Choice) :
    (∃ M' access', Invariant results M' access' (b.step c)) ∧
      (¬b.Done → rank (b.step c) < rank b ∨ rank (b.step c) = rank b ∧
        helpful (b.step c) = helpful b ∧ ¬offered c (helpful b)) := by
  obtain ⟨hclock, hrank⟩ := h.clock c
  rw [Board.step]
  by_cases hhost : c.host = true
  · rw [if_pos hhost]
    obtain ⟨M', hstep, hlower⟩ := hclock.hostStep
    refine ⟨⟨M', _, hstep⟩, fun hdone => ?_⟩
    rcases hlower with hlt | ⟨heq, hwaiting⟩
    · rcases hrank with hless | ⟨hequal, -, -⟩
      · exact Or.inl (Nat.lt_trans hlt hless)
      · exact Or.inl (by rwa [hequal] at hlt)
    · rw [heq]
      refine hrank.imp_right fun ⟨hequal, hhelpful, hchosen⟩ => ⟨hequal, hhelpful, ?_⟩
      refine hchosen.resolve_left fun hnone => ?_
      obtain ⟨hanswered, hempty, -⟩ := helpful_host hnone
      obtain ⟨hidle, hcalls⟩ := hwaiting.calls (helpful_host (hhelpful.trans hnone)).2.2
      exact hdone ⟨hidle, hcalls, hempty, hanswered⟩
  · rw [if_neg hhost]
    refine ⟨⟨M, _, hclock⟩, fun _ => ?_⟩
    refine hrank.imp_right fun ⟨hequal, hhelpful, hchosen⟩ => ⟨hequal, hhelpful, ?_⟩
    rcases hchosen with hnone | hnot
    · rw [hnone]
      exact hhost
    · exact hnot

theorem Invariant.reset (txReplyLen : BitVec 17) (txAddress : BitVec 20) (content : Content)
    {calls : List Call} (hshort : ∀ call ∈ calls, Short call) :
    Invariant (outcome calls content) content none (reset txReplyLen txAddress content calls) where
  serving := ⟨⟨rfl, rfl, rfl, rfl⟩, (fun hwrite => by cases hwrite), (fun hread => by cases hread),
    (fun hne => absurd rfl hne), rfl⟩
  stage := ⟨⟨Or.inl rfl, rfl⟩, rfl, List.not_mem_nil, fun bytes hheader => by cases hheader⟩
  raised := rfl
  short := hshort
  returned := rfl
  final := rfl

theorem Invariant.done (h : Invariant results M access b) (hdone : b.Done) :
    b.host.returned = results.1 ∧ b.content = results.2 := by
  have hreturned := h.returned
  have hfinal := h.final
  rw [left, hdone.waiting] at hreturned hfinal
  dsimp only at hreturned hfinal
  rw [hdone.calls, outcome] at hreturned hfinal
  have hnone := h.serving.accessing.answered_iff.mp hdone.answered
  have heffect := h.serving.effect
  rw [hdone.toBoard, settled, hnone] at heffect
  exact ⟨(List.append_nil _).symm.trans hreturned, heffect.trans hfinal⟩

/-- Calls return what was written before, and all of them return, as long as the serial port and
the memory go on. -/
theorem memory_calls (txReplyLen : BitVec 17) (txAddress : BitVec 20) (content : Content)
    (calls : List Call) (hdata : ∀ offset data, .memWrite offset data ∈ calls → data.length ≤ 2 ^ 20)
    (choices : ℕ → Choice) (hfair : Fairness.Fair offered choices) :
    (∀ n, (Fairness.trace step (reset txReplyLen txAddress content calls) choices n).host.raised =
        none ∧
      (Fairness.trace step (reset txReplyLen txAddress content calls) choices n).host.returned <+:
        (outcome calls content).1) ∧
      ∃ n, (Fairness.trace step (reset txReplyLen txAddress content calls) choices n).Done ∧
        (Fairness.trace step (reset txReplyLen txAddress content calls) choices n).host.returned =
          (outcome calls content).1 ∧
        (Fairness.trace step (reset txReplyLen txAddress content calls) choices n).content =
          (outcome calls content).2 := by
  have hshort : ∀ call ∈ calls, Short call := by
    intro call hcall
    cases call with
    | memRead offset length => trivial
    | memWrite offset data => exact hdata offset data hcall
  have hranked : Fairness.Ranked step offered
      (fun b => ∃ M access, Invariant (outcome calls content) M access b) Done rank helpful := by
    constructor
    · rintro b c ⟨M, access, h⟩
      exact (h.step c).1
    · rintro b c ⟨M, access, h⟩ hnot
      exact (h.step c).2 hnot
  have hstart : ∃ M access, Invariant (outcome calls content) M access
      (reset txReplyLen txAddress content calls) :=
    ⟨content, none, Invariant.reset txReplyLen txAddress content hshort⟩
  constructor
  · intro n
    obtain ⟨M, access, h⟩ := Fairness.trace_invariant hranked.invariant hstart n
    exact ⟨h.raised, _, h.returned⟩
  · obtain ⟨n, hdone⟩ := hranked.eventually hstart hfair
    obtain ⟨M, access, h⟩ := Fairness.trace_invariant hranked.invariant hstart n
    exact ⟨n, hdone, h.done hdone⟩

theorem memory_calls_wrap :
    ∃ n, (Fairness.trace step
      (reset 0 0 (fun _ => 0) [.memWrite 0xfffff [1, 2], .memRead (-1) 2])
      (fun _ => ⟨true, true, true, true, 0, 0, 0, 0, 0⟩) n).host.returned = [[1, 2]] := by
  obtain ⟨-, n, -, hreturned, -⟩ := memory_calls 0 0 (fun _ => 0)
    [.memWrite 0xfffff [1, 2], .memRead (-1) 2]
    (by
      intro offset data hmem
      rw [List.mem_cons, List.mem_singleton] at hmem
      rcases hmem with heq | heq
      · cases heq
        decide
      · cases heq)
    (fun _ => ⟨true, true, true, true, 0, 0, 0, 0, 0⟩)
    (by
      intro k n
      refine ⟨n, Nat.le_refl n, ?_⟩
      cases k <;> rfl)
  exact ⟨n, hreturned.trans (by decide)⟩

end Calls

end Board

end NaviMisc.SpiMemEmulator
