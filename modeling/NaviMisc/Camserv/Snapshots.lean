import NaviMisc.Lib.Runs

/-!
The picture taker and the main loop (picture_loop.c, main_loop.c). They share the memory of the
picture, and send each other datagrams.
-/

namespace NaviMisc.Camserv

inductive Command
  | snap | abort
  deriving DecidableEq

structure Report (Byte : Type) where
  nbytes : ℕ
  picture : List Byte

inductive Dispatch
  | noMemory | unmanaged | managed

inductive Readable
  | listen (accepted : Bool)
  | picture (dispatch : Dispatch)
  | client (joins leaves : Bool)

/-- Where the main loop is: before select, at the first of the readable sockets, or in the memcpy of
a picture of which some bytes are copied. -/
inductive Point (Byte : Type)
  | top
  | serving (sockets : List Readable)
  | copying (report : Report Byte) (dispatch : Dispatch) (copied : ℕ) (data : List Byte)
      (sockets : List Readable)
  | done

inductive Taker
  | idle | snapping | gone
  deriving DecidableEq

/-- Both processes, the datagrams between them, and the pictures given to manager_new_picture, each
with the one that was reported. -/
structure Pair (Byte : Type) where
  memory : ℕ → Byte
  commands : List Command
  reports : List (Report Byte)
  taker : Taker
  point : Point Byte
  picture_client_ready : Bool
  num_sclients : ℤ
  managed : List (List Byte × List Byte)

inductive Action (Byte : Type)
  | recv
  | write (pos : ℕ) (byte : Byte)
  | report_picsnap (nbytes : ℕ)
  | error_exit
  | select (sockets : List Readable)
  | serve
  | copy
  | abort

namespace Pair

variable {Byte : Type} (s : Pair Byte)

def picture (nbytes : ℕ) : List Byte := (List.range nbytes).map s.memory

def send (command : Command) : Pair Byte :=
  { s with commands := s.commands ++ [command], picture_client_ready := false }

def recv : Pair Byte :=
  match s.taker, s.commands with
  | .idle, .snap :: commands => { s with taker := .snapping, commands := commands }
  | .idle, .abort :: commands => { s with taker := .gone, commands := commands }
  | _, _ => s

/-- What is readable is found once, each socket at most once, and after the request for a picture
of the streaming clients. -/
def select (sockets : List Readable) : Pair Byte :=
  match s.point with
  | .top =>
    let s := if 0 < s.num_sclients ∧ s.picture_client_ready = true then s.send .snap else s
    { s with point := .serving sockets }
  | _ => s

def serve : Pair Byte :=
  match s.point with
  | .serving [] => { s with point := .top }
  | .serving (.listen accepted :: sockets) =>
    if accepted then { s.send .snap with point := .serving sockets }
    else { s with point := .serving sockets }
  | .serving (.picture dispatch :: sockets) =>
    match s.reports with
    | [] => { s with point := .serving sockets }
    | report :: reports =>
      match dispatch with
      | .noMemory =>
        { s with reports := reports, picture_client_ready := true, point := .serving sockets }
      | _ => { s with reports := reports, point := .copying report dispatch 0 [] sockets }
  | .serving (.client joins leaves :: sockets) =>
    { s with
      num_sclients := s.num_sclients + (if joins then 1 else 0) - (if leaves then 1 else 0)
      point := .serving sockets }
  | _ => s

def copy : Pair Byte :=
  match s.point with
  | .copying report dispatch copied data sockets =>
    if copied < report.nbytes then
      { s with
        point := .copying report dispatch (copied + 1) (data ++ [s.memory copied]) sockets }
    else
      { s with
        managed := match dispatch with
          | .managed => s.managed ++ [(data, report.picture)]
          | _ => s.managed
        picture_client_ready := true
        point := .serving sockets }
  | _ => s

def quit : Pair Byte :=
  match s.point with
  | .top => { s with commands := s.commands ++ [.abort], point := .done }
  | _ => s

def step : Action Byte → Pair Byte
  | .recv => s.recv
  | .write pos byte =>
    if s.taker = .snapping then { s with memory := Function.update s.memory pos byte } else s
  | .report_picsnap nbytes =>
    if s.taker = .snapping then
      { s with reports := s.reports ++ [⟨nbytes, s.picture nbytes⟩], taker := .idle }
    else s
  | .error_exit => if s.taker = .snapping then { s with taker := .gone } else s
  | .select sockets => s.select sockets
  | .serve => s.serve
  | .copy => s.copy
  | .abort => s.quit

def start (memory : ℕ → Byte) : Pair Byte := ⟨memory, [], [], .idle, .top, true, 0, []⟩

def Copying : Prop := ∃ report dispatch copied data sockets,
  s.point = .copying report dispatch copied data sockets

/-- The taker does not write a picture that is not copied yet, and what is managed is what was
reported. -/
structure Untorn : Prop where
  writing : s.taker = .snapping → s.reports = [] ∧ ¬s.Copying
  managed : ∀ p ∈ s.managed, p.1 = p.2

def AcceptsReady : Action Byte → Prop
  | .serve => ∀ sockets, s.point = .serving (.listen true :: sockets) →
      s.picture_client_ready = true
  | _ => True

end Pair

end NaviMisc.Camserv

/-!
A picture is copied whole where no client is accepted while a picture is requested.
-/

namespace NaviMisc.Camserv

open NaviMisc.Lib.Runs

variable {Byte : Type}

def Point.copies : Point Byte → ℕ
  | .copying .. => 1
  | _ => 0

def Taker.snaps : Taker → ℕ
  | .snapping => 1
  | _ => 0

namespace Pair

variable {s : Pair Byte}

def outstanding (s : Pair Byte) : ℕ :=
  s.commands.count .snap + s.taker.snaps + s.reports.length +
    s.point.copies

structure Alone (s : Pair Byte) : Prop where
  one : s.outstanding ≤ if s.picture_client_ready then 0 else 1
  reports : ∀ report ∈ s.reports, report.picture = s.picture report.nbytes
  copied : ∀ report dispatch copied data sockets,
    s.point = .copying report dispatch copied data sockets →
      copied ≤ report.nbytes ∧ data = s.picture copied ∧
        report.picture = s.picture report.nbytes
  managed : ∀ p ∈ s.managed, p.1 = p.2

theorem copying_iff : s.Copying ↔ s.point.copies ≠ 0 := by
  unfold Copying
  cases s.point <;> simp [Point.copies]

theorem picture_succ (s : Pair Byte) (copied : ℕ) :
    s.picture (copied + 1) = s.picture copied ++ [s.memory copied] := by
  rw [picture, List.range_succ, List.map_append]
  rfl

namespace Alone

variable (h : Alone s)
include h

theorem of_snapping (htaker : s.taker = .snapping) : s.reports = [] ∧ s.point.copies = 0 := by
  have hone := h.one
  rw [outstanding, htaker, Taker.snaps] at hone
  rw [← List.length_eq_zero_iff]
  split_ifs at hone <;> omega

theorem untorn : s.Untorn := by
  refine ⟨fun htaker => ?_, h.managed⟩
  rw [copying_iff, not_not]
  exact h.of_snapping htaker

theorem send (hready : s.picture_client_ready = true) : Alone (s.send .snap) := by
  refine ⟨?_, h.reports, h.copied, h.managed⟩
  have hone := h.one
  rw [hready, if_pos rfl] at hone
  simp only [outstanding, Pair.send, List.count_append, List.count_singleton_self,
    Bool.false_eq_true, ↓reduceIte] at hone ⊢
  omega

theorem goto {point : Point Byte} (hpoint : point.copies = 0) (hold : s.point.copies = 0) :
    Alone { s with point := point } := by
  refine ⟨?_, h.reports, ?_, h.managed⟩
  · have hone := h.one
    simp only [outstanding, hold] at hone
    simpa only [outstanding, hpoint] using hone
  · rintro report dispatch copied data sockets rfl
    cases hpoint

theorem recv : Alone s.recv := by
  have hone := h.one
  unfold Pair.recv
  split
  next commands htaker hcommands =>
    refine ⟨?_, h.reports, h.copied, h.managed⟩
    simp only [outstanding, htaker, hcommands, List.count_cons_self, Taker.snaps] at hone ⊢
    omega
  next commands htaker hcommands =>
    refine ⟨?_, h.reports, h.copied, h.managed⟩
    simp only [outstanding, htaker, hcommands, Taker.snaps, List.count_cons] at hone ⊢
    simpa using hone
  next => exact h

theorem write (pos : ℕ) (byte : Byte) (htaker : s.taker = .snapping) :
    Alone { s with memory := Function.update s.memory pos byte } := by
  obtain ⟨hreports, hcopies⟩ := h.of_snapping htaker
  refine ⟨h.one, by simp [hreports], ?_, h.managed⟩
  intro report dispatch copied data sockets hpoint
  rw [hpoint] at hcopies
  cases hcopies

theorem report_picsnap (nbytes : ℕ) (htaker : s.taker = .snapping) :
    Alone { s with
      reports := s.reports ++ [⟨nbytes, s.picture nbytes⟩]
      taker := .idle } := by
  obtain ⟨hreports, hcopies⟩ := h.of_snapping htaker
  refine ⟨?_, ?_, h.copied, h.managed⟩
  · have hone := h.one
    simp only [outstanding, htaker, hreports, Taker.snaps] at hone ⊢
    simpa using hone
  · simp only [hreports, List.nil_append, List.mem_singleton]
    rintro report rfl
    rfl

theorem error_exit (htaker : s.taker = .snapping) : Alone { s with taker := .gone } := by
  refine ⟨?_, h.reports, h.copied, h.managed⟩
  have hone := h.one
  simp only [outstanding, htaker, Taker.snaps] at hone ⊢
  omega

theorem select (sockets : List Readable) : Alone (s.select sockets) := by
  unfold Pair.select
  split
  next hpoint =>
    have hold : s.point.copies = 0 := by rw [hpoint]; rfl
    by_cases hask : 0 < s.num_sclients ∧ s.picture_client_ready = true
    · rw [if_pos hask]
      exact (h.send hask.2).goto rfl hold
    · rw [if_neg hask]
      exact h.goto rfl hold
  next => exact h

theorem picture {report : Report Byte} {reports : List (Report Byte)}
    (hreports : s.reports = report :: reports) (hold : s.point.copies = 0)
    (sockets : List Readable) (dispatch : Dispatch) :
    Alone { s with
      reports := reports, picture_client_ready := true, point := .serving sockets } ∧
    Alone { s with reports := reports, point := .copying report dispatch 0 [] sockets } := by
  have hone := h.one
  simp only [outstanding, hreports, hold, List.length_cons] at hone
  have hrest : ∀ report' ∈ reports, report'.picture = s.picture report'.nbytes :=
    fun report' hmem => h.reports report' (hreports ▸ List.mem_cons_of_mem report hmem)
  constructor
  · refine ⟨?_, hrest, fun _ _ _ _ _ hpoint => (by cases hpoint), h.managed⟩
    simp only [outstanding, Point.copies, ↓reduceIte]
    split_ifs at hone <;> omega
  · refine ⟨?_, hrest, ?_, h.managed⟩
    · simp only [outstanding, Point.copies]
      omega
    · rintro _ _ _ _ _ ⟨⟩
      exact ⟨Nat.zero_le _, rfl, h.reports report (hreports ▸ List.mem_cons_self)⟩

theorem serve (hq : s.AcceptsReady .serve) : Alone s.serve := by
  unfold Pair.serve
  split
  next hpoint => exact h.goto rfl (by rw [hpoint]; rfl)
  next accepted sockets hpoint =>
    have hold : s.point.copies = 0 := by rw [hpoint]; rfl
    split_ifs with haccepted
    · subst haccepted
      exact (h.send (hq sockets hpoint)).goto rfl hold
    · exact h.goto rfl hold
  next dispatch sockets hpoint =>
    have hold : s.point.copies = 0 := by rw [hpoint]; rfl
    split
    next => exact h.goto rfl hold
    next report reports hreports =>
      cases dispatch with
      | noMemory => exact (h.picture hreports hold sockets .noMemory).1
      | unmanaged => exact (h.picture hreports hold sockets .unmanaged).2
      | managed => exact (h.picture hreports hold sockets .managed).2
  next joins leaves sockets hpoint =>
    have h := @goto _ _ h (.serving sockets) rfl (by rw [hpoint]; rfl)
    exact ⟨h.one, h.reports, h.copied, h.managed⟩
  next => exact h

theorem copy : Alone s.copy := by
  unfold Pair.copy
  split
  next report dispatch copied data sockets hpoint =>
    obtain ⟨hle, hdata, hpicture⟩ := h.copied report dispatch copied data sockets hpoint
    have hone := h.one
    simp only [outstanding, hpoint, Point.copies] at hone
    split_ifs with hlt
    · refine ⟨?_, h.reports, ?_, h.managed⟩
      · simpa only [outstanding, Point.copies] using hone
      · rintro _ _ _ _ _ ⟨⟩
        refine ⟨hlt, ?_, hpicture⟩
        rw [hdata]
        exact (s.picture_succ copied).symm
    · refine ⟨?_, h.reports, fun _ _ _ _ _ hpoint => (by cases hpoint), ?_⟩
      · simp only [outstanding, Point.copies, ↓reduceIte]
        split_ifs at hone <;> omega
      · have heq : data = report.picture := by
          rw [hdata, hpicture, Nat.le_antisymm hle (Nat.not_lt.mp hlt)]
        cases dispatch with
        | managed =>
          intro p hmem
          rcases List.mem_append.mp hmem with hmem | hmem
          · exact h.managed p hmem
          · rw [List.mem_singleton.mp hmem]
            exact heq
        | noMemory => exact h.managed
        | unmanaged => exact h.managed
  next => exact h

theorem quit : Alone s.quit := by
  unfold Pair.quit
  split
  next hpoint =>
    have h := @goto _ _ h .done rfl (by rw [hpoint]; rfl)
    refine ⟨?_, h.reports, h.copied, h.managed⟩
    simpa [outstanding] using h.one
  next => exact h

theorem step (a : Action Byte) (hq : s.AcceptsReady a) : Alone (s.step a) := by
  cases a with
  | recv => exact h.recv
  | write pos byte =>
    unfold Pair.step
    split_ifs with htaker
    · exact h.write pos byte htaker
    · exact h
  | report_picsnap nbytes =>
    unfold Pair.step
    split_ifs with htaker
    · exact h.report_picsnap nbytes htaker
    · exact h
  | error_exit =>
    unfold Pair.step
    split_ifs with htaker
    · exact h.error_exit htaker
    · exact h
  | select sockets => exact h.select sockets
  | serve => exact h.serve hq
  | copy => exact h.copy
  | abort => exact h.quit

end Alone

theorem alone_start (memory : ℕ → Byte) : Alone (start memory) :=
  ⟨Nat.le_refl 0, by simp [start], fun _ _ _ _ _ hpoint => (by cases hpoint), by simp [start]⟩

/-- Where clients are accepted only while no picture is requested, no picture is torn. -/
theorem snapshots_untorn (memory : ℕ → Byte) {actions : List (Action Byte)}
    (hl : Meets step AcceptsReady (start memory) actions) :
    Always step Untorn (start memory) actions :=
  (hl.always (P := Alone) (fun _ a h hq => h.step a hq) (alone_start memory)).mono
    fun _ h => h.untorn

/-- A client comes, and a picture of one byte is taken for it. -/
theorem snapshots_untorn_one :
    Meets step AcceptsReady (start fun _ => 0)
      [.select [.listen true], .serve, .serve, .recv, .write 0 7, .report_picsnap 1,
        .select [.picture .managed], .serve, .copy, .copy] ∧
    Always step Untorn (start fun _ => 0)
      [.select [.listen true], .serve, .serve, .recv, .write 0 7, .report_picsnap 1,
        .select [.picture .managed], .serve, .copy, .copy] :=
  have hmeets : Meets step AcceptsReady (start fun _ => 0)
      [.select [.listen true], .serve, .serve, .recv, .write 0 7, .report_picsnap 1,
        .select [.picture .managed], .serve, .copy, .copy] :=
    ⟨trivial, fun _ _ => rfl, nofun, trivial, trivial, trivial, trivial, nofun, trivial, trivial,
      trivial⟩
  ⟨hmeets, snapshots_untorn (fun _ => 0) hmeets⟩

/-- Two clients come one after the other. The second picture is written while the first one is
copied. -/
theorem snapshot_torn :
    let s := ([.select [.listen true], .serve, .serve, .select [.listen true], .serve, .serve,
        .recv, .write 0 7, .report_picsnap 1, .recv, .select [.picture .managed], .serve,
        .write 0 8, .copy, .copy] : List (Action ℕ)).foldl step (start fun _ => 0)
    s.managed = [([8], [7])] ∧ ¬s.Untorn := by
  refine ⟨rfl, fun h => ?_⟩
  have hpicture := h.managed ([8], [7]) (List.mem_singleton.mpr rfl)
  simp at hpicture

end Pair

end NaviMisc.Camserv
