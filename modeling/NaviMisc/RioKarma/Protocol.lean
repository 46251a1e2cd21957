import Mathlib.Data.BitVec
import NaviMisc.RioKarma.Response

/-!
`Protocol.dataReceived` of `RioKarma/Pearl.py`: the responses to a queue of
requests, in packets of any size.
-/

namespace NaviMisc.RioKarma.Pearl

open Property (Str)

/-- A request in the queue. `label` tells it from the others, `called` is `result.called`. -/
structure Pending where
  label : ℕ
  request : Request
  state : State
  responseBuffer : Str
  called : Bool

def Pending.init (label : ℕ) (request : Request) : Pending :=
  ⟨label, request, .beginResponse, [], false⟩

/-- `fired` are the results that were fired, with the labels of their requests. -/
structure Protocol where
  buffer : Str
  requestQueue : List Pending
  fired : List (ℕ × Except Failure Value)

def Pending.after (currentRequest : Pending) (turn : Turn) : Pending :=
  { currentRequest with
    state := turn.state, responseBuffer := turn.responseBuffer, called := turn.fired.isSome }

/-- The call of `readResponse` for the request at the head of the queue. -/
def Protocol.turn (p : Protocol) (currentRequest : Pending) (queue : List Pending) : Protocol :=
  let turn := readResponse currentRequest.request currentRequest.state currentRequest.responseBuffer
    p.buffer
  { buffer := turn.file
    requestQueue := currentRequest.after turn :: queue
    fired := p.fired ++ turn.fired.toList.map fun result => (currentRequest.label, result) }

def Protocol.loop : ℕ → Protocol → Protocol
  | 0, p => p
  | n + 1, p =>
    match p.requestQueue with
    | [] => p
    | currentRequest :: queue =>
      if currentRequest.called then loop n { p with requestQueue := queue }
      else
        let wasBufferEmpty := p.buffer = []
        let p := p.turn currentRequest queue
        if wasBufferEmpty then p else loop n p

/-- Each byte takes a call at most, and each request three more rounds. -/
def Protocol.dataReceived (p : Protocol) (data : Str) : Protocol :=
  let buffer := p.buffer ++ data
  loop (2 * buffer.length + 3 * p.requestQueue.length + 1) { p with buffer }

def Protocol.init (entries : List Entry) : Protocol where
  buffer := []
  requestQueue := entries.mapIdx fun label e => .init label e.request
  fired := []

section queue

inductive Waits : List Pending → List (ℕ × Except Failure Value) → Str → Prop
  | nil : Waits [] [] []
  | cons {queue : List Pending} {results : List (ℕ × Except Failure Value)} {w : Str} (label : ℕ)
    (e : Entry) : Waits queue results w →
    Waits (.init label e.request :: queue) ((label, e.outcome) :: results) (e.wire ++ w)

inductive Serves : List Pending → List (ℕ × Except Failure Value) → Str → Prop
  | nil : Serves [] [] []
  | called {currentRequest : Pending} {queue : List Pending}
    {results : List (ℕ × Except Failure Value)} {w : Str} (h : currentRequest.called = true) :
    Waits queue results w → Serves (currentRequest :: queue) results w
  | reading {currentRequest : Pending} {queue : List Pending}
    {results : List (ℕ × Except Failure Value)} {w w' : Str} {e : Entry}
    (h : currentRequest.called = false) (hrequest : currentRequest.request = e.request)
    (hexpects : Expects e currentRequest.state currentRequest.responseBuffer w) :
    Waits queue results w' →
    Serves (currentRequest :: queue) ((currentRequest.label, e.outcome) :: results) (w ++ w')

variable {queue : List Pending} {results : List (ℕ × Except Failure Value)} {w future : Str}
  {entries : List Entry} {pieces : List Str} {p : Protocol} {n : ℕ}

theorem Waits.serves (h : Waits queue results w) : Serves queue results w := by
  cases h with
  | nil => exact .nil
  | cons label e h =>
    have hexpects : Expects e .beginResponse [] e.wire := .header e.busies (Nat.succ_pos 7) rfl
    exact .reading rfl rfl hexpects h

theorem wire_ne_nil (e : Entry) : e.wire ≠ [] := by
  rw [Entry.wire]
  cases e.busies with
  | nil => exact List.cons_ne_nil _ _
  | cons => exact List.cons_ne_nil _ _

theorem Waits.done (h : Waits queue results []) : results = [] := by
  generalize hw : ([] : Str) = w at h
  cases h with
  | nil => rfl
  | cons label e h => exact absurd (List.append_eq_nil_iff.mp hw.symm).1 (wire_ne_nil e)

def Pending.rounds (currentRequest : Pending) : ℕ :=
  if currentRequest.called then 1 else 2 + currentRequest.state.rank

def Protocol.rounds (p : Protocol) : ℕ :=
  2 * p.buffer.length + (p.requestQueue.map Pending.rounds).sum

theorem turn_spec {currentRequest : Pending} {w' : Str} {e : Entry} (hcalled : currentRequest.called = false)
    (hrequest : currentRequest.request = e.request)
    (hexpects : Expects e currentRequest.state currentRequest.responseBuffer w)
    (hwaits : Waits queue results w') (hqueue : p.requestQueue = currentRequest :: queue)
    (hbuffer : p.buffer ++ future = w ++ w') :
    ∃ results' w₁, Serves (p.turn currentRequest queue).requestQueue results' w₁ ∧
      (p.turn currentRequest queue).buffer ++ future = w₁ ∧
      (p.turn currentRequest queue).fired ++ results' =
        p.fired ++ (currentRequest.label, e.outcome) :: results ∧
      (p.buffer = [] → (p.turn currentRequest queue).buffer = [] ∧ (w₁ = [] → results' = [])) ∧
      (p.buffer ≠ [] → (p.turn currentRequest queue).rounds < p.rounds) := by
  have hgoes := hexpects.goes hbuffer
  rw [← hrequest] at hgoes
  rw [Protocol.rounds, Protocol.rounds, hqueue, List.map_cons, List.sum_cons, Pending.rounds, hcalled,
    if_neg Bool.false_ne_true]
  rw [Protocol.turn]
  generalize readResponse currentRequest.request currentRequest.state
    currentRequest.responseBuffer p.buffer = turn at hgoes
  simp only [List.map_cons, List.sum_cons, Pending.rounds, Pending.after]
  cases hgoes with
  | fires hfired hfile =>
    have hlength := congrArg List.length hbuffer
    have hlength' := congrArg List.length hfile
    rw [List.length_append, List.length_append] at hlength
    rw [List.length_append] at hlength'
    simp only [hfired, Option.isSome_some, Option.toList_some, List.map_cons, List.map_nil, if_true]
    refine ⟨results, w', .called rfl hwaits, hfile, List.append_assoc _ _ _, fun hempty => ?_, fun _ => ?_⟩
    · rw [hempty, List.length_nil] at hlength
      refine ⟨List.length_eq_zero_iff.mp (by omega), ?_⟩
      rintro rfl
      exact hwaits.done
    · omega
  | @goes w₁ hfired hexpects' hfile hnil hwork =>
    simp only [hfired, Option.isSome_none, Option.toList_none, List.map_nil, List.append_nil,
      Bool.false_eq_true, if_false]
    refine ⟨_, _, .reading rfl hrequest hexpects' hwaits, hfile, rfl, fun hempty => ?_, fun hne => ?_⟩
    · obtain ⟨hfile_nil, hne⟩ := hnil hempty
      exact ⟨hfile_nil, fun hw => absurd (List.append_eq_nil_iff.mp hw).1 hne⟩
    · have hless := hwork hne
      rw [State.work, State.work] at hless
      omega

theorem loop_spec (h : Serves p.requestQueue results w) (hbuffer : p.buffer ++ future = w)
    (hn : p.rounds < n) :
    ∃ results', Serves (p.loop n).requestQueue results' future ∧ (p.loop n).buffer = [] ∧
      (p.loop n).fired ++ results' = p.fired ++ results ∧ (future = [] → results' = []) := by
  induction n generalizing p results w with
  | zero => exact absurd hn (Nat.not_lt_zero _)
  | succ n ih =>
    rw [Protocol.loop]
    generalize hqueue : p.requestQueue = requestQueue at h
    cases h with
    | nil =>
      obtain ⟨hnil, rfl⟩ := List.append_eq_nil_iff.mp hbuffer
      rw [hqueue]
      exact ⟨[], .nil, hnil, rfl, fun _ => rfl⟩
    | @called currentRequest queue _ _ hcalled hwaits =>
      simp only [hcalled, if_true]
      have hless : Protocol.rounds { p with requestQueue := queue } < n := by
        rw [Protocol.rounds, hqueue, List.map_cons, List.sum_cons, Pending.rounds, if_pos hcalled] at hn
        rw [Protocol.rounds]
        simp only
        omega
      exact ih (p := { p with requestQueue := queue }) hwaits.serves hbuffer hless
    | @reading currentRequest queue results w w' e hcalled hrequest hexpects hwaits =>
      simp only [hcalled, Bool.false_eq_true, if_false]
      obtain ⟨results', w₁, hserves, hbuffer', hresults, hempty, hwork⟩ :=
        turn_spec hcalled hrequest hexpects hwaits hqueue hbuffer
      by_cases hnil : p.buffer = []
      · rw [if_pos hnil]
        obtain ⟨hnil', hdone⟩ := hempty hnil
        rw [hnil', List.nil_append] at hbuffer'
        subst hbuffer'
        exact ⟨results', hserves, hnil', hresults, hdone⟩
      · rw [if_neg hnil]
        obtain ⟨results'', hserves', hbuffer'', hresults', hdone⟩ :=
          ih hserves hbuffer' (by have := hwork hnil; omega)
        exact ⟨results'', hserves', hbuffer'', hresults'.trans hresults, hdone⟩

theorem rounds_le (queue : List Pending) : (queue.map Pending.rounds).sum ≤ 3 * queue.length := by
  induction queue with
  | nil => exact Nat.zero_le _
  | cons currentRequest queue ih =>
    have hrounds : currentRequest.rounds ≤ 3 := by
      rw [Pending.rounds]
      cases currentRequest.state with
      | readChunk => split <;> simp [State.rank]
      | _ => split <;> simp [State.rank]
    rw [List.map_cons, List.sum_cons, List.length_cons]
    omega

theorem dataReceived_spec {data : Str} (h : Serves p.requestQueue results (data ++ future))
    (hbuffer : p.buffer = []) :
    ∃ results', Serves (p.dataReceived data).requestQueue results' future ∧
      (p.dataReceived data).buffer = [] ∧
      (p.dataReceived data).fired ++ results' = p.fired ++ results ∧ (future = [] → results' = []) := by
  rw [Protocol.dataReceived, hbuffer, List.nil_append]
  apply loop_spec (p := { p with buffer := data }) h rfl
  have hrounds := rounds_le p.requestQueue
  rw [Protocol.rounds]
  simp only
  omega

theorem foldl_spec (h : Serves p.requestQueue results pieces.flatten) (hbuffer : p.buffer = [])
    (hdone : pieces.flatten = [] → results = []) :
    (pieces.foldl Protocol.dataReceived p).buffer = [] ∧
      (pieces.foldl Protocol.dataReceived p).fired = p.fired ++ results := by
  induction pieces generalizing p results with
  | nil =>
    rw [hdone rfl, List.append_nil]
    exact ⟨hbuffer, rfl⟩
  | cons data pieces ih =>
    rw [List.flatten_cons] at h
    obtain ⟨results', hserves, hbuffer', hresults, hdone'⟩ := dataReceived_spec h hbuffer
    obtain ⟨hend, hfired⟩ := ih hserves hbuffer' hdone'
    exact ⟨hend, hfired.trans hresults⟩

theorem waits_mapIdx (entries : List Entry) (k : ℕ) :
    Waits (entries.mapIdx fun label e => .init (label + k) e.request)
      (entries.mapIdx fun label e => (label + k, e.outcome)) (entries.flatMap Entry.wire) := by
  induction entries generalizing k with
  | nil => exact .nil
  | cons e entries ih =>
    rw [List.mapIdx_cons, List.mapIdx_cons, List.flatMap_cons, Nat.zero_add]
    apply Waits.cons
    have hrest := ih (k + 1)
    simp only [Nat.add_assoc, Nat.add_comm 1] at hrest ⊢
    exact hrest

theorem fired_eq (h : pieces.flatten = entries.flatMap Entry.wire) :
    (pieces.foldl Protocol.dataReceived (Protocol.init entries)).buffer = [] ∧
      (pieces.foldl Protocol.dataReceived (Protocol.init entries)).fired =
        entries.mapIdx fun label e => (label, e.outcome) := by
  have hwaits := waits_mapIdx entries 0
  rw [← h] at hwaits
  exact foldl_spec hwaits.serves rfl fun hnil => by
    rw [hnil] at hwaits
    exact hwaits.done

def Entry.Decoded (e : Entry) : Prop :=
  e.request ≠ .deleteFile ∧ ∀ size, e.value = .transferred size → 4 ∣ size

theorem padding_eq_zero {size : ℕ} : padding size = 0 ↔ 4 ∣ size := by
  rw [padding_eq]
  omega

theorem Reply.not_transferred {request : Request} {args : List Arg} {rest : Str} {value : Value}
    (h : Reply request args rest value) (hchunk : request ≠ .readFileChunk) (size : ℕ) :
    value ≠ .transferred size := by
  have hresult : ∀ d : Destination, d.result ≠ .transferred size := by
    intro d
    cases d with
    | properties => exact nofun
    | fileDatabase => exact nofun
  cases h with
  | deviceSettings => exact hresult _
  | allFileDetails => exact hresult _
  | fileDetails => exact hresult _
  | fileChunk => exact absurd rfl hchunk
  | _ => exact nofun

theorem outcome_eq_iff (e : Entry) : e.outcome = .ok e.value ↔ e.Decoded := by
  cases e.reply.received with
  | result h hrest hdelete hchunk =>
    exact iff_of_true (outcome_of_ne hdelete hchunk)
      ⟨hdelete, fun size hsize => absurd hsize (e.reply.not_transferred hchunk size)⟩
  | text h ht hdelete hchunk =>
    exact iff_of_true (outcome_of_ne hdelete hchunk)
      ⟨hdelete, fun size hsize => absurd hsize (e.reply.not_transferred hchunk size)⟩
  | @chunk data pad hrequest h hpad hrest hvalue =>
    have hdelete : e.request ≠ .deleteFile := by
      rw [hrequest]
      intro h
      cases h
    rw [Entry.outcome, Entry.Decoded, hrequest, hvalue, Except.ok.injEq, Value.transferred.injEq,
      Nat.add_eq_left, padding_eq_zero]
    constructor
    · intro hdvd
      refine ⟨fun h => (by cases h), fun size hsize => ?_⟩
      rwa [← Value.transferred.inj hsize]
    · rintro ⟨-, hdvd⟩
      exact hdvd _ rfl
  | missing hrequest h hrest =>
    rw [Entry.outcome, Entry.Decoded, hrequest]
    exact iff_of_false (fun h => by cases h) fun h => h.1 rfl

/-- However the stream is cut, every result is fired once, in the order of the queue, and nothing
is left over. All of them are what the replies say exactly if no file is deleted, and no chunk is
padded. -/
theorem pipelined (h : pieces.flatten = entries.flatMap Entry.wire) :
    (pieces.foldl Protocol.dataReceived (.init entries)).buffer = [] ∧
      (pieces.foldl Protocol.dataReceived (.init entries)).fired.map Prod.fst =
        List.range entries.length ∧
      ((pieces.foldl Protocol.dataReceived (.init entries)).fired =
          entries.mapIdx (fun label e => (label, .ok e.value)) ↔ ∀ e ∈ entries, e.Decoded) := by
  obtain ⟨hbuffer, hfired⟩ := fired_eq h
  rw [hfired]
  refine ⟨hbuffer, ?_, ?_⟩
  · apply List.ext_getElem
    · simp
    · intro i _ _
      simp
  · rw [List.mapIdx_eq_mapIdx_iff]
    simp only [Prod.mk.injEq, true_and, outcome_eq_iff]
    exact List.forall_mem_iff_forall_getElem.symm

def versionEntry : Entry where
  request := .getProtocolVersion
  busies := [(1, 2)]
  args := [.int 1, .int 4]
  rest := []
  value := .args [.int 1, .int 4]
  reply := .protocolVersion 1 4
  fits := .cons (show 1 < 2 ^ 32 by decide) (.cons (show 4 < 2 ^ 32 by decide) .nil)

def deletionEntry : Entry where
  request := .deleteFile
  busies := []
  args := []
  rest := []
  value := .none
  reply := .deleted
  fits := .nil

def chunkEntry : Entry where
  request := .readFileChunk
  busies := []
  args := [.int 5, .int 0]
  rest := [1, 2, 3, 4, 5] ++ [0, 0, 0] ++ [0, 0, 0, 0]
  value := .transferred 5
  reply := .fileChunk [1, 2, 3, 4, 5] [0, 0, 0] rfl
  fits := .cons (show 5 < 2 ^ 64 by decide) (.cons (show 0 < 2 ^ 32 by decide) .nil)

theorem version_fired :
    ((versionEntry.wire.map fun b => [b]).foldl Protocol.dataReceived (.init [versionEntry])).fired =
      [(0, .ok (.args [.int 1, .int 4]))] := by
  have hpieces : (versionEntry.wire.map fun b => [b]).flatten = [versionEntry].flatMap Entry.wire := by
    rw [List.flatMap_singleton]
    exact List.flatMap_singleton' _
  apply (pipelined hpieces).2.2.mpr
  intro e he
  obtain rfl := List.mem_singleton.mp he
  exact ⟨nofun, nofun⟩

/-- A file that was deleted, and a chunk of five bytes. -/
theorem deletion_fails :
    (Protocol.dataReceived (.init [deletionEntry]) deletionEntry.wire).fired ≠ [(0, .ok .none)] ∧
      (Protocol.dataReceived (.init [chunkEntry]) chunkEntry.wire).fired ≠ [(0, .ok (.transferred 5))] := by
  have hfired : ∀ e : Entry, (Protocol.dataReceived (.init [e]) e.wire).fired = [(0, e.outcome)] := by
    intro e
    exact (@fired_eq [e] [e.wire] (by simp)).2
  rw [hfired, hfired]
  constructor
  · intro h
    exact absurd (Prod.mk.inj (List.cons.inj h).1).2 nofun
  · intro h
    have hsize := Except.ok.inj (Prod.mk.inj (List.cons.inj h).1).2
    exact absurd (Value.transferred.inj hsize) (by decide)

end queue

end NaviMisc.RioKarma.Pearl
