import NaviMisc.SpiMemEmulator.Exchange
import NaviMisc.SpiMemEmulator.Framing

/-!
What calls of `memRead` and `memWrite` return, and what they make of the memory.
-/

namespace NaviMisc.SpiMemEmulator

def Call.effect (content : Content) : Call → Content
  | .memRead _ _ => content
  | .memWrite offset data => fun a => data[(a - BitVec.ofInt 20 offset).toNat]?.getD (content a)

def bytesAt (content : Content) (offset : ℤ) (length : ℕ) : List Byte :=
  (List.range length).map fun i : ℕ => content (BitVec.ofInt 20 (offset + i))

def Call.result (content : Content) : Call → Option (List Byte)
  | .memRead offset length => some (bytesAt content offset length)
  | .memWrite _ _ => none

def outcome : List Call → Content → List (List Byte) × Content
  | [], content => ([], content)
  | call :: calls, content =>
    let rest := outcome calls (call.effect content)
    ((call.result content).toList ++ rest.1, rest.2)

section Bytes

variable {content : Content} {offset : ℤ}

theorem ofInt_add (offset : ℤ) (n : ℕ) :
    BitVec.ofInt 20 (offset + n) = BitVec.ofInt 20 offset + BitVec.ofNat 20 n := by
  rw [BitVec.ofInt_add]
  rfl

theorem bytesAt_append (content : Content) (offset : ℤ) (m n : ℕ) :
    bytesAt content offset (m + n) = bytesAt content offset m ++ bytesAt content (offset + m) n := by
  rw [bytesAt, List.range_add, List.map_append, List.map_map, bytesAt, bytesAt]
  congr 1
  apply List.map_congr_left
  intro i _
  rw [Function.comp_apply, Int.natCast_add, Int.add_assoc]

@[simp] theorem length_bytesAt (content : Content) (offset : ℤ) (n : ℕ) :
    (bytesAt content offset n).length = n := by
  rw [bytesAt, List.length_map, List.length_range]

theorem take_bytesAt (content : Content) (offset : ℤ) {m n : ℕ} (h : m ≤ n) :
    (bytesAt content offset n).take m = bytesAt content offset m := by
  obtain ⟨d, rfl⟩ := Nat.exists_eq_add_of_le h
  rw [bytesAt_append]
  exact List.take_left' (length_bytesAt content offset m)

theorem block_bytesAt (content : Content) (offset : ℤ) (n : ℕ) {cmdId : BitVec 4}
    (h : Board.IsRead cmdId) :
    Board.Block content cmdId (BitVec.ofInt 20 offset) (bytesAt content offset n) := by
  refine ⟨?_, fun hnot => absurd h hnot⟩
  intro j hj
  rw [length_bytesAt] at hj
  rw [bytesAt, List.getElem?_map, List.getElem?_range hj, Option.map_some, ofInt_add]

theorem stored_eq (data : List Byte) (address : BitVec 20) (content : Content)
    (h : data.length ≤ 2 ^ 20) :
    stored address data content = fun a => data[(a - address).toNat]?.getD (content a) := by
  induction data generalizing address content with
  | nil => rfl
  | cons b data ih =>
    rw [List.length_cons] at h
    rw [stored, ih _ _ (Nat.le_of_succ_le h)]
    funext a
    by_cases ha : a = address
    · subst ha
      have hzero : (a - a).toNat = 0 := by rw [BitVec.sub_self]; rfl
      have hlast : (a - (a + 1)).toNat = 2 ^ 20 - 1 := by bv_omega
      rw [hzero, hlast, List.getElem?_eq_none (by omega)]
      exact Function.update_self _ _ _
    · have hne : a.toNat ≠ address.toNat := fun heq => ha (BitVec.eq_of_toNat_eq heq)
      have hsucc : (a - address).toNat = (a - (address + 1)).toNat + 1 := by bv_omega
      rw [hsucc, List.getElem?_cons_succ, Function.update_of_ne ha]

end Bytes

end NaviMisc.SpiMemEmulator

/-!
The steps of the client in a call, and a bound for what is left to do.
-/

namespace NaviMisc.SpiMemEmulator

open NaviMisc.Lib.ByteStuffing

namespace Board

variable {M : Content} {access : Option Access} {b : Board} {cmdId : BitVec 4} {address : BitVec 20}
  {data block : List Byte} {k : ℕ}

theorem foldl_deliver_take (bytes : List Byte) (j : ℕ) :
    ((Symbol.flag :: bytes.map .data).take (j + 1)).foldl deliver [] = [bytes.take j] := by
  rw [List.take_succ_cons, ← List.map_take, List.foldl_cons]
  exact foldl_deliver_concat [] [] (bytes.take j)

def emitted (port : PacketPort) : ℕ := port.rxBuffer.length + (port.rxBuffer.map List.length).sum

def sentCount (b : Board) (k : ℕ) : ℕ := if b.sio.tx.shown = none then k else k - 1

theorem Answering.emitted_eq (h : b.Answering cmdId address block k access) :
    emitted b.port = b.sentCount k := by
  have hle := h.replying.le
  have hcount : b.sentCount k ≤ 4 + block.length := by
    rw [sentCount]
    split_ifs <;> omega
  rw [emitted, h.rxBuffer]
  change (((reply cmdId address block).take (b.sentCount k)).foldl deliver []).length + _ = _
  rw [sentCount] at *
  cases hj : (if b.sio.tx.shown = none then k else k - 1) with
  | zero => rfl
  | succ j =>
    rw [hj] at hcount
    have hlength : (reply cmdId address block).length = 4 + block.length := length_reply
    rw [reply, foldl_deliver_take]
    rw [reply, List.length_cons, List.length_map] at hlength
    simp only [List.length_singleton, List.map_cons, List.map_nil, List.sum_cons, List.sum_nil,
      List.length_take]
    omega

def left (host : Host) (M : Content) : List (List Byte) × Content :=
  match host.waiting with
  | some (_, .memRead offset length data) =>
    ((data ++ bytesAt M offset length) :: (outcome host.calls M).1, (outcome host.calls M).2)
  | _ => outcome host.calls M

structure Expected (M : Content) (packet : Packet) (task : Task) (cmdId : BitVec 4)
    (block : List Byte) : Prop where
  fits : packet.Fits cmdId
  replyDataLen : block.length = packet.replyDataLen
  bytes : Block M cmdId packet.address block
  task : match task with
    | .memRead offset length _ =>
      0 < length ∧ 0 < block.length ∧ block = bytesAt M offset packet.replyDataLen
    | .memWrite => True

def Stage (M : Content) (access : Option Access) (b : Board) : Prop :=
  match b.host.waiting with
  | none => b.AtRest
  | some (packet, task) => ∃ cmdId block data, Expected M packet task cmdId block ∧
    (b.Asked cmdId packet.address data ∨ ∃ k, b.Answering cmdId packet.address block k access)

def Short : Call → Prop
  | .memRead _ _ => True
  | .memWrite _ data => data.length ≤ 2 ^ 20

structure Invariant (results : List (List Byte) × Content) (M : Content) (access : Option Access)
    (b : Board) : Prop where
  serving : Serving M access b
  stage : Stage M access b
  raised : b.host.raised = none
  short : ∀ call ∈ b.host.calls, Short call
  returned : b.host.returned ++ (left b.host M).1 = results.1
  final : (left b.host M).2 = results.2

section Start

theorem Serving.send (h : Serving M access b) (hrest : b.AtRest) {p : Packet} (hp : p.Fits cmdId)
    (data : List Byte) (host : Host) :
    Serving (if cmdId = CMD_WRITE then stored p.address data M else M) access
        { b with toBoard := b.toBoard ++ .flag :: (p.header ++ data).map .data, host := host } ∧
      Asked cmdId p.address data
        { b with toBoard := b.toBoard ++ .flag :: (p.header ++ data).map .data, host := host } := by
  rw [hp.header_eq]
  refine ⟨⟨h.accessing, h.write, h.read, fun hne => absurd hrest.quiescent.shown hne, ?_⟩,
    hrest.quiescent, hrest.rxBuffer, Or.inl ⟨b.toBoard, hrest.flag, hrest.heard, rfl⟩⟩
  change b.sio.rx.heard.effect _ (b.settled access) = _
  rw [Heard.effect_append, h.effect, Heard.effect_command]

theorem memRead_send (offset : ℤ) {length : ℕ} (hlength : 0 < length) (data : List Byte) :
    ∃ p cmdId, memRead offset length data = .send p [] (.memRead offset length data) ∧
      p.Fits cmdId ∧ IsRead cmdId ∧ p.address = BitVec.ofInt 20 offset ∧ 0 < p.replyDataLen ∧
        p.replyDataLen ≤ 0x10000 := by
  rw [memRead, if_pos hlength]
  have hsizes : (0 < 0x10000 ∧ 0x10000 ≤ 0x10000) ∧ (0 < 0x400 ∧ 0x400 ≤ 0x10000) ∧
      0 < 16 ∧ 16 ≤ 0x10000 := by decide
  split_ifs
  · exact ⟨_, _, rfl, Packet.fits_read64K offset, Or.inr (Or.inr rfl), rfl, hsizes.1⟩
  · exact ⟨_, _, rfl, Packet.fits_read1K offset, Or.inr (Or.inl rfl), rfl, hsizes.2.1⟩
  · exact ⟨_, _, rfl, Packet.fits_read16 offset, Or.inl rfl, rfl, hsizes.2.2⟩

variable {results : List (List Byte) × Content}

theorem start_memRead (hserving : Serving M access b) (hrest : b.AtRest)
    (hraised : b.host.raised = none) (hshort : ∀ call ∈ b.host.calls, Short call) (offset : ℤ)
    (length : ℕ) (data : List Byte)
    (hreturned : b.host.returned ++
      (data ++ bytesAt M offset length) :: (outcome b.host.calls M).1 = results.1)
    (hfinal : (outcome b.host.calls M).2 = results.2) :
    Invariant results M access (start (memRead offset length data) b) := by
  cases length with
  | zero =>
    have hdata : data ++ bytesAt M offset 0 = data := List.append_nil data
    rw [hdata] at hreturned
    refine ⟨?_, ?_, hraised, hshort, ?_, hfinal⟩
    · exact ⟨hserving.accessing, hserving.write, hserving.read, hserving.shown, hserving.effect⟩
    · exact ⟨hrest.quiescent, hrest.rxBuffer, hrest.flag, hrest.heard⟩
    · change (b.host.returned ++ [data]) ++ (outcome b.host.calls M).1 = _
      rw [List.append_assoc]
      exact hreturned
  | succ length =>
    obtain ⟨p, cmdId, hsend, hfits, hread, haddress, hpos, -⟩ :=
      memRead_send offset (Nat.succ_pos length) data
    have hne : cmdId ≠ CMD_WRITE := by
      rintro rfl
      exact absurd hread (by decide)
    rw [hsend]
    obtain ⟨hserving', hasked⟩ := hserving.send hrest hfits []
      { b.host with waiting := some (p, .memRead offset (length + 1) data) }
    rw [if_neg hne] at hserving'
    refine ⟨hserving', ?_, hraised, hshort, hreturned, hfinal⟩
    refine ⟨cmdId, bytesAt M offset p.replyDataLen, [], ⟨hfits, length_bytesAt _ _ _, ?_, ?_⟩,
      Or.inl hasked⟩
    · rw [haddress]
      exact block_bytesAt M offset p.replyDataLen hread
    · exact ⟨Nat.succ_pos length, by rwa [length_bytesAt], rfl⟩

theorem start_memWrite (hserving : Serving M access b) (hrest : b.AtRest)
    (hraised : b.host.raised = none) (hshort : ∀ call ∈ b.host.calls, Short call) (offset : ℤ)
    (data : List Byte) (hdata : data.length ≤ 2 ^ 20)
    (hreturned : b.host.returned ++
      (outcome b.host.calls ((Call.memWrite offset data).effect M)).1 = results.1)
    (hfinal : (outcome b.host.calls ((Call.memWrite offset data).effect M)).2 = results.2) :
    Invariant results ((Call.memWrite offset data).effect M) access
      (start (memWrite offset data) b) := by
  have hfits := Packet.fits_write offset
  obtain ⟨hserving', hasked⟩ := hserving.send hrest hfits data
    { b.host with waiting := some (Packet.write offset, .memWrite) }
  rw [if_pos rfl, stored_eq data _ M hdata] at hserving'
  refine ⟨hserving', ?_, hraised, hshort, hreturned, hfinal⟩
  refine ⟨CMD_WRITE, [], data, ⟨hfits, rfl, ⟨?_, fun _ => rfl⟩, trivial⟩, Or.inl hasked⟩
  exact fun j hj => absurd hj (Nat.not_lt_zero j)

end Start

section Rank

def work : Call → ℕ
  | .memRead _ length => 600000 * length + 1
  | .memWrite _ data => 8 * data.length + 66

def taskWork : Task → ℕ
  | .memRead _ length _ => 600000 * (length - 1) + 1
  | .memWrite => 1

def memRank (b : Board) : ℕ :=
  if b.sio.mem.memBeginRd || b.sio.mem.memBeginWr then 2 else if b.request.isSome then 1 else 0

def txRank (b : Board) : ℕ :=
  if b.sio.tx.shown.isSome then 1 else if b.txReady then 2 else 3

def baseRank (b : Board) : ℕ :=
  (b.host.calls.map work).sum + 8 * b.toBoard.length + memRank b + txRank b

def unsent (b : Board) : ℕ :=
  match b.host.waiting with
  | none => 0
  | some (packet, _) => 4 + packet.replyDataLen - emitted b.port

def waitingRank (b : Board) : ℕ :=
  match b.host.waiting with
  | none => 0
  | some (_, task) => 8 * b.unsent + taskWork task

def rank (b : Board) : ℕ := baseRank b + waitingRank b

theorem length_header (p : Packet) : p.header.length = 3 := rfl

theorem emitted_nil (h : b.port.rxBuffer = []) : emitted b.port = 0 := by
  rw [emitted, h]
  rfl

theorem rank_send (h : b.port.rxBuffer = []) (p : Packet) (data : List Byte) (task : Task) :
    rank (start (.send p data task) b) = baseRank b + 8 * (4 + data.length) +
      (8 * (4 + p.replyDataLen) + taskWork task) := by
  have hlength : (start (.send p data task) b).toBoard.length =
      b.toBoard.length + (4 + data.length) := by
    rw [start, List.length_append, List.length_cons, List.length_map, List.length_append,
      length_header]
    omega
  have hbase : baseRank (start (.send p data task) b) = baseRank b + 8 * (4 + data.length) := by
    rw [baseRank, hlength, baseRank]
    change (b.host.calls.map work).sum + _ + memRank b + txRank b = _
    omega
  rw [rank, hbase]
  congr 1
  change 8 * (4 + p.replyDataLen - emitted b.port) + _ = _
  rw [emitted_nil h, Nat.sub_zero]

theorem rank_memRead (h : b.port.rxBuffer = []) (offset : ℤ) (length : ℕ) (data : List Byte) :
    rank (start (memRead offset length data) b) ≤ baseRank b + 600000 * length := by
  cases length with
  | zero => exact Nat.le_refl _
  | succ length =>
    obtain ⟨p, cmdId, hsend, -, -, -, -, hle⟩ := memRead_send offset (Nat.succ_pos length) data
    rw [hsend, rank_send h]
    dsimp only [List.length_nil, taskWork]
    omega

theorem rank_memWrite (h : b.port.rxBuffer = []) (offset : ℤ) (data : List Byte) :
    rank (start (memWrite offset data) b) = baseRank b + 8 * data.length + 65 := by
  rw [memWrite, rank_send h]
  change _ + (8 * (4 + 0) + 1) = _
  omega

end Rank

section HostStep

variable {results : List (List Byte) × Content}

def Waiting (b : Board) : Prop :=
  match b.host.waiting with
  | none => b.host.calls = []
  | some (packet, _) => emitted b.port < 4 + packet.replyDataLen

def taken (b : Board) : Board := { b with port := { b.port with rxBuffer := [] } }

theorem Answering.finish (h : b.Answering cmdId address block (4 + block.length) access)
    (hshown : b.sio.tx.shown = none) :
    b.taken.AtRest := by
  obtain ⟨address', hheard⟩ := h.heard
  refine ⟨h.replying.quiescent hshown, rfl, h.flag, fun bytes hheader => ?_⟩
  change b.sio.rx.heard = .header bytes at hheader
  rw [hheard] at hheader
  cases hheader

theorem replyData_eq {p : Packet} (hp : p.Fits cmdId) (hlength : block.length = p.replyDataLen) :
    p.replyData (Heard.command cmdId p.address ++ block) = .ok block := by
  have hne : Heard.command cmdId p.address ++ block ≠ [] := List.cons_ne_nil _ _
  have htake : (Heard.command cmdId p.address ++ block).take p.header.length =
      Heard.command cmdId p.address := List.take_left' rfl
  have hdrop : (Heard.command cmdId p.address ++ block).drop p.header.length = block :=
    List.drop_left' rfl
  rw [Packet.replyData, if_neg hne, htake, hdrop, if_neg (by rw [hp.header_eq, not_not]),
    if_neg (by rw [hlength, not_not])]

theorem Invariant.resume (h : Invariant results M access b) {packet : Packet} {task : Task}
    (hwaiting : b.host.waiting = some (packet, task)) (hexpected : Expected M packet task cmdId block)
    (hrest : b.taken.AtRest) (hemitted : emitted b.port = 4 + block.length) :
    Invariant results M access (start (task.resume block) b.taken) ∧
      rank (start (task.resume block) b.taken) < rank b := by
  have hserving : Serving M access b.taken :=
    ⟨h.serving.accessing, h.serving.write, h.serving.read, h.serving.shown, h.serving.effect⟩
  have hrank : rank b = baseRank b.taken + taskWork task := by
    rw [rank, waitingRank, unsent, hwaiting]
    dsimp only
    rw [hemitted, hexpected.replyDataLen, Nat.sub_self, Nat.mul_zero, Nat.zero_add]
    rfl
  have hreturned := h.returned
  have hfinal := h.final
  rw [left, hwaiting] at hreturned hfinal
  cases task with
  | memWrite =>
    have hserving' : Serving M access (start (.done none) b.taken) :=
      ⟨hserving.accessing, hserving.write, hserving.read, hserving.shown, hserving.effect⟩
    refine ⟨⟨hserving', ⟨hrest.quiescent, hrest.rxBuffer, hrest.flag, hrest.heard⟩, h.raised,
      h.short, ?_, hfinal⟩, ?_⟩
    · change (b.host.returned ++ []) ++ (outcome b.host.calls M).1 = _
      rw [List.append_nil]
      exact hreturned
    · rw [hrank]
      exact Nat.lt_succ_self _
  | memRead offset length data =>
    obtain ⟨hpos, hblock, hbytes⟩ := hexpected.task
    have htake : block.take length = bytesAt M offset (min length packet.replyDataLen) := by
      rw [hbytes]
      rcases Nat.le_total length packet.replyDataLen with hle | hle
      · rw [Nat.min_eq_left hle, take_bytesAt M offset hle]
      · rw [Nat.min_eq_right hle, List.take_of_length_le (by rwa [length_bytesAt])]
    have hmin : 0 < min length packet.replyDataLen := by
      rw [← hexpected.replyDataLen]
      exact Nat.lt_min.mpr ⟨hpos, hblock⟩
    have hmin' := Nat.min_le_left length packet.replyDataLen
    rw [Task.resume, htake, length_bytesAt]
    refine ⟨start_memRead hserving hrest h.raised h.short _ _ _ ?_ hfinal, ?_⟩
    · rw [List.append_assoc, ← bytesAt_append, Nat.add_sub_cancel' hmin']
      exact hreturned
    · have hle := rank_memRead (b := b.taken) rfl
        (offset + (min length packet.replyDataLen : ℕ)) (length - min length packet.replyDataLen)
        (data ++ bytesAt M offset (min length packet.replyDataLen))
      rw [hrank, taskWork]
      omega

theorem Answering.rxBuffer_eq (h : b.Answering cmdId address block k access) {j : ℕ}
    (hj : emitted b.port = j + 1) :
    b.port.rxBuffer = [(Heard.command cmdId address ++ block).take j] := by
  have hcount : (if b.sio.tx.shown = none then k else k - 1) = j + 1 := h.emitted_eq.symm.trans hj
  rw [h.rxBuffer, hcount, reply, foldl_deliver_take]

theorem Answering.readBuffer_none (h : b.Answering cmdId address block k access)
    (hlt : emitted b.port < 4 + block.length) :
    b.port.readBuffer (some (3 + block.length)) = (none, b.port) := by
  cases hj : emitted b.port with
  | zero =>
    apply PacketPort.readBuffer_nil
    rw [emitted, Nat.add_eq_zero_iff, List.length_eq_zero_iff] at hj
    exact hj.1
  | succ j =>
    apply PacketPort.readBuffer_singleton (h.rxBuffer_eq hj)
    intro n hn
    rw [← Option.mem_some_iff.mp hn, List.length_take]
    omega

theorem Answering.readBuffer_some (h : b.Answering cmdId address block k access)
    (hall : emitted b.port = 4 + block.length) :
    b.port.readBuffer (some (3 + block.length)) =
      (some (Heard.command cmdId address ++ block), { b.port with rxBuffer := [] }) := by
  have hlength : (Heard.command cmdId address ++ block).length = 3 + block.length :=
    List.length_append
  have hrx := h.rxBuffer_eq (j := 3 + block.length) (by omega)
  rw [List.take_of_length_le (Nat.le_of_eq hlength)] at hrx
  rw [PacketPort.readBuffer, hrx]
  exact if_pos (Or.inr ⟨_, rfl, Nat.le_of_eq hlength.symm⟩)

theorem Invariant.hostStep_call (h : Invariant results M access b) (hwaiting : b.host.waiting = none)
    {call : Call} {calls : List Call} (hcalls : b.host.calls = call :: calls) :
    ∃ M', Invariant results M' access
        (start call.start { b with host := { b.host with calls := calls } }) ∧
      rank (start call.start { b with host := { b.host with calls := calls } }) < rank b := by
  have hserving : Serving M access { b with host := { b.host with calls := calls } } :=
    ⟨h.serving.accessing, h.serving.write, h.serving.read, h.serving.shown, h.serving.effect⟩
  have hstage := h.stage
  rw [Stage, hwaiting] at hstage
  have hrest : AtRest { b with host := { b.host with calls := calls } } :=
    ⟨hstage.quiescent, hstage.rxBuffer, hstage.flag, hstage.heard⟩
  have hshort := h.short
  rw [hcalls, List.forall_mem_cons] at hshort
  have hreturned := h.returned
  have hfinal := h.final
  rw [left, hwaiting] at hreturned hfinal
  dsimp only at hreturned hfinal
  rw [hcalls, outcome] at hreturned hfinal
  have hrank : rank b =
      baseRank { b with host := { b.host with calls := calls } } + work call := by
    rw [rank, waitingRank, hwaiting, baseRank, hcalls, List.map_cons, List.sum_cons, baseRank]
    change work call + (calls.map work).sum + _ + memRank b + txRank b + 0 = _ + memRank b + txRank b + _
    dsimp only
    omega
  cases call with
  | memRead offset length =>
    refine ⟨M, start_memRead hserving hrest h.raised hshort.2 offset length [] hreturned hfinal, ?_⟩
    have hle := rank_memRead (b := { b with host := { b.host with calls := calls } })
      hstage.rxBuffer offset length []
    rw [hrank, work]
    exact Nat.lt_of_le_of_lt hle (by omega)
  | memWrite offset data =>
    refine ⟨_, start_memWrite hserving hrest h.raised hshort.2 offset data hshort.1 hreturned hfinal,
      ?_⟩
    have heq := rank_memWrite (b := { b with host := { b.host with calls := calls } })
      hstage.rxBuffer offset data
    rw [hrank, work]
    exact Nat.lt_of_le_of_lt (Nat.le_of_eq heq) (by omega)

theorem Invariant.hostStep (h : Invariant results M access b) :
    ∃ M', Invariant results M' access b.hostStep ∧
      (rank b.hostStep < rank b ∨ b.hostStep = b ∧ b.Waiting) := by
  rw [Board.hostStep, h.raised, Option.isSome_none, if_neg Bool.false_ne_true]
  cases hwaiting : b.host.waiting with
  | none =>
    cases hcalls : b.host.calls with
    | nil =>
      refine ⟨M, h, Or.inr ⟨rfl, ?_⟩⟩
      rw [Waiting, hwaiting]
      exact hcalls
    | cons call calls =>
      obtain ⟨M', hinvariant, hlt⟩ := h.hostStep_call hwaiting hcalls
      exact ⟨M', hinvariant, Or.inl hlt⟩
  | some sent =>
    obtain ⟨packet, task⟩ := sent
    have hstage := h.stage
    rw [Stage, hwaiting] at hstage
    obtain ⟨cmdId, block, data, hexpected, hasked | ⟨k, hanswering⟩⟩ := hstage
    · dsimp only
      rw [PacketPort.readBuffer_nil hasked.rxBuffer]
      refine ⟨M, h, Or.inr ⟨rfl, ?_⟩⟩
      rw [Waiting, hwaiting]
      dsimp only
      rw [emitted_nil hasked.rxBuffer]
      omega
    · dsimp only
      rw [length_header, ← hexpected.replyDataLen]
      have hle : emitted b.port ≤ 4 + block.length := by
        have hk := hanswering.replying.le
        rw [hanswering.emitted_eq, sentCount]
        split_ifs <;> omega
      rcases Nat.lt_or_eq_of_le hle with hlt | hall
      · rw [hanswering.readBuffer_none hlt]
        refine ⟨M, h, Or.inr ⟨rfl, ?_⟩⟩
        rw [Waiting, hwaiting]
        dsimp only
        rwa [← hexpected.replyDataLen]
      · have hdone : b.sio.tx.shown = none ∧ k = 4 + block.length := by
          have hk := hanswering.replying.le
          have hcount := hanswering.emitted_eq
          rw [hall, sentCount] at hcount
          split_ifs at hcount with hshown
          · exact ⟨hshown, hcount.symm⟩
          · omega
        obtain ⟨hshown, rfl⟩ := hdone
        rw [hanswering.readBuffer_some hall]
        have hne : Heard.command cmdId packet.address ++ block ≠ [] := List.cons_ne_nil _ _
        dsimp only
        rw [if_neg hne, replyData_eq hexpected.fits hexpected.replyDataLen]
        obtain ⟨hinvariant, hlt⟩ :=
          h.resume hwaiting hexpected (hanswering.finish hshown) hall
        exact ⟨M, hinvariant, Or.inl hlt⟩

end HostStep

end Board

end NaviMisc.SpiMemEmulator
