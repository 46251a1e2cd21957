import NaviMisc.SpiMemEmulator.Serial
import NaviMisc.SpiMemEmulator.Unescaping

/-!
The packets that calls of `read` return, wherever the bytes on the serial port are cut.
-/

namespace NaviMisc.SpiMemEmulator

open NaviMisc.Lib
open NaviMisc.Lib.ByteStuffing

namespace PacketPort

/-- Calls of `read`, each with a limit that depends on the packets before. -/
def calls (limit : List (List Byte) → Option ℕ) :
    ℕ → List ℕ → PacketPort → Except Error (List (List Byte) × List ℕ × PacketPort)
  | 0, arrivals, port => .ok ([], arrivals, port)
  | n + 1, arrivals, port => do
    let (packets, arrivals, port) ← calls limit n arrivals port
    let (packet, arrivals, port) ← read (limit packets) arrivals port
    .ok (packets ++ packet.toList, arrivals, port)

def fragments (l : List Byte) : List (List Byte) := (stuffing.decode false l).foldl deliver []

structure Holds (seen : List Byte) (port : PacketPort) : Prop where
  rxBuffer : port.rxBuffer = fragments seen
  escBuffer : port.escBuffer = if stuffing.escaped false seen then [ESCAPE] else []

section Fragments

variable {packet seen : List Byte}

theorem holds_nil (incoming : List Byte) : Holds [] { incoming := incoming } := ⟨rfl, rfl⟩

theorem fragments_frame (packet : List Byte) : fragments (stuffing.frame packet) = [packet] := by
  rw [fragments, Stuffing.frame, Stuffing.decode_flag, (Stuffing.decode_stuffed packet).1,
    List.foldl_cons]
  exact foldl_deliver_concat [] [] packet

theorem escaped_frame (packet : List Byte) :
    stuffing.escaped false (stuffing.frame packet) = false := by
  rw [Stuffing.frame, Stuffing.escaped_flag, (Stuffing.decode_stuffed packet).2]

theorem fragments_frame_flag (packet : List Byte) :
    fragments (stuffing.frame packet ++ [FLAG]) = [packet, []] := by
  have hflag := Stuffing.decode_flag (m := stuffing) false []
  rw [fragments, Stuffing.decode_append, List.foldl_append, ← fragments, fragments_frame,
    escaped_frame]
  exact congrArg (List.foldl deliver [packet]) hflag

theorem fragments_take {c : ℕ} (h : c < (stuffing.frame packet).length) :
    (c = 0 ∧ fragments ((stuffing.frame packet).take c) = []) ∨
      ∃ part, fragments ((stuffing.frame packet).take c) = [part] ∧ part.length < packet.length ∧
        packet.length + c ≤ (stuffing.frame packet).length + part.length := by
  cases c with
  | zero => exact Or.inl ⟨rfl, rfl⟩
  | succ c =>
    rw [Stuffing.frame, List.length_cons] at h
    obtain ⟨part, hdecode, hlt, hcount⟩ := Stuffing.decode_take (Nat.lt_of_succ_lt_succ h)
    refine Or.inr ⟨part, ?_, hlt, ?_⟩
    · rw [fragments, Stuffing.frame, List.take_succ_cons, Stuffing.decode_flag, hdecode,
        List.foldl_cons]
      exact foldl_deliver_concat [] [] part
    · rw [Stuffing.frame, List.length_cons]
      omega

theorem fragments_append (seen block : List Byte) :
    fragments (seen ++ block) =
      (stuffing.decode (stuffing.escaped false seen) block).foldl deliver (fragments seen) := by
  rw [fragments, Stuffing.decode_append, List.foldl_append, ← fragments]

theorem Holds.block {port : PacketPort} (h : Holds seen port) {block : List Byte}
    (hblock : block ≠ []) :
    ∃ chunks port', port.splitPackets block = .ok (chunks, port') ∧
      Holds (seen ++ block) { port' with rxBuffer := addChunks port'.rxBuffer chunks } ∧
        port'.incoming = port.incoming := by
  obtain ⟨chunks, hchunks, hfold⟩ := splitPackets_spec port _ h.escBuffer hblock
  refine ⟨chunks, _, hchunks, ⟨?_, ?_⟩, rfl⟩
  · exact (hfold _).trans (by rw [h.rxBuffer, ← fragments_append])
  · rw [Stuffing.escaped_append]

end Fragments

section Read

variable {packet later : List Byte} {port : PacketPort} {limit : Option ℕ} {arrivals : List ℕ}

structure At (packet later : List Byte) (c : ℕ) (port : PacketPort) : Prop where
  le : c ≤ (stuffing.frame packet).length
  holds : Holds ((stuffing.frame packet).take c) port
  incoming : port.incoming = (stuffing.frame packet).drop c ++ later

theorem read_of_readBuffer {c : Byte} {rest : List Byte} {port' : PacketPort}
    (h : port.readBuffer limit = (some (c :: rest), port')) (arrivals : List ℕ) :
    read limit arrivals port = .ok (some (c :: rest), arrivals, port') := by
  cases arrivals <;> rw [read, h] <;> rfl

theorem read_nil (h : port.readBuffer limit = (none, port)) :
    read limit [] port = .ok (none, [], port) := by
  rw [read, h]
  rfl

theorem read_cons (h : port.readBuffer limit = (none, port)) (available : ℕ) {k : ℕ}
    (hk : k = min (max 1 (limit.getD 0 - (port.rxBuffer.headD []).length)) available) :
    read limit (available :: arrivals) port =
      if port.incoming.take k = [] then
        .ok (none, arrivals, { port with incoming := port.incoming.drop k })
      else
        splitPackets (port.incoming.take k) { port with incoming := port.incoming.drop k } >>=
          fun s => read limit arrivals { s.2 with rxBuffer := addChunks s.2.rxBuffer s.1 } := by
  rw [read, h, hk]
  rfl

theorem At.block {c k : ℕ} (h : At packet later c port) (hk : 0 < k)
    (hle : c + k ≤ (stuffing.frame packet).length) :
    ∃ chunks port', splitPackets (port.incoming.take k)
        { port with incoming := port.incoming.drop k } = .ok (chunks, port') ∧
      At packet later (c + k) { port' with rxBuffer := addChunks port'.rxBuffer chunks } := by
  have htake : port.incoming.take k = ((stuffing.frame packet).drop c).take k := by
    rw [h.incoming, List.take_append_of_le_length]
    rw [List.length_drop]
    omega
  have hne : port.incoming.take k ≠ [] := by
    rw [htake, ← List.length_pos_iff, List.length_take, List.length_drop]
    omega
  have hholds : Holds ((stuffing.frame packet).take c)
      { port with incoming := port.incoming.drop k } := ⟨h.holds.rxBuffer, h.holds.escBuffer⟩
  obtain ⟨chunks, port', hsplit, hafter, hincoming⟩ := hholds.block hne
  refine ⟨chunks, port', hsplit, hle, ?_, ?_⟩
  · rwa [htake, ← List.take_add] at hafter
  · change port'.incoming = _
    rw [hincoming]
    change port.incoming.drop k = _
    rw [h.incoming, List.drop_append_of_le_length, List.drop_drop]
    rw [List.length_drop]
    omega

theorem readBuffer_nil (h : port.rxBuffer = []) : port.readBuffer limit = (none, port) := by
  rw [readBuffer, h]

theorem readBuffer_singleton {part : List Byte} (h : port.rxBuffer = [part])
    (hlimit : ∀ n ∈ limit, part.length < n) : port.readBuffer limit = (none, port) := by
  rw [readBuffer, h]
  apply if_neg
  rintro (hlong | ⟨n, hn, hle⟩)
  · exact Nat.lt_irrefl 1 hlong
  · exact absurd hle (Nat.not_le_of_lt (hlimit n hn))

theorem At.waits {c : ℕ} (h : At packet later c port) (hc : c < (stuffing.frame packet).length) :
    port.readBuffer (some packet.length) = (none, port) ∧
      c + max 1 (packet.length - (port.rxBuffer.headD []).length) ≤
        (stuffing.frame packet).length := by
  rcases fragments_take hc with ⟨rfl, hnil⟩ | ⟨part, hpart, hlt, hcount⟩
  · have hrx : port.rxBuffer = [] := h.holds.rxBuffer.trans hnil
    have hle := Stuffing.length_le_stuffed (m := stuffing) packet
    refine ⟨readBuffer_nil hrx, ?_⟩
    rw [hrx, Stuffing.frame, List.length_cons, List.headD_nil, List.length_nil]
    omega
  · have hrx : port.rxBuffer = [part] := h.holds.rxBuffer.trans hpart
    refine ⟨readBuffer_singleton hrx ?_, ?_⟩
    · intro n hn
      rwa [Option.mem_some_iff.mp hn] at hlt
    · rw [hrx, List.headD_cons]
      omega

theorem take_incoming_eq_nil {c k : ℕ} (h : At packet later c port)
    (hc : c < (stuffing.frame packet).length) (hk : port.incoming.take k = []) : k = 0 := by
  rw [List.take_eq_nil_iff] at hk
  refine hk.resolve_right ?_
  rw [h.incoming]
  apply List.append_ne_nil_of_left_ne_nil
  rw [← List.length_pos_iff, List.length_drop]
  omega

theorem At.complete (h : At packet later (stuffing.frame packet).length port) :
    port.rxBuffer = [packet] ∧ port.escBuffer = [] ∧ port.incoming = later := by
  have hholds := h.holds
  have hincoming := h.incoming
  rw [List.take_length] at hholds
  rw [List.drop_length, List.nil_append] at hincoming
  refine ⟨hholds.rxBuffer.trans (fragments_frame packet), ?_, hincoming⟩
  rw [hholds.escBuffer, escaped_frame]
  rfl

theorem read_complete (hpacket : packet ≠ [])
    (h : At packet later (stuffing.frame packet).length port) :
    read (some packet.length) arrivals port =
      .ok (some packet, arrivals, { port with rxBuffer := [] }) := by
  obtain ⟨c, rest, rfl⟩ := List.exists_cons_of_ne_nil hpacket
  apply read_of_readBuffer
  rw [readBuffer, h.complete.1]
  exact if_pos (Or.inr ⟨_, rfl, Nat.le_refl _⟩)

def TimedOut (arrivals arrivals' : List ℕ) (port : PacketPort) : Prop :=
  arrivals' = [] ∨ 0 ∈ arrivals ∨ port.incoming = []

theorem TimedOut.cons {arrivals' : List ℕ} (h : TimedOut arrivals arrivals' port) (available : ℕ) :
    TimedOut (available :: arrivals) arrivals' port :=
  h.imp_right (Or.imp_left (List.mem_cons_of_mem available))

theorem read_limit (hpacket : packet ≠ []) {c : ℕ} (h : At packet later c port)
    (hc : c < (stuffing.frame packet).length) :
    ∃ result arrivals' port',
      read (some packet.length) arrivals port = .ok (result, arrivals', port') ∧
        arrivals' ⊆ arrivals ∧
        ((result = none ∧ TimedOut arrivals arrivals' port' ∧
            ∃ c' < (stuffing.frame packet).length, At packet later c' port') ∨
          (result = some packet ∧ Holds [] port' ∧ port'.incoming = later)) := by
  induction arrivals generalizing c port with
  | nil =>
    exact ⟨none, [], port, read_nil (h.waits hc).1, List.Subset.refl _,
      Or.inl ⟨rfl, Or.inl rfl, c, hc, h⟩⟩
  | cons available arrivals ih =>
    obtain ⟨hnone, hroom⟩ := h.waits hc
    obtain ⟨k, hk⟩ : ∃ k, k = min (max 1 (packet.length - (port.rxBuffer.headD []).length))
      available := ⟨_, rfl⟩
    rw [read_cons hnone available hk]
    split_ifs with hblock
    · have hzero := take_incoming_eq_nil h hc hblock
      have hempty : 0 = available := by omega
      refine ⟨none, arrivals, _, rfl, List.subset_cons_self _ _, Or.inl ⟨rfl,
        Or.inr (Or.inl (List.mem_cons.mpr (Or.inl hempty))), c, hc, h.le,
        ⟨h.holds.rxBuffer, h.holds.escBuffer⟩, ?_⟩⟩
      rw [hzero]
      exact h.incoming
    · have hpos : 0 < k := by
        rw [Nat.pos_iff_ne_zero]
        rintro rfl
        exact hblock rfl
      have hle : c + k ≤ (stuffing.frame packet).length := by omega
      obtain ⟨chunks, port', hsplit, hat⟩ := h.block hpos hle
      rw [hsplit]
      rcases Nat.lt_or_eq_of_le hle with hlt | heq
      · obtain ⟨result, arrivals', port'', hread, hsubset, hresult⟩ := ih hat hlt
        refine ⟨result, arrivals', port'', hread, List.subset_cons_of_subset _ hsubset,
          hresult.imp_left ?_⟩
        rintro ⟨hnone, htime, hat'⟩
        exact ⟨hnone, htime.cons available, hat'⟩
      · rw [heq] at hat
        exact ⟨some packet, arrivals, _, read_complete hpacket hat, List.subset_cons_self _ _,
          Or.inr ⟨rfl, ⟨rfl, hat.complete.2.1⟩, hat.complete.2.2⟩⟩

theorem At.flag (h : At packet (FLAG :: later) (stuffing.frame packet).length port) :
    ∃ chunks port', splitPackets (port.incoming.take 1)
        { port with incoming := port.incoming.drop 1 } = .ok (chunks, port') ∧
      addChunks port'.rxBuffer chunks = [packet, []] ∧ port'.escBuffer = [] ∧
        port'.incoming = later := by
  have hholds : Holds (stuffing.frame packet) { port with incoming := port.incoming.drop 1 } := by
    have hseen := h.holds
    rw [List.take_length] at hseen
    exact ⟨hseen.rxBuffer, hseen.escBuffer⟩
  obtain ⟨chunks, port', hsplit, hafter, hincoming⟩ := hholds.block (List.cons_ne_nil FLAG [])
  rw [h.complete.2.2]
  rw [h.complete.2.2] at hsplit hincoming
  refine ⟨chunks, port', hsplit, hafter.rxBuffer.trans (fragments_frame_flag packet), ?_, hincoming⟩
  refine hafter.escBuffer.trans ?_
  rw [Stuffing.escaped_append, escaped_frame]
  rfl

theorem At.readBuffer_none {c : ℕ} (h : At packet later c port) :
    port.readBuffer none = (none, port) := by
  rcases Nat.lt_or_eq_of_le h.le with hc | rfl
  · rcases fragments_take hc with ⟨rfl, hnil⟩ | ⟨part, hpart, -⟩
    · exact readBuffer_nil (h.holds.rxBuffer.trans hnil)
    · exact readBuffer_singleton (h.holds.rxBuffer.trans hpart) (fun n hn => by cases hn)
  · exact readBuffer_singleton h.complete.1 (fun n hn => by cases hn)

theorem read_unlimited (hpacket : packet ≠ []) (hlater : ∀ a ∈ later.head?, a = FLAG) {c : ℕ}
    (h : At packet later c port) :
    ∃ result arrivals' port', read none arrivals port = .ok (result, arrivals', port') ∧
      arrivals' ⊆ arrivals ∧
      ((result = none ∧ TimedOut arrivals arrivals' port' ∧
          ∃ c', c ≤ c' ∧ At packet later c' port') ∨
        (result = some packet ∧ ∃ rest, later = FLAG :: rest ∧ Holds [FLAG] port' ∧
          port'.incoming = rest)) := by
  induction arrivals generalizing c port with
  | nil =>
    exact ⟨none, [], port, read_nil h.readBuffer_none, List.Subset.refl _,
      Or.inl ⟨rfl, Or.inl rfl, c, Nat.le_refl c, h⟩⟩
  | cons available arrivals ih =>
    obtain ⟨k, hk⟩ : ∃ k, k = min (max 1 (0 - (port.rxBuffer.headD []).length)) available :=
      ⟨_, rfl⟩
    have hone : k ≤ 1 := by omega
    rw [read_cons h.readBuffer_none available hk]
    split_ifs with hblock
    · have hdrop : port.incoming.drop k = port.incoming := by
        have hsplit := List.take_append_drop k port.incoming
        rwa [hblock, List.nil_append] at hsplit
      refine ⟨none, arrivals, _, rfl, List.subset_cons_self _ _, Or.inl ⟨rfl, ?_, c, Nat.le_refl c,
        h.le, ⟨h.holds.rxBuffer, h.holds.escBuffer⟩, hdrop.trans h.incoming⟩⟩
      rcases List.take_eq_nil_iff.mp hblock with hzero | hnil
      · exact Or.inr (Or.inl (List.mem_cons.mpr (Or.inl (by omega))))
      · exact Or.inr (Or.inr (hdrop.trans hnil))
    · obtain rfl : k = 1 := by
        rcases Nat.eq_or_lt_of_le hone with heq | hlt
        · exact heq
        · rw [Nat.lt_one_iff] at hlt
          rw [hlt] at hblock
          exact absurd rfl hblock
      rcases Nat.lt_or_eq_of_le h.le with hc | rfl
      · obtain ⟨chunks, port', hsplit, hat⟩ := h.block Nat.one_pos hc
        rw [hsplit]
        obtain ⟨result, arrivals', port'', hread, hsubset, hresult⟩ := ih hat
        refine ⟨result, arrivals', port'', hread, List.subset_cons_of_subset _ hsubset,
          hresult.imp_left ?_⟩
        rintro ⟨hnone, htime, c', hle, hat'⟩
        exact ⟨hnone, htime.cons available, c', Nat.le_of_succ_le hle, hat'⟩
      · rw [h.complete.2.2] at hblock
        cases later with
        | nil => exact absurd rfl hblock
        | cons a rest =>
          obtain rfl : a = FLAG := hlater a rfl
          obtain ⟨chunks, port', hsplit, hrx, hesc, hincoming⟩ := h.flag
          rw [hsplit]
          obtain ⟨b, packet, rfl⟩ := List.exists_cons_of_ne_nil hpacket
          refine ⟨some (b :: packet), arrivals, { port' with rxBuffer := [[]] },
            read_of_readBuffer ?_ arrivals, List.subset_cons_self _ _,
            Or.inr ⟨rfl, rest, rfl, ⟨rfl, hesc⟩, hincoming⟩⟩
          dsimp only
          rw [readBuffer, hrx]
          exact if_pos (Or.inl Nat.one_lt_two)

end Read

end PacketPort

end NaviMisc.SpiMemEmulator
