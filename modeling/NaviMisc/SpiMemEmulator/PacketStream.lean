import NaviMisc.SpiMemEmulator.Framing

/-!
Packets that are written one after the other, at both ends of the serial port.
-/

namespace NaviMisc.SpiMemEmulator

open NaviMisc.Lib
open NaviMisc.Lib.ByteStuffing

def stream (packets : List (List Byte)) : List Byte := packets.flatMap PacketPort.written

section Stream

variable {packets : List (List Byte)}

theorem stream_cons (packet : List Byte) (packets : List (List Byte)) :
    stream (packet :: packets) = stuffing.frame packet ++ stream packets := by
  rw [stream, List.flatMap_cons, PacketPort.written_eq]
  rfl

theorem stream_append (packets packets' : List (List Byte)) :
    stream (packets ++ packets') = stream packets ++ stream packets' := List.flatMap_append

theorem stream_eq (packets : List (List Byte)) : stream packets = packets.flatMap stuffing.frame := by
  rw [stream]
  congr 1
  funext packet
  exact PacketPort.written_eq packet

theorem head_stream (packets : List (List Byte)) : ∀ a ∈ (stream packets).head?, a = FLAG := by
  intro a ha
  cases packets with
  | nil => cases ha
  | cons packet packets =>
    cases ha
    rfl

theorem length_stream_take_le (packets : List (List Byte)) (i : ℕ) :
    (stream (packets.take i)).length ≤ (stream packets).length := by
  conv_rhs => rw [← List.take_append_drop i packets, stream_append, List.length_append]
  exact Nat.le_add_right _ _

theorem decode_stream (packets : List (List Byte)) :
    stuffing.decode false (stream packets) =
        packets.flatMap (fun packet => .flag :: packet.map .data) ∧
      stuffing.escaped false (stream packets) = false := by
  rw [stream_eq]
  exact Stuffing.decode_frames packets

end Stream

namespace SerialUnescape

structure Input where
  x : Byte
  uData : Byte
  uDataStrobe : Bool

def strobed (inputs : List Input) : List Byte :=
  inputs.filterMap fun i => if i.uDataStrobe then some i.uData else none

def symbol (r : SerialUnescape) : Option (Symbol Byte) :=
  if r.hFlag then some .flag else if r.hDataStrobe then some (.data r.hData) else none

def emitted : List Input → SerialUnescape → List (Symbol Byte)
  | [], _ => []
  | i :: inputs, r =>
    let r := r.clock i.x i.uData i.uDataStrobe
    r.symbol.toList ++ emitted inputs r

theorem clock_strobed (x uData : Byte) (r : SerialUnescape) :
    ((r.clock x uData true).symbol, (r.clock x uData true).escState) =
      stuffing.step r.escState uData := by
  rw [clock, Stuffing.step]
  by_cases hflag : uData = FLAG
  · rw [hflag]
    rfl
  · by_cases hesc : uData = ESCAPE
    · rw [hesc]
      rfl
    · have hflag' : uData ≠ stuffing.flag := hflag
      have hesc' : uData ≠ stuffing.escape := hesc
      rw [if_neg hflag', if_neg hesc', if_neg (by simp), if_neg (by simpa using hflag),
        if_neg (by simpa using hesc)]
      cases r.escState <;> rfl

theorem emitted_eq (inputs : List Input) (r : SerialUnescape) :
    emitted inputs r = stuffing.decode r.escState (strobed inputs) := by
  induction inputs generalizing r with
  | nil => rfl
  | cons i inputs ih =>
    obtain ⟨x, uData, uDataStrobe⟩ := i
    cases uDataStrobe with
    | false => exact ih (r.clock x uData false)
    | true =>
      have hstep := clock_strobed x uData r
      have hstrobed : strobed (⟨x, uData, true⟩ :: inputs) = uData :: strobed inputs := rfl
      rw [emitted, ih, hstrobed, Stuffing.decode, ← hstep]

end SerialUnescape

namespace PacketPort

section Calls

variable {packets returned : List (List Byte)} {port : PacketPort} {arrivals : List ℕ}

theorem fragments_stream (packets : List (List Byte)) {seen : List Byte}
    (hseen : ∀ a ∈ seen.head?, a = FLAG) :
    fragments (stream packets ++ seen) = packets ++ fragments seen := by
  have hpackets : fragments (stream packets) = packets := by
    rw [fragments, (decode_stream packets).1, foldl_deliver_packets]
  rw [fragments_append, (decode_stream packets).2, hpackets]
  cases seen with
  | nil => exact (List.append_nil packets).symm
  | cons a seen =>
    obtain rfl : a = FLAG := hseen a rfl
    have hflag := Stuffing.decode_flag (m := stuffing) false seen
    exact (congrArg (List.foldl deliver packets) hflag).trans
      ((foldl_deliver_flag _ _).trans (congrArg (packets ++ ·)
        (congrArg (List.foldl deliver []) hflag.symm)))

theorem read_empty (h : Holds [] port) (hincoming : port.incoming = []) (limit : Option ℕ)
    (arrivals : List ℕ) :
    ∃ arrivals', read limit arrivals port = .ok (none, arrivals', port) ∧ arrivals' ⊆ arrivals := by
  have hnone : port.readBuffer limit = (none, port) := readBuffer_nil h.rxBuffer
  have hdrop : ∀ k, { port with incoming := port.incoming.drop k } = port := by
    intro k
    rw [hincoming, List.drop_nil, ← hincoming]
  cases arrivals with
  | nil => exact ⟨[], read_nil hnone, List.Subset.refl _⟩
  | cons available arrivals =>
    refine ⟨arrivals, ?_, List.subset_cons_self _ _⟩
    rw [read_cons hnone available rfl, hdrop, if_pos (by rw [hincoming, List.take_nil])]

structure Reading (packets returned : List (List Byte)) (packet : List Byte) (c : ℕ)
    (port : PacketPort) : Prop where
  rest : ∃ later, packets = returned ++ packet :: later ∧ At packet (stream later) c port

theorem Reading.start (packet : List Byte) (later : List (List Byte)) :
    Reading (packet :: later) [] packet 0 { incoming := stream (packet :: later) } :=
  ⟨later, rfl, Nat.zero_le _, holds_nil _, stream_cons packet later⟩

theorem Reading.next {packet : List Byte} {later : List (List Byte)} {c : ℕ}
    (h : packets = returned ++ packet :: later) (hc : c ≤ 1)
    (hholds : Holds (List.replicate c FLAG) port)
    (hincoming : port.incoming = (stream later).drop c) (hlater : later ≠ []) :
    ∃ packet', Reading packets (returned ++ [packet]) packet' c port := by
  obtain ⟨packet', later', rfl⟩ := List.exists_cons_of_ne_nil hlater
  refine ⟨packet', later', by rw [h, List.append_assoc]; rfl, ?_, ?_, ?_⟩
  · rw [Stuffing.frame, List.length_cons]
    omega
  · obtain rfl | rfl : c = 0 ∨ c = 1 := by omega
    · exact hholds
    · exact hholds
  · rw [hincoming, stream_cons, List.drop_append_of_le_length]
    rw [Stuffing.frame, List.length_cons]
    omega

theorem calls_succ (limit : List (List Byte) → Option ℕ) {n : ℕ} {arrivals' arrivals'' : List ℕ}
    {port' port'' : PacketPort} {result : Option (List Byte)}
    (hcalls : calls limit n arrivals port = .ok (returned, arrivals', port'))
    (hread : read (limit returned) arrivals' port' = .ok (result, arrivals'', port'')) :
    calls limit (n + 1) arrivals port = .ok (returned ++ result.toList, arrivals'', port'') := by
  rw [calls, hcalls]
  change (read (limit returned) arrivals' port' >>= _) = _
  rw [hread]
  rfl

def Progress (n : ℕ) (returned : List (List Byte)) (arrivals arrivals' : List ℕ)
    (port : PacketPort) : Prop :=
  n ≤ returned.length ∨ TimedOut arrivals arrivals' port

theorem Progress.succ {n : ℕ} {arrivals' arrivals'' : List ℕ} {port' : PacketPort}
    (h : Progress n returned arrivals arrivals' port) (hsubset : arrivals'' ⊆ arrivals')
    (hout : port.incoming = [] → port'.incoming = []) (packet : List Byte) :
    Progress (n + 1) (returned ++ [packet]) arrivals arrivals'' port' := by
  rcases h with hlen | rfl | hzero | hnil
  · refine Or.inl ?_
    rw [List.length_append]
    exact Nat.succ_le_succ hlen
  · exact Or.inr (Or.inl (List.subset_nil.mp hsubset))
  · exact Or.inr (Or.inr (Or.inl hzero))
  · exact Or.inr (Or.inr (Or.inr (hout hnil)))

theorem calls_unlimited (hpackets : ∀ packet ∈ packets, packet ≠ []) (n : ℕ) (arrivals : List ℕ) :
    ∃ returned arrivals' port,
      calls (fun _ => none) n arrivals { incoming := stream packets } =
          .ok (returned, arrivals', port) ∧
        arrivals' ⊆ arrivals ∧ Progress n returned arrivals arrivals' port ∧
          ((∃ packet c, Reading packets returned packet c port ∧ (returned ≠ [] → 0 < c)) ∨
            packets = [] ∧ returned = [] ∧ Holds [] port ∧ port.incoming = []) := by
  induction n with
  | zero =>
    refine ⟨[], arrivals, _, rfl, List.Subset.refl _, Or.inl (Nat.le_refl 0), ?_⟩
    cases packets with
    | nil => exact Or.inr ⟨rfl, rfl, holds_nil _, rfl⟩
    | cons packet later =>
      exact Or.inl ⟨packet, 0, Reading.start packet later, fun h => absurd rfl h⟩
  | succ n ih =>
    obtain ⟨returned, arrivals', port, hcalls, hsubset, hprogress, hstate⟩ := ih
    rcases hstate with ⟨packet, c, ⟨later, hrest, hat⟩, hpos⟩ | ⟨rfl, rfl, hholds, hincoming⟩
    swap
    · obtain ⟨arrivals'', hread, hsubset'⟩ := read_empty hholds hincoming none arrivals'
      exact ⟨[], arrivals'', port, calls_succ (fun _ => none) hcalls hread, List.Subset.trans hsubset' hsubset,
        Or.inr (Or.inr (Or.inr hincoming)), Or.inr ⟨rfl, rfl, hholds, hincoming⟩⟩
    have hpacket : packet ≠ [] := hpackets packet (by rw [hrest]; simp)
    obtain ⟨result, arrivals'', port', hread, hsubset', hresult⟩ :=
      read_unlimited hpacket (head_stream later) hat
    have hsucc := calls_succ (fun _ => none) hcalls hread
    refine ⟨returned ++ result.toList, arrivals'', port', ?_⟩
    rcases hresult with ⟨rfl, htime, c', hle, hat'⟩ | ⟨rfl, rest, hlater, hholds, hincoming⟩
    · refine ⟨hsucc, List.Subset.trans hsubset' hsubset, Or.inr ?_, Or.inl ⟨packet, c', ?_⟩⟩
      · exact htime.imp_right (Or.imp_left fun h => hsubset h)
      · rw [Option.toList_none, List.append_nil]
        exact ⟨⟨later, hrest, hat'⟩, fun h => Nat.lt_of_lt_of_le (hpos h) hle⟩
    · have hnext : later ≠ [] := by
        rintro rfl
        cases hlater
      obtain ⟨packet', hreading⟩ := Reading.next (c := 1) hrest (Nat.le_refl 1) hholds
        (by rw [hincoming, hlater]; rfl) hnext
      refine ⟨hsucc, List.Subset.trans hsubset' hsubset, hprogress.succ hsubset' ?_ packet,
        Or.inl ⟨packet', 1, hreading, fun _ => Nat.one_pos⟩⟩
      intro hout
      rw [hat.incoming, hlater] at hout
      simp at hout

theorem calls_limit (hpackets : ∀ packet ∈ packets, packet ≠ []) (n : ℕ) (arrivals : List ℕ) :
    ∃ returned arrivals' port,
      calls (fun returned => packets[returned.length]?.map List.length) n arrivals
          { incoming := stream packets } = .ok (returned, arrivals', port) ∧
        arrivals' ⊆ arrivals ∧ Progress n returned arrivals arrivals' port ∧
          ((∃ packet, ∃ c < (stuffing.frame packet).length, Reading packets returned packet c port) ∨
            returned = packets ∧ Holds [] port ∧ port.incoming = []) := by
  induction n with
  | zero =>
    refine ⟨[], arrivals, _, rfl, List.Subset.refl _, Or.inl (Nat.le_refl 0), ?_⟩
    cases packets with
    | nil => exact Or.inr ⟨rfl, holds_nil _, rfl⟩
    | cons packet later =>
      refine Or.inl ⟨packet, 0, ?_, Reading.start packet later⟩
      rw [Stuffing.frame, List.length_cons]
      exact Nat.succ_pos _
  | succ n ih =>
    obtain ⟨returned, arrivals', port, hcalls, hsubset, hprogress, hstate⟩ := ih
    rcases hstate with ⟨packet, c, hc, later, hrest, hat⟩ | ⟨rfl, hholds, hincoming⟩
    · have hpacket : packet ≠ [] := hpackets packet (by rw [hrest]; simp)
      obtain ⟨result, arrivals'', port', hread, hsubset', hresult⟩ :=
        read_limit hpacket hat hc
      have hlength : packets[returned.length]?.map List.length = some packet.length := by
        rw [hrest, List.getElem?_append_right (Nat.le_refl _), Nat.sub_self]
        rfl
      rw [← hlength] at hread
      have hsucc := calls_succ (fun returned => packets[returned.length]?.map List.length)
        hcalls hread
      refine ⟨returned ++ result.toList, arrivals'', port', hsucc,
        List.Subset.trans hsubset' hsubset, ?_⟩
      rcases hresult with ⟨rfl, htime, c', hc', hat'⟩ | ⟨rfl, hholds, hincoming⟩
      · refine ⟨Or.inr (htime.imp_right (Or.imp_left fun h => hsubset h)), Or.inl ⟨packet, c', hc', ?_⟩⟩
        rw [Option.toList_none, List.append_nil]
        exact ⟨later, hrest, hat'⟩
      · refine ⟨hprogress.succ hsubset' ?_ packet, ?_⟩
        · intro hout
          rw [hat.incoming, List.append_eq_nil_iff] at hout
          rw [hincoming, hout.2]
        · cases later with
          | nil => exact Or.inr ⟨hrest.symm, hholds, hincoming⟩
          | cons packet' later =>
            obtain ⟨packet'', hreading⟩ := Reading.next (c := 0) hrest (Nat.zero_le 1) hholds hincoming
              (List.cons_ne_nil _ _)
            refine Or.inl ⟨packet'', 0, ?_, hreading⟩
            rw [Stuffing.frame, List.length_cons]
            exact Nat.succ_pos _
    · obtain ⟨arrivals'', hread, hsubset'⟩ := read_empty hholds hincoming
        (returned[returned.length]?.map List.length) arrivals'
      have hsucc := calls_succ (fun r => returned[r.length]?.map List.length) hcalls hread
      refine ⟨returned, arrivals'', port, ?_, List.Subset.trans hsubset' hsubset,
        Or.inr (Or.inr (Or.inr hincoming)), Or.inr ⟨rfl, hholds, hincoming⟩⟩
      rwa [Option.toList_none, List.append_nil] at hsucc

theorem Reading.seen {packet : List Byte} {c : ℕ} (h : Reading packets returned packet c port) :
    ∃ seen, seen ++ port.incoming = stream packets ∧
      fragments seen = returned ++ port.rxBuffer ∧
        seen.length = (stream returned).length + c := by
  obtain ⟨later, rfl, hat⟩ := h
  have hhead : ∀ a ∈ ((stuffing.frame packet).take c).head?, a = FLAG := by
    intro a ha
    cases c with
    | zero => cases ha
    | succ c =>
      cases ha
      rfl
  refine ⟨stream returned ++ (stuffing.frame packet).take c, ?_, ?_, ?_⟩
  · rw [hat.incoming, stream_append, stream_cons, List.append_assoc, ← List.append_assoc,
      ← List.append_assoc, List.append_assoc (stream returned), List.take_append_drop,
      List.append_assoc]
  · rw [fragments_stream _ hhead, hat.holds.rxBuffer]
  · rw [List.length_append, List.length_take, Nat.min_eq_left hat.le]

theorem Reading.length_stream_take {packet : List Byte} {c : ℕ}
    (h : Reading packets returned packet c port) (i : ℕ) :
    (i < returned.length → (stream (packets.take (i + 1))).length ≤ (stream returned).length) ∧
      (returned.length ≤ i → (stream returned).length + (stuffing.frame packet).length ≤
        (stream (packets.take (i + 1))).length) := by
  obtain ⟨later, rfl, -⟩ := h
  constructor
  · intro hi
    rw [List.take_append_of_le_length hi]
    exact length_stream_take_le returned (i + 1)
  · intro hi
    obtain ⟨k, rfl⟩ := Nat.exists_eq_add_of_le hi
    rw [Nat.add_assoc, List.take_length_add_append, List.take_succ_cons, stream_append, stream_cons,
      List.length_append, List.length_append]
    omega

/-- Calls return a prefix of the packets, namely those whose bytes are complete among the bytes
read, and a receiver on the board makes the same of these. -/
def Receives (limit : List (List Byte) → Option ℕ) (complete : ℕ → ℕ → Prop)
    (packets : List (List Byte)) (n : ℕ) (arrivals : List ℕ) : Prop :=
  ∃ returned arrivals' port seen,
    calls limit n arrivals { incoming := stream packets } = .ok (returned, arrivals', port) ∧
      seen ++ port.incoming = stream packets ∧ Progress n returned arrivals arrivals' port ∧
      returned <+: packets ∧
      (∀ i < packets.length,
        (i < returned.length ↔ complete (stream (packets.take (i + 1))).length seen.length)) ∧
      ∀ inputs, SerialUnescape.strobed inputs = seen →
        (SerialUnescape.emitted inputs .reset).foldl deliver [] = returned ++ port.rxBuffer

theorem fragments_strobed {seen : List Byte} {inputs : List SerialUnescape.Input}
    (h : SerialUnescape.strobed inputs = seen) :
    (SerialUnescape.emitted inputs .reset).foldl deliver [] = fragments seen := by
  rw [SerialUnescape.emitted_eq, h]
  rfl

theorem Reading.returned_isPrefix {packet : List Byte} {c : ℕ} (h : Reading packets returned packet c port) :
    returned <+: packets := by
  obtain ⟨later, rfl, -⟩ := h
  exact List.prefix_append _ _

end Calls

end PacketPort

end NaviMisc.SpiMemEmulator
