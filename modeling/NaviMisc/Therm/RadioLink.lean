import NaviMisc.Therm.ReceiverSpec
import NaviMisc.Therm.Transmitter

/-!
The link from the transmitter to the receiver, and the receiver without a transmitter.
-/

namespace NaviMisc.Therm

open NaviMisc.Lib
open NaviMisc.Lib.BitLists
open NaviMisc.Lib.BitStuffing
open Receiver Transmitter

/-- The buffer has room for the header, and its bits can be counted in an `int`. -/
structure Receiver.Sized (r : Receiver) : Prop where
  header : HEADER_SIZE ≤ r.bufferSize
  countable : 8 * (r.bufferSize - HEADER_SIZE) < 2 ^ 15

structure Receiver.InRange (r : Receiver) : Prop where
  nonneg : 0 ≤ r.bufferedBits
  le : r.bufferedBits ≤ 8 * (r.bufferSize - HEADER_SIZE)

theorem Receiver.Sized.length_eq {r : Receiver} (h : r.Sized) :
    ∃ c, r.buffer.length = 6 + c ∧ 8 * c < 2 ^ 15 := by
  have hheader := h.header
  have hcountable := h.countable
  rw [bufferSize, HEADER_SIZE] at hheader hcountable
  exact ⟨r.buffer.length - 6, by omega, by omega⟩

theorem Receiver.InRange.follows {r : Receiver} (h : r.InRange) {c : ℕ}
    (hlen : r.buffer.length = 6 + c) : ∃ d, r.Follows d ∧ d.stored.length ≤ 8 * c := by
  have hnonneg := h.nonneg
  have hle := h.le
  rw [bufferSize, HEADER_SIZE, hlen] at hle
  have hlength : (r.stored r.bufferedBits.toNat).length = r.bufferedBits.toNat :=
    length_firstBits _ _
  refine ⟨⟨r.consecutiveOnes.toNat, r.stored r.bufferedBits.toNat⟩, ⟨rfl, ?_, ?_⟩, ?_⟩
  · rw [hlength, Int.toNat_of_nonneg hnonneg]
  · rw [hlength]
  · rw [hlength]
    omega

theorem feed_packet (d : Deframer) (content : List Bool) {cap : ℕ}
    (hfits : content.length + 16 + 6 ≤ cap) :
    ((d.feed RUN 256 cap (((checked content).foldl (Stuffer.push RUN) ⟨0, preamble⟩).sent ++
      false :: List.replicate (RUN + 1) true)).push RUN 256 cap false).1 =
        some (checked content ++ flag RUN) := by
  have hflag (d : Deframer) : d.feed RUN 256 cap (flag RUN) = ⟨0, []⟩ :=
    Deframer.feed_flag (by decide) d
  have hpreamble : d.feed RUN 256 cap preamble = ⟨0, []⟩ := by
    rw [preamble, Deframer.feed_append, hflag]
  have hlength : (checked content).length = content.length + 16 := by
    rw [checked, List.length_append, length_lowFirst]
  have hcontent := Deframer.feed_content (d := d) (m := 256) (s := ⟨0, preamble⟩)
    (by decide : RUN < 256) (by decide : 0 < RUN) (congrArg Deframer.ones hpreamble)
    (checked content)
  generalize (checked content).foldl (Stuffer.push RUN) ⟨0, preamble⟩ = s at *
  obtain ⟨hs, hones, hstored⟩ := hcontent
  have hchecked : (d.feed RUN 256 cap s.sent).stored = checked content := by
    rw [hstored, hpreamble, Deframer.foldl_keep, List.nil_append]
    rw [hlength, List.length_nil]
    omega
  rw [Deframer.feed_append, Deframer.push_flag (by decide) (by omega), hchecked]
  rw [hchecked, hlength]
  exact hfits

/-- What the transmitter sends is received. -/
theorem radio_round_trip (timer : List Bool → Bool) (t : Transmitter) (r : Receiver)
    (hsized : r.Sized) (hrange : r.InRange) (content : List Bool)
    (hfits : content.length + 16 + 6 ≤ 8 * (r.bufferSize - HEADER_SIZE))
    (l : List (Bool × Byte))
    (hl : l.map Prod.fst = (txPacket timer content { t with sent := [] }).sent) :
    ∃ r', r.receive l = .ok (HEADER_SIZE + ((content.length + 7) / 8 : ℕ), r') ∧
      r'.stored content.length = content ∧ r'.headerWord 0 = content.length := by
  obtain ⟨c, hlen, hcount⟩ := hsized.length_eq
  obtain ⟨d, hfollows, hcap⟩ := hrange.follows hlen
  have hfits' : content.length + 16 + 6 ≤ 8 * c := by
    rw [bufferSize, HEADER_SIZE, hlen] at hfits
    omega
  have hbits : l.map Prod.fst = (((checked content).foldl (Stuffer.push RUN) ⟨0, preamble⟩).sent ++
      false :: List.replicate (RUN + 1) true) ++ [false] := by
    rw [hl, txPacket_sent, flag, List.append_assoc]
    rfl
  obtain ⟨l, last, rfl, hl₁, hlast⟩ := List.map_eq_append_iff.mp hbits
  obtain ⟨⟨b, noise⟩, rfl, hb⟩ := List.map_eq_singleton_iff.mp hlast
  obtain ⟨ret₁, r₁, hr₁, hlength₁, hfollows₁, -⟩ :=
    receive_spec hlen hfollows hcap l (Or.inl hcount)
  obtain ⟨ret, r', hr', -, -, hdelivers⟩ := pushBit_spec (hlength₁.trans hlen) hfollows₁
    (Deframer.feed_length hcap _) (fun _ => by omega) b noise
  change b = false at hb
  rw [hl₁, hb, feed_packet d content hfits', Option.bind_some, validContent_checked] at hdelivers
  obtain ⟨rfl, hstored, hheader⟩ := hdelivers
  refine ⟨r', ?_, hstored, hheader (by omega)⟩
  rw [receive_append, hr₁]
  exact hr'

def Receiver.fresh (size : ℕ) : Receiver := ⟨0, 0, 0, List.replicate size 0, 0⟩

theorem radio_round_trip_one : ∃ r', (Receiver.fresh 64).receive
    ((txPacket (fun _ => false) [true] ⟨0, 0, 0, 0, 0, false, []⟩).sent.map fun b => (b, 0)) =
      .ok (HEADER_SIZE + (([true].length + 7) / 8 : ℕ), r') ∧
        r'.stored [true].length = [true] ∧ r'.headerWord 0 = [true].length :=
  radio_round_trip (fun _ => false) ⟨0, 0, 0, 0, 0, false, []⟩ (Receiver.fresh 64)
    ⟨by decide, by decide⟩ ⟨by decide, by decide⟩ [true] (by decide) _
    ((List.map_map ..).trans (List.map_id _))

section Noise

def storedSinceFlag (cap : ℕ) (r : Receiver) (l : List (Bool × Byte)) : List Bool :=
  ((⟨r.consecutiveOnes.toNat, []⟩ : Deframer).feed RUN 256 cap (l.map Prod.fst)).stored

def Verified (frame : List Bool) : Prop :=
  ∃ content check last, frame = content ++ check ++ last ∧ check.length = 16 ∧ last.length = 6 ∧
    gather 16 check = crc16 content

theorem setBuffer_follows (r : Receiver) (buffer : List Byte) :
    (r.setBuffer buffer).Follows ⟨r.consecutiveOnes.toNat, []⟩ := ⟨rfl, holds_nil rfl⟩

/-- No access before the bit at `n` or with it is outside of the buffer, the count is in its range,
and a packet is only returned if it was verified. -/
def Safe (r : Receiver) (buffer : List Byte) (s : ℕ → Bool × Byte) (n : ℕ) : Prop :=
  ∃ last r', (r.setBuffer buffer).receive ((List.range n).map s) = .ok (last, r') ∧
    0 ≤ r'.bufferedBits ∧ r'.bufferedBits ≤ 8 * (buffer.length - HEADER_SIZE) ∧
    ∃ ret r'', r'.pushBit (s n).1 (s n).2 = .ok (ret, r'') ∧
      (ret ≠ 0 → HEADER_SIZE ≤ ret ∧ ret ≤ buffer.length ∧
        Verified (Deframer.keep (8 * (buffer.length - 6))
          (storedSinceFlag (8 * (buffer.length - 6)) r ((List.range n).map s)) (s n).1))

/-- Whatever bits come, the receiver is safe. -/
theorem noise_safe (r : Receiver) (buffer : List Byte) (hheader : HEADER_SIZE ≤ buffer.length)
    (hsize : buffer.length ≤ 4101) (s : ℕ → Bool × Byte) (n : ℕ) : Safe r buffer s n := by
  rw [Safe]
  rw [HEADER_SIZE] at hheader ⊢
  have hlen : (r.setBuffer buffer).buffer.length = 6 + (buffer.length - 6) := by
    change buffer.length = _
    omega
  have hcount : 8 * (buffer.length - 6) < 2 ^ 15 := by omega
  obtain ⟨last, r', hr', hlength, hfollows, -⟩ := receive_spec hlen (setBuffer_follows r buffer)
    (Nat.zero_le _) ((List.range n).map s) (Or.inl hcount)
  rw [storedSinceFlag]
  have hcap := Deframer.feed_length (k := RUN) (m := 256)
    (d := ⟨r.consecutiveOnes.toNat, []⟩) (Nat.zero_le (8 * (buffer.length - 6)))
    (((List.range n).map s).map Prod.fst)
  generalize Deframer.feed RUN 256 (8 * (buffer.length - 6)) ⟨r.consecutiveOnes.toNat, []⟩
    (((List.range n).map s).map Prod.fst) = d at *
  obtain ⟨ret, r'', hr'', -, -, hdelivers⟩ := pushBit_spec (hlength.trans hlen) hfollows hcap
    (fun _ => by omega) (s n).1 (s n).2
  have hbits := hfollows.holds.count
  refine ⟨last, r', hr', by omega, by omega, ret, r'', hr'', fun hret => ?_⟩
  cases hframe : (d.push RUN 256 (8 * (buffer.length - 6)) (s n).1).1 with
  | none =>
    rw [hframe] at hdelivers
    exact absurd hdelivers hret
  | some frame =>
    rw [hframe, Option.bind_some] at hdelivers
    cases hcontent : validContent frame with
    | none =>
      rw [hcontent] at hdelivers
      exact absurd hdelivers hret
    | some content =>
      rw [hcontent] at hdelivers
      obtain ⟨hlengthFrame, check, flag, hverified⟩ := of_validContent hcontent
      have hle := (Deframer.push_length hcap (s n).1).2 frame hframe
      have hret' := hdelivers.1
      rw [HEADER_SIZE] at hret'
      refine ⟨by omega, by omega, content, check, flag, ?_⟩
      rw [← Deframer.eq_of_mem_push hframe]
      exact hverified

theorem noise_safe_zeros :
    Safe (Receiver.fresh 0) (List.replicate 64 0) (fun _ => (false, 0)) 0 :=
  noise_safe (Receiver.fresh 0) (List.replicate 64 0) (by decide) (by decide) _ 0

/-- The count of the bits overflows in a larger buffer. -/
theorem noise_unsafe : ¬ ∀ (r : Receiver) (buffer : List Byte), HEADER_SIZE ≤ buffer.length →
    ∀ (s : ℕ → Bool × Byte) (n : ℕ), Safe r buffer s n := by
  intro h
  obtain ⟨n, hn⟩ : ∃ n, n + 1 = 2 ^ 15 := ⟨2 ^ 15 - 1, rfl⟩
  let r := (Receiver.fresh 0).setBuffer (List.replicate 4102 0)
  let s : ℕ → Bool × Byte := fun _ => (true, 0)
  have hlen : r.buffer.length = 6 + 4096 := List.length_replicate
  have hheader : HEADER_SIZE ≤ (List.replicate 4102 (0 : Byte)).length := by
    rw [HEADER_SIZE, List.length_replicate]
    decide
  have hones : ((List.range n).map s).map Prod.fst = List.replicate n true := by
    rw [List.map_map]
    exact (List.map_const' ..).trans (by rw [List.length_range])
  obtain ⟨last, r', hr', hnonneg, -⟩ := h (Receiver.fresh 0) _ hheader s (n + 1)
  obtain ⟨last₁, r₁, hr₁, hlength₁, hfollows₁, -⟩ := receive_spec hlen
    (setBuffer_follows (Receiver.fresh 0) _) (Nat.zero_le _) ((List.range n).map s)
    (Or.inr (by simp; omega))
  have hstored : (⟨0, []⟩ : Deframer).feed RUN 256 (8 * 4096) (List.replicate n true) =
      ⟨n % 256, List.replicate n true⟩ := by
    rw [Deframer.feed_ones, Deframer.foldl_keep (by simp; omega), List.nil_append]
  rw [hones] at hfollows₁
  have hbits : r₁.bufferedBits = n := by
    refine hfollows₁.holds.count.trans ?_
    exact congrArg Nat.cast ((congrArg (fun d => d.stored.length) hstored).trans
      List.length_replicate)
  rw [List.range_succ, List.map_append, List.map_singleton, receive_append] at hr'
  change (do let s ← r.receive _; s.2.pushBit true 0) = _ at hr'
  rw [hr₁] at hr'
  have happend := appendBit_of_lt (r := { r₁ with
    totalBits := r₁.totalBits + 1, totalNoise := r₁.totalNoise + (0 : Byte).setWidth 16
    consecutiveOnes := r₁.consecutiveOnes + 1 }) (hlength₁.trans hlen) hbits (by omega) true
  change (do .ok (0, ← appendBit true _) : Except Fault _) = _ at hr'
  dsimp only at hr'
  rw [happend] at hr'
  have hlast := (Prod.mk.inj (Except.ok.inj hr')).2
  have hoverflow : int16 ((n : ℤ) + 1) = -2 ^ 15 := by
    rw [show (n : ℤ) + 1 = 2 ^ 15 by exact_mod_cast hn]
    decide
  rw [← hlast] at hnonneg
  dsimp only at hnonneg
  rw [hoverflow] at hnonneg
  exact absurd hnonneg (by decide)

end Noise

end NaviMisc.Therm
