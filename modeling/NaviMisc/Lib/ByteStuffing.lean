import Mathlib.Data.List.Basic
import Mathlib.Data.List.ModifyLast

/-!
Packets between flags in a stream of bytes. A byte of a packet that looks like a flag or like an
escape is masked and comes after an escape.
-/

namespace NaviMisc.Lib.ByteStuffing

/-- What a stream stands for: a flag or a byte of a packet. -/
inductive Symbol (α : Type*)
  | flag
  | data (a : α)
  deriving DecidableEq

/-- A masked byte looks neither like a flag nor like an escape. -/
structure Stuffing (α : Type*) where
  flag : α
  escape : α
  mask : α → α
  mask_mask : ∀ a, mask (mask a) = a
  flag_ne : flag ≠ escape
  mask_flag : mask flag ≠ flag ∧ mask flag ≠ escape
  mask_escape : mask escape ≠ flag ∧ mask escape ≠ escape

variable {α : Type*}

namespace Stuffing

variable [DecidableEq α] (m : Stuffing α)

def stuff (a : α) : List α := if a = m.flag ∨ a = m.escape then [m.escape, m.mask a] else [a]

def frame (packet : List α) : List α := m.flag :: packet.flatMap m.stuff

/-- The symbol that ends with a byte, and whether the next byte is escaped. -/
def step (escaped : Bool) (a : α) : Option (Symbol α) × Bool :=
  if a = m.flag then (some .flag, false)
  else if a = m.escape then (none, true)
  else (some (.data (if escaped then m.mask a else a)), false)

def decode : Bool → List α → List (Symbol α)
  | _, [] => []
  | escaped, a :: l => (m.step escaped a).1.toList ++ decode (m.step escaped a).2 l

def escaped : Bool → List α → Bool
  | b, [] => b
  | b, a :: l => escaped (m.step b a).2 l

variable {m} {l : List α} {a : α} {b : Bool}

theorem decode_append (b : Bool) (l l' : List α) :
    m.decode b (l ++ l') = m.decode b l ++ m.decode (m.escaped b l) l' := by
  induction l generalizing b with
  | nil => rfl
  | cons a l ih => rw [List.cons_append, decode, ih, ← List.append_assoc, decode, escaped]

theorem escaped_append (b : Bool) (l l' : List α) :
    m.escaped b (l ++ l') = m.escaped (m.escaped b l) l' := by
  induction l generalizing b with
  | nil => rfl
  | cons a l ih => exact ih _

theorem step_flag (b : Bool) : m.step b m.flag = (some .flag, false) := if_pos rfl

theorem step_escape (b : Bool) : m.step b m.escape = (none, true) := by
  rw [step, if_neg m.flag_ne.symm, if_pos rfl]

theorem step_data (b : Bool) (h : a ≠ m.flag) (h' : a ≠ m.escape) :
    m.step b a = (some (.data (if b then m.mask a else a)), false) := by
  rw [step, if_neg h, if_neg h']

theorem decode_escape (b : Bool) (l : List α) : m.decode b (m.escape :: l) = m.decode true l := by
  rw [decode, step_escape]
  rfl

theorem escaped_escape (b : Bool) (l : List α) : m.escaped b (m.escape :: l) = m.escaped true l := by
  rw [escaped, step_escape]

theorem decode_flag (b : Bool) (l : List α) :
    m.decode b (m.flag :: l) = .flag :: m.decode false l := by
  rw [decode, step_flag]
  rfl

theorem escaped_flag (b : Bool) (l : List α) : m.escaped b (m.flag :: l) = m.escaped false l := by
  rw [escaped, step_flag]

theorem decode_data (b : Bool) (h : a ≠ m.flag) (h' : a ≠ m.escape) (l : List α) :
    m.decode b (a :: l) = .data (if b then m.mask a else a) :: m.decode false l := by
  rw [decode, step_data b h h']
  rfl

theorem escaped_data (b : Bool) (h : a ≠ m.flag) (h' : a ≠ m.escape) (l : List α) :
    m.escaped b (a :: l) = m.escaped false l := by
  rw [escaped, step_data b h h']

theorem escaped_concat (h : a ≠ m.escape) (b : Bool) (l : List α) :
    m.escaped b (l ++ [a]) = false := by
  rw [escaped_append]
  by_cases hflag : a = m.flag
  · rw [hflag, escaped_flag]
    rfl
  · rw [escaped_data _ hflag h]
    rfl

theorem stuff_spec (a : α) :
    m.decode false (m.stuff a) = [.data a] ∧ m.escaped false (m.stuff a) = false := by
  rw [stuff]
  split_ifs with h
  · have hmask : m.mask a ≠ m.flag ∧ m.mask a ≠ m.escape := by
      rcases h with rfl | rfl
      · exact m.mask_flag
      · exact m.mask_escape
    rw [decode_escape, escaped_escape, decode_data _ hmask.1 hmask.2, escaped_data _ hmask.1 hmask.2,
      if_pos rfl, m.mask_mask]
    exact ⟨rfl, rfl⟩
  · rw [not_or] at h
    rw [decode_data _ h.1 h.2, escaped_data _ h.1 h.2]
    exact ⟨rfl, rfl⟩

theorem decode_stuffed (l : List α) :
    m.decode false (l.flatMap m.stuff) = l.map .data ∧
      m.escaped false (l.flatMap m.stuff) = false := by
  induction l with
  | nil => exact ⟨rfl, rfl⟩
  | cons a l ih =>
    rw [List.flatMap_cons, decode_append, escaped_append, (stuff_spec a).1, (stuff_spec a).2, ih.1,
      ih.2]
    exact ⟨rfl, rfl⟩

theorem length_le_stuffed (l : List α) : l.length ≤ (l.flatMap m.stuff).length := by
  induction l with
  | nil => exact Nat.le_refl 0
  | cons a l ih =>
    have hpos : 0 < (m.stuff a).length := by
      rw [stuff]
      split_ifs <;> simp
    rw [List.flatMap_cons, List.length_append, List.length_cons]
    omega

/-- Stuffed data of which bytes are missing: what is left of it, with a byte for each element that
is missing. -/
theorem decode_take {n : ℕ} (h : n < (l.flatMap m.stuff).length) :
    ∃ part : List α, m.decode false ((l.flatMap m.stuff).take n) = part.map .data ∧
      part.length < l.length ∧ l.length + n ≤ (l.flatMap m.stuff).length + part.length := by
  induction l generalizing n with
  | nil => exact absurd h (Nat.not_lt_zero n)
  | cons a l ih =>
    have hle := length_le_stuffed (m := m) l
    rw [List.flatMap_cons] at h ⊢
    rw [List.length_append] at h
    rcases Nat.lt_or_ge n (m.stuff a).length with hn | hn
    · refine ⟨[], ?_, Nat.zero_lt_succ _, ?_⟩
      · rw [List.take_append_of_le_length (Nat.le_of_lt hn)]
        rw [stuff] at hn ⊢
        split_ifs at hn ⊢ with ha
        · obtain rfl | rfl : n = 0 ∨ n = 1 := by
            rw [List.length_cons, List.length_singleton] at hn
            omega
          · rfl
          · exact decode_escape false []
        · rw [List.length_singleton, Nat.lt_one_iff] at hn
          rw [hn]
          rfl
      · rw [List.length_append, List.length_cons, List.length_nil]
        omega
    · obtain ⟨part, hdecode, hlt, hcount⟩ := ih (n := n - (m.stuff a).length) (by omega)
      refine ⟨a :: part, ?_, Nat.succ_lt_succ hlt, ?_⟩
      · rw [List.take_append, List.take_of_length_le hn, decode_append, (stuff_spec a).1,
          (stuff_spec a).2, hdecode]
        rfl
      · rw [List.length_append, List.length_cons, List.length_cons]
        omega

theorem decode_frames (packets : List (List α)) :
    m.decode false (packets.flatMap m.frame) =
        packets.flatMap (fun packet => .flag :: packet.map .data) ∧
      m.escaped false (packets.flatMap m.frame) = false := by
  induction packets with
  | nil => exact ⟨rfl, rfl⟩
  | cons packet packets ih =>
    have hframe : m.decode false (m.frame packet) = .flag :: packet.map .data ∧
        m.escaped false (m.frame packet) = false := by
      rw [frame, decode_flag, escaped_flag, (decode_stuffed packet).1]
      exact ⟨rfl, (decode_stuffed packet).2⟩
    rw [List.flatMap_cons, decode_append, escaped_append, hframe.1, hframe.2, ih.1, ih.2]
    exact ⟨rfl, rfl⟩

end Stuffing

/-- The fragments of packets with one more symbol, which is dropped before the first flag. -/
def deliver (fragments : List (List α)) : Symbol α → List (List α)
  | .flag => fragments ++ [[]]
  | .data a => fragments.modifyLast (· ++ [a])

theorem foldl_deliver_concat (fragments : List (List α)) (last data : List α) :
    (data.map Symbol.data).foldl deliver (fragments ++ [last]) = fragments ++ [last ++ data] := by
  induction data generalizing last with
  | nil => rw [List.append_nil, List.map_nil, List.foldl_nil]
  | cons a data ih =>
    rw [List.map_cons, List.foldl_cons, deliver, List.modifyLast_concat, ih, List.append_assoc]
    rfl

theorem foldl_deliver_nil (data : List α) :
    (data.map Symbol.data).foldl deliver [] = ([] : List (List α)) := by
  induction data with
  | nil => rfl
  | cons a data ih => exact ih

theorem foldl_deliver_data (fragments : List (List α)) (data : List α) :
    (data.map Symbol.data).foldl deliver fragments = fragments.modifyLast (· ++ data) := by
  rcases fragments.eq_nil_or_concat with rfl | ⟨init, last, rfl⟩
  · exact foldl_deliver_nil data
  · rw [List.concat_eq_append, foldl_deliver_concat, List.modifyLast_concat]

theorem foldl_deliver_append (symbols : List (Symbol α)) (fragments : List (List α))
    (last : List α) :
    symbols.foldl deliver (fragments ++ [last]) = fragments ++ symbols.foldl deliver [last] := by
  induction symbols generalizing fragments last with
  | nil => rfl
  | cons symbol symbols ih =>
    cases symbol with
    | flag =>
      rw [List.foldl_cons, List.foldl_cons, deliver, deliver, ih, ih [last], List.append_assoc]
    | data a =>
      rw [List.foldl_cons, List.foldl_cons, deliver, deliver, List.modifyLast_concat, ih]
      rfl

theorem foldl_deliver_flag (symbols : List (Symbol α)) (fragments : List (List α)) :
    (Symbol.flag :: symbols).foldl deliver fragments =
      fragments ++ (Symbol.flag :: symbols).foldl deliver [] := by
  rw [List.foldl_cons, List.foldl_cons, deliver, deliver, foldl_deliver_append]
  rfl

theorem foldl_deliver_packets (packets : List (List α)) :
    (packets.flatMap fun packet => Symbol.flag :: packet.map .data).foldl deliver [] = packets := by
  induction packets with
  | nil => rfl
  | cons packet packets ih =>
    have hpacket : (Symbol.flag :: packet.map .data).foldl deliver [] = [packet] :=
      foldl_deliver_concat [] [] packet
    rw [List.flatMap_cons, List.foldl_append, hpacket]
    cases packets with
    | nil => rfl
    | cons packet' packets =>
      rw [List.flatMap_cons, List.cons_append, foldl_deliver_flag]
      exact congrArg (packet :: ·) ih

end NaviMisc.Lib.ByteStuffing
