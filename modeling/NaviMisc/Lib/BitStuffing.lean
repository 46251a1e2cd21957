import Mathlib.Data.List.Basic

/-!
Frames of bits between flags. The sender puts a zero after every `k` ones, which the receiver
drops; a zero after `k + 1` ones ends a flag.
-/

namespace NaviMisc.Lib.BitStuffing

def flag (k : ℕ) : List Bool := false :: (List.replicate (k + 1) true ++ [false])

@[simp] theorem length_flag (k : ℕ) : (flag k).length = k + 3 := by simp [flag]

/-- The bits that were sent, and how many ones came last. -/
structure Stuffer where
  ones : ℕ
  sent : List Bool

def Stuffer.push (k : ℕ) (s : Stuffer) : Bool → Stuffer
  | false => ⟨0, s.sent ++ [false]⟩
  | true =>
    if s.ones + 1 = k then ⟨0, s.sent ++ [true, false]⟩ else ⟨s.ones + 1, s.sent ++ [true]⟩

/-- The bits that were stored since the last flag, and how many ones came last. -/
structure Deframer where
  ones : ℕ
  stored : List Bool

namespace Deframer

def keep (cap : ℕ) (l : List Bool) (b : Bool) : List Bool := if l.length < cap then l ++ [b] else l

variable (k m cap : ℕ)

/-- The frame that the bit ends, and what follows. The count of ones has `m` values. -/
def push (d : Deframer) : Bool → Option (List Bool) × Deframer
  | true => (none, ⟨(d.ones + 1) % m, keep cap d.stored true⟩)
  | false =>
    if d.ones = k then (none, ⟨0, d.stored⟩)
    else if d.ones = k + 1 then (some (keep cap d.stored false), ⟨0, []⟩)
    else (none, ⟨0, keep cap d.stored false⟩)

def feed (d : Deframer) (l : List Bool) : Deframer := l.foldl (fun d b => (d.push k m cap b).2) d

def frames (d : Deframer) : List Bool → List (List Bool)
  | [] => []
  | b :: l => (d.push k m cap b).1.toList ++ frames (d.push k m cap b).2 l

variable {k m cap} {d : Deframer}

theorem length_keep_le {l : List Bool} (h : l.length ≤ cap) (b : Bool) :
    (keep cap l b).length ≤ cap := by
  rw [keep]
  split_ifs
  · rw [List.length_append]
    exact Nat.succ_le_of_lt ‹_›
  · exact h

theorem foldl_keep {l l' : List Bool} (h : l.length + l'.length ≤ cap) :
    l'.foldl (keep cap) l = l ++ l' := by
  induction l' generalizing l with
  | nil => exact (List.append_nil l).symm
  | cons b l' ih =>
    rw [List.length_cons] at h
    have hkeep : keep cap l b = l ++ [b] := if_pos (by omega)
    rw [List.foldl_cons, hkeep, ih (by rw [List.length_append, List.length_singleton]; omega),
      List.append_assoc, List.singleton_append]

theorem feed_append (d : Deframer) (l l' : List Bool) :
    d.feed k m cap (l ++ l') = (d.feed k m cap l).feed k m cap l' := List.foldl_append

theorem push_length (h : d.stored.length ≤ cap) (b : Bool) :
    (d.push k m cap b).2.stored.length ≤ cap ∧
      ∀ frame ∈ (d.push k m cap b).1, frame.length ≤ cap := by
  have hkeep := length_keep_le h
  cases b with
  | true => exact ⟨hkeep true, fun _ hf => nomatch hf⟩
  | false =>
    rw [push]
    split_ifs
    · exact ⟨h, fun _ hf => nomatch hf⟩
    · refine ⟨Nat.zero_le _, ?_⟩
      rintro _ ⟨⟩
      exact hkeep false
    · exact ⟨hkeep false, fun _ hf => nomatch hf⟩

theorem eq_of_mem_push {b : Bool} {frame : List Bool} (h : frame ∈ (d.push k m cap b).1) :
    frame = keep cap d.stored b := by
  cases b with
  | true => cases h
  | false =>
    rw [push] at h
    split_ifs at h
    · cases h
    · exact (Option.some.inj h).symm
    · cases h

theorem length_push_le (d : Deframer) (b : Bool) :
    (d.push k m cap b).2.stored.length ≤ d.stored.length + 1 := by
  have hkeep (b : Bool) : (keep cap d.stored b).length ≤ d.stored.length + 1 := by
    rw [keep]
    split_ifs
    · exact Nat.le_of_eq List.length_append
    · exact Nat.le_succ _
  cases b with
  | true => exact hkeep true
  | false =>
    rw [push]
    split_ifs
    · exact Nat.le_succ _
    · exact Nat.zero_le _
    · exact hkeep false

theorem feed_length (h : d.stored.length ≤ cap) (l : List Bool) :
    (d.feed k m cap l).stored.length ≤ cap := by
  induction l generalizing d with
  | nil => exact h
  | cons b l ih => exact ih (push_length h b).1

theorem feed_push (hk : k < m) {s : Stuffer} (hs : s.ones < k)
    (hd : (d.feed k m cap s.sent).ones = s.ones) (b : Bool) :
    (s.push k b).ones < k ∧ (d.feed k m cap (s.push k b).sent).ones = (s.push k b).ones ∧
      (d.feed k m cap (s.push k b).sent).stored =
        keep cap (d.feed k m cap s.sent).stored b := by
  cases b with
  | false =>
    simp only [Stuffer.push, feed_append]
    generalize d.feed k m cap s.sent = d' at *
    have hpush : d'.feed k m cap [false] = ⟨0, keep cap d'.stored false⟩ := by
      rw [feed, List.foldl_cons, List.foldl_nil, push, if_neg (by omega), if_neg (by omega)]
    rw [hpush]
    exact ⟨by omega, rfl, rfl⟩
  | true =>
    rw [Stuffer.push]
    split_ifs with hfull
    · simp only [feed_append]
      generalize d.feed k m cap s.sent = d' at *
      have hpush : d'.feed k m cap [true, false] = ⟨0, keep cap d'.stored true⟩ := by
        rw [feed, List.foldl_cons, List.foldl_cons, List.foldl_nil, push]
        dsimp only
        rw [push, if_pos]
        rw [hd, hfull, Nat.mod_eq_of_lt hk]
      rw [hpush]
      exact ⟨by omega, rfl, rfl⟩
    · simp only [feed_append]
      generalize d.feed k m cap s.sent = d' at *
      have hpush : d'.feed k m cap [true] = ⟨s.ones + 1, keep cap d'.stored true⟩ := by
        rw [feed, List.foldl_cons, List.foldl_nil, push, hd, Nat.mod_eq_of_lt (by omega)]
      rw [hpush]
      exact ⟨by omega, rfl, rfl⟩

theorem feed_content (hk : k < m) {s : Stuffer} (hs : s.ones < k)
    (hd : (d.feed k m cap s.sent).ones = s.ones) (l : List Bool) :
    (l.foldl (Stuffer.push k) s).ones < k ∧
      (d.feed k m cap (l.foldl (Stuffer.push k) s).sent).ones =
        (l.foldl (Stuffer.push k) s).ones ∧
      (d.feed k m cap (l.foldl (Stuffer.push k) s).sent).stored =
        l.foldl (keep cap) (d.feed k m cap s.sent).stored := by
  induction l generalizing s with
  | nil => exact ⟨hs, hd, rfl⟩
  | cons b l ih =>
    obtain ⟨hs', hd', hstored⟩ := feed_push hk hs hd b
    rw [List.foldl_cons, List.foldl_cons, ← hstored]
    exact ih hs' hd'

theorem feed_ones (l : List Bool) (n : ℕ) :
    (⟨0, l⟩ : Deframer).feed k m cap (List.replicate n true) =
      ⟨n % m, (List.replicate n true).foldl (keep cap) l⟩ := by
  induction n with
  | zero => exact congrArg (Deframer.mk · l) (Nat.zero_mod m).symm
  | succ n ih =>
    rw [List.replicate_succ', feed_append, ih, List.foldl_append]
    simp only [feed, List.foldl_cons, List.foldl_nil, push, Nat.mod_add_mod]

theorem push_flag (hk : k + 1 < m) (hd : d.ones < k) (hcap : d.stored.length + (k + 3) ≤ cap) :
    (d.feed k m cap (false :: List.replicate (k + 1) true)).push k m cap false =
      (some (d.stored ++ flag k), ⟨0, []⟩) := by
  have hfirst : (d.push k m cap false).2 = ⟨0, keep cap d.stored false⟩ := by
    rw [push, if_neg (by omega), if_neg (by omega)]
  have hfeed : d.feed k m cap (false :: List.replicate (k + 1) true) =
      ⟨k + 1, (false :: List.replicate (k + 1) true).foldl (keep cap) d.stored⟩ := by
    rw [feed, List.foldl_cons, hfirst, ← feed, feed_ones, Nat.mod_eq_of_lt hk]
    rfl
  have hfits : d.stored.length + (false :: List.replicate (k + 1) true).length + 1 ≤ cap := by
    rw [List.length_cons, List.length_replicate]
    omega
  rw [hfeed, push, if_neg (Nat.succ_ne_self k), if_pos rfl, foldl_keep (by omega), keep, if_pos,
    List.append_assoc]
  · rfl
  · rw [List.length_append]
    omega

theorem feed_flag (hk : k + 1 < m) (d : Deframer) : d.feed k m cap (flag k) = ⟨0, []⟩ := by
  obtain ⟨l, hfirst⟩ : ∃ l, (d.push k m cap false).2 = ⟨0, l⟩ := by
    rw [push]
    split_ifs <;> exact ⟨_, rfl⟩
  rw [flag, feed, List.foldl_cons, hfirst, ← feed, feed_append, feed_ones, Nat.mod_eq_of_lt hk,
    feed, List.foldl_cons, List.foldl_nil, push, if_neg (Nat.succ_ne_self k), if_pos rfl]

theorem frames_append (d : Deframer) (l l' : List Bool) :
    d.frames k m cap (l ++ l') = d.frames k m cap l ++ (d.feed k m cap l).frames k m cap l' := by
  induction l generalizing d with
  | nil => rfl
  | cons b l ih =>
    rw [List.cons_append, frames, frames, ih, List.append_assoc]
    rfl

theorem frames_singleton (d : Deframer) (b : Bool) :
    d.frames k m cap [b] = (d.push k m cap b).1.toList := List.append_nil _

theorem push_of_some {b : Bool} {frame : List Bool} (h : (d.push k m cap b).1 = some frame) :
    (d.push k m cap b).2 = ⟨0, []⟩ := by
  cases b with
  | true => cases h
  | false =>
    rw [push] at h ⊢
    split_ifs at h ⊢
    rfl

theorem frames_ones (d : Deframer) (n : ℕ) : d.frames k m cap (List.replicate n true) = [] := by
  induction n generalizing d with
  | zero => rfl
  | succ n ih =>
    rw [List.replicate_succ, frames, ih]
    rfl

/-- A stuffed bit ends no frame. -/
theorem frames_push (hk : k < m) {s : Stuffer} (hs : s.ones < k)
    (hd : (d.feed k m cap s.sent).ones = s.ones) (b : Bool) :
    d.frames k m cap (s.push k b).sent = d.frames k m cap s.sent := by
  cases b with
  | false =>
    simp only [Stuffer.push, frames_append, frames_singleton]
    rw [push, if_neg (by omega), if_neg (by omega)]
    exact List.append_nil _
  | true =>
    rw [Stuffer.push]
    split_ifs with hfull
    · have hpush : (d.feed k m cap s.sent).frames k m cap [true, false] = [] := by
        have hones : ((d.feed k m cap s.sent).ones + 1) % m = k := by
          rw [hd, hfull, Nat.mod_eq_of_lt hk]
        rw [frames, frames_singleton, push, push, if_pos hones]
        rfl
      rw [frames_append, hpush, List.append_nil]
    · rw [frames_append, frames_singleton, push]
      exact List.append_nil _

theorem frames_content (hk : k < m) {s : Stuffer} (hs : s.ones < k)
    (hd : (d.feed k m cap s.sent).ones = s.ones) (l : List Bool) :
    d.frames k m cap (l.foldl (Stuffer.push k) s).sent = d.frames k m cap s.sent := by
  induction l generalizing s with
  | nil => rfl
  | cons b l ih =>
    obtain ⟨hs', hd', -⟩ := feed_push hk hs hd b
    rw [List.foldl_cons, ih hs' hd', frames_push hk hs hd]

theorem frames_flag (hk : k + 1 < m) (hd : d.ones < k) (hcap : d.stored.length + (k + 3) ≤ cap) :
    d.frames k m cap (flag k) = [d.stored ++ flag k] := by
  have hstart : d.frames k m cap (false :: List.replicate (k + 1) true) = [] := by
    rw [frames, frames_ones, push, if_neg (by omega), if_neg (by omega)]
    rfl
  have hflag : flag k = (false :: List.replicate (k + 1) true) ++ [false] := rfl
  conv_lhs => rw [hflag]
  rw [frames_append, hstart, List.nil_append, frames_singleton, push_flag hk hd hcap]
  rfl

end Deframer

end NaviMisc.Lib.BitStuffing
