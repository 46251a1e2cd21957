import Mathlib.Data.List.Chain
import Mathlib.Data.List.Infix

/-!
`Sequence.markChunks` of `Dance/Sequence.py`.
-/

namespace NaviMisc.Motion

variable {α : Type} [DecidableEq α]

/-- What the loop keeps: `i` is where the original goes on. -/
structure Marker where
  boundaries : List ℕ
  i : ℕ

def Marker.step (original : List α) (m : Marker) (j : ℕ) (frame : α) : Option Marker :=
  if original.length ≤ m.i ∨ some frame ≠ original[m.i]? then
    (original.idxOf? frame).map fun k => ⟨m.boundaries ++ [j], k + 1⟩
  else some { m with i := m.i + 1 }

def scan (original : List α) (m : Marker) (j : ℕ) : List α → Option Marker
  | [] => some m
  | frame :: frames => (m.step original j frame).bind fun m => scan original m (j + 1) frames

/-- The loop over a sequence; nothing where the source raises. -/
def mark (original sequence : List α) : Option Marker :=
  sequence.head?.bind fun frame =>
    (original.idxOf? frame).bind fun i => scan original ⟨[], i⟩ 0 sequence

def markChunks (original sequence : List α) : Option (List ℕ) :=
  (mark original sequence).map Marker.boundaries

/-- The position in the original that stands for frame `j`. -/
def tracked (original sequence : List α) (j : ℕ) : Option ℕ :=
  (mark original (sequence.take (j + 1))).map fun m => m.i - 1

omit [DecidableEq α] in
/-- From `s` up to `e` a sequence is a slice of the original. -/
structure Segment (original sequence : List α) (s e : ℕ) : Prop where
  nonempty : s < e
  within : e ≤ sequence.length
  slice : (sequence.take e).drop s <:+: original

section step

variable {original xs : List α} {m : Marker} {j k s e : ℕ} {frame x : α}

theorem step_same (h : original[m.i]? = some frame) :
    m.step original j frame = some { m with i := m.i + 1 } := by
  have hi := (List.getElem?_eq_some_iff.mp h).1
  rw [Marker.step, if_neg]
  rintro (hle | hne)
  · omega
  · exact hne h.symm

theorem step_other (h : original[m.i]? ≠ some frame) (hk : original.idxOf? frame = some k) :
    m.step original j frame = some ⟨m.boundaries ++ [j], k + 1⟩ := by
  rw [Marker.step, if_pos (.inr (Ne.symm h)), hk]
  rfl

theorem getElem?_of_idxOf? (hk : original.idxOf? frame = some k) : original[k]? = some frame := by
  obtain ⟨hlt, heq, -⟩ := List.idxOf?_eq_some_iff.mp hk
  rw [List.getElem?_eq_getElem hlt, heq]

theorem exists_idxOf? (h : frame ∈ original) : ∃ k, original.idxOf? frame = some k := by
  apply Option.isSome_iff_exists.mp
  simpa using h

theorem scan_concat : scan original m j (xs ++ [x]) =
    (scan original m j xs).bind fun m => m.step original (j + xs.length) x := by
  induction xs generalizing m j with
  | nil => simp [scan]
  | cons frame xs ih => simp [scan, ih, Option.bind_assoc, Nat.add_right_comm, Nat.add_assoc]

theorem mark_concat (hxs : xs ≠ []) :
    mark original (xs ++ [x]) = (mark original xs).bind fun m => m.step original xs.length x := by
  obtain ⟨frame, xs, rfl⟩ := List.exists_cons_of_ne_nil hxs
  simp only [mark, List.cons_append, List.head?_cons, Option.bind_some, Option.bind_assoc]
  simp only [← List.cons_append, scan_concat, Nat.zero_add]

theorem mark_singleton (hk : original.idxOf? x = some k) : mark original [x] = some ⟨[], k + 1⟩ := by
  simp [mark, hk, scan, step_same (m := ⟨[], k⟩) (getElem?_of_idxOf? hk)]

omit [DecidableEq α] in
theorem Segment.concat (h : Segment original xs s e) : Segment original (xs ++ [x]) s e := by
  refine ⟨h.nonempty, ?_, ?_⟩
  · simpa using h.within.trans (Nat.le_succ _)
  · rw [List.take_append_of_le_length h.within]
    exact h.slice

end step

structure Marked (original xs : List α) (m : Marker) : Prop where
  segments : (0 :: m.boundaries).IsChain (Segment original xs)
  within : m.i ≤ original.length
  nonempty : (0 :: m.boundaries).getLast (List.cons_ne_nil _ _) < xs.length
  last : xs.drop ((0 :: m.boundaries).getLast (List.cons_ne_nil _ _)) <:+ original.take m.i
  discontinuities : ∀ j frame, xs[j + 1]? = some frame →
    ∃ k, tracked original xs j = some k ∧ original[k]? = xs[j]? ∧
      (j + 1 ∈ m.boundaries ↔ original[k + 1]? ≠ some frame)

namespace Marked

variable {original xs : List α} {m : Marker} {k : ℕ} {x : α}

theorem singleton (hk : original.idxOf? x = some k) : Marked original [x] ⟨[], k + 1⟩ := by
  have hget := getElem?_of_idxOf? hk
  refine ⟨List.isChain_singleton _, (List.getElem?_eq_some_iff.mp hget).1, by simp, ?_, by simp⟩
  rw [List.take_add_one, hget]
  exact List.suffix_append _ _

theorem closed (h : Marked original xs m) :
    (0 :: (m.boundaries ++ [xs.length])).IsChain (Segment original xs) := by
  rw [← List.cons_append, List.isChain_append]
  refine ⟨h.segments, List.isChain_singleton _, ?_⟩
  intro s hs e he
  rw [List.getLast?_eq_some_getLast (List.cons_ne_nil _ _), Option.mem_some_iff] at hs
  rw [List.head?_cons, Option.mem_some_iff] at he
  subst hs he
  refine ⟨h.nonempty, le_rfl, ?_⟩
  rw [List.take_length]
  exact h.last.isInfix.trans (List.take_prefix _ _).isInfix

theorem below (h : Marked original xs m) {j : ℕ} (hj : j ∈ m.boundaries) : j < xs.length := by
  have hpairwise : (0 :: (m.boundaries ++ [xs.length])).Pairwise (· < ·) :=
    (h.closed.imp fun _ _ hsegment => hsegment.nonempty).pairwise
  rw [← List.cons_append, List.pairwise_append] at hpairwise
  exact hpairwise.2.2 j (List.mem_cons_of_mem _ hj) _ (List.mem_singleton_self _)

theorem position (h : Marked original xs m) : m.i = m.i - 1 + 1 ∧
    original[m.i - 1]? = xs[xs.length - 1]? := by
  have hopen : xs.drop ((0 :: m.boundaries).getLast (List.cons_ne_nil _ _)) ≠ [] := by
    simpa using h.nonempty
  have hi : m.i ≠ 0 := by
    intro hi
    have hlast := h.last
    rw [hi, List.take_zero, List.suffix_nil] at hlast
    exact hopen hlast
  refine ⟨by omega, ?_⟩
  obtain ⟨before, hbefore⟩ := h.last
  calc original[m.i - 1]?
      = (original.take m.i).getLast? := by
        rw [List.getLast?_eq_getElem?, List.length_take, min_eq_left h.within,
          List.getElem?_take_of_lt (by omega)]
    _ = xs.getLast? := by
        rw [← hbefore, List.getLast?_append_of_ne_nil _ hopen, List.getLast?_drop,
          if_neg (Nat.not_le.mpr h.nonempty)]
    _ = xs[xs.length - 1]? := List.getLast?_eq_getElem?

theorem discontinuities_concat (hmark : mark original xs = some m) (h : Marked original xs m)
    {boundaries : List ℕ} (hold : ∀ j < xs.length, j ∈ boundaries ↔ j ∈ m.boundaries)
    (hnew : xs.length ∈ boundaries ↔ original[m.i]? ≠ some x) (j : ℕ) (frame : α)
    (hframe : (xs ++ [x])[j + 1]? = some frame) :
    ∃ k, tracked original (xs ++ [x]) j = some k ∧ original[k]? = (xs ++ [x])[j]? ∧
      (j + 1 ∈ boundaries ↔ original[k + 1]? ≠ some frame) := by
  have hj := (List.getElem?_eq_some_iff.mp hframe).1
  rw [List.length_append, List.length_singleton, Nat.add_lt_add_iff_right] at hj
  have htake : (xs ++ [x]).take (j + 1) = xs.take (j + 1) := List.take_append_of_le_length hj
  rw [tracked, htake, List.getElem?_append_left hj]
  rcases Nat.lt_or_ge (j + 1) xs.length with hlt | hge
  · rw [List.getElem?_append_left hlt] at hframe
    obtain ⟨k, hk, hsame, hiff⟩ := h.discontinuities j frame hframe
    exact ⟨k, hk, hsame, (hold _ hlt).trans hiff⟩
  · obtain rfl : j = xs.length - 1 := by omega
    have hlen : xs.length - 1 + 1 = xs.length := by omega
    obtain ⟨hi, hsame⟩ := h.position
    rw [hlen, List.getElem?_concat_length, Option.some.injEq] at hframe
    subst hframe
    refine ⟨m.i - 1, ?_, hsame, ?_⟩
    · rw [hlen, List.take_length, hmark]
      rfl
    · rw [hlen, ← hi]
      exact hnew

theorem concat (hmark : mark original xs = some m) (h : Marked original xs m)
    (hx : x ∈ original) : ∃ m', mark original (xs ++ [x]) = some m' ∧
      Marked original (xs ++ [x]) m' := by
  have hxs : xs ≠ [] := List.ne_nil_of_length_pos (Nat.zero_lt_of_lt h.nonempty)
  have hfar : xs.length ∉ m.boundaries := fun hmem => Nat.lt_irrefl _ (h.below hmem)
  rw [mark_concat hxs, hmark, Option.bind_some]
  by_cases hsame : original[m.i]? = some x
  · refine ⟨_, step_same hsame, ⟨h.segments.imp fun _ _ => Segment.concat,
      (List.getElem?_eq_some_iff.mp hsame).1, ?_, ?_, ?_⟩⟩
    · simpa using Nat.lt_succ_of_lt h.nonempty
    · rw [List.drop_append_of_le_length h.nonempty.le, List.take_add_one, hsame]
      obtain ⟨before, hbefore⟩ := h.last
      exact ⟨before, by rw [← List.append_assoc, hbefore]; rfl⟩
    · apply h.discontinuities_concat hmark
      · exact fun _ _ => Iff.rfl
      · simp [hfar, hsame]
  · obtain ⟨k, hk⟩ := exists_idxOf? hx
    have hget := getElem?_of_idxOf? hk
    refine ⟨_, step_other hsame hk, ⟨h.closed.imp fun _ _ => Segment.concat,
      (List.getElem?_eq_some_iff.mp hget).1, ?_, ?_, ?_⟩⟩
    · simp
    · simp only [← List.cons_append, List.getLast_append_singleton, List.drop_left, List.take_add_one, hget]
      exact List.suffix_append _ _
    · apply h.discontinuities_concat hmark
      · intro j hj
        simp [hj.ne]
      · simp [hsame]

end Marked

theorem mark_marked {original sequence : List α} (hne : sequence ≠ [])
    (hframes : ∀ frame ∈ sequence, frame ∈ original) :
    ∃ m, mark original sequence = some m ∧ Marked original sequence m := by
  induction sequence using List.reverseRecOn with
  | nil => exact absurd rfl hne
  | append_singleton xs x ih =>
    have hx := hframes x (List.mem_append_right _ (List.mem_singleton_self _))
    by_cases hxs : xs = []
    · subst hxs
      obtain ⟨k, hk⟩ := exists_idxOf? hx
      exact ⟨_, mark_singleton hk, .singleton hk⟩
    · obtain ⟨m, hmark, h⟩ := ih hxs fun frame hframe =>
        hframes frame (List.mem_append_left _ hframe)
      exact h.concat hmark hx

/-- Within a segment the original goes on, and at a boundary it does not. -/
theorem markChunks_segments (original sequence : List α) (hne : sequence ≠ [])
    (hframes : ∀ frame ∈ sequence, frame ∈ original) :
    ∃ boundaries, markChunks original sequence = some boundaries ∧
      boundaries.Pairwise (· < ·) ∧
      (0 :: (boundaries ++ [sequence.length])).IsChain (Segment original sequence) ∧
      ∀ j frame, sequence[j + 1]? = some frame →
        ∃ k, tracked original sequence j = some k ∧ original[k]? = sequence[j]? ∧
          (j + 1 ∈ boundaries ↔ original[k + 1]? ≠ some frame) := by
  obtain ⟨m, hmark, h⟩ := mark_marked hne hframes
  refine ⟨m.boundaries, ?_, ?_, h.closed, h.discontinuities⟩
  · rw [markChunks, hmark]
    rfl
  · have hincreasing := (h.segments.imp fun _ _ hsegment => hsegment.nonempty).pairwise
    exact (List.pairwise_cons.mp hincreasing).2

theorem markChunks_segments_repeated :
    ∃ boundaries, markChunks [1, 2, 1, 3] [2, 1, 2, 1, 3, 1] = some boundaries ∧
      boundaries.Pairwise (· < ·) ∧
      (0 :: (boundaries ++ [6])).IsChain (Segment [1, 2, 1, 3] [2, 1, 2, 1, 3, 1]) ∧
      ∀ j frame, [2, 1, 2, 1, 3, 1][j + 1]? = some frame →
        ∃ k, tracked [1, 2, 1, 3] [2, 1, 2, 1, 3, 1] j = some k ∧
          [1, 2, 1, 3][k]? = [2, 1, 2, 1, 3, 1][j]? ∧
          (j + 1 ∈ boundaries ↔ [1, 2, 1, 3][k + 1]? ≠ some frame) :=
  markChunks_segments [1, 2, 1, 3] [2, 1, 2, 1, 3, 1] (by decide) (by decide)

end NaviMisc.Motion
