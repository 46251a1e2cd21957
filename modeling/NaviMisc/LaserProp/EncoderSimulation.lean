import NaviMisc.LaserProp.Encoder

/-!
Every command of the encoder keeps the machine behind its simulated registers.
-/

namespace NaviMisc.LaserProp

open NaviMisc.Lib.Outcome

namespace Encoder

/-- What `packFloat` raises, and only where a coordinate overflows. -/
def Overflow (e : Error) : Prop := e = .unsupportedOperand

theorem scaled_add (u v : ℤ × ℤ) : scaled (u + v) = scaled u + scaled v := by
  simp only [scaled, Prod.fst_add, Prod.snd_add, Int.cast_add, add_div, Prod.mk_add_mk]

theorem get_set (e : Encoder) (v : Option (ℚ × ℚ)) (r r' : Register) :
    (e.set v r).get r' = if r' = r then v else e.get r' := by
  cases r <;> cases r' <;> rfl

theorem inst_set (e : Encoder) (v : Option (ℚ × ℚ)) (r : Register) :
    (e.set v r).inst = e.inst := by
  cases r with
  | s => rfl
  | ds => rfl
  | dds => rfl

def Behind (frames : List Word) (total : ℕ) (e : Encoder) (m : Machine) : Prop :=
  interpret (frames ++ e.inst) 1 = .ok m ∧ m.points.length = total ∧
    ∀ r p, e.get r = some p → p = scaled (m.regs.get r)

theorem packFloat_yields (r : Register) (le : Bool) (y x : ℚ) :
    Yields Overflow
      (fun i => (unpack i).reg = r.code ∧ (unpack i).scnt = 0 ∧ (unpack i).le = le.toNat)
      (packFloat r.code le.toNat 0 y x) := by
  by_cases h : Encodable (fixedPoint x) ∧ Encodable (fixedPoint y)
  · rw [← fits_iff] at h
    have hreg : r.code ≤ REG_MASK := by cases r <;> decide
    have hle : le.toNat ≤ LE_MASK := by cases le <;> decide
    have hexp := (exponent_le_iff (fixedPoint x) (fixedPoint y) EXP_MASK).mpr h
    have hfits := (exponent_isLeast (fixedPoint x) (fixedPoint y) 0).1.2
    obtain ⟨offset, hunpack⟩ := unpack_packed hreg hle (Nat.zero_le SCNT_MASK) hexp hfits
    rw [packFloat, packFixed_of_fits _ _ _ h, Yields, hunpack]
    exact ⟨rfl, rfl, rfl⟩
  · rw [packFloat, (packFixed_eq_error_iff ..).mpr ⟨rfl, h⟩]
    rfl

theorem differs_yields (old : Option (ℚ × ℚ)) (x y : ℚ) :
    Yields Overflow (fun b => old = none → b = true) (differs old x y) := by
  cases old with
  | none => exact fun _ => rfl
  | some old =>
    have hnop (y x : ℚ) := packFloat_yields .s false y x
    exact (hnop y x).bind (fun i _ => (hnop old.2 old.1).bind (fun i' _ => nofun))

variable {frames : List Word} {total : ℕ} {e : Encoder} {m : Machine}

theorem setReg_yields (r : Register) (x y : ℚ) (h : Behind frames total e m) :
    Yields Overflow
      (fun e' => (∃ m', Behind frames total e' m') ∧ e'.get r ≠ none ∧
        (∀ r' ≠ r, e'.get r' = e.get r') ∧ (e.get r = none ∨ e.inst ≠ [] → e'.inst ≠ []))
      (setReg r x y e) := by
  obtain ⟨hm, htotal, hregs⟩ := h
  apply (differs_yields (e.get r) x y).bind
  intro b hb
  cases b with
  | false =>
    have hsome : e.get r ≠ none := fun hnone => Bool.noConfusion (hb hnone)
    exact ⟨⟨m, hm, htotal, hregs⟩, hsome, fun _ _ => rfl, fun h => h.resolve_left hsome⟩
  | true =>
    apply (packFloat_yields r e.le y x).bind
    rintro i ⟨hreg, hscnt, -⟩
    have hinst := inst_set e (some (unpackFloat i)) r
    obtain ⟨m', hexec, hregs', hpoints⟩ := exec_of_load (load_register m.regs hreg)
    rw [hscnt] at hregs' hpoints
    refine ⟨⟨m', ?_, ?_, ?_⟩, ?_, ?_, ?_⟩
    · rw [hinst, ← List.append_assoc, interpret_concat hm, hexec]
    · rw [hpoints, htotal]
      rfl
    · intro r' p hp
      have hget := (get_set e (some (unpackFloat i)) r r').symm.trans hp
      rw [hregs']
      rw [Function.iterate_zero_apply, Registers.get_set]
      by_cases hr : r' = r
      · rw [if_pos hr] at hget ⊢
        cases hget
        rfl
      · rw [if_neg hr] at hget ⊢
        exact hregs r' p hget
    · intro hnone
      have hget := (get_set e (some (unpackFloat i)) r r).symm.trans hnone
      rw [if_pos rfl] at hget
      cases hget
    · intro r' hr
      exact (get_set e (some (unpackFloat i)) r r').trans (if_neg hr)
    · intro _
      exact List.append_ne_nil_of_right_ne_nil _ (List.cons_ne_nil i [])

structure Tracks (frames : List Word) (total : ℕ) (K : Set Register) (e : Encoder) : Prop where
  behind : ∃ m, Behind frames total e m
  known : ∀ r ∈ K, e.get r ≠ none
  begun : e.inst ≠ [] ∨ ∀ r, e.get r = none

theorem setReg_tracks {K : Set Register} (r : Register) (x y : ℚ) (h : Tracks frames total K e) :
    Yields Overflow (Tracks frames total (insert r K)) (setReg r x y e) := by
  obtain ⟨m, hm⟩ := h.behind
  apply (setReg_yields r x y hm).mono
  rintro e' ⟨hbehind, hset, hrest, hinst⟩
  refine ⟨hbehind, ?_, Or.inl (hinst (h.begun.symm.imp_left fun hnone => hnone r))⟩
  intro r' hr'
  by_cases hr : r' = r
  · rw [hr]
    exact hset
  · rw [hrest r' hr]
    exact h.known r' (hr'.resolve_left hr)

theorem getFrame_tracks (h : Tracks frames total Set.univ e) :
    Yields Overflow (fun ie => Tracks (frames ++ ie.1) total Set.univ ie.2) (getFrame e) := by
  obtain ⟨m, hm, htotal, hregs⟩ := h.behind
  obtain ⟨s, hs⟩ := Option.ne_none_iff_exists'.mp (h.known .s trivial)
  have hbehind : Behind (frames ++ e.inst) total { e with inst := [], s := none } m := by
    refine ⟨?_, htotal, ?_⟩
    · rw [List.append_nil]
      exact hm
    · intro r p hp
      cases r with
      | s => cases hp
      | ds => exact hregs .ds p hp
      | dds => exact hregs .dds p hp
  rw [getFrame, anchor]
  have hknown : known e.s = .ok s := by rw [show e.s = some s from hs, known]
  rw [hknown]
  apply (setReg_yields .s s.1 s.2 hbehind).bind
  rintro e' ⟨hbehind', hset, hrest, hinst⟩
  refine ⟨hbehind', ?_, Or.inl (hinst (Or.inl rfl))⟩
  intro r _
  cases r with
  | s => exact hset
  | ds => exact (hrest .ds (by decide)).trans_ne (h.known .ds trivial)
  | dds => exact (hrest .dds (by decide)).trans_ne (h.known .dds trivial)

theorem simulate_eq {n : ℕ} {e : Encoder} {regs : Registers (ℚ × ℚ)}
    (h : ∀ r, e.get r = some (regs.get r)) :
    ∃ e', simulate n e = .ok e' ∧ e'.inst = e.inst ∧
      ∀ r, e'.get r = some ((Registers.sample^[n] regs).get r) := by
  induction n generalizing e regs with
  | zero => exact ⟨e, rfl, rfl, h⟩
  | succ n ih =>
    have hs : e.s = some regs.s := h .s
    have hds : e.ds = some regs.ds := h .ds
    have hdds : e.dds = some regs.dds := h .dds
    have hnext : ∀ r, ({ e with ds := some (regs.ds + regs.dds),
                                s := some (regs.s + (regs.ds + regs.dds)) } : Encoder).get r =
        some (regs.sample.get r) := by
      intro r
      cases r with
      | s => rfl
      | ds => rfl
      | dds => exact hdds
    obtain ⟨e', he', hinst, hregs⟩ := ih hnext
    refine ⟨e', ?_, hinst, hregs⟩
    rw [hdds] at he'
    rw [simulate, hds, hdds, hs]
    exact he'

theorem iterate_sample_scaled (n : ℕ) (regs : Registers (ℤ × ℤ)) :
    Registers.sample^[n] (regs.map scaled) = (Registers.sample^[n] regs).map scaled := by
  induction n generalizing regs with
  | zero => rfl
  | succ n ih => rw [Function.iterate_succ_apply, Registers.map_sample scaled_add, ih,
      Function.iterate_succ_apply]

theorem emit_tracks (n : ℕ) (h : Tracks frames total Set.univ e) :
    Yields Overflow (Tracks frames (total + n) Set.univ) (emit n e) := by
  obtain ⟨m, hm, htotal, hregs⟩ := h.behind
  have hget : ∀ r, e.get r = some ((m.regs.map scaled).get r) := by
    intro r
    obtain ⟨p, hp⟩ := Option.ne_none_iff_exists'.mp (h.known r trivial)
    rw [hp, hregs r p hp, Registers.get_map]
  obtain ⟨e', he', hinst, hget'⟩ := simulate_eq (n := n) hget
  have hne : e'.inst ≠ [] := by
    rw [hinst]
    exact h.begun.resolve_right (fun hnone => h.known .s trivial (hnone .s))
  rw [← hinst] at hm
  obtain ⟨inst', m', hfill, hne', hm', hregs', hpoints⟩ := fill_spec e'.le e'.inst n hne hm
  rw [emit, he']
  show Yields Overflow _ (fill e'.le e'.inst n >>= _)
  rw [hfill]
  have hget'' : ∀ r, ({ e' with inst := inst' } : Encoder).get r =
      some (scaled (m'.regs.get r)) := by
    intro r
    rw [hregs', ← Registers.get_map scaled, ← iterate_sample_scaled, ← hget' r]
    cases r <;> rfl
  refine ⟨⟨m', hm', ?_, ?_⟩, ?_, Or.inl hne'⟩
  · rw [hpoints, htotal]
  · intro r p hp
    rw [hget'' r] at hp
    cases hp
    rfl
  · intro r _ hnone
    rw [hget'' r] at hnone
    cases hnone

theorem nop_tracks (n : ℕ) (h : Tracks frames total Set.univ e) :
    Yields Overflow (Tracks frames (total + n) Set.univ) (nop n e) := by
  obtain ⟨m, hm, htotal, hregs⟩ := h.behind
  obtain ⟨m', hm', hregs', hpoints⟩ := interpret_nop hm e.le
  apply emit_tracks
  refine ⟨⟨m', ?_, ?_, ?_⟩, ?_, Or.inl ?_⟩
  · rw [← List.append_assoc, hm']
  · rw [hpoints, htotal]
  · intro r p hp
    rw [hregs']
    exact hregs r p (by cases r <;> exact hp)
  · intro r hr
    have hknown := h.known r hr
    cases r <;> exact hknown
  · exact List.append_ne_nil_of_right_ne_nil _ (List.cons_ne_nil _ [])

theorem Tracks.mono {K K' : Set Register} (h : Tracks frames total K e) (hK : K' ⊆ K) :
    Tracks frames total K' e :=
  ⟨h.behind, fun r hr => h.known r (hK hr), h.begun⟩

theorem hold_tracks (n : ℕ) (h : Tracks frames total Set.univ e) :
    Yields Overflow (Tracks frames (total + n) Set.univ) (hold n e) := by
  rw [hold]
  split_ifs with hn
  · rw [hn]
    exact h
  · apply (setReg_tracks .dds 0 0 h).bind
    intro e h
    apply (setReg_tracks .ds 0 0 h).bind
    intro e h
    exact nop_tracks n (h.mono fun r _ => Or.inr (Or.inr trivial))

theorem moveTo_tracks {K : Set Register} (x y : ℚ) (n : ℕ) (h : Tracks frames total K e) :
    Yields Overflow (Tracks frames (total + n) Set.univ) (moveTo x y n e) := by
  apply (setReg_tracks .dds 0 0 h).bind
  intro e h
  apply (setReg_tracks .ds 0 0 h).bind
  intro e h
  apply (setReg_tracks .s x y h).bind
  intro e h
  apply emit_tracks
  apply h.mono
  intro r _
  cases r with
  | s => exact Or.inl rfl
  | ds => exact Or.inr (Or.inl rfl)
  | dds => exact Or.inr (Or.inr (Or.inl rfl))

theorem known_of_tracks (h : Tracks frames total Set.univ e) : ∃ s, known e.s = .ok s := by
  obtain ⟨s, hs⟩ := Option.ne_none_iff_exists'.mp (h.known .s trivial)
  exact ⟨s, by rw [show e.s = some s from hs, known]⟩

theorem Tracks.univ {K : Set Register} {r : Register} (h : Tracks frames total (insert r K) e)
    (hK : K = Set.univ) : Tracks frames total Set.univ e :=
  h.mono (fun _ _ => Or.inr (hK ▸ trivial))

theorem lineTo_tracks (x y : ℚ) (n : ℕ) (h : Tracks frames total Set.univ e) :
    Yields Overflow (Tracks frames (total + n) Set.univ) (lineTo x y n e) := by
  rw [lineTo]
  split_ifs with hn
  · exact moveTo_tracks x y n h
  · apply (setReg_tracks .dds 0 0 h).bind
    intro e h
    obtain ⟨s, hs⟩ := known_of_tracks (h.univ rfl)
    rw [hs]
    apply (setReg_tracks .ds _ _ (h.univ rfl)).bind
    intro e h
    exact emit_tracks n (h.univ rfl)

theorem curveTo_tracks (x1 y1 x2 y2 : ℚ) (n : ℕ) (h : Tracks frames total Set.univ e) :
    Yields Overflow (Tracks frames (total + n) Set.univ) (curveTo x1 y1 x2 y2 n e) := by
  rw [curveTo]
  split_ifs with hn
  · exact moveTo_tracks x2 y2 n h
  · obtain ⟨s, hs⟩ := known_of_tracks h
    rw [hs]
    apply (setReg_tracks .dds _ _ h).bind
    intro e h
    apply (setReg_tracks .ds _ _ (h.univ rfl)).bind
    intro e h
    exact emit_tracks n (h.univ rfl)

theorem setLaser_tracks (le : Bool) (h : Tracks frames total Set.univ e) :
    Tracks frames total Set.univ { e with le := le } := by
  have hget : ∀ r, ({ e with le := le } : Encoder).get r = e.get r := by
    intro r
    cases r with
    | s => rfl
    | ds => rfl
    | dds => rfl
  obtain ⟨m, hm, htotal, hregs⟩ := h.behind
  refine ⟨⟨m, hm, htotal, ?_⟩, ?_, h.begun.imp_right ?_⟩
  · intro r p hp
    exact hregs r p ((hget r).symm.trans hp)
  · intro r hr
    rw [hget]
    exact h.known r hr
  · intro hnone r
    rw [hget]
    exact hnone r

theorem tracks_fresh : Tracks [] 0 ∅ {} := by
  refine ⟨⟨Machine.init, rfl, rfl, ?_⟩, nofun, Or.inr ?_⟩
  · intro r p hp
    cases r <;> cases hp
  · intro r
    cases r <;> rfl

end Encoder

def Session.Tracks (total : ℕ) (st : Session) : Prop :=
  Encoder.Tracks st.frames total Set.univ st.encoder

theorem Session.perform_tracks {st : Session} {total : ℕ} (c : Command) (h : st.Tracks total) :
    Yields Encoder.Overflow (Session.Tracks (total + c.samples)) (st.perform c) := by
  cases c with
  | moveTo x y n => exact (Encoder.moveTo_tracks x y n h).bind (fun e he => he)
  | lineTo x y n => exact (Encoder.lineTo_tracks x y n h).bind (fun e he => he)
  | curveTo x1 y1 x2 y2 n => exact (Encoder.curveTo_tracks x1 y1 x2 y2 n h).bind (fun e he => he)
  | hold n => exact (Encoder.hold_tracks n h).bind (fun e he => he)
  | nop n => exact (Encoder.nop_tracks n h).bind (fun e he => he)
  | emit n => exact (Encoder.emit_tracks n h).bind (fun e he => he)
  | setLaser le => exact Encoder.setLaser_tracks le h
  | getFrame => exact (Encoder.getFrame_tracks h).bind (fun ie he => he)

theorem Session.run_tracks {st : Session} {total : ℕ} (cs : List Command) (h : st.Tracks total) :
    Yields Encoder.Overflow (Session.Tracks (total + (cs.map Command.samples).sum))
      (cs.foldlM Session.perform st) := by
  apply Yields.foldlM
    (I := fun done => Session.Tracks (total + (done.map Command.samples).sum)) h
  intro c _ done st h
  rw [List.map_append, List.sum_append, ← Nat.add_assoc, List.map_singleton, List.sum_singleton]
  exact st.perform_tracks c h

/-- A register as the machine has it, in units of `2 ^ -14`. -/
def Agrees (known : Option (ℚ × ℚ)) (v : ℤ × ℤ) : Prop :=
  ∃ p, known = some p ∧ (v.1 : ℚ) = p.1 * 2 ^ 14 ∧ (v.2 : ℚ) = p.2 * 2 ^ 14

/-- The interpreter, run on all instructions produced, ends with the registers the encoder
simulated, having drawn one point for each sample asked for. -/
def Session.Simulates (total : ℕ) (st : Session) : Prop :=
  ∃ m, interpret st.inst 1 = .ok m ∧ Agrees st.encoder.s m.regs.s ∧
    Agrees st.encoder.ds m.regs.ds ∧ Agrees st.encoder.dds m.regs.dds ∧ m.points.length = total

theorem agrees_scaled (v : ℤ × ℤ) : Agrees (some (scaled v)) v := by
  refine ⟨_, rfl, ?_, ?_⟩
  · rw [scaled, fixedPointScale_eq, Nat.cast_pow, Nat.cast_two, div_mul_cancel₀ _ (by norm_num)]
  · rw [scaled, fixedPointScale_eq, Nat.cast_pow, Nat.cast_two, div_mul_cancel₀ _ (by norm_num)]

theorem Session.Tracks.simulates {st : Session} {total : ℕ} (h : st.Tracks total) :
    st.Simulates total := by
  obtain ⟨m, hm, htotal, hregs⟩ := h.behind
  have hagrees : ∀ r, Agrees (st.encoder.get r) (m.regs.get r) := by
    intro r
    obtain ⟨p, hp⟩ := Option.ne_none_iff_exists'.mp (h.known r trivial)
    rw [hp, hregs r p hp]
    exact agrees_scaled _
  exact ⟨m, hm, hagrees .s, hagrees .ds, hagrees .dds, htotal⟩

/-- However the encoder is used after a first `moveTo`, its simulated registers are the
machine's, unless a coordinate overflows. -/
theorem encoder_simulates (x y : ℚ) (n : ℕ) (cs : List Command) :
    Yields Encoder.Overflow
      (Session.Simulates ((Command.moveTo x y n :: cs).map Command.samples).sum)
      ((Command.moveTo x y n :: cs).foldlM Session.perform {}) := by
  rw [List.foldlM_cons, List.map_cons, List.sum_cons]
  have hfirst : Yields Encoder.Overflow (Session.Tracks n)
      (Session.perform {} (.moveTo x y n)) := by
    apply (Encoder.moveTo_tracks x y n Encoder.tracks_fresh).bind
    intro e h
    rw [Nat.zero_add] at h
    exact h
  apply hfirst.bind
  intro st h
  exact (Session.run_tracks cs h).mono fun st h => h.simulates

end NaviMisc.LaserProp
