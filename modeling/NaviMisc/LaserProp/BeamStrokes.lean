import NaviMisc.LaserProp.Beam

/-!
When the laser is on exactly for the visible strokes: the flag of the encoder has to reach the
instruction that the samples of a stroke are added to.
-/

namespace NaviMisc.LaserProp

open NaviMisc.Lib NaviMisc.Lib.Outcome NaviMisc.Lib.Runs

namespace Encoder

/-- The derivatives that are written for a line or a curve from `s`. -/
structure Derivatives where
  dds : ℚ × ℚ → ℚ × ℚ
  ds : ℚ × ℚ → ℚ × ℚ

def lineDerivatives (x y : ℚ) (nSamples : ℕ) : Derivatives where
  dds _ := (0, 0)
  ds s := (1 / nSamples * (x - s.1), 1 / nSamples * (y - s.2))

def curveDerivatives (x1 y1 x2 y2 : ℚ) (nSamples : ℕ) : Derivatives where
  dds s := ((2 * s.1 - 4 * x1 + 2 * x2) * (1 / nSamples / nSamples),
    (2 * s.2 - 4 * y1 + 2 * y2) * (1 / nSamples / nSamples))
  ds s := ((-2 * s.1 + 2 * x1) * (1 / nSamples), (-2 * s.2 + 2 * y1) * (1 / nSamples))

/-- A stroke of `n` samples after a corner: none of its samples goes to an instruction with the
other flag. -/
def Clean (e : Encoder) (corner n : ℕ) (d : Derivatives) : Prop :=
  e.Settled ∨ corner ≠ 0 ∨ n = 0 ∨ ∃ s, e.s = some s ∧ e.Writes (d.dds s) (d.ds s)

structure Draws (n : ℕ) (d : Derivatives) (e e' : Encoder) : Prop where
  none : n = 0 → Emits 0 e e'
  some : n ≠ 0 → ∃ s e₁ e₂, e.s = some s ∧ setDDS (d.dds s).1 (d.dds s).2 e = .ok e₁ ∧
    setDS (d.ds s).1 (d.ds s).2 e₁ = .ok e₂ ∧ emit n e₂ = .ok e'

variable {e e₁ e' : Encoder} {n corner : ℕ} {d : Derivatives}

theorem known_eq_ok {v : Option (ℚ × ℚ)} {s : ℚ × ℚ} (h : known v = .ok s) : v = some s := by
  cases v with
  | none => cases h
  | some s' =>
    cases h
    rfl

theorem draws_lineTo {x y : ℚ} (h : lineTo x y n e = .ok e') : Draws n (lineDerivatives x y n) e e' := by
  rw [lineTo] at h
  constructor
  · intro hn
    rw [if_pos hn, hn] at h
    exact moveTo_zero h
  · intro hn
    rw [if_neg hn] at h
    obtain ⟨e₁, h₁, h⟩ := Lists.bind_eq_ok h
    obtain ⟨s, hs, h⟩ := Lists.bind_eq_ok h
    obtain ⟨e₂, h₂, h⟩ := Lists.bind_eq_ok h
    refine ⟨s, e₁, e₂, ?_, h₁, h₂, h⟩
    exact (get_of_setReg h₁ (by decide : Register.s ≠ .dds)).symm.trans (known_eq_ok hs)

theorem draws_curveTo {x1 y1 x2 y2 : ℚ} (h : curveTo x1 y1 x2 y2 n e = .ok e') :
    Draws n (curveDerivatives x1 y1 x2 y2 n) e e' := by
  rw [curveTo] at h
  constructor
  · intro hn
    rw [if_pos hn, hn] at h
    exact moveTo_zero h
  · intro hn
    rw [if_neg hn] at h
    obtain ⟨s, hs, h⟩ := Lists.bind_eq_ok h
    obtain ⟨e₁, h₁, h⟩ := Lists.bind_eq_ok h
    obtain ⟨e₂, h₂, h⟩ := Lists.bind_eq_ok h
    exact ⟨s, e₁, e₂, known_eq_ok hs, h₁, h₂, h⟩

theorem hold_zero (h : hold 0 e = .ok e') : e' = e := by
  cases h
  rfl

theorem clean_iff (hcorner : hold corner e = .ok e₁) (hdraws : Draws n d e₁ e') :
    ∃ l, flagsOf e'.inst = flagsOf e.inst ++ l ∧ ((∀ f ∈ l, f = e.le.toNat) ↔ e.Clean corner n d) := by
  obtain ⟨hemits, hsettled⟩ := hold_emits hcorner
  by_cases hn : n = 0
  · have hall := hemits.trans (hdraws.none hn)
    refine ⟨_, hall.flags, iff_of_true ?_ (Or.inr (Or.inr (Or.inl hn)))⟩
    exact fun f hf => List.eq_of_mem_replicate hf
  obtain ⟨s, e₂, e₃, hs, h₂, h₃, h⟩ := hdraws.some hn
  by_cases hready : e₁.Settled ∨ e₁.Writes (d.dds s) (d.ds s)
  · have hall := hemits.trans (stroke_emits h₂ h₃ h hready)
    refine ⟨_, hall.flags, iff_of_true (fun f hf => List.eq_of_mem_replicate hf) ?_⟩
    by_cases hzero : corner = 0
    · rw [hzero] at hcorner
      obtain rfl := hold_zero hcorner
      exact hready.imp_right fun hwrites => Or.inr (Or.inr ⟨s, hs, hwrites⟩)
    · exact Or.inr (Or.inl hzero)
  · rw [not_or] at hready
    obtain ⟨flag, l, hflag, hflags⟩ := stroke_pending h₂ h₃ h hready.1 hready.2 hn
    have hzero : corner = 0 := by
      by_contra hne
      exact hready.1 (hsettled (Or.inr hne))
    rw [hzero] at hcorner
    obtain rfl := hold_zero hcorner
    refine ⟨flag :: l, hflags, iff_of_false (fun hall => hflag (hall flag List.mem_cons_self)) ?_⟩
    rintro (hs' | hne | hn' | ⟨s', hs', hwrites⟩)
    · exact hready.1 hs'
    · exact hne hzero
    · exact hn hn'
    · rw [hs, Option.some.injEq] at hs'
      subst hs'
      exact hready.2 hwrites

theorem Draws.le (h : Draws n d e e') : e'.le = e.le := by
  by_cases hn : n = 0
  · exact (h.none hn).le
  · obtain ⟨s, e₁, e₂, -, h₁, h₂, hemit⟩ := h.some hn
    rw [(emit_of_ok hemit).1, (setReg_emits h₂).1.le, (setReg_emits h₁).1.le]

end Encoder

namespace BeamAwareEncoder

open Encoder

variable (p : BeamParams) (m : Measures)

def cornerSamples (x y : ℚ) (b : BeamAwareEncoder) : ℕ :=
  LaserProp.samples (calculateAngle m (b.rememberPoint x y).history * p.cornerEmphasis)

def CleanLine (x1 y1 : ℚ) (b : BeamAwareEncoder) : Prop :=
  let n := getSampleCount p m b.en.le
  b.en.Clean (b.cornerSamples p m x1 y1) n (lineDerivatives x1 y1 n)

def CleanCurve (x1 y1 x2 y2 : ℚ) (b : BeamAwareEncoder) : Prop :=
  let n := getSampleCount p m b.en.le
  b.en.Clean (b.cornerSamples p m x1 y1) n (curveDerivatives x1 y1 x2 y2 n)

def CleanMove (x y : ℚ) (b : BeamAwareEncoder) : Prop :=
  b.origin = none ∨ b.history.getLast? = some (x, y) ∨
    ∀ b', b.blank p = .ok b' → b'.CleanLine p m x y

variable {p m} {b b' : BeamAwareEncoder} {x y x1 y1 x2 y2 : ℚ}

def Tracked (b : BeamAwareEncoder) : Prop := ∃ total, Encoder.Tracks [] total Set.univ b.en

theorem hold_yields (q : ℚ) (h : b.Tracked) :
    Yields Overflow (fun b' => b'.Tracked ∧ b'.origin = b.origin ∧ b'.en.le = b.en.le ∧
      ∃ l, flagsOf b'.en.inst = flagsOf b.en.inst ++ l) (b.hold q) := by
  obtain ⟨total, htracks⟩ := h
  apply ((hold_tracks (LaserProp.samples q) htracks).and fun en => hold_emits).bind
  rintro en ⟨htracks', hemits, -⟩
  exact ⟨⟨_, htracks'⟩, rfl, hemits.le, _, hemits.flags⟩

theorem setLaser_tracked (le : Bool) (h : b.Tracked) : (b.setLaser le).Tracked :=
  h.imp fun _ htracks => setLaser_tracks le htracks

theorem line_yields (h : b.Tracked) :
    Yields Overflow (fun b' => b'.Tracked ∧ b'.origin = b.origin ∧ b'.en.le = b.en.le ∧
      ∃ l, flagsOf b'.en.inst = flagsOf b.en.inst ++ l ∧
        ((∀ f ∈ l, f = b.en.le.toNat) ↔ b.CleanLine p m x1 y1)) (b.line p m x1 y1) := by
  obtain ⟨total, htracks⟩ := h
  rw [line, emphasizeCorner, BeamAwareEncoder.hold]
  refine Yields.bind (P := fun b₁ : BeamAwareEncoder => b₁.Tracked ∧ b₁.origin = b.origin ∧
    Encoder.hold (b.cornerSamples p m x1 y1) b.en = .ok b₁.en) ?_ ?_
  · apply ((hold_tracks _ htracks).and fun en hen => hen).bind
    rintro en ⟨htracks', hhold⟩
    exact ⟨⟨_, htracks'⟩, rfl, hhold⟩
  rintro b₁ ⟨⟨total₁, htracks₁⟩, horigin, hhold⟩
  have hle := (hold_emits hhold).1.le
  rw [hle]
  apply ((lineTo_tracks x1 y1 _ htracks₁).and fun en hen => hen).bind
  rintro en ⟨htracks', hline⟩
  have hdraws := draws_lineTo hline
  exact ⟨⟨_, htracks'⟩, horigin, hdraws.le.trans hle, clean_iff hhold hdraws⟩

theorem curve_yields (h : b.Tracked) :
    Yields Overflow (fun b' => b'.Tracked ∧ b'.origin = b.origin ∧ b'.en.le = b.en.le ∧
      ∃ l, flagsOf b'.en.inst = flagsOf b.en.inst ++ l ∧
        ((∀ f ∈ l, f = b.en.le.toNat) ↔ b.CleanCurve p m x1 y1 x2 y2))
      (b.curve p m x1 y1 x2 y2) := by
  obtain ⟨total, htracks⟩ := h
  rw [curve, emphasizeCorner, BeamAwareEncoder.hold]
  refine Yields.bind (P := fun b₁ : BeamAwareEncoder => b₁.Tracked ∧ b₁.origin = b.origin ∧
    Encoder.hold (b.cornerSamples p m x1 y1) b.en = .ok b₁.en) ?_ ?_
  · apply ((hold_tracks _ htracks).and fun en hen => hen).bind
    rintro en ⟨htracks', hhold⟩
    exact ⟨⟨_, htracks'⟩, rfl, hhold⟩
  rintro b₁ ⟨⟨total₁, htracks₁⟩, horigin, hhold⟩
  have hle := (hold_emits hhold).1.le
  change Yields _ _ (b₁.en.curveTo x1 y1 x2 y2 (getSampleCount p m b₁.en.le) >>= _)
  rw [hle]
  apply ((curveTo_tracks x1 y1 x2 y2 _ htracks₁).and fun en hen => hen).bind
  rintro en ⟨htracks', hcurve⟩
  have hdraws := draws_curveTo hcurve
  exact ⟨⟨_, htracks'⟩, horigin, hdraws.le.trans hle, clean_iff hhold hdraws⟩

theorem blank_yields (h : b.Tracked) :
    Yields Overflow (fun b' => b'.Tracked ∧ b'.origin = b.origin ∧ b'.en.le = false ∧
      ∃ l, flagsOf b'.en.inst = flagsOf b.en.inst ++ l) (b.blank p) := by
  apply (hold_yields p.preBlankEmphasis h).bind
  rintro b' ⟨htracked, horigin, -, hflags⟩
  exact ⟨setLaser_tracked false htracked, horigin, rfl, hflags⟩

theorem unblank_yields (h : b.Tracked) :
    Yields Overflow (fun b' => b'.Tracked ∧ b'.origin = b.origin ∧ b'.en.le = true ∧
      ∃ l, flagsOf b'.en.inst = flagsOf b.en.inst ++ l) (b.unblank p x y) := by
  apply (hold_yields p.preStartEmphasis h).bind
  rintro b₁ ⟨htracked₁, horigin₁, -, l₁, hflags₁⟩
  apply (hold_yields p.postStartEmphasis (setLaser_tracked true htracked₁)).bind
  rintro b₂ ⟨htracked₂, horigin₂, hle₂, l₂, hflags₂⟩
  refine ⟨htracked₂, horigin₂.trans horigin₁, hle₂, l₁ ++ l₂, ?_⟩
  rw [← List.append_assoc, ← hflags₁]
  exact hflags₂

theorem start_yields (x y : ℚ) :
    Yields Overflow (fun b' => b'.Tracked ∧ b'.origin ≠ none ∧ b'.en.le = true)
      (({} : BeamAwareEncoder).start p x y) := by
  rw [start]
  apply (moveTo_tracks x y 1 tracks_fresh).bind
  intro en htracks
  apply (hold_yields p.preStartEmphasis (b := ⟨en, some (x, y), []⟩) ⟨_, htracks⟩).bind
  rintro b₁ ⟨htracked₁, horigin₁, -, -⟩
  apply (hold_yields (min 1 p.postStartEmphasis) (setLaser_tracked true htracked₁)).bind
  rintro b₂ ⟨htracked₂, horigin₂, hle₂, -⟩
  refine ⟨htracked₂, ?_, hle₂⟩
  change b₂.origin ≠ none
  rw [horigin₂.trans horigin₁]
  exact Option.some_ne_none _

end BeamAwareEncoder

namespace Stroke

def Lit (flags : List ℕ) (s : Stroke) : Prop :=
  ∀ i, s.first ≤ i → i < s.last → flags[i]? = some s.visible.toNat

variable {flags l : List ℕ}

theorem lit_append {s : Stroke} (h : s.last ≤ flags.length) :
    s.Lit (flags ++ l) ↔ s.Lit flags := by
  apply forall_congr'
  intro i
  apply imp_congr_right
  intro _
  apply imp_congr_right
  intro hi
  rw [List.getElem?_append_left (hi.trans_le h)]

theorem lit_last (visible : Bool) :
    Lit (flags ++ l) ⟨visible, flags.length, (flags ++ l).length⟩ ↔ ∀ f ∈ l, f = visible.toNat := by
  rw [List.forall_mem_iff_getElem]
  constructor
  · intro h i hi
    have hlt : flags.length + i < (flags ++ l).length := by
      rw [List.length_append]
      omega
    have hget := h (flags.length + i) (Nat.le_add_right ..) hlt
    rw [List.getElem?_append_right (Nat.le_add_right ..), Nat.add_sub_cancel_left,
      List.getElem?_eq_getElem hi, Option.some.injEq] at hget
    exact hget
  · intro h i hfirst hlast
    change flags.length ≤ i at hfirst
    change i < (flags ++ l).length at hlast
    have hi : i - flags.length < l.length := by
      rw [List.length_append] at hlast
      omega
    rw [List.getElem?_append_right hfirst, List.getElem?_eq_getElem hi, h _ hi]

end Stroke

namespace Drawing

open BeamAwareEncoder
open Encoder (Overflow homeWords)

variable (p : BeamParams) (m : Measures)

def Lights (d : Drawing) : BeamCommand → Prop
  | .moveTo x y => d.beam.CleanMove p m x y
  | .lineTo x1 y1 =>
    if d.beam.en.s = none then d.beam.CleanMove p m x1 y1 else d.beam.CleanLine p m x1 y1
  | .curveTo x1 y1 x2 y2 =>
    if d.beam.en.s = none then d.beam.CleanMove p m x2 y2 else d.beam.CleanCurve p m x1 y1 x2 y2

structure Ready (d : Drawing) : Prop where
  beam : d.beam = {} ∨ d.beam.Tracked ∧ d.beam.origin ≠ none ∧ d.beam.en.le = true
  strokes : ∀ s ∈ d.strokes, s.last ≤ countSamples d.beam.en.inst

variable {p m} {d : Drawing}

theorem right_iff (h : d.beam.Tracked) :
    d.Right ↔ ∀ s ∈ d.strokes, s.Lit (flagsOf d.beam.en.inst) := by
  obtain ⟨total, ⟨machine, hbehind⟩, -, -⟩ := h
  have hrun := hbehind.1
  rw [List.nil_append] at hrun
  have hflags (i : ℕ) :
      (machine.points[i]?).map Point.le = (flagsOf d.beam.en.inst)[i]? := by
    rw [← interpret_flags hrun, List.getElem?_map]
  constructor
  · rintro ⟨machine', hrun', hlit⟩ s hs i hfirst hlast
    rw [hrun, Except.ok.injEq] at hrun'
    subst hrun'
    rw [← hflags]
    exact hlit s hs i hfirst hlast
  · intro hlit
    refine ⟨machine, hrun, fun s hs i hfirst hlast => ?_⟩
    rw [hflags]
    exact hlit s hs i hfirst hlast

theorem right_traced {b b' b'' : BeamAwareEncoder} {l₀ l l₁ : List ℕ} (visible : Bool)
    (hbeam : d.beam.Tracked) (hstrokes : ∀ s ∈ d.strokes, s.last ≤ countSamples d.beam.en.inst)
    (hright : d.Right) (h₀ : flagsOf b.en.inst = flagsOf d.beam.en.inst ++ l₀)
    (h : flagsOf b'.en.inst = flagsOf b.en.inst ++ l)
    (h₁ : flagsOf b''.en.inst = flagsOf b'.en.inst ++ l₁) (htracked : b''.Tracked) :
    (∀ s ∈ d.traced visible b b', s.last ≤ countSamples b''.en.inst) ∧
      (Right { beam := b'', strokes := d.traced visible b b' } ↔ ∀ f ∈ l, f = visible.toNat) := by
  have hlength₀ := congrArg List.length h₀
  have hlength := congrArg List.length h
  have hlength₁ := congrArg List.length h₁
  simp only [List.length_append, length_flagsOf] at hlength₀ hlength hlength₁
  have hold (s : Stroke) (hs : s ∈ d.strokes) : s.Lit (flagsOf b''.en.inst) := by
    have hlast := hstrokes s hs
    rw [← length_flagsOf] at hlast
    rw [h₁, h, h₀, List.append_assoc, List.append_assoc, Stroke.lit_append hlast]
    exact (right_iff hbeam).mp hright s hs
  have hnew : Stroke.Lit (flagsOf b''.en.inst)
      ⟨visible, countSamples b.en.inst, countSamples b'.en.inst⟩ ↔ ∀ f ∈ l, f = visible.toNat := by
    rw [h₁, Stroke.lit_append (length_flagsOf b'.en.inst).ge, ← length_flagsOf, ← length_flagsOf, h]
    exact Stroke.lit_last visible
  constructor
  · intro s hs
    rw [traced, List.mem_append, List.mem_singleton] at hs
    rcases hs with hs | rfl
    · have hlast := hstrokes s hs
      omega
    · change countSamples b'.en.inst ≤ countSamples b''.en.inst
      omega
  · rw [right_iff htracked, traced, List.forall_mem_append, List.forall_mem_singleton, ← hnew]
    exact and_iff_right hold

theorem move_yields (x y : ℚ) (hd : d.Ready) (hright : d.Right) :
    Yields Overflow (fun d' => d'.Ready ∧ (d'.Right ↔ d.beam.CleanMove p m x y))
      (d.move p m x y) := by
  rw [move]
  split_ifs with horigin hlast
  · obtain hbeam | ⟨-, hne, -⟩ := hd.beam
    swap
    · exact absurd horigin hne
    have hstrokes := hd.strokes
    rw [hbeam] at hstrokes ⊢
    apply (start_yields x y).bind
    rintro b' ⟨htracked, horigin', hle⟩
    refine ⟨⟨Or.inr ⟨htracked, horigin', hle⟩, fun s hs => (hstrokes s hs).trans (Nat.zero_le _)⟩, ?_⟩
    refine iff_of_true ((right_iff htracked).mpr fun s hs i _ hi => ?_) (Or.inl rfl)
    exact absurd (hi.trans_le (hstrokes s hs)) (Nat.not_lt_zero i)
  · exact ⟨hd, iff_of_true hright (Or.inr (Or.inl hlast))⟩
  · obtain hbeam | ⟨htracked, -, -⟩ := hd.beam
    · rw [hbeam] at horigin
      exact absurd rfl horigin
    apply ((blank_yields htracked).and fun b hb => hb).bind
    rintro b ⟨⟨htracked₀, horigin₀, hle₀, l₀, h₀⟩, hblank⟩
    apply (line_yields htracked₀).bind
    rintro b' ⟨htracked', horigin', hle', l, h, hclean⟩
    apply (unblank_yields htracked').bind
    rintro b'' ⟨htracked₁, horigin₁, hle₁, l₁, h₁⟩
    obtain ⟨hstrokes, hlit⟩ := right_traced false htracked hd.strokes hright h₀ h h₁ htracked₁
    have horigin'' : b''.origin ≠ none := by
      rw [horigin₁, horigin', horigin₀]
      exact horigin
    refine ⟨⟨Or.inr ⟨htracked₁, horigin'', hle₁⟩, hstrokes⟩, hlit.trans ?_⟩
    rw [hle₀] at hclean
    rw [hclean, CleanMove, or_iff_right horigin, or_iff_right hlast]
    constructor
    · intro hline b₁ hb₁
      rw [hblank, Except.ok.injEq] at hb₁
      rw [← hb₁]
      exact hline
    · exact fun hall => hall b hblank

theorem visible_yields {Clean : Prop} {r : Except Error BeamAwareEncoder} (hd : d.Ready)
    (hright : d.Right) (hs : d.beam.en.s ≠ none)
    (h : d.beam.Tracked → Yields Overflow (fun b' => b'.Tracked ∧ b'.origin = d.beam.origin ∧
      b'.en.le = d.beam.en.le ∧ ∃ l, flagsOf b'.en.inst = flagsOf d.beam.en.inst ++ l ∧
        ((∀ f ∈ l, f = d.beam.en.le.toNat) ↔ Clean)) r) :
    Yields Overflow (fun d' : Drawing => d'.Ready ∧ (d'.Right ↔ Clean))
      (r >>= fun b => .ok { beam := b, strokes := d.traced true d.beam b }) := by
  obtain hbeam | ⟨htracked, horigin, hle⟩ := hd.beam
  · rw [hbeam] at hs
    exact absurd rfl hs
  apply (h htracked).bind
  rintro b' ⟨htracked', horigin', hle', l, hflags, hclean⟩
  obtain ⟨hstrokes, hlit⟩ := right_traced true htracked hd.strokes hright
    (List.append_nil _).symm hflags (List.append_nil _).symm htracked'
  rw [hle] at hclean
  rw [← horigin'] at horigin
  exact ⟨⟨Or.inr ⟨htracked', horigin, hle'.trans hle⟩, hstrokes⟩, hlit.trans hclean⟩

theorem perform_yields (c : BeamCommand) (hd : d.Ready) (hright : d.Right) :
    Yields Overflow (fun d' => d'.Ready ∧ (d'.Right ↔ d.Lights p m c)) (d.perform p m c) := by
  cases c with
  | moveTo x y => exact move_yields x y hd hright
  | lineTo x1 y1 =>
    rw [perform, Lights]
    split_ifs with hs
    · exact move_yields x1 y1 hd hright
    · exact visible_yields hd hright hs line_yields
  | curveTo x1 y1 x2 y2 =>
    rw [perform, Lights]
    split_ifs with hs
    · exact move_yields x2 y2 hd hright
    · exact visible_yields hd hright hs curve_yields

theorem ready_fresh : ({} : Drawing).Ready := ⟨Or.inl rfl, fun _ hs => by cases hs⟩

theorem right_fresh : ({} : Drawing).Right := ⟨_, rfl, fun _ hs => by cases hs⟩

def advance (p : BeamParams) (r : Except Error Drawing) (call : Measures × BeamCommand) :
    Except Error Drawing := do
  (← r).perform p call.1 call.2

/-- The laser is on exactly for the visible strokes, as long as every line and curve is clean in the
calls that come to an end. -/
theorem laser_visible (p : BeamParams) (calls : List (Measures × BeamCommand)) :
    Always (advance p) (Yields Overflow Right) (.ok {}) calls ↔
      Meets (advance p) (fun r call => ∀ d d', r = .ok d → d.perform p call.1 call.2 = .ok d' →
        d.Lights p call.1 call.2) (.ok {}) calls := by
  apply always_iff_meets_of (A := fun _ _ => True) (I := Yields Overflow Ready)
  · intro r call hready hright _
    cases r with
    | error e => exact hready
    | ok d => exact (perform_yields call.2 hready hright).mono fun d' h => h.1
  · intro r call hready hright _
    cases r with
    | error e => exact iff_of_true hready fun d d' h => by cases h
    | ok d =>
      have hstep := perform_yields (p := p) (m := call.1) call.2 hready hright
      change Yields Overflow Right (d.perform p call.1 call.2) ↔ _
      cases hperform : d.perform p call.1 call.2 with
      | error e =>
        rw [hperform] at hstep
        refine iff_of_true hstep fun d₁ d' h h' => ?_
        cases h
        rw [hperform] at h'
        cases h'
      | ok d' =>
        rw [hperform] at hstep
        refine Iff.trans hstep.2 ⟨fun hlights d₁ d₂ h _ => ?_, fun hall => hall d d' rfl hperform⟩
        cases h
        exact hlights
  · exact ready_fresh
  · exact right_fresh
  · exact .of_forall (fun _ _ => trivial) _ _

section Slowest

def slowest : BeamParams where
  speed := 1000
  hiddenSpeedMult := 1
  preStartEmphasis := 0
  postStartEmphasis := 0
  preBlankEmphasis := 0
  cornerEmphasis := 0
  speed_mem := by norm_num
  hiddenSpeedMult_mem := by norm_num
  preStartEmphasis_mem := by norm_num
  postStartEmphasis_mem := by norm_num
  preBlankEmphasis_mem := by norm_num
  cornerEmphasis_mem := by norm_num

def straightOn : List (Measures × BeamCommand) :=
  [(⟨0, 15 / 1024⟩, .lineTo (15 / 1024) 0), (⟨0, 15 / 1024⟩, .moveTo (30 / 1024) 0)]

def lineWord (scnt : ℕ) : Word := pack { reg := REG_DS, le := 1, scnt := scnt, x := 240 }

def begun : Drawing where
  beam.en :=
    { inst := homeWords 1, s := some (0, 0), ds := some (0, 0), dds := some (0, 0), le := true }
  beam.origin := some (0, 0)
  beam.history := [(0, 0), (0, 0)]

def drawn : Drawing where
  beam.en :=
    { inst := homeWords 1 ++ [lineWord 1], s := some (15 / 1024, 0), ds := some (15 / 1024, 0),
      dds := some (0, 0), le := true }
  beam.origin := some (0, 0)
  beam.history := [(0, 0), (0, 0), (15 / 1024, 0)]
  strokes := [⟨true, 1, 2⟩]

def moved : Drawing where
  beam.en :=
    { inst := homeWords 1 ++ [lineWord 2], s := some (30 / 1024, 0), ds := some (15 / 1024, 0),
      dds := some (0, 0), le := true }
  beam.origin := some (0, 0)
  beam.history := [(15 / 1024, 0), (30 / 1024, 0), (30 / 1024, 0)]
  strokes := [⟨true, 1, 2⟩, ⟨false, 2, 3⟩]

theorem advance_begun : advance slowest (.ok {}) (⟨0, 0⟩, .moveTo 0 0) = .ok begun := by
  change (start slowest 0 0 {} >>= _) = _
  rw [start]
  dsimp only
  rw [Encoder.moveTo_home]
  with_unfolding_all rfl

theorem advance_drawn :
    advance slowest (.ok begun) (⟨0, 15 / 1024⟩, .lineTo (15 / 1024) 0) = .ok drawn := by
  let e : Encoder :=
    { begun.beam.en with inst := homeWords 1 ++ [lineWord 0], ds := some (15 / 1024, 0) }
  have hline : begun.beam.line slowest ⟨0, 15 / 1024⟩ (15 / 1024) 0 = e.emit 1 >>= fun en =>
      .ok { drawn.beam with en := en } := by with_unfolding_all rfl
  have hemit : e.emit 1 = .ok drawn.beam.en := by
    have hsim : e.simulate 1 = .ok { e with s := some (15 / 1024, 0) } := by
      with_unfolding_all rfl
    have hinst : e.inst = homeWords 1 ++ [lineWord 0] := rfl
    rw [Encoder.emit_one hsim hinst (by decide)]
    with_unfolding_all rfl
  change (begun.beam.line slowest ⟨0, 15 / 1024⟩ (15 / 1024) 0 >>= _) = _
  rw [hline, hemit]
  with_unfolding_all rfl

theorem hidden_straightOn :
    Encoder.lineTo (30 / 1024) 0 1 { drawn.beam.en with le := false } =
      .ok { moved.beam.en with le := false } := by
  let e : Encoder := { drawn.beam.en with le := false }
  have hdds : e.setDDS 0 0 = .ok e := Encoder.setReg_of_not_differs (by decide +kernel)
  have hds : e.setDS (1 / (1 : ℕ) * (30 / 1024 - 15 / 1024)) (1 / (1 : ℕ) * (0 - 0)) = .ok e :=
    Encoder.setReg_of_not_differs (by decide +kernel)
  have hemit : e.emit 1 = .ok { moved.beam.en with le := false } := by
    have hpoint : (15 / 1024, 0) + (15 / 1024, 0) = ((30 / 1024, 0) : ℚ × ℚ) := by norm_num
    have hsim : e.simulate 1 = .ok { e with s := some (30 / 1024, 0) } := by
      rw [← hpoint]
      with_unfolding_all rfl
    have hinst : e.inst = homeWords 1 ++ [lineWord 1] := rfl
    rw [Encoder.emit_one hsim hinst (by decide)]
    with_unfolding_all rfl
  rw [Encoder.lineTo, if_neg one_ne_zero, hdds]
  change (e.setDS _ _ >>= _) = _
  rw [hds]
  exact hemit

theorem advance_moved :
    advance slowest (.ok drawn) (⟨0, 15 / 1024⟩, .moveTo (30 / 1024) 0) = .ok moved := by
  let b : BeamAwareEncoder := { drawn.beam with en := { drawn.beam.en with le := false } }
  have hblank : drawn.beam.blank slowest = .ok b := by with_unfolding_all rfl
  have hcorner : (b.rememberPoint (30 / 1024) 0).emphasizeCorner slowest ⟨0, 15 / 1024⟩ =
      .ok (b.rememberPoint (30 / 1024) 0) := by with_unfolding_all rfl
  have hcount : getSampleCount slowest ⟨0, 15 / 1024⟩ false = 1 := by decide +kernel
  have hline : b.line slowest ⟨0, 15 / 1024⟩ (30 / 1024) 0 =
      .ok { b.rememberPoint (30 / 1024) 0 with en := { moved.beam.en with le := false } } := by
    rw [line, hcorner]
    change (b.en.lineTo _ _ (getSampleCount _ _ false) >>= _) = _
    rw [hcount, hidden_straightOn]
    rfl
  change drawn.move slowest ⟨0, 15 / 1024⟩ (30 / 1024) 0 = _
  rw [move, if_neg (by decide), if_neg (by decide +kernel), hblank]
  change (b.line _ _ _ _ >>= _) = _
  rw [hline]
  with_unfolding_all rfl

/-- Without samples to blank the beam, the hidden line is drawn with the instruction of the line
before it. -/
theorem laser_not_visible :
    ¬ ∀ (p : BeamParams) (m : Measures) (x y : ℚ) (calls : List (Measures × BeamCommand)),
      Always (advance p) (Yields Overflow Right) (.ok {}) ((m, .moveTo x y) :: calls) := by
  intro h
  have hlast := (h slowest ⟨0, 0⟩ 0 0 straightOn).last
  rw [straightOn, List.foldl_cons, List.foldl_cons, List.foldl_cons, List.foldl_nil, advance_begun,
    advance_drawn, advance_moved] at hlast
  obtain ⟨m, hrun, hlit⟩ := hlast
  have hflags : (flagsOf moved.beam.en.inst)[2]? = some 1 := by decide
  have hstroke := hlit ⟨false, 2, 3⟩ (List.mem_cons_of_mem _ List.mem_cons_self) 2 le_rfl (by decide)
  rw [← List.getElem?_map, interpret_flags hrun, hflags] at hstroke
  exact absurd hstroke (by decide)

end Slowest

end Drawing

end NaviMisc.LaserProp
