import NaviMisc.LaserProp.Flags
import NaviMisc.Lib.Runs

/-!
The encoder that blanks the beam by itself (client/VectorMachine.py). Distances and angles are
measured in floating point there, and given with each call here.
-/

namespace NaviMisc.LaserProp

open NaviMisc.Lib NaviMisc.Lib.Outcome NaviMisc.Lib.Rounding NaviMisc.Lib.Runs

def SAMPLE_HZ : ℕ := 40000

structure BeamParams where
  speed : ℚ
  hiddenSpeedMult : ℚ
  preStartEmphasis : ℚ
  postStartEmphasis : ℚ
  preBlankEmphasis : ℚ
  cornerEmphasis : ℚ
  speed_mem : 1000 ≤ speed ∧ speed ≤ 300000
  hiddenSpeedMult_mem : 1 ≤ hiddenSpeedMult ∧ hiddenSpeedMult ≤ 10
  preStartEmphasis_mem : 0 ≤ preStartEmphasis ∧ preStartEmphasis ≤ 200
  postStartEmphasis_mem : 0 ≤ postStartEmphasis ∧ postStartEmphasis ≤ 200
  preBlankEmphasis_mem : 0 ≤ preBlankEmphasis ∧ preBlankEmphasis ≤ 200
  cornerEmphasis_mem : 0 ≤ cornerEmphasis ∧ cornerEmphasis ≤ 1000

/-- `int(nSamples)` of what is never negative. -/
def samples (q : ℚ) : ℕ := (truncate q).toNat

/-- What `math` finds out for a call: the angle at the corner and the length of the stroke. -/
structure Measures where
  angle : ℚ≥0
  distance : ℚ≥0

structure BeamAwareEncoder where
  en : Encoder := {}
  origin : Option (ℚ × ℚ) := none
  history : List (ℚ × ℚ) := []

namespace BeamAwareEncoder

variable (p : BeamParams) (m : Measures)

def rememberPoint (x y : ℚ) (b : BeamAwareEncoder) : BeamAwareEncoder :=
  let history := b.history ++ [(x, y)]
  { b with history := history.drop (history.length - 3) }

def calculateAngle (history : List (ℚ × ℚ)) : ℚ := if history.length < 3 then 0 else m.angle

def hold (nSamples : ℚ) (b : BeamAwareEncoder) : Except Error BeamAwareEncoder := do
  .ok { b with en := ← b.en.hold (samples nSamples) }

def setLaser (le : Bool) (b : BeamAwareEncoder) : BeamAwareEncoder :=
  { b with en := { b.en with le := le } }

def emphasizeCorner (b : BeamAwareEncoder) : Except Error BeamAwareEncoder :=
  b.hold (calculateAngle m b.history * p.cornerEmphasis)

def getSampleCount (le : Bool) : ℕ :=
  let s := if le then p.speed else p.speed * p.hiddenSpeedMult
  samples (m.distance / s * SAMPLE_HZ + 1 / 2)

/-- `lineTo` where there is a source point. -/
def line (x1 y1 : ℚ) (b : BeamAwareEncoder) : Except Error BeamAwareEncoder := do
  let b ← (b.rememberPoint x1 y1).emphasizeCorner p m
  .ok { b with en := ← b.en.lineTo x1 y1 (getSampleCount p m b.en.le) }

def curve (x1 y1 x2 y2 : ℚ) (b : BeamAwareEncoder) : Except Error BeamAwareEncoder := do
  let b ← (b.rememberPoint x1 y1).emphasizeCorner p m
  let b := b.rememberPoint x2 y2
  .ok { b with en := ← b.en.curveTo x1 y1 x2 y2 (getSampleCount p m b.en.le) }

def start (x y : ℚ) (b : BeamAwareEncoder) : Except Error BeamAwareEncoder := do
  let b := { b with origin := some (x, y) }
  let b : BeamAwareEncoder := { b with en := ← b.en.moveTo x y 1 }
  let b ← b.hold p.preStartEmphasis
  let b ← (b.setLaser true).hold (min 1 p.postStartEmphasis)
  .ok ((b.rememberPoint x y).rememberPoint x y)

def blank (b : BeamAwareEncoder) : Except Error BeamAwareEncoder := do
  let b ← b.hold p.preBlankEmphasis
  .ok (b.setLaser false)

def unblank (x y : ℚ) (b : BeamAwareEncoder) : Except Error BeamAwareEncoder := do
  let b ← b.hold p.preStartEmphasis
  let b ← (b.setLaser true).hold p.postStartEmphasis
  .ok (b.rememberPoint x y)

def moveTo (x y : ℚ) (b : BeamAwareEncoder) : Except Error BeamAwareEncoder :=
  if b.origin = none then
    b.start p x y
  else if b.history.getLast? = some (x, y) then
    .ok b
  else do
    let b ← b.blank p
    let b ← b.line p m x y
    b.unblank p x y

def lineTo (x1 y1 : ℚ) (b : BeamAwareEncoder) : Except Error BeamAwareEncoder :=
  if b.en.s = none then b.moveTo p m x1 y1 else b.line p m x1 y1

def curveTo (x1 y1 x2 y2 : ℚ) (b : BeamAwareEncoder) : Except Error BeamAwareEncoder :=
  if b.en.s = none then b.moveTo p m x2 y2 else b.curve p m x1 y1 x2 y2

end BeamAwareEncoder

inductive BeamCommand
  | moveTo (x y : ℚ)
  | lineTo (x1 y1 : ℚ)
  | curveTo (x1 y1 x2 y2 : ℚ)

open BeamAwareEncoder

def BeamCommand.call (p : BeamParams) (m : Measures) (b : BeamAwareEncoder) :
    BeamCommand → Except Error BeamAwareEncoder
  | .moveTo x y => b.moveTo p m x y
  | .lineTo x1 y1 => b.lineTo p m x1 y1
  | .curveTo x1 y1 x2 y2 => b.curveTo p m x1 y1 x2 y2

/-- The samples from `first` up to `last`, which belong to a stroke. -/
structure Stroke where
  visible : Bool
  first : ℕ
  last : ℕ

structure Drawing where
  beam : BeamAwareEncoder := {}
  strokes : List Stroke := []

namespace Drawing

def traced (d : Drawing) (visible : Bool) (b b' : BeamAwareEncoder) : List Stroke :=
  d.strokes ++ [⟨visible, countSamples b.en.inst, countSamples b'.en.inst⟩]

variable (p : BeamParams) (m : Measures)

def move (x y : ℚ) (d : Drawing) : Except Error Drawing :=
  if d.beam.origin = none then do
    .ok { d with beam := ← d.beam.start p x y }
  else if d.beam.history.getLast? = some (x, y) then
    .ok d
  else do
    let b ← d.beam.blank p
    let b' ← b.line p m x y
    .ok { beam := ← b'.unblank p x y, strokes := d.traced false b b' }

def perform (d : Drawing) : BeamCommand → Except Error Drawing
  | .moveTo x y => d.move p m x y
  | .lineTo x1 y1 =>
    if d.beam.en.s = none then d.move p m x1 y1
    else do
      let b ← d.beam.line p m x1 y1
      .ok { beam := b, strokes := d.traced true d.beam b }
  | .curveTo x1 y1 x2 y2 =>
    if d.beam.en.s = none then d.move p m x2 y2
    else do
      let b ← d.beam.curve p m x1 y1 x2 y2
      .ok { beam := b, strokes := d.traced true d.beam b }

/-- The points of each stroke have the laser on if it is one of the lines and curves asked for, and
off if it is hidden. -/
def Right (d : Drawing) : Prop :=
  ∃ m, interpret d.beam.en.inst 1 = .ok m ∧ ∀ s ∈ d.strokes, ∀ i, s.first ≤ i → i < s.last →
    (m.points[i]?).map Point.le = some s.visible.toNat

end Drawing

end NaviMisc.LaserProp
