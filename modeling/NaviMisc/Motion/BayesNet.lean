import NaviMisc.Lib.Tally
import NaviMisc.Motion.Combinatoric
import NaviMisc.Motion.MotionGraphCounts

/-!
`BayesAdjacency` of `Graph/Combinatoric.py`: successors of a pose filtered by a Bayes net. The
dictionary `current` is the same one in all branches of the recursion.
-/

namespace NaviMisc.Motion

open NaviMisc.Lib.Generator

abbrev Bone := String

variable {V M : Type} [DecidableEq V]

structure BayesAdjacency (V M : Type) [DecidableEq V] where
  order : List Bone
  parents : Bone → Option Bone
  dof : Bone → Bool
  data : Bone → Component V
  bayes : Bone → M × M → Option ℚ
  epsilon : ℚ
  mins : V → M

namespace BayesAdjacency

open Combinatoric

def attach (parent : Bone) (s : List Bone × (Bone → Option Bone)) (child : Bone) :
    List Bone × (Bone → Option Bone) :=
  (if parent ∈ s.1 ∧ child ∉ s.1 then s.1 ++ [child] else s.1,
    Function.update s.2 child (some parent))

def setOrder (hierarchy : List (List Bone)) : List Bone × (Bone → Option Bone) :=
  hierarchy.foldl (fun s group =>
    match group with
    | [] => s
    | parent :: children => children.foldl (attach parent) s) (["root"], fun _ => none)

structure Outcome (V : Type) where
  yielded : List (Dict Bone V)
  current : Dict Bone V
  raised : Option Error

def forEach (f : V → Dict Bone V → Outcome V) : List V → Dict Bone V → Outcome V
  | [], current => ⟨[], current, none⟩
  | v :: vs, current =>
    match f v current with
    | ⟨yielded, current, some e⟩ => ⟨yielded, current, some e⟩
    | ⟨yielded, current, none⟩ =>
      let rest := forEach f vs current
      ⟨yielded ++ rest.yielded, rest.current, rest.raised⟩

def skips (b : BayesAdjacency V M) (bone : Bone) : Bool := bone ≠ "root" ∧ ¬ b.dof bone

def probability (b : BayesAdjacency V M) (bone : Bone) (ppos v : V) : ℚ :=
  (b.bayes bone (b.mins ppos, b.mins v)).getD 0

def filter (b : BayesAdjacency V M) (u : Dict Bone V) :
    List Bone → Dict Bone V → ℚ → Outcome V
  | [], current, _ => ⟨[], current, some .indexError⟩
  | bone :: order, current, prob =>
    if b.skips bone then filter b u order current prob
    else
      let ppos := (b.parents bone).bind current
      match u bone with
      | none => ⟨[], current, some .keyError⟩
      | some x =>
        forEach (fun v current =>
          let current := current.set bone v
          match ppos with
          | none =>
            if order ≠ [] then filter b u order current prob else ⟨[current], current, none⟩
          | some ppos =>
            let newProb := prob * b.probability bone ppos v
            if newProb ≥ b.epsilon then
              if order ≠ [] then filter b u order current newProb
              else ⟨[current], current, none⟩
            else ⟨[], current, none⟩)
          (((b.data bone).query x).map Prod.snd) current

def query (b : BayesAdjacency V M) (u : Dict Bone V) : Gen Error (Dict Bone V × Dict Bone V) :=
  let out := b.filter u b.order Dict.empty 1
  ⟨out.yielded.map fun v => (u, v), out.raised⟩

def kept (b : BayesAdjacency V M) (order : List Bone) : List Bone :=
  order.filter fun bone => !b.skips bone

def items (b : BayesAdjacency V M) : List (Bone × Component V) :=
  (b.kept b.order).map fun bone => (bone, b.data bone)

def factor (b : BayesAdjacency V M) (d : Dict Bone V) (bone : Bone) : ℚ :=
  match (b.parents bone).bind d, d bone with
  | some ppos, some v => b.probability bone ppos v
  | _, _ => 1

def weight (b : BayesAdjacency V M) (d : Dict Bone V) (order : List Bone) : ℚ :=
  ((b.kept order).map (b.factor d)).prod

/-- The order of a skeleton: from the root on, each bone after its parent. -/
structure Ordered (b : BayesAdjacency V M) : Prop where
  root : b.order.head? = some "root"
  nodup : b.order.Nodup
  parents : ∀ pre bone post, b.order = pre ++ bone :: post →
    ∀ parent, b.parents bone = some parent → parent ∈ pre

def Accepted (b : BayesAdjacency V M) (u v : Dict Bone V) : Prop :=
  IsEdge b.items u v ∧ b.epsilon ≤ b.weight v b.order

end BayesAdjacency

end NaviMisc.Motion

/-!
`build_bayes` of `Graph/MotionGraph.py`: for each bone a table of how often its cell was seen with
that of its parent.
-/

namespace NaviMisc.Motion.MotionGraph

open NaviMisc.Lib.Tally

structure AMC where
  bones : Dict Bone MotionArray

def AMC.get (amc : AMC) (bone : Bone) : Except Raised MotionArray :=
  match amc.bones bone with
  | some d => .ok d
  | none => .error .keyError

/-- Whether a bone is `in amcs[0].bones`. -/
def inMocap (amcs : List AMC) (bone : Bone) : Except Raised Bool :=
  match amcs with
  | [] => .error .indexError
  | amc :: _ => .ok (amc.bones bone).isSome

abbrev Spot := List ℤ × List ℤ
abbrev BayesNet := List (Spot × ℚ)

def lone (interval : ℕ) (c : List ℚ) : Spot := ([], discretize c interval)

/-- The slice `-3:` of the parent. -/
def spot (interval : ℕ) (p c : List ℚ) : Spot :=
  (discretize (p.drop (p.length - 3)) interval, discretize c interval)

def assign (parent : Bone) (children : List Bone) :
    List (Bone × List Bone) → List (Bone × List Bone)
  | [] => [(parent, children)]
  | (p, cs) :: d => if p = parent then (p, children) :: d else (p, cs) :: assign parent children d

def gatherGroup (amcs : List AMC) (s : List (Bone × List Bone) × Dict Bone BayesNet) :
    List Bone → Except Raised (List (Bone × List Bone) × Dict Bone BayesNet)
  | [] => .error .indexError
  | parent :: children =>
    if parent = "" then .ok s
    else do
      let nets ← children.foldlM (fun nets child => do
        let moves ← inMocap amcs child
        return if moves then nets.set child [] else nets) s.2
      return (assign parent children s.1, nets)

def countAlone (interval : ℕ) (bone : Bone) (s : BayesNet × ℕ) (amc : AMC) :
    Except Raised (BayesNet × ℕ) := do
  let d ← amc.get bone
  return (d.rows.foldl (fun net row => bump (lone interval row) net) s.1, s.2 + d.rows.length)

def countRoot (interval : ℕ) (s : BayesNet × ℕ) (amc : AMC) : Except Raised (BayesNet × ℕ) := do
  let d ← amc.get "root"
  return (d.rows.foldl (fun net row => bump (lone interval ((row.take 6).drop 3)) net) s.1,
    s.2 + d.rows.length)

def countFrames (interval : ℕ) (net : BayesNet) :
    List (List ℚ) → List (List ℚ) → Except Raised BayesNet
  | [], _ => .ok net
  | _ :: _, [] => .error .indexError
  | p :: ps, c :: cs => countFrames interval (bump (spot interval p c) net) ps cs

def countWithParent (interval : ℕ) (parent child : Bone) (s : BayesNet × ℕ) (amc : AMC) :
    Except Raised (BayesNet × ℕ) := do
  let pbone ← amc.get parent
  let cbone ← amc.get child
  let net ← countFrames interval s.1 pbone.rows cbone.rows
  return (net, s.2 + cbone.rows.length)

def probabilities (s : BayesNet × ℕ) : Except Raised BayesNet :=
  if s.2 = 0 ∧ s.1 ≠ [] then .error .zeroDivisionError else .ok (divide s.2 s.1)

def getNet (nets : Dict Bone BayesNet) (bone : Bone) : Except Raised BayesNet :=
  match nets bone with
  | some net => .ok net
  | none => .error .keyError

def countChild (amcs : List AMC) (interval : ℕ) (parent child : Bone) (net : BayesNet) :
    Except Raised (BayesNet × ℕ) := do
  let parentMoves ← inMocap amcs parent
  if parentMoves then amcs.foldlM (countWithParent interval parent child) (net, 0)
  else amcs.foldlM (countAlone interval child) (net, 0)

def childNet (amcs : List AMC) (interval : ℕ) (parent : Bone) (nets : Dict Bone BayesNet)
    (child : Bone) : Except Raised (Dict Bone BayesNet) := do
  let moves ← inMocap amcs child
  if moves then
    let net ← getNet nets child
    let s ← countChild amcs interval parent child net
    let net ← probabilities s
    return nets.set child net
  else return nets

/-- `listing` is the order in which the items of a dictionary come. -/
def buildBayes (listing : List (Bone × List Bone) → List (Bone × List Bone))
    (hierarchy : List (List Bone)) (amcs : List AMC) (interval : ℕ) :
    Except Raised (Dict Bone BayesNet) := do
  let (relationships, nets) ← hierarchy.foldlM (gatherGroup amcs) ([], Dict.empty)
  let s ← amcs.foldlM (countRoot interval) ([], 0)
  let net ← probabilities s
  (listing relationships).foldlM (fun nets group =>
    group.2.foldlM (childNet amcs interval group.1) nets) (nets.set "root" net)

end NaviMisc.Motion.MotionGraph

/-!
The cells of the Bayes nets and of the graphs of motion: `build_bayes` does not reduce the angles
modulo a full turn, and it always takes the last three of the parent.
-/

namespace NaviMisc.Motion.MotionGraph

open NaviMisc.Lib.Rounding NaviMisc.Lib.Tally

variable {interval : ℕ}

def Fits (interval : ℕ) (x : ℚ) : Prop :=
  x < 360 ∨ x < interval ∨ interval ∣ 360 ∧ x < 360 + interval

def floorCell (interval : ℕ) (x : ℚ) : ℤ := ⌊x / interval⌋ * interval

theorem floorCell_le (hinterval : 1 ≤ interval) (x : ℚ) : (floorCell interval x : ℚ) ≤ x :=
  mul_floor_le hinterval x

theorem lt_floorCell_add (hinterval : 1 ≤ interval) (x : ℚ) :
    x < floorCell interval x + interval := by
  have hpos : (0 : ℚ) < interval := by exact_mod_cast hinterval
  have hlt := (div_lt_iff₀ hpos).mp (Int.lt_floor_add_one (x / interval))
  rw [floorCell]
  push_cast
  linarith

theorem floorCell_eq (hinterval : 1 ≤ interval) {x : ℚ} {k : ℕ} (hle : (k * interval : ℚ) ≤ x)
    (hlt : x < k * interval + interval) : floorCell interval x = k * interval := by
  have hpos : (0 : ℚ) < interval := by exact_mod_cast hinterval
  have hfloor : ⌊x / interval⌋ = k := by
    rw [Int.floor_eq_iff]
    constructor
    · exact (le_div_iff₀ hpos).mpr (by exact_mod_cast hle)
    · rw [div_lt_iff₀ hpos]
      push_cast
      linarith
  rw [floorCell, hfloor]

theorem floorCell_turn (x : ℚ) : floorCell interval (turn 360 x) = cell interval x := rfl

theorem turn_le_sub {x : ℚ} (h : 360 ≤ x) : turn 360 x ≤ x - 360 := by
  have hfloor : (1 : ℤ) ≤ ⌊x / 360⌋ := Int.le_floor.mpr (by norm_num; linarith)
  have hcast : (1 : ℚ) ≤ ⌊x / 360⌋ := by exact_mod_cast hfloor
  rw [turn_eq_sub (by norm_num)]
  linarith

theorem cell_eq_zero {x : ℚ} (hinterval : 1 ≤ interval) (h : turn 360 x < interval) :
    cell interval x = 0 := by
  have hnonneg : 0 ≤ turn 360 x := turn_nonneg (by norm_num)
  have hcell := floorCell_eq (k := 0) hinterval (by simpa using hnonneg) (by simpa using h)
  rw [floorCell_turn] at hcell
  simpa using hcell

theorem fix360_eq_cell_iff (hinterval : 1 ≤ interval) (x : ℚ) :
    fix360 (⌊fixnegative x / interval⌋ * interval) = cell interval x ↔ Fits interval x := by
  rcases lt_or_ge x 360 with hlt | hge
  · rw [fixnegative_of_lt hlt]
    exact iff_of_true (fix360_cell hinterval x) (.inl hlt)
  · rw [fixnegative_of_nonneg (by linarith)]
    change fix360 (floorCell interval x) = _ ↔ _
    have hturn := turn_le_sub hge
    constructor
    · intro heq
      by_contra hfits
      rw [Fits, not_or, not_or, not_lt, not_lt, not_and, not_lt] at hfits
      obtain ⟨-, hinterval', hdvd⟩ := hfits
      have hle := floorCell_le hinterval x
      have hlt := lt_floorCell_add hinterval x
      by_cases h360 : floorCell interval x = 360
      · have hdvd' : interval ∣ 360 := by
          rw [← Int.natCast_dvd_natCast]
          exact ⟨_, (h360.symm.trans (mul_comm _ _))⟩
        rw [h360] at hlt
        exact absurd (hdvd hdvd') (not_le.mpr (by exact_mod_cast hlt))
      · rw [fix360, if_neg h360] at heq
        have hcell : (cell interval x : ℚ) ≤ turn 360 x := mul_floor_le hinterval _
        have hbound := cell_lt hinterval x
        rw [← heq] at hcell hbound
        have hbound' : (floorCell interval x : ℚ) < 360 := by exact_mod_cast hbound
        have hone : (1 : ℤ) ≤ ⌊x / interval⌋ := by
          have hpos : (0 : ℚ) < interval := by exact_mod_cast hinterval
          rw [Int.le_floor, le_div_iff₀ hpos]
          push_cast
          linarith
        have hpos : (interval : ℤ) ≤ floorCell interval x :=
          le_mul_of_one_le_left (Int.natCast_nonneg _) hone
        have hpos' : (interval : ℚ) ≤ floorCell interval x := by exact_mod_cast hpos
        linarith
    · rintro (hlt | hlt | ⟨⟨k, hk⟩, hlt⟩)
      · exact absurd hlt (not_lt.mpr hge)
      · rw [cell_eq_zero hinterval (by linarith),
          floorCell_eq (k := 0) hinterval (by norm_num; linarith) (by norm_num; exact hlt)]
        norm_num [fix360]
      · have hcast : (360 : ℚ) = k * interval := by
          rw [mul_comm]
          exact_mod_cast hk
        rw [cell_eq_zero hinterval (by linarith), floorCell_eq (k := k) hinterval
          (by rw [← hcast]; exact hge) (by rw [← hcast]; exact hlt)]
        have hcast' : (k * interval : ℤ) = 360 := by
          rw [mul_comm]
          exact_mod_cast hk.symm
        rw [hcast', fix360, if_pos rfl]

theorem discretize_eq_iff (hinterval : 1 ≤ interval) (point : List ℚ) :
    discretize point interval = point.map (cell interval) ↔ ∀ x ∈ point, Fits interval x := by
  rw [discretize_eq_map, List.map_inj_left]
  apply forall₂_congr
  intro x _
  exact fix360_eq_cell_iff hinterval x

/-! The slices. -/

def used (key : String) (row : List ℚ) : List ℚ :=
  if key = "root" then (row.take 6).drop 3 else row

theorem rows_columns (key : String) (d : MotionArray) :
    (columns key d).rows = d.rows.map (used key) := by
  rw [columns]
  split_ifs with hkey
  · have hused : used key = fun row => (row.take 6).drop 3 := by
      funext row
      exact if_pos hkey
    rw [hused]
    rfl
  · have hused : used key = id := by
      funext row
      exact if_neg hkey
    rw [hused, List.map_id]

theorem last_eq_used {parent : Bone} {p : List ℚ} (hroot : parent = "root" → p.length = 6)
    (hthree : parent = "root" ∨ p.length ≤ 3) : p.drop (p.length - 3) = used parent p := by
  rw [used]
  split_ifs with hparent
  · rw [hroot hparent, List.take_of_length_le (hroot hparent).le]
  · rw [Nat.sub_eq_zero_of_le (hthree.resolve_left hparent), List.drop_zero]

theorem spot_eq_iff (hinterval : 1 ≤ interval) {parent child : Bone} {p c : List ℚ}
    (hroot : parent = "root" → p.length = 6) (hchild : child ≠ "root") :
    spot interval p c =
        ((frameNode interval (used parent p)).mins, (frameNode interval (used child c)).mins) ↔
      (parent = "root" ∨ p.length ≤ 3) ∧ (∀ x ∈ used parent p, Fits interval x) ∧
        ∀ x ∈ c, Fits interval x := by
  have hused : used child c = c := if_neg hchild
  rw [spot, hused, frameNode, frameNode, motionGraphNode, motionGraphNode, Prod.mk.injEq,
    discretize_eq_iff hinterval, ← and_assoc]
  apply and_congr_left
  intro _
  constructor
  · intro heq
    have hlength := congrArg List.length heq
    rw [discretize_eq_map, List.length_map, List.length_map, List.length_drop] at hlength
    have hthree : parent = "root" ∨ p.length ≤ 3 := by
      by_cases hparent : parent = "root"
      · exact .inl hparent
      · rw [used, if_neg hparent] at hlength
        exact .inr (by omega)
    rw [last_eq_used hroot hthree] at heq
    exact ⟨hthree, (discretize_eq_iff hinterval _).mp heq⟩
  · rintro ⟨hthree, hfits⟩
    rw [last_eq_used hroot hthree]
    exact (discretize_eq_iff hinterval _).mpr hfits

end NaviMisc.Motion.MotionGraph
