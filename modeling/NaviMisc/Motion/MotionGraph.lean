import NaviMisc.Lib.Rounding
import NaviMisc.Motion.Graph

/-!
Graphs of motion (`Graph/MotionGraph.py`): the cells angles fall into, and the transitions between
them that are counted along the frames. Angles are exact rationals.
-/

namespace NaviMisc.Motion.MotionGraph

open NaviMisc.Lib.Rounding

inductive Raised
  | indexError
  | keyError
  | runtimeError
  | valueError
  | zeroDivisionError
  deriving DecidableEq

def Raised.ofFault : Fault → Raised
  | .keyError => .keyError
  | .valueError => .valueError

structure MotionArray where
  rows : List (List ℚ)
  width : ℕ
  length_row : ∀ row ∈ rows, row.length = width

/-- `range (0, 360, angle)` -/
def degrees (angle : ℕ) : Except Raised (List ℤ) :=
  if angle = 0 then .error .valueError
  else .ok ((List.range ((360 + angle - 1) / angle)).map fun i : ℕ => (i * angle : ℤ))

def cpRange (angle : ℕ) : ℕ → Except Raised (List (List ℤ))
  | 0 => do
    let _ ← degrees angle
    .error .runtimeError
  | 1 => do
    let xs ← degrees angle
    return xs.map fun x => [x]
  | dof + 2 => do
    let xs ← degrees angle
    let ys ← cpRange angle (dof + 1)
    return xs.flatMap fun x => ys.map fun y => y ++ [x]

def fixnegative (x : ℚ) : ℚ := if x < 0 then fixnegative (x + 360) else x
termination_by ⌈-x⌉.toNat
decreasing_by
  rename_i h
  have hceil : ⌈-(x + 360)⌉ = ⌈-x⌉ - 360 := by
    rw [← Int.ceil_sub_ofNat]
    congr 1
    ring
  have hpos : 0 < ⌈-x⌉ := Int.ceil_pos.mpr (by linarith)
  omega

def fix360 (x : ℤ) : ℤ := if x = 360 then 0 else x

def discretize (point : List ℚ) (interval : ℕ) : List ℤ :=
  ((point.map fixnegative).map fun n => truncate (n / interval) * interval).map fix360

structure MotionGraphNode where
  mins : List ℤ
  maxs : List ℤ
  deriving DecidableEq

def motionGraphNode (interval : ℕ) (angle : List ℤ) : MotionGraphNode :=
  ⟨angle, angle.map (· + interval)⟩

abbrev Nodes := List (List ℤ × MotionGraphNode)

def nodesOf (interval : ℕ) (angles : List (List ℤ)) : Nodes :=
  angles.map fun angle => (angle, motionGraphNode interval angle)

def Nodes.get (nodes : Nodes) (bases : List ℤ) : Except Raised MotionGraphNode :=
  match nodes.lookup bases with
  | some node => .ok node
  | none => .error .keyError

/-- A graph with its representations, and the attributes of its edges, of which there is never more
than one between the same two vertices. -/
structure Build (V : Type) where
  store : State V V
  count : V × V → ℕ
  weight : V × V → Option ℚ

namespace Build

variable {V : Type} [DecidableEq V]

def empty : Build V := ⟨.empty, fun _ => 0, fun _ => none⟩

def probabilityEdge (s : Build V) (u v : V) : Build V :=
  { s with
    count := Function.update s.count (u, v) 0
    weight := Function.update s.weight (u, v) none }

def visit (s : Build V) (edge : Edge V) : Build V :=
  { s with count := Function.update s.count (edge.u, edge.v) (s.count (edge.u, edge.v) + 1) }

def normalize (s : Build V) (edge : Edge V) (total : ℕ) : Except Raised (Build V) :=
  if total = 0 then .error .zeroDivisionError
  else .ok { s with
    weight := Function.update s.weight (edge.u, edge.v) (some (s.count (edge.u, edge.v) / total)) }

variable (hash : V × V → ℤ) (order : List Representation)

def query (s : Build V) (u v : V) : Option (Edge V) := s.store.graph.edgeList.query hash (u, v)

def add (s : Build V) (edge : Edge V) : Except Raised (Build V) :=
  let store := step id hash order s.store (.add edge)
  match store.raised with
  | none => .ok { s with store := store }
  | some fault => .error (.ofFault fault)

def addNew (s : Build V) (u v : V) : Except Raised (Build V) :=
  ((s.probabilityEdge u v).visit ⟨u, v⟩).add hash order ⟨u, v⟩

/-- An edge is visited, and made if there is none. -/
def visitOrAdd (s : Build V) (u v : V) : Except Raised (Build V) :=
  match s.query hash u v with
  | some edge => .ok (s.visit edge)
  | none => s.addNew hash order u v

def transition (s : Build V) (node1 node2 : V) : Except Raised (Build V) :=
  if node1 = node2 then
    match s.query hash node1 node2 with
    | some edge => .ok (s.visit edge)
    | none =>
      match s.query hash node2 node1 with
      | some edge => .ok (s.visit edge)
      | none => s.addNew hash order node1 node2
  else do
    let s ← s.visitOrAdd hash order node1 node2
    s.visitOrAdd hash order node2 node1

/-- What `build_graphs` does for each vertex at its end. -/
def normalizeVertex (s : Build V) (vertex : V) : Except Raised (Build V) :=
  let outgoing := (s.store.graph.vertexMap.query vertex).filter (·.u = vertex)
  let total := (outgoing.map fun edge => s.count (edge.u, edge.v)).sum
  outgoing.foldlM (fun s edge => s.normalize edge total) s

end Build

section build

variable (hash : MotionGraphNode × MotionGraphNode → ℤ) (order : List Representation)

/-- `discretize` is written out in the source. -/
def nodeAt (nodes : Nodes) (interval : ℕ) (data : List ℚ) : Except Raised MotionGraphNode :=
  nodes.get (discretize data interval)

def buildGraph (nodes : Nodes) (interval : ℕ) (s : Build MotionGraphNode) (d : MotionArray) :
    Except Raised (Build MotionGraphNode) :=
  match d.rows with
  | [] => .error .indexError
  | data1 :: frames => do
    let node1 ← nodeAt nodes interval data1
    let (_, s) ← frames.foldlM (fun (node1, s) data2 => do
      let node2 ← nodeAt nodes interval data2
      let s ← s.transition hash order node1 node2
      return (node2, s)) (node1, s)
    return s

/-- `d[:,3:6]` -/
def orientation (d : MotionArray) : MotionArray where
  rows := d.rows.map fun row => (row.take 6).drop 3
  width := min 6 d.width - 3
  length_row := by
    rw [List.forall_mem_map]
    intro row hrow
    rw [List.length_drop, List.length_take, d.length_row row hrow]

/-- `Numeric.remainder (d, 360.0)` -/
def remainders (remainder : ℚ → ℚ) (d : MotionArray) : MotionArray where
  rows := d.rows.map (List.map remainder)
  width := d.width
  length_row := by
    rw [List.forall_mem_map]
    intro row hrow
    rw [List.length_map, d.length_row row hrow]

def columns (key : String) (d : MotionArray) : MotionArray :=
  if key = "root" then orientation d else d

/-- `listing` is the order in which the keys of the vertex map come. -/
def buildGraphs (remainder : ℚ → ℚ) (listing : Finset MotionGraphNode → List MotionGraphNode)
    (key : String) (datas : List MotionArray) (interval : ℕ) :
    Except Raised (Build MotionGraphNode) :=
  match (datas.map (columns key)).map (remainders remainder) with
  | [] => .error .indexError
  | d :: ds => do
    let angles ← cpRange interval d.width
    let nodes := nodesOf interval angles
    let s ← (d :: ds).foldlM (buildGraph hash order nodes interval) .empty
    (listing s.store.graph.vertexMap.iter).foldlM Build.normalizeVertex s

end build

end NaviMisc.Motion.MotionGraph

/-!
The node of a frame: the cell of each angle modulo a full turn.
-/

namespace NaviMisc.Motion.MotionGraph

open NaviMisc.Lib.Rounding

structure IsRemainder (remainder : ℚ → ℚ) : Prop where
  abs_lt : ∀ x, |remainder x| < 360
  eq_sub : ∀ x, ∃ k : ℤ, remainder x = x - 360 * k

def fmod (x : ℚ) : ℚ := x - 360 * truncate (x / 360)

theorem isRemainder_fmod : IsRemainder fmod where
  abs_lt x := by
    have hfloor : (⌊x / 360⌋ : ℚ) ≤ x / 360 := Int.floor_le _
    have hfloor' : x / 360 < ⌊x / 360⌋ + 1 := Int.lt_floor_add_one _
    have hceil : x / 360 ≤ ⌈x / 360⌉ := Int.le_ceil _
    have hceil' : (⌈x / 360⌉ : ℚ) < x / 360 + 1 := Int.ceil_lt_add_one _
    rw [fmod, truncate, abs_lt]
    split_ifs <;> constructor <;> linarith
  eq_sub x := ⟨truncate (x / 360), rfl⟩

def cell (interval : ℕ) (x : ℚ) : ℤ := ⌊turn 360 x / interval⌋ * interval

variable {remainder : ℚ → ℚ} {interval : ℕ}

theorem fixnegative_of_nonneg {x : ℚ} (h : 0 ≤ x) : fixnegative x = x := by
  rw [fixnegative, if_neg (not_lt.mpr h)]

theorem fixnegative_of_neg {x : ℚ} (h : x < 0) : fixnegative x = turn 360 x := by
  induction x using fixnegative.induct with
  | case1 x hx ih =>
    have hturn : turn 360 (x + 360) = turn 360 x := by
      have hperiod : turn 360 (x - 360 * (-1 : ℤ)) = turn 360 x :=
        turn_sub_mul (by norm_num) (-1)
      rw [← hperiod]
      congr 1
      norm_num
    rw [fixnegative, if_pos hx, ← hturn]
    rcases lt_or_ge (x + 360) 0 with hneg | hnonneg
    · exact ih hneg
    · rw [fixnegative_of_nonneg hnonneg, turn_of_mem (by norm_num) hnonneg (by linarith)]
  | case2 x hx => exact absurd h hx

theorem fixnegative_nonneg (x : ℚ) : 0 ≤ fixnegative x := by
  rcases lt_or_ge x 0 with h | h
  · rw [fixnegative_of_neg h]
    exact turn_nonneg (by norm_num)
  · rw [fixnegative_of_nonneg h]
    exact h

theorem fixnegative_of_lt {x : ℚ} (h : x < 360) : fixnegative x = turn 360 x := by
  rcases lt_or_ge x 0 with hneg | hnonneg
  · exact fixnegative_of_neg hneg
  · rw [fixnegative_of_nonneg hnonneg, turn_of_mem (by norm_num) hnonneg h]

theorem IsRemainder.fixnegative (h : IsRemainder remainder) (x : ℚ) :
    fixnegative (remainder x) = turn 360 x := by
  obtain ⟨k, hk⟩ := h.eq_sub x
  rw [fixnegative_of_lt (lt_of_abs_lt (h.abs_lt x)), hk, turn_sub_mul (by norm_num)]

theorem mul_floor_le (hinterval : 1 ≤ interval) (x : ℚ) :
    ((⌊x / interval⌋ * interval : ℤ) : ℚ) ≤ x := by
  have hpos : (0 : ℚ) < interval := by exact_mod_cast hinterval
  rw [Int.cast_mul, Int.cast_natCast]
  exact (le_div_iff₀ hpos).mp (Int.floor_le _)

theorem floor_turn_nonneg (x : ℚ) : 0 ≤ ⌊turn 360 x / interval⌋ := by
  have hturn : 0 ≤ turn 360 x := turn_nonneg (by norm_num)
  exact Int.floor_nonneg.mpr (by positivity)

theorem cell_lt (hinterval : 1 ≤ interval) (x : ℚ) : cell interval x < 360 := by
  have hle := mul_floor_le hinterval (turn 360 x)
  have hlt : turn 360 x < 360 := turn_lt (by norm_num)
  exact_mod_cast hle.trans_lt hlt

theorem discretize_eq_map (point : List ℚ) : discretize point interval =
    point.map fun x => fix360 (⌊fixnegative x / interval⌋ * interval) := by
  rw [discretize, List.map_map, List.map_map]
  apply List.map_congr_left
  intro x _
  have hnonneg : 0 ≤ fixnegative x / interval := div_nonneg (fixnegative_nonneg x) (Nat.cast_nonneg _)
  rw [Function.comp_apply, Function.comp_apply, truncate_of_nonneg hnonneg]

theorem fix360_cell (hinterval : 1 ≤ interval) (x : ℚ) :
    fix360 (cell interval x) = cell interval x := if_neg (cell_lt hinterval x).ne

theorem discretize_remainders (h : IsRemainder remainder) (hinterval : 1 ≤ interval)
    (point : List ℚ) :
    discretize (point.map remainder) interval = point.map (cell interval) := by
  rw [discretize_eq_map, List.map_map]
  apply List.map_congr_left
  intro x _
  rw [Function.comp_apply, h.fixnegative]
  exact fix360_cell hinterval x

/-! Every list of cells is the key of a node. -/

theorem degrees_eq (hinterval : 1 ≤ interval) : ∃ xs, degrees interval = .ok xs ∧
    ∀ x, cell interval x ∈ xs := by
  refine ⟨_, if_neg (Nat.one_le_iff_ne_zero.mp hinterval), ?_⟩
  intro x
  rw [List.mem_map]
  refine ⟨⌊turn 360 x / interval⌋.toNat, ?_, ?_⟩
  · have hlt := cell_lt hinterval x
    obtain ⟨k, hk⟩ := Int.eq_ofNat_of_zero_le (floor_turn_nonneg x : 0 ≤ ⌊turn 360 x / interval⌋)
    rw [cell, hk] at hlt
    have hlt : k * interval < 360 := by exact_mod_cast hlt
    rw [hk, List.mem_range, Int.toNat_natCast, Nat.lt_iff_add_one_le,
      Nat.le_div_iff_mul_le hinterval, Nat.add_mul]
    omega
  · rw [Int.toNat_of_nonneg (floor_turn_nonneg x), cell]

theorem cpRange_ok (hinterval : 1 ≤ interval) {dof : ℕ} (hdof : 1 ≤ dof) :
    ∃ angles, cpRange interval dof = .ok angles ∧
      ∀ point : List ℚ, point.length = dof → point.map (cell interval) ∈ angles := by
  obtain ⟨xs, hxs, hmem⟩ := degrees_eq hinterval
  induction dof, hdof using Nat.le_induction with
  | base =>
    refine ⟨xs.map fun x => [x], by rw [cpRange, hxs]; rfl, ?_⟩
    intro point hpoint
    obtain ⟨x, rfl⟩ := List.length_eq_one_iff.mp hpoint
    exact List.mem_map.mpr ⟨cell interval x, hmem x, rfl⟩
  | succ dof hdof ih =>
    obtain ⟨ys, hys, hall⟩ := ih
    obtain ⟨dof, rfl⟩ := Nat.exists_eq_add_of_le' hdof
    refine ⟨xs.flatMap fun x => ys.map fun y => y ++ [x], by rw [cpRange, hxs, hys]; rfl, ?_⟩
    intro point hpoint
    have hne : point ≠ [] := List.ne_nil_of_length_eq_add_one hpoint
    rw [← List.dropLast_append_getLast hne, List.map_append]
    refine List.mem_flatMap.mpr ⟨_, hmem (point.getLast hne), List.mem_map.mpr ⟨_, hall _ ?_, rfl⟩⟩
    rw [List.length_dropLast, hpoint, Nat.add_sub_cancel]

theorem lookup_nodesOf {angles : List (List ℤ)} {angle : List ℤ} (h : angle ∈ angles) :
    (nodesOf interval angles).lookup angle = some (motionGraphNode interval angle) := by
  induction angles with
  | nil => cases h
  | cons a angles ih =>
    rw [nodesOf, List.map_cons, List.lookup_cons]
    by_cases ha : angle = a
    · rw [ha, beq_self_eq_true]
    · rw [beq_false_of_ne ha]
      exact ih ((List.mem_cons.mp h).resolve_left ha)

def frameNode (interval : ℕ) (row : List ℚ) : MotionGraphNode :=
  motionGraphNode interval (row.map (cell interval))

theorem frameNode_remainders (h : IsRemainder remainder) (row : List ℚ) :
    frameNode interval (row.map remainder) = frameNode interval row := by
  rw [frameNode, frameNode, List.map_map]
  congr 1
  apply List.map_congr_left
  intro x _
  obtain ⟨k, hk⟩ := h.eq_sub x
  rw [Function.comp_apply, cell, cell, hk, turn_sub_mul (by norm_num)]

theorem nodeAt_remainders (h : IsRemainder remainder) (hinterval : 1 ≤ interval)
    {angles : List (List ℤ)} {row : List ℚ} (hrow : row.map (cell interval) ∈ angles) :
    nodeAt (nodesOf interval angles) interval (row.map remainder) = .ok (frameNode interval row) := by
  rw [nodeAt, Nodes.get, discretize_remainders h hinterval, lookup_nodesOf hrow]
  rfl

end NaviMisc.Motion.MotionGraph
