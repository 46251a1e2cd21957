import Mathlib.Algebra.Order.Field.Rat
import NaviMisc.Lib.Lists
import NaviMisc.Motion.Dijkstra

/-!
`depth_limited.c`, with `depth_limited_search` of `algorithms.c` and the probabilities of
`utilities.c` as exact rationals. A path is a list from its last vertex back to the start, and the
empty list is the null pointer.
-/

namespace NaviMisc.Motion.DepthLimited

open NaviMisc.Lib

variable {V : Type} [DecidableEq V]

inductive Crash
  | nullPointer
  | outOfBounds
  deriving DecidableEq

structure ProbabilityEdge (V : Type) extends Edge V where
  weight : ℚ

/-- A graph as the two representations that are passed hold it, with its edges in the order of the
dictionary. -/
structure Representations (V : Type) [DecidableEq V] where
  data : AdjacencyList V
  edges : List (ProbabilityEdge V)
  nodup : (edges.map fun e => (e.u, e.v)).Nodup
  mem_edges : ∀ p, p ∈ edges.map (fun e => (e.u, e.v)) ↔ data.contains p
  positive : ∀ e ∈ edges, 0 < e.weight

def Representations.weight (g : Representations V) (u v : V) : ℚ :=
  ((g.edges.find? fun e => (e.u, e.v) = (u, v)).map (·.weight)).getD 0

section code

variable (address : V → BitVec 64)

/-- `GPOINTER_TO_INT (u) + GPOINTER_TO_INT (v)` -/
def key (u v : V) : BitVec 32 := (address u).setWidth 32 + (address v).setWidth 32

def queryEdges (edges : List (ProbabilityEdge V)) : BitVec 32 → Option ℚ :=
  edges.foldl (fun ret e => Function.update ret (key address e.u e.v) (some e.weight)) fun _ => none

def multiply (edges : BitVec 32 → Option ℚ) : ℚ → List V → Except Crash ℚ
  | probability, u :: v :: path =>
    match edges (key address u v) with
    | none => .error .nullPointer
    | some weight => multiply edges (probability * weight) (v :: path)
  | probability, _ => .ok probability

def computeProbability (edges : BitVec 32 → Option ℚ) (path : List V) : Except Crash ℚ :=
  if path = [] then .ok 0 else multiply address edges 1 path

def cookie (edges : BitVec 32 → Option ℚ) (good_paths : List (List V)) (new : List V) (d : ℕ) :
    Except Crash (List (List V)) :=
  match good_paths[d]? with
  | none => .error .outOfBounds
  | some old => do
    if (← computeProbability address edges new) > (← computeProbability address edges old) then
      return good_paths.set d new
    else return good_paths

variable {data : AdjacencyList V} (adjacency : Adjacency data) (edges : BitVec 32 → Option ℚ)

/-- The path is `node :: rest`. -/
def search (goal : V) : ℕ → V → List V → List (List V) → Except Crash (List (List V))
  | 0, _, _, good_paths => .ok good_paths
  | depth + 1, node, rest, good_paths =>
    (adjacency.vs node).foldlM (fun good_paths v =>
      if goal = v then
        cookie address edges good_paths (v :: node :: rest) ((node :: rest).length - 1)
      else search goal depth v (node :: rest) good_paths) good_paths

def listPaths (depth : ℕ) (paths : List (List V)) : List (Option (List V)) :=
  paths.zipIdx.foldl (fun path_list e =>
    if e.1 = [] then path_list else path_list.set e.2 (some e.1)) (List.replicate (depth + 1) none)

end code

def depthLimitedSearch (address : V → BitVec 64) (g : Representations V)
    (adjacency : Adjacency g.data) (start end_ : V) (depth : ℕ) :
    Except Crash (List (Option (List V))) := do
  let paths ← search address adjacency (queryEdges address g.edges) end_ depth start []
    (List.replicate depth [])
  return listPaths depth paths

def product (weight : V → V → ℚ) : List V → ℚ
  | u :: v :: l => weight u v * product weight (v :: l)
  | _ => 1

structure Walk (data : AdjacencyList V) (start end_ : V) (l : List V) : Prop where
  route : Route data.Adjacent start end_ l
  first : end_ ∉ l.dropLast

structure Best (g : Representations V) (start end_ : V) (n : ℕ) (l : List V) : Prop where
  walk : Walk g.data start end_ l
  length : l.length = n + 1
  maximal : ∀ l', Walk g.data start end_ l' → l'.length = n + 1 →
    product g.weight l' ≤ product g.weight l

def Right (g : Representations V) (start end_ : V) (depth : ℕ)
    (result : Except Crash (List (Option (List V)))) : Prop :=
  ∃ path_list, result = .ok path_list ∧ path_list.length = depth + 1 ∧ ∀ i < depth,
    (path_list[i]? = some none ∧ ∀ l, Walk g.data start end_ l → l.length ≠ i + 2) ∨
      ∃ l, path_list[i]? = some (some l) ∧ Best g start end_ (i + 1) l

end NaviMisc.Motion.DepthLimited

/-!
The walks that the depth limited search comes to, in their order, and the best of them that it
keeps for each length.
-/

namespace NaviMisc.Motion.DepthLimited

open NaviMisc.Lib

variable {V : Type}

section product

variable {weight : V → V → ℚ} {l : List V} {a b : V}

theorem product_pos (h : l.IsChain fun u v => 0 < weight u v) : 0 < product weight l := by
  induction l with
  | nil => exact one_pos
  | cons u l ih =>
    cases l with
    | nil => exact one_pos
    | cons v l =>
      obtain ⟨huv, hchain⟩ := List.isChain_cons_cons.mp h
      exact mul_pos huv (ih hchain)

theorem product_append (weight : V → V → ℚ) (l : List V) (a b : V) :
    product weight (l ++ [a, b]) = product weight (l ++ [a]) * weight a b := by
  induction l with
  | nil => simp [product]
  | cons u l ih =>
    cases l with
    | nil =>
      simp only [List.cons_append, List.nil_append, product, mul_one]
    | cons v l =>
      simp only [List.cons_append, product] at ih ⊢
      rw [ih, mul_assoc]

theorem product_reverse (weight : V → V → ℚ) (l : List V) :
    product weight l.reverse = product (fun u v => weight v u) l := by
  induction l with
  | nil => rfl
  | cons u l ih =>
    cases l with
    | nil => rfl
    | cons v l =>
      rw [List.reverse_cons, List.reverse_cons] at *
      rw [List.append_assoc, List.singleton_append, product_append, ih, product, mul_comm]

end product

variable [DecidableEq V]

structure Arrives (data : AdjacencyList V) (start end_ : V) (l : List V) : Prop where
  route : Route data.Adjacent start end_ l
  length : 2 ≤ l.length
  first : end_ ∉ l.tail.dropLast

namespace Arrives

variable {data : AdjacencyList V} {start end_ u v : V} {l : List V}

theorem pair (h : data.Adjacent u v) : Arrives data u v [u, v] :=
  ⟨.cons h .singleton, le_rfl, List.not_mem_nil⟩

theorem cons (h : Arrives data v end_ l) (huv : data.Adjacent u v) (hv : v ≠ end_) :
    Arrives data u end_ (u :: l) := by
  refine ⟨.cons huv h.route, by rw [List.length_cons]; exact Nat.le_succ_of_le h.length, ?_⟩
  obtain ⟨l, rfl⟩ := List.head?_eq_some_iff.mp h.route.head
  cases l with
  | nil => exact List.not_mem_nil
  | cons w l =>
    rw [List.tail_cons, List.dropLast_cons_cons, List.mem_cons, not_or]
    exact ⟨hv.symm, h.first⟩

theorem cases_head (h : Arrives data start end_ l) :
    (data.Adjacent start end_ ∧ l = [start, end_]) ∨
      ∃ v l', data.Adjacent start v ∧ v ≠ end_ ∧ l = start :: l' ∧ Arrives data v end_ l' := by
  obtain ⟨l, rfl⟩ := List.head?_eq_some_iff.mp h.route.head
  cases l with
  | nil =>
    have hlength := h.length
    simp at hlength
  | cons v l =>
    have hchain := List.isChain_cons_cons.mp h.route.chain
    cases l with
    | nil =>
      obtain rfl : v = end_ := Option.some.inj h.route.last
      exact .inl ⟨hchain.1, rfl⟩
    | cons w l =>
      have hfirst := h.first
      rw [List.tail_cons, List.dropLast_cons_cons, List.mem_cons, not_or] at hfirst
      have hlast := h.route.last
      rw [List.getLast?_cons_cons] at hlast
      refine .inr ⟨v, _, hchain.1, Ne.symm hfirst.1, rfl, ⟨hchain.2, rfl, hlast⟩, ?_, hfirst.2⟩
      simp

theorem of_route (h : Route data.Adjacent start end_ l) (hlength : 2 ≤ l.length) :
    ∃ l', Arrives data start end_ l' ∧ l'.length ≤ l.length := by
  induction l generalizing start with
  | nil => simp at hlength
  | cons u l ih =>
    obtain rfl : u = start := Option.some.inj h.head
    cases l with
    | nil => simp at hlength
    | cons v l =>
      have hchain := List.isChain_cons_cons.mp h.chain
      by_cases hv : v = end_
      · subst hv
        exact ⟨_, pair hchain.1, by simp⟩
      · have hlast : (v :: l).getLast? = some end_ := by
          rw [← h.last, List.getLast?_cons_cons]
        have hrest : 2 ≤ (v :: l).length := by
          cases l with
          | nil => exact absurd (Option.some.inj hlast) hv
          | cons w l => simp
        obtain ⟨l', hl', hle⟩ := ih ⟨hchain.2, rfl, hlast⟩ hrest
        exact ⟨u :: l', hl'.cons hchain.1 hv, by simpa using hle⟩

end Arrives

section walks

variable {data : AdjacencyList V} {adjacency : Adjacency data} {goal node : V} {depth : ℕ}
  {rest l : List V}

def walks (adjacency : Adjacency data) (goal : V) : ℕ → V → List V → List (List V)
  | 0, _, _ => []
  | depth + 1, node, rest =>
    (adjacency.vs node).flatMap fun v =>
      if goal = v then [v :: node :: rest] else walks adjacency goal depth v (node :: rest)

theorem mem_walks : l ∈ walks adjacency goal depth node rest ↔
    ∃ w, Arrives data node goal w ∧ w.length ≤ depth + 1 ∧ l = w.reverse ++ rest := by
  induction depth generalizing node rest with
  | zero =>
    refine iff_of_false List.not_mem_nil ?_
    rintro ⟨w, hw, hlength, -⟩
    have hlength' := hw.length
    omega
  | succ depth ih =>
    simp only [walks, List.mem_flatMap, Adjacency.mem_vs]
    constructor
    · rintro ⟨v, hv, hl⟩
      split at hl
      · rename_i heq
        subst heq
        rw [List.mem_singleton] at hl
        exact ⟨[node, goal], .pair hv, by simp, hl⟩
      · rename_i hne
        obtain ⟨w, hw, hlength, rfl⟩ := ih.mp hl
        refine ⟨node :: w, hw.cons hv (Ne.symm hne), by simpa using hlength, ?_⟩
        rw [List.reverse_cons, List.append_assoc, List.singleton_append]
    · rintro ⟨w, hw, hlength, rfl⟩
      obtain ⟨hv, rfl⟩ | ⟨v, w, hv, hne, rfl, hrest⟩ := hw.cases_head
      · refine ⟨goal, hv, ?_⟩
        rw [if_pos rfl]
        exact List.mem_singleton_self _
      · refine ⟨v, hv, ?_⟩
        rw [if_neg (Ne.symm hne)]
        refine ih.mpr ⟨w, hrest, by simpa using hlength, ?_⟩
        rw [List.reverse_cons, List.append_assoc, List.singleton_append]

theorem search_eq (address : V → BitVec 64) (edges : BitVec 32 → Option ℚ)
    (good_paths : List (List V)) : search address adjacency edges goal depth node rest good_paths =
      (walks adjacency goal depth node rest).foldlM
        (fun good_paths new => cookie address edges good_paths new (new.length - 2)) good_paths := by
  induction depth generalizing node rest good_paths with
  | zero => rfl
  | succ depth ih =>
    rw [search, walks, Lists.foldlM_flatMap]
    congr 1
    funext good_paths v
    by_cases hv : goal = v
    · rw [if_pos hv, if_pos hv, List.foldlM_cons]
      simp only [List.foldlM_nil, bind_pure, List.length_cons]
      rfl
    · rw [if_neg hv, if_neg hv, ih]

end walks

end NaviMisc.Motion.DepthLimited
