import NaviMisc.Motion.DepthLimitedSlots

/-!
`ParallelBFSSearch` of `Graph/ExtraAlgorithms.py`.
-/

namespace NaviMisc.Motion.ParallelBfs

open DepthLimited
open Lib (Route)

inductive Raised
  | attributeError
  | indexError
  deriving DecidableEq

/-- An edge with its attribute `weight`, if it has one. -/
structure WeightedEdge (V : Type) extends Edge V where
  weight : Option ℚ

variable {V : Type}

def edgeClass (u v : V) : WeightedEdge V := ⟨⟨u, v⟩, none⟩

def WeightedEdge.getWeight (edge : WeightedEdge V) : Except Raised ℚ :=
  match edge.weight with
  | some weight => .ok weight
  | none => .error .attributeError

structure Path (V : Type) where
  nodes : List V
  nonempty : nodes ≠ []

namespace Path

def last (path : Path V) : V := path.nodes.getLast path.nonempty

def concat (path : Path V) (v : V) : Path V := ⟨path.nodes ++ [v], List.concat_ne_nil _ _⟩

end Path

variable [DecidableEq V]

structure ParallelBFSSearch (V : Type) where
  end_ : V
  paths : List (Path V)
  isMatch : Bool

def ParallelBFSSearch.new (start end_ : V) : ParallelBFSSearch V :=
  ⟨end_, [⟨[start], List.cons_ne_nil _ _⟩], start = end_⟩

variable {data : AdjacencyList V} (adjacency : Adjacency data)

def query (u : V) : List (WeightedEdge V) := (adjacency.vs u).map (edgeClass u)

def extend (path : Path V) : List (Path V) :=
  ((query adjacency path.last).filter (·.u = path.last)).map fun edge => path.concat edge.v

def step (s : ParallelBFSSearch V) : ParallelBFSSearch V :=
  let newpaths := s.paths.flatMap (extend adjacency)
  ⟨s.end_, newpaths, newpaths.any (·.last = s.end_)⟩

def getMatchedPaths (s : ParallelBFSSearch V) : List (Path V) := s.paths.filter (·.last = s.end_)

def visitEdge (v : V) (probability : ℚ) (edge : WeightedEdge V) : Except Raised ℚ :=
  if edge.v = v then do return probability * (← edge.getWeight) else .ok probability

def visitIndex (path : Path V) (probability : ℚ) (i : ℕ) : Except Raised ℚ :=
  match path.nodes[i]?, path.nodes[i + 1]? with
  | some u, some v => (query adjacency u).foldlM (visitEdge v) probability
  | _, _ => .error .indexError

def computeProbability (path : Path V) : Except Raised ℚ :=
  (List.range (path.nodes.length - 2)).foldlM (visitIndex adjacency path) 1

def visitPath (best : ℚ × Option (Path V)) (path : Path V) :
    Except Raised (ℚ × Option (Path V)) := do
  let pathProbability ← computeProbability adjacency path
  return if pathProbability > best.1 then (pathProbability, some path) else best

def getBestPath (s : ParallelBFSSearch V) : Except Raised (Option (Path V)) := do
  let best ← (getMatchedPaths s).foldlM (visitPath adjacency) (0, none)
  return best.2

structure IsWalk (data : AdjacencyList V) (start : V) (n : ℕ) (l : List V) : Prop where
  chain : l.IsChain data.Adjacent
  head : l.head? = some start
  length : l.length = n + 1

def Reaches (data : AdjacencyList V) (start end_ : V) (n : ℕ) (l : List V) : Prop :=
  IsWalk data start n l ∧ l.getLast? = some end_

structure MostProbable (g : Representations V) (adjacency : Adjacency g.data) (start end_ : V)
    (n : ℕ) (s : ParallelBFSSearch V) : Prop where
  paths : ∀ l, l ∈ s.paths.map Path.nodes ↔ IsWalk g.data start n l
  best : (∃ l, Reaches g.data start end_ n l) → ∃ path, getBestPath adjacency s = .ok (some path) ∧
    Reaches g.data start end_ n path.nodes ∧
      ∀ l, Reaches g.data start end_ n l → product g.weight l ≤ product g.weight path.nodes
  none : (¬∃ l, Reaches g.data start end_ n l) → getBestPath adjacency s = .ok none

section walks

variable {start end_ : V} {n : ℕ} {l : List V} {adjacency}

theorem isWalk_zero : IsWalk data start 0 l ↔ l = [start] := by
  constructor
  · intro h
    obtain ⟨v, rfl⟩ := List.length_eq_one_iff.mp h.length
    exact congrArg (fun v => [v]) (Option.some.inj h.head)
  · rintro rfl
    exact ⟨.singleton start, rfl, rfl⟩

theorem isWalk_concat {v : V} (hl : l ≠ []) :
    IsWalk data start (n + 1) (l ++ [v]) ↔ IsWalk data start n l ∧ data.Adjacent (l.getLast hl) v := by
  have hhead : (l ++ [v]).head? = l.head? := List.head?_append_of_ne_nil _ hl
  constructor
  · rintro ⟨hchain, hstart, hlength⟩
    rw [List.isChain_append] at hchain
    refine ⟨⟨hchain.1, hhead ▸ hstart, by simpa using hlength⟩, ?_⟩
    exact hchain.2.2 _ (List.getLast?_eq_some_getLast hl) v rfl
  · rintro ⟨⟨hchain, hstart, hlength⟩, hadjacent⟩
    refine ⟨List.isChain_append.mpr ⟨hchain, .singleton v, ?_⟩, hhead.trans hstart, by simpa using hlength⟩
    intro u hu w hw
    rw [List.getLast?_eq_some_getLast hl, Option.mem_some_iff] at hu
    rw [List.head?_cons, Option.mem_some_iff] at hw
    rwa [← hu, ← hw]

theorem mem_extend {path path' : Path V} :
    path' ∈ extend adjacency path ↔ ∃ v, data.Adjacent path.last v ∧ path' = path.concat v := by
  simp only [extend, query, List.mem_map, List.mem_filter, edgeClass]
  constructor
  · rintro ⟨edge, ⟨⟨v, hv, rfl⟩, -⟩, rfl⟩
    exact ⟨v, adjacency.mem_vs.mp hv, rfl⟩
  · rintro ⟨v, hv, rfl⟩
    exact ⟨_, ⟨⟨v, adjacency.mem_vs.mpr hv, rfl⟩, by simp⟩, rfl⟩

theorem end_iterate (s : ParallelBFSSearch V) : ((step adjacency)^[n] s).end_ = s.end_ := by
  induction n with
  | zero => rfl
  | succ n ih => rw [Function.iterate_succ_apply', step, ih]

theorem mem_paths : l ∈ ((step adjacency)^[n] (.new start end_)).paths.map Path.nodes ↔
    IsWalk data start n l := by
  induction n generalizing l with
  | zero => simp [isWalk_zero, ParallelBFSSearch.new]
  | succ n ih =>
    rw [Function.iterate_succ_apply', step, List.mem_map]
    simp only [List.mem_flatMap, mem_extend]
    constructor
    · rintro ⟨path', ⟨path, hpath, v, hv, rfl⟩, rfl⟩
      exact (isWalk_concat path.nonempty).mpr ⟨ih.mp (List.mem_map_of_mem hpath), hv⟩
    · intro h
      obtain rfl | ⟨l, v, rfl⟩ := List.eq_nil_or_concat' l
      · cases h.head
      · have hl : l ≠ [] := by
          rintro rfl
          simpa using h.length
        obtain ⟨hwalk, hv⟩ := (isWalk_concat hl).mp h
        obtain ⟨path, hpath, rfl⟩ := List.mem_map.mp (ih.mpr hwalk)
        exact ⟨path.concat v, ⟨path, hpath, v, hv, rfl⟩, rfl⟩

theorem mem_getMatchedPaths {path : Path V} :
    path ∈ getMatchedPaths ((step adjacency)^[n] (.new start end_)) ↔
      path ∈ ((step adjacency)^[n] (.new start end_)).paths ∧ path.last = end_ := by
  rw [getMatchedPaths, List.mem_filter, end_iterate, decide_eq_true_iff]
  rfl

theorem reaches_of_matched {path : Path V}
    (h : path ∈ getMatchedPaths ((step adjacency)^[n] (.new start end_))) :
    Reaches data start end_ n path.nodes := by
  obtain ⟨hpath, hlast⟩ := mem_getMatchedPaths.mp h
  refine ⟨mem_paths.mp (List.mem_map_of_mem hpath), ?_⟩
  rw [List.getLast?_eq_some_getLast path.nonempty]
  exact congrArg some hlast

theorem matched_of_reaches (h : Reaches data start end_ n l) :
    ∃ path ∈ getMatchedPaths ((step adjacency)^[n] (.new start end_)), path.nodes = l := by
  have hmem : l ∈ ((step adjacency)^[n] (.new start end_)).paths.map Path.nodes := mem_paths.mpr h.1
  obtain ⟨path, hpath, rfl⟩ := List.mem_map.mp hmem
  refine ⟨path, mem_getMatchedPaths.mpr ⟨hpath, ?_⟩, rfl⟩
  have hlast := h.2
  rw [List.getLast?_eq_some_getLast path.nonempty] at hlast
  exact Option.some.inj hlast

theorem Reaches.unique (h : Reaches data start end_ n l) (hn : n ≤ 1) {l' : List V}
    (h' : Reaches data start end_ n l') : l' = l := by
  have hone {l : List V} (h : Reaches data start end_ n l) :
      l = if n = 0 then [start] else [start, end_] := by
    have hhead := h.1.head
    have hlast := h.2
    rcases Nat.le_one_iff_eq_zero_or_eq_one.mp hn with rfl | rfl
    · exact isWalk_zero.mp h.1
    · obtain ⟨u, v, rfl⟩ := List.length_eq_two.mp h.1.length
      rw [List.head?_cons, Option.some.injEq] at hhead
      rw [List.getLast?_cons_cons, List.getLast?_singleton, Option.some.injEq] at hlast
      rw [hhead, hlast]
      rfl
  rw [hone h, hone h']

end walks

section probability

variable {start end_ : V} {n : ℕ} {path : Path V} {paths : List (Path V)} {adjacency}

theorem computeProbability_short (h : path.nodes.length ≤ 2) :
    computeProbability adjacency path = .ok 1 := by
  rw [computeProbability, Nat.sub_eq_zero_of_le h]
  rfl

theorem foldlM_visitPath (h : ∀ path ∈ paths, computeProbability adjacency path = .ok 1)
    (best : Path V) : paths.foldlM (visitPath adjacency) (1, some best) = .ok (1, some best) := by
  induction paths with
  | nil => rfl
  | cons path paths ih =>
    obtain ⟨hpath, hpaths⟩ := List.forall_mem_cons.mp h
    have hvisit : visitPath adjacency (1, some best) path = .ok (1, some best) := by
      rw [visitPath, hpath]
      rfl
    rw [List.foldlM_cons, hvisit]
    exact ih hpaths

theorem getBestPath_none {s : ParallelBFSSearch V} (h : getMatchedPaths s = []) :
    getBestPath adjacency s = .ok none := by
  rw [getBestPath, h]
  rfl

theorem getBestPath_first {s : ParallelBFSSearch V} (h : getMatchedPaths s = path :: paths)
    (hone : ∀ path' ∈ path :: paths, computeProbability adjacency path' = .ok 1) :
    getBestPath adjacency s = .ok (some path) := by
  obtain ⟨hpath, hpaths⟩ := List.forall_mem_cons.mp hone
  have hvisit : visitPath adjacency (0, none) path = .ok (1, some path) := by
    rw [visitPath, hpath]
    rfl
  rw [getBestPath, h, List.foldlM_cons, hvisit]
  change (paths.foldlM (visitPath adjacency) (1, some path) >>= _) = _
  rw [foldlM_visitPath hpaths]
  rfl

theorem foldlM_visitEdge {edges : List (WeightedEdge V)} (hnew : ∀ edge ∈ edges, edge.weight = none)
    {v : V} (hv : ∃ edge ∈ edges, edge.v = v) (probability : ℚ) :
    edges.foldlM (visitEdge v) probability = .error .attributeError := by
  induction edges with
  | nil => simp at hv
  | cons edge edges ih =>
    obtain ⟨hedge, hedges⟩ := List.forall_mem_cons.mp hnew
    rw [List.foldlM_cons, visitEdge]
    by_cases heq : edge.v = v
    · rw [if_pos heq, WeightedEdge.getWeight, hedge]
      rfl
    · rw [if_neg heq]
      rw [List.exists_mem_cons_iff] at hv
      exact ih hedges (hv.resolve_left heq)

theorem computeProbability_long (hlength : 2 < path.nodes.length)
    (hchain : path.nodes.IsChain data.Adjacent) :
    computeProbability adjacency path = .error .attributeError := by
  obtain ⟨nodes, hne⟩ := path
  rcases nodes with - | ⟨u, - | ⟨v, l⟩⟩
  · simp at hlength
  · simp at hlength
  · have hvisit : visitIndex adjacency ⟨u :: v :: l, hne⟩ 1 0 = .error .attributeError := by
      apply foldlM_visitEdge
      · simp [query, edgeClass]
      · have huv := (List.isChain_cons_cons.mp hchain).1
        exact ⟨edgeClass u v, List.mem_map_of_mem (adjacency.mem_vs.mpr huv), rfl⟩
    obtain ⟨k, hk⟩ := Nat.exists_eq_add_of_lt hlength
    have hrange : (u :: v :: l).length - 2 = k + 1 := by
      change (u :: v :: l).length = 2 + k + 1 at hk
      omega
    rw [computeProbability, hrange, List.range_succ_eq_map, List.foldlM_cons, hvisit]
    rfl

theorem getBestPath_raises {s : ParallelBFSSearch V} (h : getMatchedPaths s = path :: paths)
    (herror : computeProbability adjacency path = .error .attributeError) :
    getBestPath adjacency s = .error .attributeError := by
  have hvisit : visitPath adjacency (0, none) path = .error .attributeError := by
    rw [visitPath, herror]
    rfl
  rw [getBestPath, h, List.foldlM_cons, hvisit]
  rfl

end probability

/-- The weights of the graph are never read: a path of two edges or more raises. -/
theorem mostProbable_iff (g : Representations V) (adjacency : Adjacency g.data) (start end_ : V)
    (n : ℕ) :
    MostProbable g adjacency start end_ n ((step adjacency)^[n] (.new start end_)) ↔
      n ≤ 1 ∨ ¬∃ l, Reaches g.data start end_ n l := by
  by_cases hreach : ∃ l, Reaches g.data start end_ n l
  · obtain ⟨l, hl⟩ := hreach
    obtain ⟨matched, hmatched, -⟩ :
        ∃ path ∈ getMatchedPaths ((step adjacency)^[n] (.new start end_)), path.nodes = l :=
      matched_of_reaches hl
    obtain ⟨path, paths, hpaths⟩ := List.exists_cons_of_ne_nil (List.ne_nil_of_mem hmatched)
    have hpath : Reaches g.data start end_ n path.nodes :=
      reaches_of_matched (hpaths ▸ List.mem_cons_self)
    have hreach : ∃ l, Reaches g.data start end_ n l := ⟨l, hl⟩
    rw [or_iff_left (not_not.mpr hreach)]
    constructor
    · intro h
      by_contra hn
      have hlength : 2 < path.nodes.length := by
        rw [hpath.1.length]
        omega
      obtain ⟨best, hbest, -⟩ := h.best hreach
      rw [getBestPath_raises hpaths (computeProbability_long hlength hpath.1.chain)] at hbest
      cases hbest
    · intro hn
      refine ⟨fun _ => mem_paths, fun _ => ?_, fun h => absurd hreach h⟩
      have hone : ∀ path' ∈ path :: paths, computeProbability adjacency path' = .ok 1 := by
        intro path' hpath'
        have hlength := (reaches_of_matched (hpaths ▸ hpath')).1.length
        apply computeProbability_short
        omega
      refine ⟨path, getBestPath_first hpaths hone, hpath, ?_⟩
      intro l' hl'
      rw [hpath.unique hn hl']
  · refine iff_of_true ⟨fun _ => mem_paths, fun h => absurd h hreach, fun _ => ?_⟩ (.inr hreach)
    apply getBestPath_none
    apply List.eq_nil_iff_forall_not_mem.mpr
    exact fun path hpath => hreach ⟨_, reaches_of_matched hpath⟩

section loop

def loop : Representations ℕ where
  data := Finmap.singleton 0 {0}
  edges := [⟨⟨0, 0⟩, 1⟩]
  nodup := List.nodup_singleton _
  mem_edges := by
    intro p
    rw [AdjacencyList.contains_singleton]
    exact List.mem_singleton
  positive := by decide

def loopTable : Adjacency loop.data where
  entries := [(0, [0])]
  nodup := List.nodup_singleton _
  lookup u := by
    by_cases hu : u = 0
    · subst hu
      rfl
    · rw [loop, AdjacencyList.lookup_singleton_of_ne hu, List.lookup_cons, beq_false_of_ne hu]
      rfl

theorem loop_twice : ¬∀ (g : Representations ℕ) (adjacency : Adjacency g.data) (start end_ n : ℕ),
    MostProbable g adjacency start end_ n ((step adjacency)^[n] (.new start end_)) := by
  intro h
  have hadjacent : loop.data.Adjacent 0 0 := by
    rw [AdjacencyList.Adjacent]
    decide
  have hreach : Reaches loop.data 0 0 2 [0, 0, 0] :=
    ⟨⟨.cons_cons hadjacent (.cons_cons hadjacent (.singleton 0)), rfl, rfl⟩, rfl⟩
  obtain ⟨path, hpath, -⟩ := (h loop loopTable 0 0 2).best ⟨_, hreach⟩
  have hraises : getBestPath loopTable ((step loopTable)^[2] (.new 0 0)) =
      .error .attributeError := rfl
  rw [hpath] at hraises
  cases hraises

end loop

end NaviMisc.Motion.ParallelBfs
