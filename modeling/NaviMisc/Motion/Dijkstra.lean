import NaviMisc.Lib.Distance
import NaviMisc.Motion.GraphData

/-!
`dijkstra.c` and the `dijkstra_search` of `algorithms.c`. The hash tables are keyed by the
addresses of the vertices, and a key that is missing is read as 0.
-/

namespace NaviMisc.Motion

open NaviMisc.Lib
open Relation

variable {V : Type} [DecidableEq V]

def AdjacencyList.Adjacent (data : AdjacencyList V) (u v : V) : Prop := data.contains (u, v)

/-- The hash table of `query_adjacency`, in the order in which it is gone through. -/
structure Adjacency (data : AdjacencyList V) where
  entries : List (V × List V)
  nodup : (entries.map Prod.fst).Nodup
  lookup : ∀ u, (entries.lookup u).map Multiset.ofList = (data.lookup u).map Finset.val

def Adjacency.vs {data : AdjacencyList V} (adjacency : Adjacency data) (u : V) : List V :=
  (adjacency.entries.lookup u).getD []

def Adjacency.keys {data : AdjacencyList V} (adjacency : Adjacency data) : List V :=
  adjacency.entries.map Prod.fst

def cost (d : V → Option ℤ) (u : V) : ℤ := (d u).getD 0

def initializeDijkstraD (d : V → Option ℤ) (u : V) : V → Option ℤ :=
  Function.update d u (some (-1))

def addToQueue (q : List V) (u : V) : List V := u :: q

def dijkstraCompare (d : V → Option ℤ) (u v : V) : ℤ :=
  if cost d u = -1 then 1
  else if cost d v = -1 then -1
  else if cost d u > cost d v then 1
  else if cost d u = cost d v then 0
  else -1

/-- `g_queue_sort` with `dijkstra_compare`: nothing is left before what is less. -/
structure QueueSort (V : Type) where
  sort : (V → Option ℤ) → List V → List V
  perm : ∀ d q, (sort d q).Perm q
  ordered : ∀ d q, (sort d q).Pairwise fun u v => ¬dijkstraCompare d v u < 0

structure Search (V : Type) where
  d : V → Option ℤ
  previous : V → Option V
  agenda : List V

def relax (u : V) (s : Search V) (v : V) : Search V :=
  if cost s.d v = -1 ∨ cost s.d v > cost s.d u + 1 then
    { s with d := Function.update s.d v (some (cost s.d u + 1)),
             previous := Function.update s.previous v (some u) }
  else s

section search

variable {data : AdjacencyList V} (sort : QueueSort V) (adjacency : Adjacency data)

def visit (s : Search V) : Search V :=
  match s.agenda with
  | [] => s
  | u :: agenda =>
    let s := (adjacency.vs u).foldl (relax u) s
    { s with agenda := sort.sort s.d agenda }

def buildDijkstraQueue (d : V → Option ℤ) : List V :=
  sort.sort d (adjacency.keys.foldl addToQueue [])

def findShortestPaths (d : V → Option ℤ) : Search V :=
  let agenda := buildDijkstraQueue sort adjacency d
  (visit sort adjacency)^[agenda.length] ⟨d, fun _ => none, agenda⟩

def initialEstimates (start : V) : V → Option ℤ :=
  Function.update (adjacency.keys.foldl initializeDijkstraD fun _ => none) start (some 0)

end search

structure RuntimeError where
  message : String
  deriving DecidableEq

def noPath : RuntimeError := ⟨"No path found"⟩

/-- `ret` is in the order in which it is appended to. Out of fuel, the loop has not ended. -/
def follow (previous : V → Option V) (start : V) :
    ℕ → V → List V → Option (Except RuntimeError (List V))
  | 0, _, _ => none
  | fuel + 1, node, ret =>
    if node = start then some (.ok ret.reverse)
    else
      match previous node with
      | none => some (.error noPath)
      | some node => follow previous start fuel node (ret ++ [node])

def dijkstraSearch {data : AdjacencyList V} (sort : QueueSort V) (adjacency : Adjacency data)
    (start end_ : V) (fuel : ℕ) : Option (Except RuntimeError (List V)) :=
  if start = end_ then some (.ok [start])
  else
    let s := findShortestPaths sort adjacency (initialEstimates adjacency start)
    match s.previous end_ with
    | none => some (.error noPath)
    | some node => follow s.previous start fuel node [end_, node]

section adjacency

variable {data : AdjacencyList V} {adjacency : Adjacency data} {u v : V}

theorem AdjacencyList.Adjacent.mem (h : data.Adjacent u v) : u ∈ data := by
  obtain ⟨vList, hlookup, -⟩ := AdjacencyList.contains_iff.mp h
  exact Finmap.mem_of_lookup_eq_some hlookup

namespace Adjacency

theorem mem_vs : v ∈ adjacency.vs u ↔ data.Adjacent u v := by
  rw [vs, AdjacencyList.Adjacent, AdjacencyList.contains_iff]
  have hlookup := adjacency.lookup u
  cases hvs : adjacency.entries.lookup u with
  | none =>
    rw [hvs, Option.map_none] at hlookup
    simp [Option.map_eq_none_iff.mp hlookup.symm]
  | some vs =>
    rw [hvs, Option.map_some] at hlookup
    obtain ⟨vList, hvList, hval⟩ := Option.map_eq_some_iff.mp hlookup.symm
    simp only [hvList, Option.getD_some, Option.some.injEq, exists_eq_left']
    rw [← Finset.mem_val, hval]
    rfl

theorem mem_keys : u ∈ adjacency.keys ↔ u ∈ data := by
  have hlookup := congrArg Option.isSome (adjacency.lookup u)
  rw [Option.isSome_map, Option.isSome_map] at hlookup
  rw [← Finmap.lookup_isSome, ← hlookup, keys, List.lookup_isSome_iff, List.mem_map]
  simp only [beq_iff_eq, eq_comm (a := u)]

end Adjacency

end adjacency

section relax

variable {d : V → Option ℤ} {s : Search V} {u v x : V}

omit [DecidableEq V] in
theorem dijkstraCompare_lt : dijkstraCompare d u v < 0 ↔
    cost d u ≠ -1 ∧ (cost d v = -1 ∨ cost d u < cost d v) := by
  rw [dijkstraCompare]
  split_ifs <;> omega

def Relaxes (s : Search V) (u v : V) : Prop := cost s.d v = -1 ∨ cost s.d u + 1 < cost s.d v

theorem relax_of_relaxes (h : Relaxes s u v) : relax u s v =
    { s with d := Function.update s.d v (some (cost s.d u + 1)),
             previous := Function.update s.previous v (some u) } := if_pos h

theorem relax_of_not (h : ¬Relaxes s u v) : relax u s v = s := if_neg h

theorem cost_update {n : ℤ} :
    cost (Function.update d v (some n)) x = if x = v then n else cost d x := by
  rw [cost, Function.update_apply]
  split_ifs <;> rfl

theorem relax_cases (s : Search V) (u v x : V) :
    (cost (relax u s v).d x = cost s.d x ∧ (relax u s v).previous x = s.previous x) ∨
      (x = v ∧ Relaxes s u v ∧ cost (relax u s v).d x = cost s.d u + 1 ∧
        (relax u s v).previous x = some u) := by
  by_cases h : Relaxes s u v
  · rw [relax_of_relaxes h]
    by_cases hx : x = v
    · right
      subst hx
      exact ⟨rfl, h, by rw [cost_update, if_pos rfl], Function.update_self _ _ _⟩
    · left
      exact ⟨by rw [cost_update, if_neg hx], Function.update_of_ne hx _ _⟩
  · rw [relax_of_not h]
    exact .inl ⟨rfl, rfl⟩

end relax

structure Sane (data : AdjacencyList V) (start : V) (s : Search V) : Prop where
  floor : ∀ v, -1 ≤ cost s.d v
  fixed : ∀ v, v = start ∨ v ∉ data → cost s.d v = 0 ∧ s.previous v = none
  previous : ∀ v w, s.previous v = some w → data.Adjacent w v

section foldl

variable {data : AdjacencyList V} {start u v x : V} {s : Search V} {vs : List V}

theorem foldl_relax_cases (u : V) (s : Search V) (vs : List V) (x : V) :
    (cost (vs.foldl (relax u) s).d x = cost s.d x ∧
        (vs.foldl (relax u) s).previous x = s.previous x) ∨
      (x ∈ vs ∧ (vs.foldl (relax u) s).previous x = some u) := by
  induction vs generalizing s with
  | nil => exact .inl ⟨rfl, rfl⟩
  | cons v vs ih =>
    rw [List.foldl_cons]
    obtain ⟨hcost, hprevious⟩ | ⟨hx, hprevious⟩ := ih (relax u s v)
    · rw [hcost, hprevious]
      obtain hkept | ⟨rfl, -, -, hprevious⟩ := relax_cases s u v x
      · exact .inl hkept
      · exact .inr ⟨List.mem_cons_self, hprevious⟩
    · exact .inr ⟨List.mem_cons_of_mem v hx, hprevious⟩

namespace Sane

theorem relax (h : Sane data start s) (huv : data.Adjacent u v) :
    Sane data start (relax u s v) := by
  refine ⟨fun x => ?_, fun x hx => ?_, fun x w hw => ?_⟩
  · obtain ⟨hcost, -⟩ | ⟨-, -, hcost, -⟩ := relax_cases s u v x
    · rw [hcost]
      exact h.floor x
    · have hfloor := h.floor u
      omega
  · obtain ⟨hcost, hprevious⟩ | ⟨rfl, hrelaxes, -⟩ := relax_cases s u v x
    · rw [hcost, hprevious]
      exact h.fixed x hx
    · have hzero := (h.fixed x hx).1
      have hfloor := h.floor u
      rw [Relaxes] at hrelaxes
      omega
  · obtain ⟨-, hprevious⟩ | ⟨rfl, -, -, hprevious⟩ := relax_cases s u v x
    · rw [hprevious] at hw
      exact h.previous x w hw
    · rw [hprevious] at hw
      cases hw
      exact huv

theorem foldl (h : Sane data start s) (hvs : ∀ v ∈ vs, data.Adjacent u v) :
    Sane data start (vs.foldl (Motion.relax u) s) :=
  List.foldlRecOn vs _ h fun _ hs v hv => hs.relax (hvs v hv)

theorem reached_relax (h : Sane data start s) : cost (Motion.relax u s v).d v ≠ -1 := by
  have hfloor := h.floor u
  by_cases hrelaxes : Relaxes s u v
  · rw [relax_of_relaxes hrelaxes, cost_update, if_pos rfl]
    omega
  · rw [relax_of_not hrelaxes]
    exact fun hcost => hrelaxes (.inl hcost)

theorem reached_foldl (h : Sane data start s) (hvs : ∀ v ∈ vs, data.Adjacent u v)
    (hx : cost s.d x ≠ -1 ∨ x ∈ vs) : cost (vs.foldl (Motion.relax u) s).d x ≠ -1 := by
  induction vs generalizing s with
  | nil => exact hx.resolve_right List.not_mem_nil
  | cons v vs ih =>
    rw [List.foldl_cons]
    apply ih (h.relax (hvs v List.mem_cons_self)) fun y hy => hvs y (List.mem_cons_of_mem v hy)
    obtain hx | hx := hx
    · left
      obtain ⟨hcost, -⟩ | ⟨rfl, -⟩ := relax_cases s u v x
      · rw [hcost]
        exact hx
      · exact h.reached_relax
    · obtain rfl | hx := List.mem_cons.mp hx
      · exact .inl h.reached_relax
      · exact .inr hx

end Sane

end foldl

section queue

variable {data : AdjacencyList V} {sort : QueueSort V} {adjacency : Adjacency data} {start u v : V}
  {s : Search V} {agenda : List V}

structure Queued (data : AdjacencyList V) (s : Search V) : Prop where
  nodup : s.agenda.Nodup
  mem : ∀ u ∈ s.agenda, u ∈ data
  ordered : s.agenda.Pairwise fun u v => ¬dijkstraCompare s.d v u < 0

omit [DecidableEq V] in
theorem Queued.head (h : Queued data s) (hagenda : s.agenda = u :: agenda) (hv : v ∈ s.agenda)
    (hcost : cost s.d v ≠ -1) : cost s.d u ≠ -1 ∧ cost s.d u ≤ cost s.d v := by
  rw [hagenda] at hv
  obtain rfl | hv := List.mem_cons.mp hv
  · exact ⟨hcost, le_rfl⟩
  · have hordered := h.ordered
    rw [hagenda, List.pairwise_cons] at hordered
    have hnot := hordered.1 v hv
    rw [dijkstraCompare_lt] at hnot
    omega

theorem visit_nil (h : s.agenda = []) : visit sort adjacency s = s := by
  rw [visit, h]

theorem visit_cons (h : s.agenda = u :: agenda) : visit sort adjacency s =
    { (adjacency.vs u).foldl (relax u) s with
      agenda := sort.sort ((adjacency.vs u).foldl (relax u) s).d agenda } := by
  rw [visit, h]

theorem mem_of_mem_visit (h : v ∈ (visit sort adjacency s).agenda) : v ∈ s.agenda := by
  cases hagenda : s.agenda with
  | nil => rwa [visit_nil hagenda, hagenda] at h
  | cons u agenda =>
    rw [visit_cons hagenda] at h
    exact List.mem_cons_of_mem u ((sort.perm _ _).mem_iff.mp h)

theorem Queued.visit (h : Queued data s) : Queued data (visit sort adjacency s) := by
  cases hagenda : s.agenda with
  | nil => rwa [visit_nil hagenda]
  | cons u agenda =>
    refine ⟨?_, fun v hv => h.mem v (mem_of_mem_visit hv), ?_⟩
    · rw [visit_cons hagenda]
      have hnodup := h.nodup
      rw [hagenda] at hnodup
      exact (sort.perm _ _).nodup_iff.mpr hnodup.of_cons
    · rw [visit_cons hagenda]
      exact sort.ordered _ _

theorem Sane.visit (h : Sane data start s) : Sane data start (visit sort adjacency s) := by
  cases hagenda : s.agenda with
  | nil => rwa [visit_nil hagenda]
  | cons u agenda =>
    rw [visit_cons hagenda]
    have hsane := h.foldl fun v (hv : v ∈ adjacency.vs u) => adjacency.mem_vs.mp hv
    exact ⟨hsane.floor, hsane.fixed, hsane.previous⟩

theorem length_visit : (visit sort adjacency s).agenda.length = s.agenda.length - 1 := by
  cases hagenda : s.agenda with
  | nil =>
    rw [visit_nil hagenda, hagenda]
    rfl
  | cons u agenda =>
    rw [visit_cons hagenda]
    exact (sort.perm _ _).length_eq

theorem cost_initialEstimates : cost (initialEstimates adjacency start) v =
    if v = start then 0 else if v ∈ data then -1 else 0 := by
  have hkeys : ∀ (keys : List V) (d : V → Option ℤ),
      cost (keys.foldl initializeDijkstraD d) v = if v ∈ keys then -1 else cost d v := by
    intro keys
    induction keys with
    | nil => simp
    | cons u keys ih =>
      intro d
      rw [List.foldl_cons, ih, initializeDijkstraD, cost_update]
      by_cases hv : v = u <;> simp [hv]
  rw [initialEstimates, cost_update, hkeys]
  simp only [Adjacency.mem_keys]
  rfl

def Search.initial (sort : QueueSort V) (adjacency : Adjacency data) (start : V) : Search V :=
  let d := initialEstimates adjacency start
  ⟨d, fun _ => none, buildDijkstraQueue sort adjacency d⟩

theorem Search.perm_initial :
    (Search.initial sort adjacency start).agenda.Perm adjacency.keys := by
  have hreverse : ∀ keys q : List V, keys.foldl addToQueue q = keys.reverse ++ q := by
    intro keys
    induction keys with
    | nil => exact fun q => rfl
    | cons u keys ih =>
      intro q
      rw [List.foldl_cons, ih, addToQueue, List.reverse_cons, List.append_assoc]
      rfl
  rw [Search.initial, buildDijkstraQueue, hreverse, List.append_nil]
  exact (sort.perm _ _).trans (List.reverse_perm _)

theorem Queued.initial : Queued data (Search.initial sort adjacency start) := by
  refine ⟨Search.perm_initial.nodup_iff.mpr adjacency.nodup, fun u hu => ?_, sort.ordered _ _⟩
  exact Adjacency.mem_keys.mp (Search.perm_initial.mem_iff.mp hu)

theorem Sane.initial : Sane data start (Search.initial sort adjacency start) := by
  have hcost : ∀ v, cost (Search.initial sort adjacency start).d v =
      if v = start then 0 else if v ∈ data then -1 else 0 := fun v => cost_initialEstimates
  refine ⟨fun v => ?_, fun v hv => ⟨?_, rfl⟩, ?_⟩
  · rw [hcost]
    split_ifs <;> omega
  · rw [hcost]
    obtain rfl | hv := hv
    · rw [if_pos rfl]
    · rw [if_neg hv, ite_self]
  · rintro v w ⟨⟩

theorem findShortestPaths_eq : findShortestPaths sort adjacency (initialEstimates adjacency start) =
    (visit sort adjacency)^[(Search.initial sort adjacency start).agenda.length]
      (Search.initial sort adjacency start) := rfl

theorem findShortestPaths_of_visit {p : Search V → Prop}
    (hinitial : p (Search.initial sort adjacency start))
    (hvisit : ∀ s, Sane data start s → Queued data s → p s → p (visit sort adjacency s)) :
    let s := findShortestPaths sort adjacency (initialEstimates adjacency start)
    Sane data start s ∧ Queued data s ∧ s.agenda = [] ∧ p s := by
  have hrun : ∀ n, Sane data start ((visit sort adjacency)^[n] (.initial sort adjacency start)) ∧
      Queued data ((visit sort adjacency)^[n] (.initial sort adjacency start)) ∧
      ((visit sort adjacency)^[n] (.initial sort adjacency start)).agenda.length =
        (Search.initial sort adjacency start).agenda.length - n ∧
      p ((visit sort adjacency)^[n] (.initial sort adjacency start)) := by
    intro n
    induction n with
    | zero => exact ⟨.initial, .initial, rfl, hinitial⟩
    | succ n ih =>
      rw [Function.iterate_succ_apply']
      obtain ⟨hsane, hqueued, hlength, hp⟩ := ih
      exact ⟨hsane.visit, hqueued.visit, by rw [length_visit, hlength]; omega,
        hvisit _ hsane hqueued hp⟩
  obtain ⟨hsane, hqueued, hlength, hp⟩ := hrun (Search.initial sort adjacency start).agenda.length
  rw [findShortestPaths_eq]
  exact ⟨hsane, hqueued, List.length_eq_zero_iff.mp (by omega), hp⟩

end queue

end NaviMisc.Motion
