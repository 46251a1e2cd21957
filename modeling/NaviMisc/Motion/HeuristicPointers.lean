import NaviMisc.Lib.Outcome
import NaviMisc.Motion.Dijkstra

/-!
`Heuristic` of `Graph/Algorithms.py`, a best first search whose back pointers are kept from one
run to the next. The vertices are truthy, so that only `None` ends a path.
-/

namespace NaviMisc.Motion

open NaviMisc.Lib
open Relation

variable {V C : Type} [DecidableEq V]

/-- What is kept in the object between calls of `run`. -/
structure Heuristic (V : Type) where
  path : Option (List V)
  predecessors : V → Option (Option V)

namespace Heuristic

inductive Stop
  | outOfFuel
  | keyError
  | typeError
  deriving DecidableEq

structure Costs (V C : Type) where
  costf : List V → V → C
  lt : C → C → Bool
  sub : C → C → Option ℤ

/-- `list.sort` with a function that compares, which may raise an exception. -/
structure ListSort (V : Type) where
  sort : (V → V → Except Stop ℤ) → List V → Except Stop (List V)
  perm : ∀ cmp l l', sort cmp l = .ok l' → l'.Perm l
  short : ∀ cmp l, l.length ≤ 1 → sort cmp l = .ok l
  returns : ∀ cmp l, (∀ a ∈ l, ∀ b ∈ l, ∃ n, cmp a b = .ok n) → ∃ l', sort cmp l = .ok l'
  raises : ∀ cmp l, 2 ≤ l.length → (∀ a ∈ l, ∀ b ∈ l, ∃ e, cmp a b = .error e) →
    ∃ e, sort cmp l = .error e

def new (source : V) : Heuristic V := ⟨none, Function.update (fun _ => none) source (some none)⟩

/-- `path` begins with `node`. -/
def follow (predecessors : V → Option (Option V)) : ℕ → V → List V → Except Stop (List V)
  | 0, _, _ => .error .outOfFuel
  | fuel + 1, node, path =>
    match predecessors node with
    | none => .error .keyError
    | some none => .ok path
    | some (some next) => follow predecessors fuel next (next :: path)

def pathToNode (predecessors : V → Option (Option V)) (fuel : ℕ) (node : V) :
    Except Stop (List V) :=
  follow predecessors fuel node [node]

structure Locals (V : Type) where
  agenda : List V
  visited : List V
  predecessors : V → Option (Option V)
  path : Option (List V)

def start (h : Heuristic V) (source : V) : Locals V := ⟨[source], [], h.predecessors, none⟩

section run

variable (costs : Costs V C) (sort : ListSort V) {data : AdjacencyList V}
  (adjacency : Adjacency data) (goal : V) (fuel : ℕ)

/-- What a function that compares may return is an int. -/
def difference (bc ac : C) : Except Stop ℤ :=
  match costs.sub bc ac with
  | some n => .ok n
  | none => .error .typeError

def compare (predecessors : V → Option (Option V)) (a b : V) : Except Stop ℤ := do
  let a_path ← pathToNode predecessors fuel a
  let ac := costs.costf a_path goal
  let b_path ← pathToNode predecessors fuel b
  let bc := costs.costf b_path goal
  difference costs bc ac

/-- Whether the way to `v` over `node` is cheaper, or the only one. -/
def improves (predecessors : V → Option (Option V)) (node v : V) : Except Stop Bool :=
  match predecessors v with
  | none => .ok true
  | some _ => do
    let path ← pathToNode predecessors fuel node
    let old ← pathToNode predecessors fuel v
    return costs.lt (costs.costf (path ++ [v]) goal) (costs.costf old goal)

def visitEdge (node : V) (s : Locals V) (v : V) : Except Stop (Locals V) :=
  if v ∈ s.visited then .ok s
  else do
    let improved ← improves costs goal fuel s.predecessors node v
    return { s with
      predecessors :=
        if improved then Function.update s.predecessors v (some (some node)) else s.predecessors
      agenda := if v ∈ s.agenda then s.agenda else s.agenda ++ [v] }

def pop (s : Locals V) (node : V) : Locals V :=
  { s with agenda := s.agenda.dropLast, visited := s.visited ++ [node] }

def visit (s : Locals V) (node : V) : Except Stop (Locals V) :=
  if node = goal then do
    let path ← pathToNode s.predecessors fuel node
    return { pop s node with path := some path }
  else do
    let s ← (adjacency.vs node).foldlM (visitEdge costs goal fuel node) (pop s node)
    let agenda ← sort.sort (compare costs goal fuel s.predecessors) s.agenda
    return { s with agenda := agenda }

def loop : ℕ → Locals V → Except Stop (Locals V)
  | 0, _ => .error .outOfFuel
  | n + 1, s =>
    match s.path, s.agenda.getLast? with
    | none, some node => do loop n (← visit costs sort adjacency goal fuel s node)
    | _, _ => .ok s

def run (source : V) (h : Heuristic V) : Except Stop (Heuristic V) :=
  match h.path with
  | some _ => .ok h
  | none => do
    let s ← loop costs sort adjacency goal fuel fuel (h.start source)
    return ⟨s.path, s.predecessors⟩

end run

section spec

variable (costs : Costs V C) (sort : ListSort V) {data : AdjacencyList V}
  (adjacency : Adjacency data) (source goal : V)

inductive Passes (fuel : ℕ) (s : Locals V) : Locals V → Prop
  | refl : Passes fuel s s
  | visit {t t' : Locals V} {node : V} (h : Passes fuel s t) (hpath : t.path = none)
      (hnode : t.agenda.getLast? = some node)
      (ht : Heuristic.visit costs sort adjacency goal fuel t node = .ok t') : Passes fuel s t'

/-- `pathToNode` comes to an end at each vertex that has an entry. -/
def Ends (predecessors : V → Option (Option V)) : Prop :=
  ∀ v, predecessors v ≠ none →
    ∃ n, ∀ fuel, n ≤ fuel → ∃ path, pathToNode predecessors fuel v = .ok path

/-- What a call of `run` is to do, with any amount of fuel that is enough. -/
structure Right (h : Heuristic V) : Prop where
  throughout : h.path = none → ∀ fuel s,
    Passes costs sort adjacency goal fuel (h.start source) s → Ends s.predecessors
  result : ∃ n, ∀ fuel, n ≤ fuel → ∃ h', run costs sort adjacency goal fuel source h = .ok h' ∧
    Ends h'.predecessors ∧
    (ReflTransGen data.Adjacent source goal →
      ∃ path, h'.path = some path ∧ Route data.Adjacent source goal path) ∧
    (¬ReflTransGen data.Adjacent source goal → h'.path = none)

def Clean (h : Heuristic V) : Prop := h.path = none → h.predecessors = (new source).predecessors

/-- The states after calls of `run`, each of which began clean. -/
inductive Called : Heuristic V → Prop
  | new : Called (.new source)
  | run {h h' : Heuristic V} {fuel : ℕ} (hcalled : Called h) (hclean : Clean source h)
      (hrun : run costs sort adjacency goal fuel source h = .ok h') : Called h'

variable (data) in
def IntCosts : Prop := ∀ u v p q, Route data.Adjacent source u p → Route data.Adjacent source v q →
  ∃ n, costs.sub (costs.costf p goal) (costs.costf q goal) = some n

variable (data) in
def NoIntCosts : Prop := ∀ u v p q, Route data.Adjacent source u p → Route data.Adjacent source v q →
  costs.sub (costs.costf p goal) (costs.costf q goal) = none

variable (data) in
/-- Up to the goal there is never more than one way to go on. -/
inductive Narrow : List V → V → Prop
  | goal (visited : List V) : Narrow visited goal
  | last {visited : List V} {node : V}
      (h : ∀ v, data.Adjacent node v → v ∈ visited ++ [node]) : Narrow visited node
  | next {visited : List V} {node v : V} (hadjacent : data.Adjacent node v)
      (hv : v ∉ visited ++ [node])
      (h : ∀ w, data.Adjacent node w → w ∈ visited ++ [node] ∨ w = v)
      (hnext : Narrow (visited ++ [node]) v) : Narrow visited node

end spec

end Heuristic

end NaviMisc.Motion

/-!
The back pointers during a run that begins clean: each one leads to a vertex that was visited
before, whatever the costs are.
-/

namespace NaviMisc.Motion.Heuristic

open NaviMisc.Lib
open NaviMisc.Lib.Outcome
open Relation

variable {V C : Type} [DecidableEq V]

structure Pointers (data : AdjacencyList V) (source : V) (s : Locals V) : Prop where
  origin : s.predecessors source = some none
  root : ∀ v, s.predecessors v = some none → v = source
  back : ∀ v u, s.predecessors v = some (some u) →
    data.Adjacent u v ∧ s.visited.idxOf u < s.visited.idxOf v
  mem : ∀ v, s.predecessors v ≠ none ↔ v ∈ s.visited ∨ v ∈ s.agenda
  nodup : (s.visited ++ s.agenda).Nodup
  first : (s.visited = [] ∧ s.agenda = [source]) ∨ source ∈ s.visited

namespace Pointers

variable {data : AdjacencyList V} {source node v : V} {s : Locals V}

theorem start {h : Heuristic V} (hclean : h.predecessors = (new source).predecessors) :
    Pointers data source (h.start source) := by
  have horigin : (h.start source).predecessors source = some none :=
    (congrFun hclean source).trans (by simp [new])
  have hentry : ∀ v, (h.start source).predecessors v ≠ none → v = source := by
    intro v hv
    by_contra hne
    exact hv ((congrFun hclean v).trans (by simp [new, hne]))
  refine ⟨horigin, fun v hv => hentry v ?_, fun v u hv => ?_, fun v => ?_, by simp [Heuristic.start],
    .inl ⟨rfl, rfl⟩⟩
  · rw [hv]
    exact Option.some_ne_none _
  · have hvsource : v = source := hentry v (by rw [hv]; exact Option.some_ne_none _)
    rw [hvsource, horigin] at hv
    cases hv
  · simp only [Heuristic.start, List.not_mem_nil, List.mem_singleton, false_or]
    refine ⟨hentry v, ?_⟩
    rintro rfl
    exact fun hnone => Option.some_ne_none _ (horigin.symm.trans hnone)

theorem follow (h : Pointers data source s) (hv : s.predecessors v ≠ none) {t : V} {path : List V}
    (hpath : Route data.Adjacent v t path) (fuel : ℕ) :
    Yields (fun _ => fuel ≤ s.visited.idxOf v) (Route data.Adjacent source t)
      (Heuristic.follow s.predecessors fuel v path) := by
  induction fuel generalizing v path with
  | zero => exact Nat.zero_le _
  | succ fuel ih =>
    obtain ⟨next, hnext⟩ := Option.ne_none_iff_exists'.mp hv
    rw [Heuristic.follow, hnext]
    cases next with
    | none =>
      obtain rfl := h.root v hnext
      exact hpath
    | some u =>
      obtain ⟨huv, hlt⟩ := h.back v u hnext
      have hu : u ∈ s.visited := List.idxOf_lt_length_iff.mp (hlt.trans_le List.idxOf_le_length)
      have hrest := ih ((h.mem u).mpr (.inl hu)) (hpath.cons huv)
      exact hrest.imp (fun _ hfuel => hfuel.trans_lt hlt) fun _ hroute => hroute

theorem pathToNode (h : Pointers data source s) (hv : s.predecessors v ≠ none) (fuel : ℕ) :
    Yields (fun _ => fuel ≤ s.visited.length) (Route data.Adjacent source v)
      (Heuristic.pathToNode s.predecessors fuel v) :=
  (h.follow hv .singleton fuel).imp (fun _ hfuel => hfuel.trans List.idxOf_le_length)
    fun _ hroute => hroute

theorem ends (h : Pointers data source s) : Ends s.predecessors := by
  intro v hv
  refine ⟨s.visited.length + 1, fun fuel hfuel => ?_⟩
  obtain ⟨path, hok, -⟩ := (h.pathToNode hv fuel).exists_ok fun _ => Nat.not_le.mpr hfuel
  exact ⟨path, hok⟩

theorem idxOf_append (h : Pointers data source s) {u : V} (hv : s.predecessors v = some (some u))
    (l : List V) : (s.visited ++ l).idxOf u < (s.visited ++ l).idxOf v := by
  have hlt := (h.back v u hv).2
  have hu : u ∈ s.visited := List.idxOf_lt_length_iff.mp (hlt.trans_le List.idxOf_le_length)
  rw [List.idxOf_append_of_mem hu]
  by_cases hv' : v ∈ s.visited
  · rwa [List.idxOf_append_of_mem hv']
  · rw [List.idxOf_append_of_notMem hv']
    have hlength := List.idxOf_lt_length_iff.mpr hu
    omega

theorem pop (h : Pointers data source s) (hnode : s.agenda.getLast? = some node) :
    Pointers data source (Heuristic.pop s node) := by
  have hagenda : s.agenda = s.agenda.dropLast ++ [node] :=
    (List.dropLast_append_getLast? node hnode).symm
  refine ⟨h.origin, h.root, fun v u hv => ⟨(h.back v u hv).1, h.idxOf_append hv [node]⟩, fun v => ?_,
    ?_, ?_⟩
  · have hmem : v ∈ s.agenda ↔ v ∈ s.agenda.dropLast ∨ v = node := by
      conv_lhs => rw [hagenda]
      simp
    rw [Heuristic.pop, h.mem v, hmem, List.mem_append, List.mem_singleton, or_assoc,
      or_comm (a := v = node)]
  · have hnodup := h.nodup
    rw [hagenda] at hnodup
    refine (List.Perm.nodup_iff ?_).mp hnodup
    rw [Heuristic.pop, List.append_assoc]
    exact List.Perm.append_left _ List.perm_append_comm
  · right
    obtain ⟨-, hsource⟩ | hsource := h.first
    · rw [hsource] at hnode
      cases hnode
      exact List.mem_append_right _ (List.mem_singleton_self _)
    · exact List.mem_append_left _ hsource

theorem perm (h : Pointers data source s) (hsource : source ∈ s.visited) {agenda : List V}
    (hperm : agenda.Perm s.agenda) : Pointers data source { s with agenda := agenda } := by
  refine ⟨h.origin, h.root, h.back, fun v => ?_, ?_, .inr hsource⟩
  · rw [h.mem v, hperm.mem_iff]
  · exact (List.Perm.append_left _ hperm).nodup_iff.mpr h.nodup

end Pointers

structure Opened (data : AdjacencyList V) (source : V) (s : Locals V) (vs : List V)
    (s' : Locals V) : Prop where
  pointers : Pointers data source s'
  visited : s'.visited = s.visited
  path : s'.path = s.path
  agenda : ∀ x, x ∈ s'.agenda ↔ x ∈ s.agenda ∨ x ∈ vs ∧ x ∉ s.visited

section edges

variable {costs : Costs V C} {data : AdjacencyList V} {adjacency : Adjacency data}
  {source goal node v : V} {fuel : ℕ} {s s' : Locals V} {vs : List V}

theorem Pointers.improves (h : Pointers data source s) (hnode : node ∈ s.visited) :
    Yields (fun _ => fuel ≤ s.visited.length) (fun improved => improved = true ∨ s.predecessors v ≠ none)
      (improves costs goal fuel s.predecessors node v) := by
  rw [Heuristic.improves]
  cases hv : s.predecessors v with
  | none => exact .inl rfl
  | some u =>
    have hentry : s.predecessors v ≠ none := by rw [hv]; exact Option.some_ne_none u
    refine (h.pathToNode ((h.mem node).mpr (.inl hnode)) fuel).bind fun path _ => ?_
    exact (h.pathToNode hentry fuel).bind fun old _ => .inr (Option.some_ne_none u)

theorem Pointers.update (h : Pointers data source s) (hnode : node ∈ s.visited)
    (hadjacent : data.Adjacent node v) (hv : v ∉ s.visited) {agenda : List V}
    (hagenda : ∀ x, x ∈ agenda ↔ x ∈ s.agenda ∨ x = v) (hnodup : (s.visited ++ agenda).Nodup) :
    Pointers data source { s with
      predecessors := Function.update s.predecessors v (some (some node)), agenda := agenda } := by
  have hsource : source ∈ s.visited := by
    obtain ⟨hempty, -⟩ | hsource := h.first
    · rw [hempty] at hnode
      cases hnode
    · exact hsource
  have hne : source ≠ v := fun heq => hv (heq ▸ hsource)
  refine ⟨(Function.update_of_ne hne _ _).trans h.origin, fun x hx => ?_, fun x u hx => ?_,
    fun x => ?_, hnodup, .inr hsource⟩
  · dsimp only at hx
    by_cases hxv : x = v
    · subst hxv
      rw [Function.update_self] at hx
      cases hx
    · rw [Function.update_of_ne hxv] at hx
      exact h.root x hx
  · dsimp only at hx ⊢
    by_cases hxv : x = v
    · subst hxv
      rw [Function.update_self] at hx
      cases hx
      refine ⟨hadjacent, ?_⟩
      rw [List.idxOf_eq_length hv]
      exact List.idxOf_lt_length_iff.mpr hnode
    · rw [Function.update_of_ne hxv] at hx
      exact h.back x u hx
  · dsimp only
    rw [hagenda, ← or_assoc, ← h.mem x]
    by_cases hxv : x = v
    · subst hxv
      rw [Function.update_self]
      simp
    · rw [Function.update_of_ne hxv]
      simp [hxv]

theorem Opened.refl (h : Pointers data source s) : Opened data source s [] s :=
  ⟨h, rfl, rfl, fun x => by simp⟩

theorem Opened.trans {vs' : List V} {s'' : Locals V} (h : Opened data source s vs s')
    (h' : Opened data source s' vs' s'') : Opened data source s (vs ++ vs') s'' := by
  refine ⟨h'.pointers, h'.visited.trans h.visited, h'.path.trans h.path, fun x => ?_⟩
  rw [h'.agenda, h.agenda, h.visited, List.mem_append, or_and_right, or_assoc]

theorem Pointers.visitEdge (h : Pointers data source s) (hnode : node ∈ s.visited)
    (hadjacent : data.Adjacent node v) : Yields (fun _ => fuel ≤ s.visited.length)
      (Opened data source s [v]) (visitEdge costs goal fuel node s v) := by
  rw [Heuristic.visitEdge]
  by_cases hv : v ∈ s.visited
  · rw [if_pos hv]
    refine ⟨h, rfl, rfl, fun x => ?_⟩
    have hx : ¬(x ∈ [v] ∧ x ∉ s.visited) := by
      rintro ⟨hx, hnot⟩
      exact hnot (List.mem_singleton.mp hx ▸ hv)
    rw [or_iff_left hx]
  rw [if_neg hv]
  have hmem : ∀ x, x ∈ (if v ∈ s.agenda then s.agenda else s.agenda ++ [v]) ↔ x ∈ s.agenda ∨ x = v := by
    intro x
    split
    · refine ⟨.inl, ?_⟩
      rintro (hx | rfl)
      · exact hx
      · assumption
    · rw [List.mem_append, List.mem_singleton]
  have hnodup : (s.visited ++ if v ∈ s.agenda then s.agenda else s.agenda ++ [v]).Nodup := by
    split
    · exact h.nodup
    · rename_i hagenda
      rw [← List.append_assoc]
      refine List.Nodup.append h.nodup (List.nodup_singleton v) ?_
      simp [hv, hagenda]
  have hagenda : ∀ x, x ∈ (if v ∈ s.agenda then s.agenda else s.agenda ++ [v]) ↔
      x ∈ s.agenda ∨ x ∈ [v] ∧ x ∉ s.visited := by
    intro x
    rw [hmem, List.mem_singleton]
    refine or_congr_right ⟨?_, And.left⟩
    rintro rfl
    exact ⟨rfl, hv⟩
  refine (h.improves hnode).bind fun improved himproved => ?_
  cases improved with
  | true => exact ⟨h.update hnode hadjacent hv hmem hnodup, rfl, rfl, hagenda⟩
  | false =>
    -- an entry without a visit is on the agenda already
    have hentry : s.predecessors v ≠ none := himproved.resolve_left Bool.false_ne_true
    have hv' : v ∈ s.agenda := ((h.mem v).mp hentry).resolve_left hv
    refine ⟨?_, rfl, rfl, hagenda⟩
    rw [if_pos hv']
    exact h

theorem Pointers.edges (h : Pointers data source s) (hnode : node ∈ s.visited)
    (hvs : ∀ v ∈ vs, data.Adjacent node v) : Yields (fun _ => fuel ≤ s.visited.length)
      (Opened data source s vs) (vs.foldlM (Heuristic.visitEdge costs goal fuel node) s) := by
  refine Yields.foldlM (I := Opened data source s) (.refl h) fun v hv done a ha => ?_
  have hedge : Yields (fun _ => fuel ≤ a.visited.length) (Opened data source a [v])
      (Heuristic.visitEdge costs goal fuel node a v) :=
    ha.pointers.visitEdge (by rwa [ha.visited]) (hvs v hv)
  rw [ha.visited] at hedge
  exact hedge.mono fun a' ha' => ha.trans ha'

end edges

end NaviMisc.Motion.Heuristic
