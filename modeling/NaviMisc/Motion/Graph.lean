import Mathlib.Data.List.Permutation
import NaviMisc.Lib.Runs
import NaviMisc.Motion.GraphData

/-!
`Graph` of `Graph/Data.py` with its three representations, attached in any order.
-/

namespace NaviMisc.Motion

inductive Representation
  | adjacencyList
  | vertexMap
  | edgeList
  deriving DecidableEq

structure Graph (α V : Type) where
  adjacencyList : AdjacencyList V
  vertexMap : VertexMap α V
  edgeList : EdgeList α

inductive Op (α : Type)
  | add (edge : Edge α)
  | remove (edge : Edge α)

variable {α V : Type} [DecidableEq V]

namespace Graph

def onAdd (value : α → V) (hash : V × V → ℤ) (edge : Edge α) (g : Graph α V) :
    Representation → Graph α V × Option Fault
  | .adjacencyList =>
    match g.adjacencyList.onAdd (edge.pair value) with
    | .ok data => ({ g with adjacencyList := data }, none)
    | .error fault => (g, some fault)
  | .vertexMap => ({ g with vertexMap := g.vertexMap.onAdd value edge }, none)
  | .edgeList => ({ g with edgeList := g.edgeList.onAdd value hash edge }, none)

def onRemove [DecidableEq α] (value : α → V) (edge : Edge α) (g : Graph α V) :
    Representation → Graph α V × Option Fault
  | .adjacencyList =>
    match g.adjacencyList.onRemove (edge.pair value) with
    | .ok data => ({ g with adjacencyList := data }, none)
    | .error fault => (g, some fault)
  | .vertexMap =>
    let (map, fault) := g.vertexMap.onRemove value edge
    ({ g with vertexMap := map }, fault)
  | .edgeList => ({ g with edgeList := g.edgeList.onRemove edge }, none)

def call [DecidableEq α] (value : α → V) (hash : V × V → ℤ) (order : List Representation) (g : Graph α V) :
    Op α → Graph α V × Option Fault
  | .add edge => each (onAdd value hash edge) g order
  | .remove edge => each (onRemove value edge) g order

def empty : Graph α V := ⟨∅, ⟨∅, []⟩, ∅⟩

def quiet (g : Graph α V) : Graph α V :=
  ⟨g.adjacencyList, ⟨g.vertexMap.data, []⟩, g.edgeList⟩

end Graph

/-- A graph with its edges now and before the last call, which may have raised. -/
structure State (α V : Type) where
  graph : Graph α V
  edges : Finset (V × V)
  previous : Finset (V × V)
  raised : Option Fault

def changed (value : α → V) (edges : Finset (V × V)) : Op α → Finset (V × V)
  | .add edge => insert (edge.pair value) edges
  | .remove edge => edges.erase (edge.pair value)

def step [DecidableEq α] (value : α → V) (hash : V × V → ℤ) (order : List Representation)
    (s : State α V) (op : Op α) : State α V :=
  let (g, raised) := s.graph.quiet.call value hash order op
  ⟨g, changed value s.edges op, s.edges, raised⟩

def State.empty : State α V := ⟨Graph.empty, ∅, ∅, none⟩

def Admissible (value : α → V) (s : State α V) : Op α → Prop
  | .add edge => edge.pair value ∉ s.edges
  | .remove edge => edge.pair value ∈ s.edges

def Incident (edges : Finset (V × V)) (v : V) : Prop := ∃ p ∈ edges, Touches p v

structure AdjacencyList.Describes (data : AdjacencyList V) (edges : Finset (V × V)) : Prop where
  iter : data.iter = edges.val
  contains : ∀ p, data.contains p ↔ p ∈ edges

structure VertexMap.Describes (value : α → V) (map : VertexMap α V) (edges : Finset (V × V)) :
    Prop where
  query : ∀ v p, p ∈ map.pairs value v ↔ p ∈ edges ∧ Touches p v
  nodup : ∀ v, (map.pairs value v).Nodup
  iter : ∀ v, v ∈ map.iter ↔ Incident edges v

structure EdgeList.Describes (value : α → V) (hash : V × V → ℤ) (data : EdgeList α)
    (edges : Finset (V × V)) : Prop where
  iter : data.iter.map (Edge.pair value) = edges.val
  query : ∀ f : Edge α, (data.query hash (f.pair value)).map (Edge.pair value) =
    if f.pair value ∈ edges then some (f.pair value) else none

structure Reports (fired : List (VertexEvent V)) (previous edges : Finset (V × V)) : Prop where
  nodup : fired.Nodup
  added : ∀ v, .added v ∈ fired ↔ Incident edges v ∧ ¬Incident previous v
  removed : ∀ v, .removed v ∈ fired ↔ Incident previous v ∧ ¬Incident edges v

structure Tracks (value : α → V) (s : State α V) : Prop where
  adjacencyList : s.graph.adjacencyList.Describes s.edges
  vertexMap : s.graph.vertexMap.Describes value s.edges
  fired : Reports s.graph.vertexMap.fired s.previous s.edges
  raised : s.raised = none

structure Agree (value : α → V) (hash : V × V → ℤ) (s : State α V) : Prop where
  tracks : Tracks value s
  edgeList : s.graph.edgeList.Describes value hash s.edges

def Unshared (value : α → V) (hash : V × V → ℤ) : Op α → Prop
  | .add edge => ∀ f : Edge α, hash (f.pair value) = hash (edge.pair value) →
      f.pair value = edge.pair value
  | .remove _ => False

def Identical (value : α → V) : Op α → Prop
  | .add _ => True
  | .remove edge => value edge.u = value edge.v → edge.u = edge.v

section order

variable [DecidableEq α] {value : α → V} {hash : V × V → ℤ} {order : List Representation} {g : Graph α V}
  {edge : Edge α}

theorem order_cases (h : order.Perm [.adjacencyList, .vertexMap, .edgeList]) :
    order = [.adjacencyList, .vertexMap, .edgeList] ∨
      order = [.vertexMap, .adjacencyList, .edgeList] ∨
      order = [.edgeList, .vertexMap, .adjacencyList] ∨
      order = [.vertexMap, .edgeList, .adjacencyList] ∨
      order = [.edgeList, .adjacencyList, .vertexMap] ∨
      order = [.adjacencyList, .edgeList, .vertexMap] := by
  have hmem := List.mem_permutations.mpr h
  simpa [List.permutations] using hmem

theorem call_add (h : order.Perm [.adjacencyList, .vertexMap, .edgeList]) {data : AdjacencyList V}
    (hdata : g.adjacencyList.onAdd (edge.pair value) = .ok data) :
    g.call value hash order (.add edge) =
      (⟨data, g.vertexMap.onAdd value edge, g.edgeList.onAdd value hash edge⟩, none) := by
  rcases order_cases h with rfl | rfl | rfl | rfl | rfl | rfl <;>
    simp only [Graph.call, each, Graph.onAdd, hdata]

theorem call_remove_edgeList :
    (g.call value hash order (.remove edge)).1.edgeList = g.edgeList := by
  rw [Graph.call]
  induction order generalizing g with
  | nil => rfl
  | cons r order ih =>
    have hone : (g.onRemove value edge r).1.edgeList = g.edgeList := by
      cases r with
      | adjacencyList =>
        rw [Graph.onRemove]
        split <;> rfl
      | vertexMap => rfl
      | edgeList => rfl
    rw [each]
    generalize g.onRemove value edge r = result at hone
    obtain ⟨g', fault⟩ := result
    cases fault with
    | none => exact ih.trans hone
    | some fault => exact hone

end order

section representations

variable {value : α → V} {hash : V × V → ℤ} {edges : Finset (V × V)} {edge : Edge α}

theorem AdjacencyList.Describes.onAdd {data : AdjacencyList V} {p : V × V}
    (h : data.Describes edges) (hp : p ∉ edges) :
    ∃ data', data.onAdd p = .ok data' ∧ data'.Describes (insert p edges) := by
  have hnew : data.contains p = false := by
    rw [← Bool.not_eq_true, h.contains]
    exact hp
  obtain ⟨data', hdata, hcontains⟩ := AdjacencyList.onAdd_ok hnew
  have hall : ∀ q, data'.contains q ↔ q ∈ insert p edges := by
    intro q
    rw [hcontains, h.contains, Finset.mem_insert]
  exact ⟨data', hdata, iter_eq_iff.mpr hall, hall⟩

theorem AdjacencyList.Describes.onRemove {data : AdjacencyList V} {p : V × V}
    (h : data.Describes edges) (hp : p ∈ edges) :
    ∃ data', data.onRemove p = .ok data' ∧ data'.Describes (edges.erase p) := by
  obtain ⟨data', hdata, hcontains⟩ := AdjacencyList.onRemove_ok ((h.contains p).mpr hp)
  have hall : ∀ q, data'.contains q ↔ q ∈ edges.erase p := by
    intro q
    rw [hcontains, h.contains, Finset.mem_erase]
  exact ⟨data', hdata, iter_eq_iff.mpr hall, hall⟩

theorem EdgeList.describes_onAdd_iff {data : EdgeList α} (h : data.Describes value hash edges)
    (hnew : edge.pair value ∉ edges) :
    (data.onAdd value hash edge).Describes value hash (insert (edge.pair value) edges) ↔
      Unshared value hash (.add edge) := by
  constructor
  · intro h' f hf
    have hquery := h'.query f
    rw [EdgeList.query, hf, EdgeList.onAdd, Finmap.lookup_insert] at hquery
    split at hquery
    · exact (Option.some.inj hquery).symm
    · cases hquery
  · intro hunshared
    have hfresh : hash (edge.pair value) ∉ data := by
      rw [← Finmap.lookup_eq_none]
      have hquery := h.query edge
      rw [if_neg hnew, Option.map_eq_none_iff] at hquery
      exact hquery
    refine ⟨?_, ?_⟩
    · rw [EdgeList.iter, EdgeList.onAdd, Finmap.entries_insert_of_notMem hfresh, Multiset.map_cons,
        Multiset.map_cons, Finset.insert_val_of_notMem hnew, ← h.iter]
      rfl
    · intro f
      by_cases hf : f.pair value = edge.pair value
      · rw [EdgeList.query, hf, EdgeList.onAdd, Finmap.lookup_insert, if_pos (Finset.mem_insert_self _ _)]
        rfl
      · have hne : hash (f.pair value) ≠ hash (edge.pair value) := fun heq => hf (hunshared f heq)
        rw [EdgeList.query, EdgeList.onAdd, Finmap.lookup_insert_of_ne _ hne]
        have hquery := h.query f
        rw [EdgeList.query] at hquery
        simp only [hquery, Finset.mem_insert, hf, false_or]

theorem EdgeList.not_describes_erase {data : EdgeList α} (h : data.Describes value hash edges)
    (hedge : edge.pair value ∈ edges) :
    ¬data.Describes value hash (edges.erase (edge.pair value)) := by
  intro h'
  have hquery := h.query edge
  rw [h'.query edge, if_pos hedge, if_neg (Finset.notMem_erase _ _)] at hquery
  cases hquery

theorem incident_insert {p : V × V} {v : V} :
    Incident (insert p edges) v ↔ Touches p v ∨ Incident edges v := by
  simp only [Incident, Finset.mem_insert, exists_eq_or_imp]

theorem incident_of_erase {p : V × V} {v : V} (h : Incident (edges.erase p) v) : Incident edges v := by
  obtain ⟨q, hq, htouches⟩ := h
  exact ⟨q, Finset.mem_of_mem_erase hq, htouches⟩

omit [DecidableEq V] in
theorem incident_iff {pairs : List (V × V)} {v : V}
    (h : ∀ p, p ∈ pairs ↔ p ∈ edges ∧ Touches p v) : Incident edges v ↔ pairs ≠ [] := by
  constructor
  · rintro ⟨p, hp⟩
    exact List.ne_nil_of_mem ((h p).mpr hp)
  · intro hne
    obtain ⟨p, hp⟩ := List.exists_mem_of_ne_nil _ hne
    exact ⟨p, (h p).mp hp⟩

theorem loop_iff (value : α → V) (edge : Edge α) :
    decide (value edge.u = value edge.v) ↔ (edge.pair value).1 = (edge.pair value).2 :=
  decide_eq_true_iff

theorem VertexMap.pairs_onAdd (map : VertexMap α V) (v : V) :
    (map.onAdd value edge).pairs value v =
      if Touches (edge.pair value) v then map.pairs value v ++ [edge.pair value]
      else map.pairs value v := by
  rw [pairs, VertexMap.onAdd, query_foldl_addAt (nodup_ends (loop_iff value edge))]
  simp only [mem_ends (loop_iff value edge)]
  split_ifs
  · rw [List.map_append]
    rfl
  · rfl

theorem VertexMap.Describes.insert_pair {map : VertexMap α V} (h : map.Describes value edges)
    (hnew : edge.pair value ∉ edges) :
    (map.onAdd value edge).Describes value (insert (edge.pair value) edges) := by
  refine ⟨?_, ?_, ?_⟩
  · intro v p
    rw [pairs_onAdd, Finset.mem_insert]
    split_ifs with htouches
    · rw [List.mem_append, List.mem_singleton, h.query]
      constructor
      · rintro (⟨hp, hv⟩ | rfl)
        · exact ⟨.inr hp, hv⟩
        · exact ⟨.inl rfl, htouches⟩
      · rintro ⟨rfl | hp, hv⟩
        · exact .inr rfl
        · exact .inl ⟨hp, hv⟩
    · rw [h.query]
      constructor
      · rintro ⟨hp, hv⟩
        exact ⟨.inr hp, hv⟩
      · rintro ⟨rfl | hp, hv⟩
        · exact absurd hv htouches
        · exact ⟨hp, hv⟩
  · intro v
    rw [pairs_onAdd]
    split_ifs
    · rw [List.nodup_append']
      refine ⟨h.nodup v, List.nodup_singleton _, ?_⟩
      rw [List.disjoint_singleton, h.query]
      exact fun hmem => hnew hmem.1
    · exact h.nodup v
  · intro v
    rw [VertexMap.onAdd, mem_iter_foldl_addAt, mem_ends (loop_iff value edge), h.iter, incident_insert]

theorem VertexMap.Describes.onAdd {map : VertexMap α V} (h : map.Describes value edges)
    (hfired : map.fired = []) (hnew : edge.pair value ∉ edges) :
    (map.onAdd value edge).Describes value (insert (edge.pair value) edges) ∧
      Reports (map.onAdd value edge).fired edges (insert (edge.pair value) edges) := by
  have hnodup := nodup_ends (loop_iff value edge)
  refine ⟨h.insert_pair hnew, ?_⟩
  rw [VertexMap.onAdd, fired_foldl_addAt hnodup, hfired, List.nil_append]
  refine ⟨?_, ?_, ?_⟩
  · exact (hnodup.filter _).map fun v v' heq => VertexEvent.added.inj heq
  · intro v
    rw [List.mem_map]
    simp only [VertexEvent.added.injEq, exists_eq_right, List.mem_filter, decide_eq_true_iff,
      mem_ends (loop_iff value edge), h.iter, incident_insert]
    tauto
  · intro v
    rw [incident_insert]
    simp only [List.mem_map, reduceCtorEq, and_false, exists_false, false_iff]
    tauto

section erased

variable {map map' : VertexMap α V} {p : V × V} (h : map.Describes value edges)
  (hpairs : ∀ v, map'.pairs value v =
    if Touches p v then (map.pairs value v).erase p else map.pairs value v)
include h hpairs

theorem VertexMap.Describes.query_erase (v : V) (q : V × V) :
    q ∈ map'.pairs value v ↔ q ∈ edges.erase p ∧ Touches q v := by
  rw [hpairs, Finset.mem_erase, and_assoc, ← h.query]
  split_ifs with htouches
  · rw [(h.nodup v).mem_erase_iff]
  · constructor
    · intro hq
      refine ⟨?_, hq⟩
      rintro rfl
      exact htouches ((h.query v _).mp hq).2
    · exact And.right

theorem VertexMap.Describes.erase_pair (hp : p ∈ edges)
    (hiter : ∀ v, v ∈ map'.iter ↔ v ∈ map.iter ∧ (Touches p v → map'.pairs value v ≠ [])) :
    map'.Describes value (edges.erase p) := by
  refine ⟨h.query_erase hpairs, ?_, ?_⟩
  · intro v
    rw [hpairs]
    split_ifs
    · exact (h.nodup v).erase _
    · exact h.nodup v
  · intro v
    rw [hiter, h.iter, incident_iff (h.query_erase hpairs v)]
    by_cases htouches : Touches p v
    · have hincident : Incident edges v := ⟨p, hp, htouches⟩
      simp [htouches, hincident]
    · rw [hpairs, if_neg htouches, ← incident_iff (h.query v)]
      simp [htouches]

theorem VertexMap.Describes.reports_erase (hp : p ∈ edges) {l : List V} (hnodup : l.Nodup)
    (hl : ∀ v, v ∈ l ↔ Touches p v) :
    Reports ((l.filter (map'.pairs value · = [])).map .removed) edges (edges.erase p) := by
  refine ⟨?_, ?_, ?_⟩
  · exact (hnodup.filter _).map fun v v' heq => VertexEvent.removed.inj heq
  · intro v
    simp only [List.mem_map, reduceCtorEq, and_false, exists_false, false_iff, not_and, not_not]
    exact incident_of_erase
  · intro v
    rw [List.mem_map, incident_iff (h.query_erase hpairs v)]
    simp only [VertexEvent.removed.injEq, exists_eq_right, List.mem_filter, decide_eq_true_iff, hl,
      not_not]
    constructor
    · rintro ⟨htouches, hnil⟩
      exact ⟨⟨p, hp, htouches⟩, hnil⟩
    · rintro ⟨⟨q, hq, htouches⟩, hnil⟩
      refine ⟨?_, hnil⟩
      by_contra hnot
      rw [hpairs, if_neg hnot] at hnil
      exact List.ne_nil_of_mem ((h.query v q).mpr ⟨hq, htouches⟩) hnil

end erased

theorem VertexMap.Describes.onRemove [DecidableEq α] {map : VertexMap α V}
    (h : map.Describes value edges) (hfired : map.fired = []) (hedge : edge.pair value ∈ edges)
    (hidentical : Identical value (.remove edge)) :
    ∃ map', map.onRemove value edge = (map', none) ∧
      map'.Describes value (edges.erase (edge.pair value)) ∧
      Reports map'.fired edges (edges.erase (edge.pair value)) := by
  have hloop : decide (edge.u = edge.v) ↔ (edge.pair value).1 = (edge.pair value).2 :=
    decide_eq_true_iff.trans ⟨fun heq => congrArg value heq, hidentical⟩
  have hnodup := nodup_ends hloop
  have hpresent : ∀ v ∈ ends (edge.pair value) (edge.u = edge.v),
      edge.pair value ∈ map.pairs value v := fun v hv =>
    (h.query v _).mpr ⟨hedge, (mem_ends hloop).mp hv⟩
  obtain ⟨map', hmap, hpairs, hiter, hremoved⟩ := each_removeAt hnodup hpresent
  simp only [mem_ends hloop] at hpairs hiter
  rw [hfired, List.nil_append] at hremoved
  refine ⟨map', hmap, h.erase_pair hpairs hedge hiter, ?_⟩
  rw [hremoved]
  exact h.reports_erase hpairs hedge hnodup fun v => mem_ends hloop

theorem VertexMap.Describes.onRemove_raises [DecidableEq α] {map : VertexMap α V}
    (h : map.Describes value edges) (hedge : edge.pair value ∈ edges)
    (hvalue : value edge.u = value edge.v) (hne : edge.u ≠ edge.v) :
    ∃ map' fault, map.onRemove value edge = (map', some fault) ∧
      map'.Describes value (edges.erase (edge.pair value)) := by
  have hends : ends (edge.pair value) (decide (edge.u = edge.v)) = [value edge.u, value edge.u] := by
    rw [decide_eq_false hne]
    exact congrArg (fun v => [value edge.u, v]) hvalue.symm
  have htouches (v : V) : v = value edge.u ↔ Touches (edge.pair value) v := by
    rw [Touches, Edge.pair, ← hvalue, or_self, eq_comm]
  have hmem : edge.pair value ∈ map.pairs value (value edge.u) :=
    (h.query _ _).mpr ⟨hedge, .inl rfl⟩
  obtain ⟨map₁, hmap₁, hpairs₁, hiter₁, -⟩ := removeAt_of_mem hmem
  have hgone : edge.pair value ∉ map₁.pairs value (value edge.u) := by
    rw [hpairs₁, if_pos rfl]
    exact (h.nodup _).not_mem_erase
  obtain ⟨fault, hmap₂⟩ := removeAt_of_not_mem hgone
  refine ⟨map₁, fault, ?_, ?_⟩
  · rw [VertexMap.onRemove, hends]
    simp only [each, hmap₁, hmap₂]
  · simp only [htouches] at hpairs₁ hiter₁
    exact h.erase_pair hpairs₁ hedge hiter₁

end representations

section run

variable [DecidableEq α] {value : α → V} {hash : V × V → ℤ} {order : List Representation}
  {s : State α V} {op : Op α}

theorem step_eq {g : Graph α V} {raised : Option Fault}
    (h : s.graph.quiet.call value hash order op = (g, raised)) :
    step value hash order s op = ⟨g, changed value s.edges op, s.edges, raised⟩ := by
  rw [step, h]

omit [DecidableEq α] in
theorem Tracks.quiet (h : Tracks value s) : s.graph.quiet.vertexMap.Describes value s.edges :=
  ⟨h.vertexMap.query, h.vertexMap.nodup, h.vertexMap.iter⟩

theorem tracks_add (horder : order.Perm [.adjacencyList, .vertexMap, .edgeList]) (h : Tracks value s)
    {edge : Edge α} (hnew : edge.pair value ∉ s.edges) :
    Tracks value (step value hash order s (.add edge)) ∧
      (step value hash order s (.add edge)).graph.edgeList =
        s.graph.edgeList.onAdd value hash edge := by
  obtain ⟨data, hdata, hadjacency⟩ := h.adjacencyList.onAdd hnew
  have hmap := h.quiet.onAdd rfl hnew
  rw [step_eq (call_add (g := s.graph.quiet) horder hdata)]
  exact ⟨⟨hadjacency, hmap.1, hmap.2, rfl⟩, rfl⟩

theorem agree_step_iff (horder : order.Perm [.adjacencyList, .vertexMap, .edgeList])
    (h : Agree value hash s) (ha : Admissible value s op) :
    Agree value hash (step value hash order s op) ↔ Unshared value hash op := by
  cases op with
  | add edge =>
    obtain ⟨htracks, hedgeList⟩ := tracks_add horder h.tracks ha
    rw [← EdgeList.describes_onAdd_iff h.edgeList ha, ← hedgeList]
    exact ⟨fun h' => h'.edgeList, fun h' => ⟨htracks, h'⟩⟩
  | remove edge =>
    refine iff_of_false ?_ id
    intro h'
    apply EdgeList.not_describes_erase h.edgeList ha
    have hedgeList := h'.edgeList
    change (s.graph.quiet.call value hash order (.remove edge)).1.edgeList.Describes .. at hedgeList
    rwa [call_remove_edgeList] at hedgeList

omit [DecidableEq α] in
theorem tracks_empty : Tracks value (State.empty : State α V) where
  adjacencyList := ⟨rfl, by simp [State.empty, Graph.empty, AdjacencyList.contains]⟩
  vertexMap := ⟨by simp [State.empty, Graph.empty, VertexMap.pairs, VertexMap.query],
    by simp [State.empty, Graph.empty, VertexMap.pairs, VertexMap.query],
    by simp [State.empty, Graph.empty, VertexMap.iter, Incident]⟩
  fired := ⟨List.nodup_nil, by simp [State.empty, Graph.empty, Incident],
    by simp [State.empty, Graph.empty, Incident]⟩
  raised := rfl

omit [DecidableEq α] in
theorem agree_empty : Agree value hash (State.empty : State α V) where
  tracks := tracks_empty
  edgeList := ⟨rfl, by simp [State.empty, Graph.empty, EdgeList.query]⟩

theorem representations_agree (horder : order.Perm [.adjacencyList, .vertexMap, .edgeList])
    {ops : List (Op α)}
    (hops : Lib.Runs.Meets (step value hash order) (Admissible value) State.empty ops) :
    Lib.Runs.Always (step value hash order) (Agree value hash) State.empty ops ↔
      ∀ op ∈ ops, Unshared value hash op := by
  rw [← Lib.Runs.meets_const_iff]
  refine Lib.Runs.always_iff_meets_of (I := fun _ => True) (fun _ _ _ _ _ => trivial) ?_ trivial
    agree_empty hops
  exact fun s op _ h ha => agree_step_iff horder h ha

end run

def tupleHash (p : ℕ × ℕ) : ℤ :=
  let mult : BitVec 64 := 1000003
  let x := (0x345678 ^^^ BitVec.ofNat 64 p.1) * mult
  let x := (x ^^^ BitVec.ofNat 64 p.2) * (mult + 82522)
  (x + 97531).toInt

theorem representations_agree_loop :
    [Representation.edgeList, .adjacencyList, .vertexMap].Perm [.adjacencyList, .vertexMap, .edgeList] ∧
      Lib.Runs.Meets (step id tupleHash [.edgeList, .adjacencyList, .vertexMap]) (Admissible id)
        State.empty [.add ⟨0, 1⟩, .add ⟨2, 2⟩, .remove ⟨0, 1⟩] ∧
      (Lib.Runs.Always (step id tupleHash [.edgeList, .adjacencyList, .vertexMap])
        (Agree id tupleHash) State.empty [.add ⟨0, 1⟩, .add ⟨2, 2⟩, .remove ⟨0, 1⟩] ↔
          ∀ op ∈ [.add ⟨0, 1⟩, .add ⟨2, 2⟩, .remove ⟨0, 1⟩], Unshared id tupleHash op) := by
  have horder : [Representation.edgeList, .adjacencyList, .vertexMap].Perm
      [.adjacencyList, .vertexMap, .edgeList] := by decide
  have hops : Lib.Runs.Meets (step id tupleHash [.edgeList, .adjacencyList, .vertexMap])
      (Admissible id) State.empty [.add ⟨0, 1⟩, .add ⟨2, 2⟩, .remove ⟨0, 1⟩] := by
    refine ⟨?_, ?_, ?_, trivial⟩
    · change (0, 1) ∉ (∅ : Finset (ℕ × ℕ))
      decide
    · change (2, 2) ∉ ({(0, 1)} : Finset (ℕ × ℕ))
      decide
    · change (0, 1) ∈ ({(2, 2), (0, 1)} : Finset (ℕ × ℕ))
      decide
  exact ⟨horder, hops, representations_agree horder hops⟩

theorem removed_listed : ¬Lib.Runs.Always (step id tupleHash [.adjacencyList, .vertexMap, .edgeList])
    (Agree id tupleHash) State.empty [.add ⟨0, 1⟩, .remove ⟨0, 1⟩] := by
  intro h
  have hquery := h.last.edgeList.query ⟨0, 1⟩
  revert hquery
  decide

end NaviMisc.Motion
