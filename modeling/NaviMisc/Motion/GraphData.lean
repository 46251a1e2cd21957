import Mathlib.Data.Finmap

/-!
The representations of a graph in `Graph/Data.py`, each kept by its own callbacks.
-/

namespace NaviMisc.Motion

structure Edge (α : Type) where
  u : α
  v : α

inductive Fault
  | keyError
  | valueError

inductive VertexEvent (V : Type)
  | added (vertex : V)
  | removed (vertex : V)
  deriving DecidableEq

variable {α V : Type}

/-- What edges are compared by: of its ends only the value counts. -/
def Edge.pair (value : α → V) (e : Edge α) : V × V := (value e.u, value e.v)

def Touches (p : V × V) (vertex : V) : Prop := p.1 = vertex ∨ p.2 = vertex

def ends (p : V × V) (isLoop : Bool) : List V := if isLoop then [p.1] else [p.1, p.2]

theorem mem_ends {p : V × V} {isLoop : Bool} (h : isLoop ↔ p.1 = p.2) {v : V} :
    v ∈ ends p isLoop ↔ Touches p v := by
  rw [ends, Touches]
  cases isLoop with
  | true =>
    rw [← h.mp rfl]
    simp [eq_comm]
  | false => simp [eq_comm]

theorem nodup_ends {p : V × V} {isLoop : Bool} (h : isLoop ↔ p.1 = p.2) :
    (ends p isLoop).Nodup := by
  rw [ends]
  cases isLoop with
  | true => exact List.nodup_singleton _
  | false =>
    have hne : p.1 ≠ p.2 := fun heq => Bool.false_ne_true (h.mpr heq)
    simp [hne]

variable [DecidableEq V]

instance (p : V × V) (vertex : V) : Decidable (Touches p vertex) :=
  inferInstanceAs (Decidable (_ ∨ _))

abbrev AdjacencyList (V : Type) := Finmap fun _ : V => Finset V

namespace AdjacencyList

def iter (data : AdjacencyList V) : Multiset (V × V) :=
  data.entries.bind fun item => item.2.val.map fun v => (item.1, v)

def contains (data : AdjacencyList V) (p : V × V) : Bool :=
  match data.lookup p.1 with
  | some vList => p.2 ∈ vList
  | none => false

def onAdd (data : AdjacencyList V) (p : V × V) : Except Fault (AdjacencyList V) :=
  if data.contains p then .error .keyError
  else .ok (data.insert p.1 (insert p.2 ((data.lookup p.1).getD ∅)))

def onRemove (data : AdjacencyList V) (p : V × V) : Except Fault (AdjacencyList V) :=
  match data.lookup p.1 with
  | some vList =>
    if p.2 ∈ vList then
      .ok (if vList.erase p.2 = ∅ then data.erase p.1 else data.insert p.1 (vList.erase p.2))
    else .error .keyError
  | none => .error .keyError

variable {data data' : AdjacencyList V} {p : V × V}

theorem contains_iff : data.contains p ↔ ∃ vList, data.lookup p.1 = some vList ∧ p.2 ∈ vList := by
  rw [contains]
  cases data.lookup p.1 <;> simp

theorem lookup_singleton_of_ne {u u' : V} (h : u' ≠ u) (vList : Finset V) :
    (Finmap.singleton u vList : AdjacencyList V).lookup u' = none := by
  rw [Finmap.lookup_eq_none, Finmap.mem_singleton]
  exact h

theorem contains_singleton {u v : V} :
    contains (Finmap.singleton u {v}) p ↔ p = (u, v) := by
  rw [contains_iff, Prod.ext_iff]
  by_cases hu : p.1 = u
  · rw [hu]
    simp
  · simp [lookup_singleton_of_ne hu, hu]

theorem mem_iter : p ∈ data.iter ↔ data.contains p := by
  rw [contains_iff, iter, Multiset.mem_bind]
  constructor
  · rintro ⟨item, hitem, hp⟩
    obtain ⟨v, hv, rfl⟩ := Multiset.mem_map.mp hp
    exact ⟨item.2, Finmap.lookup_eq_some_iff.mpr hitem, hv⟩
  · rintro ⟨vList, hlookup, hv⟩
    exact ⟨⟨p.1, vList⟩, Finmap.lookup_eq_some_iff.mp hlookup, Multiset.mem_map.mpr ⟨p.2, hv, rfl⟩⟩

theorem nodup_iter (data : AdjacencyList V) : data.iter.Nodup := by
  rw [iter, Multiset.nodup_bind]
  constructor
  · intro item _
    exact item.2.nodup.map fun v v' h => congrArg Prod.snd h
  · apply Multiset.Nodup.pairwise _ data.nodup_entries
    intro item hitem item' hitem' hne
    rw [Function.onFun, Multiset.disjoint_left]
    intro p hp hp'
    obtain ⟨v, -, rfl⟩ := Multiset.mem_map.mp hp
    obtain ⟨v', -, heq⟩ := Multiset.mem_map.mp hp'
    obtain ⟨u, vList⟩ := item
    obtain ⟨u', vList'⟩ := item'
    obtain rfl : u' = u := congrArg Prod.fst heq
    have hlookup := Finmap.lookup_eq_some_iff.mpr hitem
    rw [Finmap.lookup_eq_some_iff.mpr hitem'] at hlookup
    cases hlookup
    exact hne rfl

theorem iter_eq_iff {edges : Finset (V × V)} :
    data.iter = edges.val ↔ ∀ p, data.contains p ↔ p ∈ edges := by
  rw [Multiset.Nodup.ext (nodup_iter data) edges.nodup]
  apply forall_congr'
  intro p
  rw [mem_iter]
  rfl

theorem onAdd_ok (h : data.contains p = false) : ∃ data', data.onAdd p = .ok data' ∧
    ∀ q, data'.contains q ↔ q = p ∨ data.contains q := by
  refine ⟨_, if_neg (by simp [h]), ?_⟩
  rintro ⟨u, v⟩
  rw [contains_iff, contains_iff]
  by_cases hu : u = p.1
  · subst hu
    simp only [Finmap.lookup_insert, Option.some.injEq, exists_eq_left', Finset.mem_insert,
      Prod.ext_iff, true_and]
    cases data.lookup p.1 <;> simp
  · have hne : (u, v) ≠ p := fun heq => hu (congrArg Prod.fst heq)
    simp only [Finmap.lookup_insert_of_ne _ hu, hne, false_or]

theorem onRemove_ok (h : data.contains p) : ∃ data', data.onRemove p = .ok data' ∧
    ∀ q, data'.contains q ↔ q ≠ p ∧ data.contains q := by
  obtain ⟨vList, hlookup, hv⟩ := contains_iff.mp h
  refine ⟨_, by rw [onRemove, hlookup]; exact if_pos hv, ?_⟩
  rintro ⟨u, v⟩
  rw [contains_iff, contains_iff]
  by_cases hu : u = p.1
  · subst hu
    have hne : (p.1, v) ≠ p ↔ v ≠ p.2 := by
      rw [Ne, Prod.ext_iff, not_and]
      exact ⟨fun hne => hne rfl, fun hne _ => hne⟩
    rw [hne]
    simp only [hlookup, Option.some.injEq, exists_eq_left', ← Finset.mem_erase]
    split
    · rename_i hempty
      rw [Finmap.lookup_erase, hempty]
      simp
    · rw [Finmap.lookup_insert]
      simp
  · have hne : (u, v) ≠ p := fun heq => hu (congrArg Prod.fst heq)
    simp only [hne, ne_eq, not_false_eq_true, true_and]
    split
    · rw [Finmap.lookup_erase_ne hu]
    · rw [Finmap.lookup_insert_of_ne _ hu]

theorem onRemove_absent (h : ¬data.contains p) : data.onRemove p = .error .keyError := by
  rw [onRemove]
  cases hlookup : data.lookup p.1 with
  | none => rfl
  | some vList =>
    apply if_neg
    intro hv
    exact h (contains_iff.mpr ⟨vList, hlookup, hv⟩)

end AdjacencyList

/-- `fired` are the calls of `added` and `removed`. -/
structure VertexMap (α V : Type) where
  data : Finmap fun _ : V => List (Edge α)
  fired : List (VertexEvent V)

/-- Calls in a loop, up to the first that raises. -/
def each {σ β : Type} (f : σ → β → σ × Option Fault) : σ → List β → σ × Option Fault
  | s, [] => (s, none)
  | s, b :: l =>
    match f s b with
    | (s, none) => each f s l
    | (s, some fault) => (s, some fault)

namespace VertexMap

def iter (map : VertexMap α V) : Finset V := map.data.keys

def query (map : VertexMap α V) (v : V) : List (Edge α) := (map.data.lookup v).getD []

def addAt (edge : Edge α) (map : VertexMap α V) (vertex : V) : VertexMap α V :=
  match map.data.lookup vertex with
  | none => ⟨map.data.insert vertex [edge], map.fired ++ [.added vertex]⟩
  | some edges => { map with data := map.data.insert vertex (edges ++ [edge]) }

def onAdd (value : α → V) (map : VertexMap α V) (edge : Edge α) : VertexMap α V :=
  (ends (edge.pair value) (value edge.u = value edge.v)).foldl (addAt edge) map

def removeAt (value : α → V) (edge : Edge α) (map : VertexMap α V) (vertex : V) :
    VertexMap α V × Option Fault :=
  match map.data.lookup vertex with
  | none => (map, some .keyError)
  | some edges =>
    if edges.any fun e => e.pair value = edge.pair value then
      let edges := edges.eraseP fun e => e.pair value = edge.pair value
      if edges.isEmpty then (⟨map.data.erase vertex, map.fired ++ [.removed vertex]⟩, none)
      else ({ map with data := map.data.insert vertex edges }, none)
    else (map, some .valueError)

/-- Here the ends are compared by identity. -/
def onRemove [DecidableEq α] (value : α → V) (map : VertexMap α V) (edge : Edge α) :
    VertexMap α V × Option Fault :=
  each (removeAt value edge) map (ends (edge.pair value) (edge.u = edge.v))

theorem mem_iter {map : VertexMap α V} {v : V} :
    v ∈ map.iter ↔ ∃ edges, map.data.lookup v = some edges := by
  rw [iter, Finmap.mem_keys, Finmap.mem_iff]

section addAt

variable {map : VertexMap α V} {edge : Edge α} {vertex v : V}

theorem query_addAt : (addAt edge map vertex).query v =
    if v = vertex then map.query v ++ [edge] else map.query v := by
  rw [addAt, query, query]
  split_ifs with hv
  · subst hv
    cases map.data.lookup v <;> simp [Finmap.lookup_insert]
  · cases map.data.lookup vertex <;> simp [Finmap.lookup_insert_of_ne _ hv]

theorem mem_iter_addAt : v ∈ (addAt edge map vertex).iter ↔ v = vertex ∨ v ∈ map.iter := by
  rw [addAt, iter, iter]
  cases map.data.lookup vertex <;> simp [Finmap.mem_keys]

theorem fired_addAt : (addAt edge map vertex).fired =
    map.fired ++ if vertex ∈ map.iter then [] else [.added vertex] := by
  rw [addAt]
  cases hlookup : map.data.lookup vertex with
  | none => simp [mem_iter, hlookup]
  | some edges => simp [mem_iter, hlookup]

theorem query_foldl_addAt {l : List V} (hl : l.Nodup) :
    (l.foldl (addAt edge) map).query v =
      if v ∈ l then map.query v ++ [edge] else map.query v := by
  induction l generalizing map with
  | nil => rfl
  | cons vertex l ih =>
    obtain ⟨hvertex, hl⟩ := List.nodup_cons.mp hl
    rw [List.foldl_cons, ih hl, query_addAt]
    by_cases hv : v = vertex
    · subst hv
      simp [hvertex]
    · simp [hv]

theorem mem_iter_foldl_addAt {l : List V} :
    v ∈ (l.foldl (addAt edge) map).iter ↔ v ∈ l ∨ v ∈ map.iter := by
  induction l generalizing map with
  | nil => simp
  | cons vertex l ih =>
    rw [List.foldl_cons, ih, mem_iter_addAt, List.mem_cons, ← or_assoc, or_comm (a := v ∈ l)]

theorem fired_foldl_addAt {l : List V} (hl : l.Nodup) :
    (l.foldl (addAt edge) map).fired =
      map.fired ++ (l.filter (· ∉ map.iter)).map .added := by
  induction l generalizing map with
  | nil => simp
  | cons vertex l ih =>
    obtain ⟨hvertex, hl⟩ := List.nodup_cons.mp hl
    have hfilter : l.filter (· ∉ (addAt edge map vertex).iter) = l.filter (· ∉ map.iter) := by
      apply List.filter_congr
      intro v hv
      have hne : v ≠ vertex := fun heq => hvertex (heq ▸ hv)
      simp [mem_iter_addAt, hne]
    rw [List.foldl_cons, ih hl, fired_addAt, hfilter, List.append_assoc]
    by_cases hmem : vertex ∈ map.iter <;> simp [hmem]

end addAt

def pairs (value : α → V) (map : VertexMap α V) (v : V) : List (V × V) :=
  (map.query v).map (Edge.pair value)

section removeAt

variable {value : α → V} {map : VertexMap α V} {edge : Edge α} {vertex v : V}

theorem any_iff : ((map.query vertex).any fun e => e.pair value = edge.pair value) ↔
    edge.pair value ∈ map.pairs value vertex := by
  simp [pairs]

theorem map_eraseP (edges : List (Edge α)) :
    (edges.eraseP fun e => e.pair value = edge.pair value).map (Edge.pair value) =
      (edges.map (Edge.pair value)).erase (edge.pair value) := by
  rw [List.erase_eq_eraseP, List.eraseP_map]
  simp only [Function.comp_def, beq_eq_decide, eq_comm]

theorem query_eq {edges : List (Edge α)} (h : map.data.lookup vertex = some edges) :
    map.query vertex = edges := by
  rw [query, h]
  rfl

theorem lookup_rest (value : α → V) {map' : VertexMap α V} {rest : List (Edge α)}
    (hvertex : vertex ∈ map.iter)
    (hlookup : map'.data.lookup vertex = if rest = [] then none else some rest)
    (hothers : ∀ v, v ≠ vertex → map'.data.lookup v = map.data.lookup v) :
    (∀ v, map'.pairs value v =
      if v = vertex then rest.map (Edge.pair value) else map.pairs value v) ∧
      ∀ v, v ∈ map'.iter ↔ v ∈ map.iter ∧ (v = vertex → map'.pairs value v ≠ []) := by
  have hquery : map'.query vertex = rest := by
    rw [query, hlookup]
    split_ifs with hempty
    · exact hempty.symm
    · rfl
  have hpairs : map'.pairs value vertex = rest.map (Edge.pair value) := by
    rw [pairs, hquery]
  constructor
  · intro v
    split_ifs with hv
    · rw [hv, hpairs]
    · rw [pairs, query, hothers v hv]
      rfl
  · intro v
    by_cases hv : v = vertex
    · subst hv
      rw [mem_iter, hlookup, hpairs, ne_eq, List.map_eq_nil_iff]
      by_cases hempty : rest = [] <;> simp [hempty, hvertex]
    · rw [mem_iter, mem_iter, hothers v hv]
      simp [hv]

theorem removeAt_of_mem (h : edge.pair value ∈ map.pairs value vertex) :
    ∃ map', removeAt value edge map vertex = (map', none) ∧
      (∀ v, map'.pairs value v =
        if v = vertex then (map.pairs value v).erase (edge.pair value) else map.pairs value v) ∧
      (∀ v, v ∈ map'.iter ↔ v ∈ map.iter ∧ (v = vertex → map'.pairs value v ≠ [])) ∧
      map'.fired = map.fired ++ if map'.pairs value vertex = [] then [.removed vertex] else [] := by
  obtain ⟨edges, hlookup⟩ : ∃ edges, map.data.lookup vertex = some edges := by
    rw [← Option.ne_none_iff_exists']
    intro hnone
    rw [pairs, query, hnone] at h
    cases h
  have hany := any_iff.mpr h
  have hvertex : vertex ∈ map.iter := mem_iter.mpr ⟨edges, hlookup⟩
  rw [query_eq hlookup] at hany
  let rest := edges.eraseP fun e => e.pair value = edge.pair value
  have hrest : rest.map (Edge.pair value) = (map.pairs value vertex).erase (edge.pair value) := by
    rw [map_eraseP, pairs, query_eq hlookup]
  obtain ⟨map', hremoved, hnone, hothers, hfired⟩ : ∃ map' : VertexMap α V,
      removeAt value edge map vertex = (map', none) ∧
      (map'.data.lookup vertex = if rest = [] then none else some rest) ∧
      (∀ v, v ≠ vertex → map'.data.lookup v = map.data.lookup v) ∧
      map'.fired = map.fired ++ if rest = [] then [.removed vertex] else [] := by
    rw [removeAt, hlookup]
    simp only [hany, if_true, List.isEmpty_iff]
    by_cases hempty : rest = []
    · rw [if_pos hempty]
      refine ⟨_, rfl, ?_, fun v hv => Finmap.lookup_erase_ne hv, ?_⟩
      · rw [Finmap.lookup_erase, if_pos hempty]
      · rw [if_pos hempty]
    · rw [if_neg hempty]
      refine ⟨_, rfl, ?_, fun v hv => Finmap.lookup_insert_of_ne _ hv, ?_⟩
      · rw [Finmap.lookup_insert, if_neg hempty]
      · rw [if_neg hempty, List.append_nil]
  obtain ⟨hpairs, hiter⟩ := lookup_rest value hvertex hnone hothers
  refine ⟨map', hremoved, fun v => ?_, hiter, ?_⟩
  · rw [hpairs, hrest]
    split_ifs with hv
    · rw [hv]
    · rfl
  · simp only [hfired, hpairs, if_true, List.map_eq_nil_iff]

theorem removeAt_of_not_mem (h : edge.pair value ∉ map.pairs value vertex) :
    ∃ fault, removeAt value edge map vertex = (map, some fault) := by
  rw [removeAt]
  cases hlookup : map.data.lookup vertex with
  | none => exact ⟨.keyError, rfl⟩
  | some edges =>
    refine ⟨.valueError, if_neg ?_⟩
    rwa [← query_eq hlookup, any_iff]

theorem each_removeAt {l : List V} (hl : l.Nodup)
    (h : ∀ v ∈ l, edge.pair value ∈ map.pairs value v) :
    ∃ map', each (removeAt value edge) map l = (map', none) ∧
      (∀ v, map'.pairs value v =
        if v ∈ l then (map.pairs value v).erase (edge.pair value) else map.pairs value v) ∧
      (∀ v, v ∈ map'.iter ↔ v ∈ map.iter ∧ (v ∈ l → map'.pairs value v ≠ [])) ∧
      map'.fired = map.fired ++ (l.filter (map'.pairs value · = [])).map .removed := by
  induction l generalizing map with
  | nil => exact ⟨map, rfl, by simp⟩
  | cons vertex l ih =>
    obtain ⟨hvertex, hl⟩ := List.nodup_cons.mp hl
    obtain ⟨map₁, hmap₁, hpairs₁, hiter₁, hfired₁⟩ := removeAt_of_mem (h vertex List.mem_cons_self)
    have hrest : ∀ v ∈ l, map₁.pairs value v = map.pairs value v := by
      intro v hv
      rw [hpairs₁, if_neg (ne_of_mem_of_not_mem hv hvertex)]
    obtain ⟨map₂, hmap₂, hpairs₂, hiter₂, hfired₂⟩ := ih hl fun v hv => by
      rw [hrest v hv]
      exact h v (List.mem_cons_of_mem vertex hv)
    have hsame : map₂.pairs value vertex = map₁.pairs value vertex := by
      rw [hpairs₂, if_neg hvertex]
    refine ⟨map₂, by rw [each, hmap₁]; exact hmap₂, ?_, ?_, ?_⟩
    · intro v
      by_cases hv : v = vertex
      · subst hv
        rw [hsame, hpairs₁, if_pos rfl, if_pos List.mem_cons_self]
      · rw [hpairs₂, hpairs₁, if_neg hv]
        simp [hv]
    · intro v
      rw [hiter₂, hiter₁]
      by_cases hv : v = vertex
      · subst hv
        simp [hvertex, hsame]
      · simp [hv]
    · rw [hfired₂, hfired₁, List.append_assoc, List.filter_cons, hsame]
      by_cases hlast : map₁.pairs value vertex = [] <;> simp [hlast]

end removeAt

end VertexMap

abbrev EdgeList (α : Type) := Finmap fun _ : ℤ => Edge α

namespace EdgeList

def iter (data : EdgeList α) : Multiset (Edge α) := data.entries.map Sigma.snd

/-- `none` is a `KeyError`. -/
def query (hash : V × V → ℤ) (data : EdgeList α) (p : V × V) : Option (Edge α) :=
  data.lookup (hash p)

def onAdd (value : α → V) (hash : V × V → ℤ) (data : EdgeList α) (edge : Edge α) : EdgeList α :=
  data.insert (hash (edge.pair value)) edge

def onRemove (data : EdgeList α) (_edge : Edge α) : EdgeList α := data

end EdgeList

end NaviMisc.Motion
