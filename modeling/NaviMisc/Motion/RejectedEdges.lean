import Mathlib.Data.List.TakeWhile
import NaviMisc.Motion.Graph

/-!
What is left of a graph by `add` of an edge that is there, and by `remove` of one that is not.
-/

namespace NaviMisc.Motion

variable {α V : Type} [DecidableEq α] [DecidableEq V] {value : α → V} {hash : V × V → ℤ}

namespace Op

def adjacencyList (value : α → V) (op : Op α) (data : AdjacencyList V) :
    Except Fault (AdjacencyList V) :=
  match op with
  | .add edge => data.onAdd (edge.pair value)
  | .remove edge => data.onRemove (edge.pair value)

def vertexMap (value : α → V) (op : Op α) (map : VertexMap α V) : VertexMap α V × Option Fault :=
  match op with
  | .add edge => (map.onAdd value edge, none)
  | .remove edge => map.onRemove value edge

def edgeList (value : α → V) (hash : V × V → ℤ) (op : Op α) (data : EdgeList α) : EdgeList α :=
  match op with
  | .add edge => data.onAdd value hash edge
  | .remove edge => data.onRemove edge

def handle (value : α → V) (hash : V × V → ℤ) (op : Op α) (g : Graph α V) :
    Representation → Graph α V × Option Fault
  | .adjacencyList =>
    match op.adjacencyList value g.adjacencyList with
    | .ok data => ({ g with adjacencyList := data }, none)
    | .error fault => (g, some fault)
  | .vertexMap => ({ g with vertexMap := (op.vertexMap value g.vertexMap).1 },
      (op.vertexMap value g.vertexMap).2)
  | .edgeList => ({ g with edgeList := op.edgeList value hash g.edgeList }, none)

end Op

def before (r : Representation) (order : List Representation) : List Representation :=
  order.takeWhile (· ≠ r)

section each

variable {σ β : Type} {f : σ → β → σ × Option Fault} {s s' : σ} {l l' : List β}

theorem each_append_none (h : each f s l = (s', none)) : each f s (l ++ l') = each f s' l' := by
  induction l generalizing s with
  | nil =>
    cases h
    rfl
  | cons b l ih =>
    rw [each] at h
    rw [List.cons_append, each]
    split at h
    · exact ih h
    · cases h

theorem each_keeps {X : Type} {π : σ → X} (h : ∀ s, ∀ b ∈ l, π (f s b).1 = π s) (s : σ) :
    π (each f s l).1 = π s := by
  induction l generalizing s with
  | nil => rfl
  | cons b l ih =>
    have hb := h s b List.mem_cons_self
    rw [each]
    split
    · rename_i s' heq
      rw [heq] at hb
      rw [ih fun s c hc => h s c (List.mem_cons_of_mem b hc)]
      exact hb
    · rename_i s' fault heq
      rw [heq] at hb
      exact hb

end each

section order

variable {r : Representation} {order : List Representation}

theorem mem_before_ne {r' : Representation} (h : r' ∈ before r order) : r' ≠ r := by
  simpa using List.mem_takeWhile_imp h

theorem before_nodup (h : order.Nodup) : (before r order).Nodup :=
  h.sublist (List.takeWhile_sublist _)

theorem before_asymm {r' : Representation} (h : r' ∈ before r order) : r ∉ before r' order := by
  induction order with
  | nil => simp [before]
  | cons a order ih =>
    rw [before, List.takeWhile_cons] at h ⊢
    by_cases hr : a = r
    · simp [hr] at h
    · by_cases hr' : a = r'
      · simp [hr']
      · simp only [ne_eq, hr, hr', not_false_eq_true, decide_true, if_true, List.mem_cons,
          Ne.symm hr, Ne.symm hr', false_or] at h ⊢
        exact ih h

theorem order_split (h : order.Nodup) (hr : r ∈ order) :
    ∃ after, order = before r order ++ r :: after ∧ r ∉ after := by
  obtain ⟨rs, after, rfl, hrs⟩ := List.eq_append_cons_of_mem hr
  refine ⟨after, ?_, (List.nodup_cons.mp h.of_append_right).1⟩
  have hall : ∀ r' ∈ rs, decide (r' ≠ r) := fun r' hr' => by simpa using ne_of_mem_of_not_mem hr' hrs
  rw [before, List.takeWhile_append_of_pos hall, List.takeWhile_cons_of_neg (by simp), List.append_nil]

end order

section call

variable {op : Op α} {g : Graph α V} {order : List Representation}

theorem call_eq : g.call value hash order op = each (op.handle value hash) g order := by
  cases op with
  | add edge =>
    have hone : Graph.onAdd value hash edge = Op.handle value hash (.add edge) := by
      funext g r
      cases r <;> rfl
    rw [Graph.call, hone]
  | remove edge =>
    have hone : Graph.onRemove value edge = Op.handle value hash (.remove edge) := by
      funext g r
      cases r <;> rfl
    rw [Graph.call, hone]

theorem handle_adjacencyList {data : AdjacencyList V}
    (h : op.adjacencyList value g.adjacencyList = .ok data) :
    op.handle value hash g .adjacencyList = ({ g with adjacencyList := data }, none) := by
  rw [Op.handle, h]

theorem handle_error {fault : Fault} (h : op.adjacencyList value g.adjacencyList = .error fault) :
    op.handle value hash g .adjacencyList = (g, some fault) := by
  rw [Op.handle, h]

theorem handle_keeps_adjacencyList {r : Representation} (h : r ≠ .adjacencyList) (g : Graph α V) :
    (op.handle value hash g r).1.adjacencyList = g.adjacencyList := by
  cases r with
  | adjacencyList => exact absurd rfl h
  | vertexMap => rfl
  | edgeList => rfl

theorem handle_keeps_vertexMap {r : Representation} (h : r ≠ .vertexMap) (g : Graph α V) :
    (op.handle value hash g r).1.vertexMap = g.vertexMap := by
  cases r with
  | adjacencyList =>
    rw [Op.handle]
    split <;> rfl
  | vertexMap => exact absurd rfl h
  | edgeList => rfl

theorem each_before_vertexMap (horder : order.Nodup) (hvertexMap : .vertexMap ∉ order)
    (h : .adjacencyList ∈ order → ∃ data, op.adjacencyList value g.adjacencyList = .ok data) :
    ∃ g', each (op.handle value hash) g order = (g', none) := by
  induction order generalizing g with
  | nil => exact ⟨g, rfl⟩
  | cons r order ih =>
    obtain ⟨hr, hrest⟩ := List.nodup_cons.mp horder
    rw [List.mem_cons, not_or] at hvertexMap
    cases r with
    | adjacencyList =>
      obtain ⟨data, hdata⟩ := h List.mem_cons_self
      rw [each, handle_adjacencyList hdata]
      exact ih hrest hvertexMap.2 fun hmem => absurd hmem hr
    | vertexMap => exact absurd rfl hvertexMap.1
    | edgeList => exact ih hrest hvertexMap.2 fun hmem => h (List.mem_cons_of_mem _ hmem)

theorem call_vertexMap (horder : order.Nodup) (hmem : .vertexMap ∈ order)
    (h : .adjacencyList ∈ before .vertexMap order →
      ∃ data, op.adjacencyList value g.adjacencyList = .ok data) :
    (g.call value hash order op).1.vertexMap = (op.vertexMap value g.vertexMap).1 := by
  obtain ⟨after, hsplit, hafter⟩ := order_split horder hmem
  obtain ⟨g', hbefore⟩ : ∃ g', each (op.handle value hash) g (before .vertexMap order) =
      (g', none) :=
    each_before_vertexMap (before_nodup horder) (fun hmem => mem_before_ne hmem rfl) h
  have hsame : g'.vertexMap = g.vertexMap := by
    have hkeeps := each_keeps (f := op.handle value hash) (l := before .vertexMap order)
      (π := Graph.vertexMap) (fun g r hr => handle_keeps_vertexMap (mem_before_ne hr) g) g
    rwa [hbefore] at hkeeps
  rw [call_eq, hsplit, each_append_none hbefore, each, Op.handle, hsame]
  generalize op.vertexMap value g.vertexMap = result
  obtain ⟨map, fault⟩ := result
  cases fault with
  | none =>
    apply each_keeps
    exact fun g r hr => handle_keeps_vertexMap (ne_of_mem_of_not_mem hr hafter) g
  | some fault => rfl

theorem call_adjacencyList (horder : order.Nodup) (hmem : .adjacencyList ∈ order)
    (hbefore : .vertexMap ∉ before .adjacencyList order) {data : AdjacencyList V}
    (h : op.adjacencyList value g.adjacencyList = .ok data) :
    (g.call value hash order op).1.adjacencyList = data := by
  obtain ⟨after, hsplit, hafter⟩ := order_split horder hmem
  obtain ⟨g', hnone⟩ : ∃ g', each (op.handle value hash) g (before .adjacencyList order) =
      (g', none) :=
    each_before_vertexMap (before_nodup horder) hbefore fun _ => ⟨data, h⟩
  have hsame : g'.adjacencyList = g.adjacencyList := by
    have hkeeps := each_keeps (f := op.handle value hash) (l := before .adjacencyList order)
      (π := Graph.adjacencyList) (fun g r hr => handle_keeps_adjacencyList (mem_before_ne hr) g) g
    rwa [hnone] at hkeeps
  rw [call_eq, hsplit, each_append_none hnone, each, handle_adjacencyList (hsame ▸ h)]
  apply each_keeps (π := Graph.adjacencyList)
  exact fun g r hr => handle_keeps_adjacencyList (ne_of_mem_of_not_mem hr hafter) g

end call

structure Coherent (value : α → V) (order : List Representation) (s : State α V) : Prop where
  vertexMap : .vertexMap ∈ order → s.graph.vertexMap.Describes value s.edges
  adjacencyList : .adjacencyList ∈ order → .vertexMap ∉ before .adjacencyList order →
    s.graph.adjacencyList.Describes s.edges

def Raises (fault : Option Fault) : Op α → Prop
  | .add _ => fault = some .keyError
  | .remove _ => fault ≠ none

structure Rejects (value : α → V) (hash : V × V → ℤ) (order : List Representation) (s : State α V)
    (op : Op α) : Prop where
  raises : Raises (step value hash order s op).raised op
  adjacencyList : (step value hash order s op).graph.adjacencyList = s.graph.adjacencyList
  vertexMap : (step value hash order s op).graph.vertexMap.data = s.graph.vertexMap.data
  edgeList : (step value hash order s op).graph.edgeList = s.graph.edgeList

def Restores (value : α → V) (hash : V × V → ℤ) (order : List Representation) (s : State α V) :
    Op α → Prop
  | .add edge => .adjacencyList ∈ order ∧ .vertexMap ∉ before .adjacencyList order ∧
      (.edgeList ∈ before .adjacencyList order →
        s.graph.edgeList.lookup (hash (edge.pair value)) = some edge)
  | .remove _ => .adjacencyList ∈ order ∨ .vertexMap ∈ order

section step

variable {s : State α V} {op : Op α} {edge : Edge α} {order : List Representation}

omit [DecidableEq α] in
theorem Coherent.empty : Coherent value order (State.empty : State α V) :=
  have htracks : Tracks value (State.empty : State α V) := tracks_empty
  ⟨fun _ => htracks.vertexMap, fun _ _ => htracks.adjacencyList⟩

omit [DecidableEq α] in
theorem Coherent.quiet (h : Coherent value order s) (hmem : .vertexMap ∈ order) :
    s.graph.quiet.vertexMap.Describes value s.edges :=
  ⟨(h.vertexMap hmem).query, (h.vertexMap hmem).nodup, (h.vertexMap hmem).iter⟩

omit [DecidableEq α] in
theorem adjacencyList_admissible {data : AdjacencyList V} (h : data.Describes s.edges)
    (ha : Admissible value s op) : ∃ data', op.adjacencyList value data = .ok data' ∧
      data'.Describes (changed value s.edges op) := by
  cases op with
  | add edge => exact h.onAdd ha
  | remove edge => exact h.onRemove ha

theorem vertexMap_admissible {map : VertexMap α V} (h : map.Describes value s.edges)
    (hfired : map.fired = []) (ha : Admissible value s op) :
    (op.vertexMap value map).1.Describes value (changed value s.edges op) := by
  cases op with
  | add edge => exact h.insert_pair ha
  | remove edge =>
    rw [Op.vertexMap]
    by_cases hidentical : Identical value (.remove edge)
    · obtain ⟨map', hmap, hdescribes, -⟩ := h.onRemove hfired ha hidentical
      rw [hmap]
      exact hdescribes
    · rw [Identical, Classical.not_imp] at hidentical
      obtain ⟨map', fault, hmap, hdescribes⟩ := h.onRemove_raises ha hidentical.1 hidentical.2
      rw [hmap]
      exact hdescribes

theorem Coherent.admissible (horder : order.Nodup) (h : Coherent value order s) (ha : Admissible value s op) :
    Coherent value order (step value hash order s op) := by
  constructor
  · intro hmem
    have hcall : (s.graph.quiet.call value hash order op).1.vertexMap =
        (op.vertexMap value s.graph.quiet.vertexMap).1 := by
      apply call_vertexMap horder hmem
      intro hbefore
      have hadjacency := h.adjacencyList ((List.takeWhile_sublist _).subset hbefore)
        (before_asymm hbefore)
      obtain ⟨data, hdata, -⟩ := adjacencyList_admissible hadjacency ha
      exact ⟨data, hdata⟩
    change (s.graph.quiet.call value hash order op).1.vertexMap.Describes value _
    rw [hcall]
    exact vertexMap_admissible (h.quiet hmem) rfl ha
  · intro hmem hbefore
    obtain ⟨data, hdata, hdescribes⟩ :=
      adjacencyList_admissible (h.adjacencyList hmem hbefore) ha
    change (s.graph.quiet.call value hash order op).1.adjacencyList.Describes _
    rw [call_adjacencyList (g := s.graph.quiet) horder hmem hbefore hdata]
    exact hdescribes

section absent

variable {g : Graph α V}

theorem each_edgeLists {l : List Representation} (h : ∀ r ∈ l, r = .edgeList) (g : Graph α V) :
    each (Op.handle value hash (.remove edge)) g l = (g, none) := by
  induction l with
  | nil => rfl
  | cons r l ih =>
    obtain ⟨rfl, hl⟩ := List.forall_mem_cons.mp h
    exact ih hl

theorem edgeList_of_ne {r : Representation} (h : r ≠ .adjacencyList) (h' : r ≠ .vertexMap) :
    r = .edgeList := by
  cases r with
  | adjacencyList => exact absurd rfl h
  | vertexMap => exact absurd rfl h'
  | edgeList => rfl

theorem onRemove_absent {map : VertexMap α V} (h : map.Describes value s.edges)
    (habsent : edge.pair value ∉ s.edges) :
    ∃ fault, map.onRemove value edge = (map, some fault) := by
  have hgone : edge.pair value ∉ map.pairs value (edge.pair value).1 := fun hmem =>
    habsent ((h.query _ _).mp hmem).1
  obtain ⟨fault, hremoved⟩ := VertexMap.removeAt_of_not_mem hgone
  refine ⟨fault, ?_⟩
  rw [VertexMap.onRemove, ends]
  split <;> simp only [each, hremoved]

theorem call_remove_absent (horder : order.Nodup) (h : Coherent value order s)
    (habsent : edge.pair value ∉ s.edges) (hmem : .adjacencyList ∈ order ∨ .vertexMap ∈ order) :
    ∃ fault, s.graph.quiet.call value hash order (.remove edge) = (s.graph.quiet, some fault) := by
  by_cases hfirst : .adjacencyList ∈ order ∧ .vertexMap ∉ before .adjacencyList order
  · obtain ⟨after, hsplit, -⟩ := order_split horder hfirst.1
    have hbefore : ∀ r ∈ before .adjacencyList order, r = .edgeList := fun r hr =>
      edgeList_of_ne (mem_before_ne hr) (ne_of_mem_of_not_mem hr hfirst.2)
    have hdata : (Op.remove edge).adjacencyList value s.graph.quiet.adjacencyList =
        .error .keyError := AdjacencyList.onRemove_absent fun hcontains =>
      habsent (((h.adjacencyList hfirst.1 hfirst.2).contains _).mp hcontains)
    refine ⟨.keyError, ?_⟩
    rw [call_eq, hsplit, each_append_none (each_edgeLists hbefore _), each, handle_error hdata]
  · have hvertexMap : .vertexMap ∈ order := by
      rcases hmem with hmem | hmem
      · by_contra hnot
        exact hfirst ⟨hmem, fun hbefore => hnot ((List.takeWhile_sublist _).subset hbefore)⟩
      · exact hmem
    obtain ⟨after, hsplit, -⟩ := order_split horder hvertexMap
    have hbefore : ∀ r ∈ before .vertexMap order, r = .edgeList := by
      intro r hr
      refine edgeList_of_ne ?_ (mem_before_ne hr)
      rintro rfl
      exact hfirst ⟨(List.takeWhile_sublist _).subset hr, before_asymm hr⟩
    obtain ⟨fault, hmap⟩ := onRemove_absent (h.quiet hvertexMap) habsent
    refine ⟨fault, ?_⟩
    rw [call_eq, hsplit, each_append_none (each_edgeLists hbefore _), each, Op.handle, Op.vertexMap,
      hmap]

theorem call_remove_unheard (hadjacency : .adjacencyList ∉ order) (hvertexMap : .vertexMap ∉ order) :
    g.call value hash order (.remove edge) = (g, none) := by
  rw [call_eq]
  apply each_edgeLists
  exact fun r hr => edgeList_of_ne (ne_of_mem_of_not_mem hr hadjacency)
    (ne_of_mem_of_not_mem hr hvertexMap)

theorem rejects_remove_iff (horder : order.Nodup) (h : Coherent value order s)
    (habsent : edge.pair value ∉ s.edges) :
    Rejects value hash order s (.remove edge) ↔ Restores value hash order s (.remove edge) := by
  constructor
  · intro hrejects
    by_contra hnot
    rw [Restores, not_or] at hnot
    have hraises := hrejects.raises
    change (s.graph.quiet.call value hash order (.remove edge)).2 ≠ none at hraises
    rw [call_remove_unheard hnot.1 hnot.2] at hraises
    exact hraises rfl
  · intro hmem
    obtain ⟨fault, hcall⟩ : ∃ fault, s.graph.quiet.call value hash order (.remove edge) =
        (s.graph.quiet, some fault) := call_remove_absent horder h habsent hmem
    have hstep := step_eq hcall
    constructor <;> rw [hstep]
    · exact Option.some_ne_none fault
    · rfl
    · rfl
    · rfl

end absent

section present

variable {g : Graph α V} {l : List Representation}

theorem each_add_unheard (h : .adjacencyList ∉ l) (g : Graph α V) :
    ∃ g', each (Op.handle value hash (.add edge)) g l = (g', none) := by
  induction l generalizing g with
  | nil => exact ⟨g, rfl⟩
  | cons r l ih =>
    rw [List.mem_cons, not_or] at h
    cases r with
    | adjacencyList => exact absurd rfl h.1
    | vertexMap => exact ih h.2 _
    | edgeList => exact ih h.2 _

theorem each_add_edgeList (hl : l.Nodup) (h : ∀ r ∈ l, r = .edgeList) (g : Graph α V) :
    ∃ g', each (Op.handle value hash (.add edge)) g l = (g', none) ∧
      g'.adjacencyList = g.adjacencyList ∧ g'.vertexMap = g.vertexMap ∧ g'.edgeList =
        if .edgeList ∈ l then g.edgeList.onAdd value hash edge else g.edgeList := by
  cases l with
  | nil => exact ⟨g, by simp [each]⟩
  | cons r l =>
    obtain ⟨rfl, hrest⟩ := List.forall_mem_cons.mp h
    obtain rfl : l = [] := by
      apply List.eq_nil_iff_forall_not_mem.mpr
      intro r hr
      exact (List.nodup_cons.mp hl).1 (hrest r hr ▸ hr)
    exact ⟨_, rfl, rfl, rfl, by simp [Op.edgeList]⟩

theorem call_add_present (horder : order.Nodup) (h : Coherent value order s)
    (hpresent : edge.pair value ∈ s.edges) (hmem : .adjacencyList ∈ order)
    (hfirst : .vertexMap ∉ before .adjacencyList order) :
    ∃ g', s.graph.quiet.call value hash order (.add edge) = (g', some .keyError) ∧
      g'.adjacencyList = s.graph.adjacencyList ∧ g'.vertexMap = s.graph.quiet.vertexMap ∧
      g'.edgeList = if .edgeList ∈ before .adjacencyList order then
        s.graph.edgeList.onAdd value hash edge else s.graph.edgeList := by
  obtain ⟨after, hsplit, -⟩ := order_split horder hmem
  have hbefore : ∀ r ∈ before .adjacencyList order, r = .edgeList := fun r hr =>
    edgeList_of_ne (mem_before_ne hr) (ne_of_mem_of_not_mem hr hfirst)
  obtain ⟨g', hedges, hadjacency, hvertexMap, hedgeList⟩ :=
    each_add_edgeList (before_nodup horder) hbefore s.graph.quiet
  have hdata : (Op.add edge).adjacencyList value g'.adjacencyList = .error .keyError := by
    rw [hadjacency]
    exact if_pos (((h.adjacencyList hmem hfirst).contains _).mpr hpresent)
  refine ⟨g', ?_, hadjacency, hvertexMap, hedgeList⟩
  rw [call_eq]
  conv_lhs => rw [hsplit]
  rw [each_append_none hedges, each, handle_error hdata]

theorem onAdd_longer (value : α → V) (edge : Edge α) (map : VertexMap α V) :
    ((Op.add edge).vertexMap value map).1.data ≠ map.data := by
  intro heq
  have hpairs : (map.onAdd value edge).pairs value (value edge.u) = _ :=
    VertexMap.pairs_onAdd map (value edge.u)
  have htouches : Touches (edge.pair value) (value edge.u) := .inl rfl
  have hsame : (map.onAdd value edge).pairs value (value edge.u) = map.pairs value (value edge.u) :=
    congrArg (fun data => ((data.lookup (value edge.u)).getD []).map (Edge.pair value)) heq
  rw [if_pos htouches, hsame] at hpairs
  simpa using congrArg List.length hpairs

omit [DecidableEq α] [DecidableEq V] in
theorem onAdd_eq_iff {data : EdgeList α} : data.onAdd value hash edge = data ↔
    data.lookup (hash (edge.pair value)) = some edge := by
  constructor
  · intro heq
    rw [← heq, EdgeList.onAdd, Finmap.lookup_insert]
  · intro hlookup
    apply Finmap.ext_lookup
    intro k
    rw [EdgeList.onAdd]
    by_cases hk : k = hash (edge.pair value)
    · rw [hk, Finmap.lookup_insert, hlookup]
    · rw [Finmap.lookup_insert_of_ne _ hk]

theorem rejects_add_iff (horder : order.Nodup) (h : Coherent value order s)
    (hpresent : edge.pair value ∈ s.edges) :
    Rejects value hash order s (.add edge) ↔ Restores value hash order s (.add edge) := by
  by_cases hmem : .adjacencyList ∈ order
  swap
  · refine iff_of_false ?_ fun hrestores => hmem hrestores.1
    intro hrejects
    obtain ⟨g', hcall⟩ : ∃ g', s.graph.quiet.call value hash order (.add edge) = (g', none) := by
      rw [call_eq]
      exact each_add_unheard hmem _
    have hraises := hrejects.raises
    rw [step_eq hcall] at hraises
    cases hraises
  by_cases hfirst : .vertexMap ∈ before .adjacencyList order
  · refine iff_of_false ?_ fun hrestores => hrestores.2.1 hfirst
    intro hrejects
    have hcall : (s.graph.quiet.call value hash order (.add edge)).1.vertexMap =
        ((Op.add edge).vertexMap value s.graph.quiet.vertexMap).1 :=
      call_vertexMap horder ((List.takeWhile_sublist _).subset hfirst) fun hlate =>
        absurd hlate (before_asymm hfirst)
    apply onAdd_longer value edge s.graph.quiet.vertexMap
    rw [← hcall]
    exact hrejects.vertexMap
  · obtain ⟨g', hcall, hadjacency, hvertexMap, hedges⟩ :
        ∃ g', s.graph.quiet.call value hash order (.add edge) = (g', some .keyError) ∧ _ :=
      call_add_present horder h hpresent hmem hfirst
    have hstep := step_eq hcall
    constructor
    · intro hrejects
      refine ⟨hmem, hfirst, ?_⟩
      intro hedgeList
      have hsame := hrejects.edgeList
      rw [hstep] at hsame
      change g'.edgeList = _ at hsame
      rw [hedges, if_pos hedgeList] at hsame
      exact onAdd_eq_iff.mp hsame
    · rintro ⟨-, -, hedgeList⟩
      constructor <;> rw [hstep]
      · rfl
      · exact hadjacency
      · change g'.vertexMap.data = _
        rw [hvertexMap]
        rfl
      · change g'.edgeList = _
        rw [hedges]
        split_ifs with hbefore
        · exact onAdd_eq_iff.mpr (hedgeList hbefore)
        · rfl

end present

theorem rejects_iff (horder : order.Nodup) (h : Coherent value order s) (ha : ¬Admissible value s op) :
    Rejects value hash order s op ↔ Restores value hash order s op := by
  cases op with
  | add edge => exact rejects_add_iff horder h (Classical.not_not.mp ha)
  | remove edge => exact rejects_remove_iff horder h ha

theorem Coherent.rejected (h : Coherent value order s) (ha : ¬Admissible value s op)
    (hrejects : Rejects value hash order s op) : Coherent value order (step value hash order s op) := by
  have hedges : (step value hash order s op).edges = s.edges := by
    cases op with
    | add edge => exact Finset.insert_eq_of_mem (Classical.not_not.mp ha)
    | remove edge => exact Finset.erase_eq_of_notMem ha
  constructor
  · intro hmem
    have hvertexMap := h.vertexMap hmem
    rw [hedges]
    have hpairs (v : V) : (step value hash order s op).graph.vertexMap.pairs value v =
        s.graph.vertexMap.pairs value v :=
      congrArg (fun data => ((data.lookup v).getD []).map (Edge.pair value)) hrejects.vertexMap
    have hiter : (step value hash order s op).graph.vertexMap.iter = s.graph.vertexMap.iter :=
      congrArg Finmap.keys hrejects.vertexMap
    exact ⟨fun v p => by rw [hpairs, hvertexMap.query], fun v => by
      rw [hpairs]
      exact hvertexMap.nodup v, fun v => by rw [hiter, hvertexMap.iter]⟩
  · intro hmem hbefore
    rw [hrejects.adjacencyList, hedges]
    exact h.adjacencyList hmem hbefore

end step

/-- In a run of any calls, the rejected ones all leave the graph as it was exactly if the adjacency
list is asked before what would change, or, for a removal, any representation that raises is there. -/
theorem rejected_edges_iff (value : α → V) (hash : V × V → ℤ) (order : List Representation)
    (horder : order.Nodup) (ops : List (Op α)) :
    Lib.Runs.Meets (step value hash order)
      (fun s op => ¬Admissible value s op → Rejects value hash order s op) State.empty ops ↔
    Lib.Runs.Meets (step value hash order)
      (fun s op => ¬Admissible value s op → Restores value hash order s op) State.empty ops := by
  apply Lib.Runs.meets_iff_meets (P := Coherent value order)
  · intro s op h hrestores
    by_cases ha : Admissible value s op
    · exact h.admissible horder ha
    · exact h.rejected ha ((rejects_iff horder h ha).mpr (hrestores ha))
  · exact fun s op h => imp_congr_right fun ha => rejects_iff horder h ha
  · exact .empty

theorem rejected_edges_vertexMap_first : [Representation.vertexMap, .adjacencyList].Nodup ∧
    (Lib.Runs.Meets (step id tupleHash [.vertexMap, .adjacencyList])
      (fun s op => ¬Admissible id s op → Rejects id tupleHash [.vertexMap, .adjacencyList] s op)
      State.empty [.add ⟨0, 1⟩, .add ⟨0, 1⟩] ↔
    Lib.Runs.Meets (step id tupleHash [.vertexMap, .adjacencyList])
      (fun s op => ¬Admissible id s op → Restores id tupleHash [.vertexMap, .adjacencyList] s op)
      State.empty [.add ⟨0, 1⟩, .add ⟨0, 1⟩]) :=
  ⟨by decide, rejected_edges_iff id tupleHash [.vertexMap, .adjacencyList] (by decide) _⟩

/-- The edge is listed twice by the vertex map when the adjacency list refuses it. -/
theorem rejected_edge_listed : ¬∀ (order : List Representation) (ops : List (Op ℕ)), order.Nodup →
    Lib.Runs.Meets (step id tupleHash order)
      (fun s op => ¬Admissible id s op → Rejects id tupleHash order s op) State.empty ops := by
  intro h
  have hmeets := h [.vertexMap, .adjacencyList] [.add ⟨0, 1⟩, .add ⟨0, 1⟩] (by decide)
  have hpresent : ¬Admissible id (step id tupleHash [.vertexMap, .adjacencyList] State.empty
      (.add ⟨0, 1⟩)) (.add ⟨0, 1⟩) := by
    rw [Admissible]
    decide
  have hlisted := congrArg (fun data => ((data.lookup 0).getD []).length)
    (hmeets.2.1 hpresent).vertexMap
  exact absurd hlisted (by decide)

end NaviMisc.Motion
