import Mathlib.Algebra.BigOperators.Field
import Mathlib.Algebra.Order.BigOperators.Group.Finset
import Mathlib.Data.BitVec
import Mathlib.Logic.Equiv.List
import NaviMisc.Lib.Outcome
import NaviMisc.Motion.MotionGraph

/-!
The transitions that a graph of motion counts, and the probabilities it makes of them.
-/

namespace NaviMisc.Motion.MotionGraph

open NaviMisc.Lib.Outcome

abbrev Never : Raised → Prop := fun _ => False

def steps {V : Type} (nodes : List V) : List (V × V) := nodes.zip nodes.tail

section counts

variable {V : Type} [DecidableEq V] {hash : V × V → ℤ} {order : List Representation}

def passes (qs : List (V × V)) (p : V × V) : ℕ := qs.countP fun q => p = q ∨ p = q.swap

theorem passes_append (qs qs' : List (V × V)) (p : V × V) :
    passes (qs ++ qs') p = passes qs p + passes qs' p := List.countP_append

theorem passes_cons (q : V × V) (qs : List (V × V)) (p : V × V) :
    passes (q :: qs) p = passes qs p + if p = q ∨ p = q.swap then 1 else 0 := by
  rw [passes, List.countP_cons, passes]
  simp only [decide_eq_true_eq]

theorem passes_swap (qs : List (V × V)) (p : V × V) : passes qs p.swap = passes qs p := by
  rw [passes, passes]
  apply List.countP_congr
  intro q _
  simp only [decide_eq_true_eq, ← Prod.swap_eq_iff_eq_swap]
  exact or_comm

theorem passes_self (qs : List (V × V)) (u : V) : passes qs (u, u) = qs.count (u, u) := by
  induction qs with
  | nil => rfl
  | cons q qs ih =>
    have hswap : (u, u) = q ∨ (u, u) = q.swap ↔ q = (u, u) := by
      rw [Prod.ext_iff, Prod.ext_iff, Prod.ext_iff]
      simp only [Prod.fst_swap, Prod.snd_swap]
      tauto
    rw [passes_cons, ih, List.count_cons]
    simp only [hswap, beq_iff_eq]

theorem passes_of_ne (qs : List (V × V)) {u v : V} (h : u ≠ v) :
    passes qs (u, v) = qs.count (u, v) + qs.count (v, u) := by
  induction qs with
  | nil => rfl
  | cons q qs ih =>
    have hforth : (u, v) = q ↔ q = (u, v) := eq_comm
    have hback : (u, v) = q.swap ↔ q = (v, u) := by
      rw [Prod.ext_iff, Prod.ext_iff, Prod.fst_swap, Prod.snd_swap]
      tauto
    rw [passes_cons, ih, List.count_cons, List.count_cons]
    simp only [hforth, hback, beq_iff_eq]
    by_cases hq : q = (u, v)
    · have hne : q ≠ (v, u) := fun hq' => h (congrArg Prod.fst (hq.symm.trans hq'))
      rw [if_pos (.inl hq), if_pos hq, if_neg hne]
      omega
    · simp only [hq, false_or, if_false]
      omega

namespace Build

structure Counted (hash : V × V → ℤ) (s : Build V) : Prop where
  agree : Agree id hash s.store
  mem_iff : ∀ p, p ∈ s.store.edges ↔ 0 < s.count p

variable {s : Build V}

theorem visit_count (edge : Edge V) : (s.visit edge).count =
    Function.update s.count (edge.u, edge.v) (s.count (edge.u, edge.v) + 1) := rfl

theorem counted_empty : Counted hash (empty : Build V) where
  agree := agree_empty
  mem_iff p := by simp [empty, State.empty]

theorem Counted.query (h : Counted hash s) (u v : V) :
    s.query hash u v = if (u, v) ∈ s.store.edges then some ⟨u, v⟩ else none := by
  have hquery := h.agree.edgeList.query ⟨u, v⟩
  change (s.query hash u v).map (Edge.pair id) = if (u, v) ∈ s.store.edges then _ else _ at hquery
  split_ifs at hquery ⊢ with hmem
  · obtain ⟨⟨u', v'⟩, hedge, hpair⟩ := Option.map_eq_some_iff.mp hquery
    cases hpair
    exact hedge
  · exact Option.map_eq_none_iff.mp hquery

theorem Counted.visit (h : Counted hash s) {u v : V} (hmem : (u, v) ∈ s.store.edges) :
    Counted hash (s.visit ⟨u, v⟩) where
  agree := h.agree
  mem_iff p := by
    rw [visit_count, Function.update_apply]
    split_ifs with hp
    · rw [hp]
      exact iff_of_true hmem (Nat.succ_pos _)
    · exact h.mem_iff p

theorem Counted.addNew (horder : order.Perm [.adjacencyList, .vertexMap, .edgeList])
    (hhash : hash.Injective) (h : Counted hash s) {u v : V} (hmem : (u, v) ∉ s.store.edges) :
    Yields Never (fun s' => Counted hash s' ∧
      s'.count = Function.update s.count (u, v) (s.count (u, v) + 1))
      (s.addNew hash order u v) := by
  have hadmissible : Admissible id s.store (.add ⟨u, v⟩) := hmem
  have hunshared : Unshared id hash (.add ⟨u, v⟩) := fun f hf => hhash hf
  have hagree := (agree_step_iff horder h.agree hadmissible).mpr hunshared
  have hzero : s.count (u, v) = 0 := by
    rwa [h.mem_iff, Nat.pos_iff_ne_zero, not_not] at hmem
  have hcount : ((s.probabilityEdge u v).visit ⟨u, v⟩).count =
      Function.update s.count (u, v) (s.count (u, v) + 1) := by
    rw [visit_count]
    simp only [probabilityEdge, Function.update_self, Function.update_idem, hzero]
  have hadd : s.addNew hash order u v = .ok { (s.probabilityEdge u v).visit ⟨u, v⟩ with
      store := step id hash order s.store (.add ⟨u, v⟩) } := by
    have hraised : (step id hash order ((s.probabilityEdge u v).visit ⟨u, v⟩).store
        (.add ⟨u, v⟩)).raised = none := hagree.tracks.raised
    rw [Build.addNew, Build.add]
    simp only [hraised]
    rfl
  rw [hadd]
  refine ⟨⟨hagree, ?_⟩, hcount⟩
  intro p
  change p ∈ insert (u, v) s.store.edges ↔ 0 < ((s.probabilityEdge u v).visit ⟨u, v⟩).count p
  rw [hcount, Finset.mem_insert, Function.update_apply, h.mem_iff]
  split_ifs with hp
  · exact iff_of_true (.inl hp) (Nat.succ_pos _)
  · exact or_iff_right hp

theorem Counted.visitOrAdd (horder : order.Perm [.adjacencyList, .vertexMap, .edgeList])
    (hhash : hash.Injective) (h : Counted hash s) (u v : V) :
    Yields Never (fun s' => Counted hash s' ∧
      s'.count = Function.update s.count (u, v) (s.count (u, v) + 1))
      (s.visitOrAdd hash order u v) := by
  rw [Build.visitOrAdd, h.query]
  by_cases hmem : (u, v) ∈ s.store.edges
  · rw [if_pos hmem]
    exact ⟨h.visit hmem, rfl⟩
  · rw [if_neg hmem]
    exact h.addNew horder hhash hmem

theorem transition_self (s : Build V) (u : V) :
    s.transition hash order u u = s.visitOrAdd hash order u u := by
  rw [Build.transition, if_pos rfl, Build.visitOrAdd]
  cases s.query hash u u <;> rfl

theorem Counted.transition (horder : order.Perm [.adjacencyList, .vertexMap, .edgeList])
    (hhash : hash.Injective) (h : Counted hash s) (u v : V) :
    Yields Never (fun s' => Counted hash s' ∧
      ∀ p, s'.count p = s.count p + if p = (u, v) ∨ p = (v, u) then 1 else 0)
      (s.transition hash order u v) := by
  by_cases huv : u = v
  · subst huv
    rw [transition_self]
    apply (h.visitOrAdd horder hhash u u).mono
    rintro s' ⟨hs', hcount⟩
    refine ⟨hs', ?_⟩
    intro p
    simp only [hcount, Function.update_apply, or_self]
    split_ifs with hp
    · rw [hp]
    · rfl
  · rw [Build.transition, if_neg huv]
    have hne : (v, u) ≠ (u, v) := fun heq => huv (congrArg Prod.snd heq)
    apply (h.visitOrAdd horder hhash u v).bind
    rintro s₁ ⟨hs₁, hcount₁⟩
    apply (hs₁.visitOrAdd horder hhash v u).mono
    rintro s₂ ⟨hs₂, hcount₂⟩
    refine ⟨hs₂, ?_⟩
    intro p
    rw [hcount₂, hcount₁, Function.update_of_ne hne, Function.update_apply, Function.update_apply]
    by_cases hp : p = (v, u)
    · rw [if_pos hp, if_pos (.inr hp), hp]
    · rw [if_neg hp]
      split_ifs with hp' hor hor
      · rw [hp']
      · exact absurd (.inl hp') hor
      · exact absurd (hor.resolve_right hp) hp'
      · rfl

structure Counts (hash : V × V → ℤ) (qs : List (V × V)) (s : Build V) : Prop where
  counted : Counted hash s
  count : ∀ p, s.count p = passes qs p

theorem counts_empty : Counts hash [] (empty : Build V) := ⟨counted_empty, fun _ => rfl⟩

theorem Counts.transition (horder : order.Perm [.adjacencyList, .vertexMap, .edgeList])
    (hhash : hash.Injective) {qs : List (V × V)} (h : Counts hash qs s) (u v : V) :
    Yields Never (Counts hash (qs ++ [(u, v)])) (s.transition hash order u v) := by
  apply (h.counted.transition horder hhash u v).mono
  rintro s' ⟨hs', hcount⟩
  refine ⟨hs', ?_⟩
  intro p
  rw [hcount, h.count, passes_append, passes_cons]
  exact congrArg _ (Nat.zero_add _).symm

def outgoing (s : Build V) (u : V) : Finset (V × V) := s.store.edges.filter (·.1 = u)

def share (s : Build V) (p : V × V) : ℚ := s.count p / ∑ q ∈ s.outgoing p.1, s.count q

structure Weighs (s s' : Build V) (edges : V × V → Prop) (weight : V × V → ℚ) : Prop where
  store : s'.store = s.store
  count : s'.count = s.count
  set : ∀ p, edges p → s'.weight p = some (weight p)
  others : ∀ p, ¬edges p → s'.weight p = s.weight p

theorem foldlM_normalize {total : ℕ} (htotal : total ≠ 0) (l : List (Edge V)) (s : Build V) :
    Yields Never (fun s' => Weighs s s' (· ∈ l.map (Edge.pair id)) fun p => s.count p / total)
      (l.foldlM (fun s edge => s.normalize edge total) s) := by
  induction l generalizing s with
  | nil => exact ⟨rfl, rfl, by simp, fun _ _ => rfl⟩
  | cons edge l ih =>
    rw [List.foldlM_cons, normalize, if_neg htotal]
    apply (ih _).mono
    rintro s' ⟨hstore, hcount, hset, hothers⟩
    refine ⟨hstore, hcount, ?_, ?_⟩
    · intro p hp
      by_cases hl : p ∈ l.map (Edge.pair id)
      · exact hset p hl
      · rw [List.map_cons, List.mem_cons, or_iff_left hl] at hp
        rw [hothers p hl, hp]
        exact Function.update_self ..
    · intro p hp
      rw [List.map_cons, List.mem_cons, not_or] at hp
      rw [hothers p hp.2]
      exact Function.update_of_ne hp.1 ..

theorem Counted.normalizeVertex (h : Counted hash s) (vertex : V) :
    Yields Never (fun s' => Weighs s s' (· ∈ s.outgoing vertex) s.share)
      (s.normalizeVertex vertex) := by
  let out := (s.store.graph.vertexMap.query vertex).filter (·.u = vertex)
  have hpairs : out.map (Edge.pair id) =
      (s.store.graph.vertexMap.pairs id vertex).filter (·.1 = vertex) := by
    rw [VertexMap.pairs, List.filter_map]
    rfl
  have hmem : ∀ p, p ∈ out.map (Edge.pair id) ↔ p ∈ s.outgoing vertex := by
    intro p
    rw [hpairs, List.mem_filter, h.agree.tracks.vertexMap.query, outgoing, Finset.mem_filter,
      decide_eq_true_iff, and_assoc]
    exact and_congr_right fun _ => ⟨And.right, fun hp => ⟨.inl hp, hp⟩⟩
  have hnodup : (out.map (Edge.pair id)).Nodup := by
    rw [hpairs]
    exact (h.agree.tracks.vertexMap.nodup vertex).filter _
  have htotal : (out.map fun edge => s.count (edge.u, edge.v)).sum =
      ∑ q ∈ s.outgoing vertex, s.count q := by
    have hfinset : (out.map (Edge.pair id)).toFinset = s.outgoing vertex := by
      ext p
      rw [List.mem_toFinset, hmem]
    rw [← hfinset, List.sum_toFinset _ hnodup, List.map_map]
    rfl
  rw [Build.normalizeVertex]
  change Yields _ _ (out.foldlM (fun s' edge =>
    s'.normalize edge (out.map fun edge => s.count (edge.u, edge.v)).sum) s)
  rw [htotal]
  by_cases hempty : s.outgoing vertex = ∅
  · have hnil : out = [] := by
      rw [← List.map_eq_nil_iff, List.eq_nil_iff_forall_not_mem]
      intro p hp
      rw [hmem, hempty] at hp
      exact absurd hp (Finset.notMem_empty p)
    rw [hnil, hempty]
    exact ⟨rfl, rfl, fun p hp => absurd hp (Finset.notMem_empty p), fun _ _ => rfl⟩
  · obtain ⟨p, hp⟩ := Finset.nonempty_iff_ne_empty.mpr hempty
    have hpos : 0 < s.count p := (h.mem_iff p).mp (Finset.mem_of_mem_filter p hp)
    have hsum : ∑ q ∈ s.outgoing vertex, s.count q ≠ 0 := by
      apply ne_of_gt
      exact hpos.trans_le (Finset.single_le_sum (fun _ _ => Nat.zero_le _) hp)
    apply (foldlM_normalize hsum out s).mono
    rintro s' ⟨hstore, hcount, hset, hothers⟩
    refine ⟨hstore, hcount, ?_, ?_⟩
    · intro q hq
      rw [hset q ((hmem q).mpr hq), share, (Finset.mem_filter.mp hq).2]
    · intro q hq
      exact hothers q (mt (hmem q).mp hq)

theorem Counts.swap_mem_iff {qs : List (V × V)} (h : Counts hash qs s)
    (p : V × V) : p.swap ∈ s.store.edges ↔ p ∈ s.store.edges := by
  rw [h.counted.mem_iff, h.counted.mem_iff, h.count, h.count, passes_swap]

theorem Counted.sum_share (h : Counted hash s)
    {p : V × V} (hp : p ∈ s.store.edges) :
    ∑ q ∈ s.outgoing p.1, s.share q = 1 := by
  have hpos : 0 < s.count p := (h.mem_iff p).mp hp
  have hout : p ∈ s.outgoing p.1 := Finset.mem_filter.mpr ⟨hp, rfl⟩
  have hsum : 0 < ∑ q ∈ s.outgoing p.1, s.count q :=
    hpos.trans_le (Finset.single_le_sum (fun _ _ => Nat.zero_le _) hout)
  have hshare : ∀ q ∈ s.outgoing p.1, s.share q = s.count q / ∑ q ∈ s.outgoing p.1, (s.count q : ℚ) := by
    intro q hq
    rw [share, (Finset.mem_filter.mp hq).2, Nat.cast_sum]
  rw [Finset.sum_congr rfl hshare, ← Finset.sum_div, ← Nat.cast_sum]
  exact div_self (Nat.cast_ne_zero.mpr hsum.ne')

end Build

end counts

section build

variable {hash : MotionGraphNode × MotionGraphNode → ℤ} {order : List Representation}
  {nodes : Nodes} {interval : ℕ} {node : List ℚ → MotionGraphNode}

open Build

theorem steps_cons (u v : MotionGraphNode) (l : List MotionGraphNode) :
    steps (u :: v :: l) = (u, v) :: steps (v :: l) := rfl

theorem foldlM_frames (horder : order.Perm [.adjacencyList, .vertexMap, .edgeList])
    (hhash : hash.Injective) {frames : List (List ℚ)}
    (hframes : ∀ row ∈ frames, nodeAt nodes interval row = .ok (node row)) {qs : List _}
    {s : Build MotionGraphNode} (h : Counts hash qs s) (node1 : MotionGraphNode) :
    Yields Never (fun r => Counts hash (qs ++ steps (node1 :: frames.map node)) r.2)
      (frames.foldlM (fun (node1, s) data2 => do
        let node2 ← nodeAt nodes interval data2
        let s ← s.transition hash order node1 node2
        return (node2, s)) (node1, s)) := by
  induction frames generalizing node1 s qs with
  | nil =>
    rw [List.map_nil, steps, List.tail_cons, List.zip_nil_right, List.append_nil]
    exact h
  | cons row frames ih =>
    rw [List.forall_mem_cons] at hframes
    rw [List.foldlM_cons, List.map_cons, steps_cons, List.append_cons]
    simp only [hframes.1]
    apply Yields.bind (P := fun r => r.1 = node row ∧ Counts hash (qs ++ [(node1, node row)]) r.2)
    · apply (h.transition horder hhash node1 (node row)).bind
      intro s' hs'
      exact ⟨rfl, hs'⟩
    · rintro ⟨node2, s'⟩ ⟨rfl, hs'⟩
      exact ih hframes.2 hs' (node row)

theorem buildGraph_counts (horder : order.Perm [.adjacencyList, .vertexMap, .edgeList])
    (hhash : hash.Injective) {d : MotionArray} (hne : d.rows ≠ [])
    (hrows : ∀ row ∈ d.rows, nodeAt nodes interval row = .ok (node row)) {qs : List _}
    {s : Build MotionGraphNode} (h : Counts hash qs s) :
    Yields Never (Counts hash (qs ++ steps (d.rows.map node)))
      (buildGraph hash order nodes interval s d) := by
  rw [buildGraph]
  cases hd : d.rows with
  | nil => exact absurd hd hne
  | cons row frames =>
    rw [hd, List.forall_mem_cons] at hrows
    simp only [hrows.1]
    apply (foldlM_frames horder hhash hrows.2 h (node row)).bind
    rintro ⟨node1, s'⟩ hs'
    exact hs'

def moves (node : List ℚ → MotionGraphNode) (datas : List MotionArray) :
    List (MotionGraphNode × MotionGraphNode) := datas.flatMap fun d => steps (d.rows.map node)

theorem foldlM_buildGraph (horder : order.Perm [.adjacencyList, .vertexMap, .edgeList])
    (hhash : hash.Injective) {datas : List MotionArray} (hne : ∀ d ∈ datas, d.rows ≠ [])
    (hrows : ∀ d ∈ datas, ∀ row ∈ d.rows, nodeAt nodes interval row = .ok (node row)) :
    Yields Never (Counts hash (moves node datas))
      (datas.foldlM (buildGraph hash order nodes interval) .empty) := by
  apply Yields.foldlM (I := fun done => Counts hash (moves node done)) counts_empty
  intro d hd done s hs
  rw [moves, List.flatMap_append, List.flatMap_singleton]
  exact buildGraph_counts horder hhash (hne d hd) (hrows d hd) hs

structure Normalized (s s' : Build MotionGraphNode) (vertices : List MotionGraphNode) : Prop where
  store : s'.store = s.store
  count : s'.count = s.count
  weight : ∀ p ∈ s.store.edges, p.1 ∈ vertices → s'.weight p = some (s.share p)

theorem foldlM_normalizeVertex {s : Build MotionGraphNode} (h : Counted hash s)
    (vertices : List MotionGraphNode) :
    Yields Never (fun s' => Normalized s s' vertices) (vertices.foldlM normalizeVertex s) := by
  apply Yields.foldlM (I := fun done s' => Normalized s s' done)
  · exact ⟨rfl, rfl, fun _ _ hp => absurd hp List.not_mem_nil⟩
  · rintro vertex - done s₁ ⟨hstore, hcount, hweight⟩
    have hcounted : Counted hash s₁ := ⟨hstore ▸ h.agree, by rw [hstore, hcount]; exact h.mem_iff⟩
    have hout : ∀ u, s₁.outgoing u = s.outgoing u := fun u => by rw [outgoing, hstore, outgoing]
    have hshare : ∀ p, s₁.share p = s.share p := fun p => by rw [share, hcount, hout, share]
    apply (hcounted.normalizeVertex vertex).mono
    rintro s₂ ⟨hstore₂, hcount₂, hset, hothers⟩
    refine ⟨hstore₂.trans hstore, hcount₂.trans hcount, ?_⟩
    intro p hp hmem
    by_cases hvertex : p.1 = vertex
    · have hpout : p ∈ s₁.outgoing vertex := by
        rw [hout]
        exact Finset.mem_filter.mpr ⟨hp, hvertex⟩
      rw [hset p hpout, hshare]
    · have hpout : p ∉ s₁.outgoing vertex := by
        rw [hout, outgoing, Finset.mem_filter]
        exact fun hboth => hvertex hboth.2
      rw [hothers p hpout]
      rw [List.mem_append, List.mem_singleton] at hmem
      exact hweight p hp (hmem.resolve_right hvertex)

/-- What `build_graphs` is given: of one bone, and never nothing. -/
structure MotionData (key : String) (datas : List MotionArray) : Prop where
  nonempty : datas ≠ []
  frames : ∀ d ∈ datas, d.rows ≠ []
  dof : ∃ dof, 1 ≤ dof ∧ ∀ d ∈ datas, (columns key d).width = dof

def nodesFor (interval dof : ℕ) : Except Raised Nodes := do
  let angles ← cpRange interval dof
  return nodesOf interval angles

/-- Steps are counted by the edge between their ends, and the weights of the edges out of a vertex
are a probability distribution. -/
structure Distribution (hash : MotionGraphNode × MotionGraphNode → ℤ)
    (moves : List (MotionGraphNode × MotionGraphNode)) (s : Build MotionGraphNode) : Prop where
  agree : Agree id hash s.store
  move : ∀ u v, u ≠ v → s.count (u, v) = moves.count (u, v) + moves.count (v, u)
  stay : ∀ u, s.count (u, u) = moves.count (u, u)
  edge : ∀ p, p ∈ s.store.edges ↔ 0 < s.count p
  weight : ∀ u, Incident s.store.edges u → ∃ weight : MotionGraphNode × MotionGraphNode → ℚ,
    (∀ p ∈ s.outgoing u, s.weight p = some (weight p)) ∧ ∑ p ∈ s.outgoing u, weight p = 1

theorem distribution_of_counts {s s' : Build MotionGraphNode} {qs : List _} (h : Counts hash qs s)
    {vertices : List MotionGraphNode} (hvertices : ∀ v, v ∈ vertices ↔ Incident s.store.edges v)
    (hs' : Normalized s s' vertices) : Distribution hash qs s' := by
  have hout : ∀ u, s'.outgoing u = s.outgoing u := fun u => by rw [outgoing, hs'.store, outgoing]
  refine ⟨hs'.store ▸ h.counted.agree, ?_, ?_, ?_, ?_⟩
  · intro u v huv
    rw [hs'.count, h.count, passes_of_ne qs huv]
  · intro u
    rw [hs'.count, h.count, passes_self]
  · rw [hs'.store, hs'.count]
    exact h.counted.mem_iff
  · rw [hs'.store]
    intro u hu
    obtain ⟨p, hp, rfl⟩ : ∃ p ∈ s.store.edges, p.1 = u := by
      obtain ⟨p, hp, rfl | rfl⟩ := hu
      · exact ⟨p, hp, rfl⟩
      · exact ⟨p.swap, (h.swap_mem_iff p).mpr hp, rfl⟩
    rw [hout]
    refine ⟨s.share, ?_, h.counted.sum_share hp⟩
    intro q hq
    have hmem := Finset.mem_of_mem_filter q hq
    exact hs'.weight q hmem ((hvertices _).mpr ⟨q, hmem, .inl rfl⟩)

theorem columns_rows_eq_nil {key : String} {d : MotionArray} :
    (columns key d).rows = [] ↔ d.rows = [] := by
  rw [columns]
  split_ifs
  · exact List.map_eq_nil_iff
  · rfl

theorem moves_remainders {remainder : ℚ → ℚ} (h : IsRemainder remainder)
    (datas : List MotionArray) :
    moves (frameNode interval) (datas.map (remainders remainder)) =
      moves (frameNode interval) datas := by
  rw [moves, List.flatMap_map, moves]
  congr 1
  funext d
  rw [remainders, List.map_map]
  congr 2
  funext row
  exact frameNode_remainders h row

def BuildsDistribution (hash : MotionGraphNode × MotionGraphNode → ℤ) (order : List Representation)
    (remainder : ℚ → ℚ) (listing : Finset MotionGraphNode → List MotionGraphNode) (key : String)
    (datas : List MotionArray) (interval : ℕ) : Prop :=
  ∃ s dof nodes, buildGraphs hash order remainder listing key datas interval = .ok s ∧
    (∀ d ∈ datas, (columns key d).width = dof) ∧ nodesFor interval dof = .ok nodes ∧
    (∀ d ∈ datas, ∀ row ∈ (columns key d).rows,
      nodeAt nodes interval (row.map remainder) = .ok (frameNode interval row)) ∧
    Distribution hash (moves (frameNode interval) (datas.map (columns key))) s

theorem buildGraphs_distribution {remainder : ℚ → ℚ} (hremainder : IsRemainder remainder)
    {listing : Finset MotionGraphNode → List MotionGraphNode}
    (hlisting : ∀ vertices, (listing vertices : Multiset MotionGraphNode) = vertices.val)
    (horder : order.Perm [.adjacencyList, .vertexMap, .edgeList]) (hhash : hash.Injective)
    (hinterval : 1 ≤ interval) {key : String} {datas : List MotionArray}
    (hdatas : MotionData key datas) :
    BuildsDistribution hash order remainder listing key datas interval := by
  obtain ⟨dof, hpos, hdof⟩ := hdatas.dof
  obtain ⟨angles, hangles, hmem⟩ := cpRange_ok hinterval hpos
  have hnodes : nodesFor interval dof = .ok (nodesOf interval angles) := by
    rw [nodesFor, hangles]
    rfl
  have hrows : ∀ d ∈ datas, ∀ row ∈ (columns key d).rows,
      nodeAt (nodesOf interval angles) interval (row.map remainder) =
        .ok (frameNode interval row) := by
    intro d hd row hrow
    apply nodeAt_remainders hremainder hinterval (hmem row _)
    rw [(columns key d).length_row row hrow, hdof d hd]
  let reduced := (datas.map (columns key)).map (remainders remainder)
  have hcounts : Yields Never (Counts hash (moves (frameNode interval) reduced))
      (reduced.foldlM (buildGraph hash order (nodesOf interval angles) interval) .empty) := by
    apply foldlM_buildGraph horder hhash
    · rw [List.forall_mem_map, List.forall_mem_map]
      intro d hd
      rw [remainders, ne_eq, List.map_eq_nil_iff, columns_rows_eq_nil]
      exact hdatas.frames d hd
    · rw [List.forall_mem_map, List.forall_mem_map]
      intro d hd
      rw [remainders, List.forall_mem_map]
      intro row hrow
      rw [frameNode_remainders hremainder]
      exact hrows d hd row hrow
  rw [moves_remainders hremainder] at hcounts
  have hbuild : Yields Never
      (Distribution hash (moves (frameNode interval) (datas.map (columns key))))
      (buildGraphs hash order remainder listing key datas interval) := by
    have hreduced : (datas.map (columns key)).map (remainders remainder) = reduced := rfl
    rw [buildGraphs, hreduced]
    cases hreduced : reduced with
    | nil =>
      rw [List.map_eq_nil_iff, List.map_eq_nil_iff] at hreduced
      exact absurd hreduced hdatas.nonempty
    | cons d ds =>
      have hwidth : d.width = dof := by
        have hd : d ∈ reduced := hreduced ▸ List.mem_cons_self
        obtain ⟨c, hc, rfl⟩ := List.mem_map.mp hd
        obtain ⟨e, he, rfl⟩ := List.mem_map.mp hc
        exact hdof e he
      simp only [hwidth, hangles]
      rw [hreduced] at hcounts
      apply hcounts.bind
      intro s hs
      apply (foldlM_normalizeVertex hs.counted _).mono
      intro s' hs'
      apply distribution_of_counts hs _ hs'
      intro v
      rw [← Multiset.mem_coe, hlisting]
      exact hs.counted.agree.tracks.vertexMap.iter v
  obtain ⟨s, hs, hdistribution⟩ := hbuild.exists_ok fun _ => id
  exact ⟨s, dof, _, hs, hdof, hnodes, hrows, hdistribution⟩

def nodeHash (p : MotionGraphNode × MotionGraphNode) : ℤ :=
  Encodable.encode (p.1.mins, p.1.maxs, p.2.mins, p.2.maxs)

theorem nodeHash_injective : nodeHash.Injective := by
  rintro ⟨⟨mins, maxs⟩, ⟨mins', maxs'⟩⟩ ⟨⟨mins₂, maxs₂⟩, ⟨mins₂', maxs₂'⟩⟩ h
  have hencode := Encodable.encode_injective (Int.ofNat.inj h)
  simp only [Prod.mk.injEq] at hencode
  obtain ⟨rfl, rfl, rfl, rfl⟩ := hencode
  rfl

def turns : MotionArray where
  rows := [[10, 350], [370, -10], [95, 0]]
  width := 2
  length_row := by decide

theorem buildGraphs_distribution_turns : IsRemainder fmod ∧ nodeHash.Injective ∧
    MotionData "lhumerus" [turns] ∧ BuildsDistribution nodeHash
      [.adjacencyList, .vertexMap, .edgeList] fmod Finset.toList "lhumerus" [turns] 30 := by
  have hdatas : MotionData "lhumerus" [turns] := by
    refine ⟨List.cons_ne_nil _ _, ?_, 2, one_le_two, ?_⟩
    · rw [List.forall_mem_singleton]
      exact List.cons_ne_nil _ _
    · rw [List.forall_mem_singleton]
      rfl
  exact ⟨isRemainder_fmod, nodeHash_injective, hdatas, buildGraphs_distribution isRemainder_fmod
    Finset.coe_toList (List.Perm.refl _) nodeHash_injective (by norm_num) hdatas⟩

/-- There is no first file to take the degrees of freedom from. -/
theorem buildGraphs_nothing : IsRemainder fmod ∧ nodeHash.Injective ∧
    buildGraphs nodeHash [.adjacencyList, .vertexMap, .edgeList] fmod Finset.toList "root" [] 1 =
      .error .indexError := ⟨isRemainder_fmod, nodeHash_injective, rfl⟩

end build

end NaviMisc.Motion.MotionGraph
