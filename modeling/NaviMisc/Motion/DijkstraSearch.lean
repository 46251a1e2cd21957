import NaviMisc.Motion.DijkstraReach

/-!
What `dijkstra_search` returns.
-/

namespace NaviMisc.Motion

open NaviMisc.Lib
open Relation

variable {V : Type} [DecidableEq V]

/-- Any amount of fuel that is enough gives the same. -/
def Returns {data : AdjacencyList V} (sort : QueueSort V) (adjacency : Adjacency data)
    (start end_ : V) (result : Except RuntimeError (List V)) : Prop :=
  ∃ n, ∀ fuel, n ≤ fuel → dijkstraSearch sort adjacency start end_ fuel = some result

structure Right {data : AdjacencyList V} (sort : QueueSort V) (adjacency : Adjacency data)
    (start end_ : V) : Prop where
  path : ReflTransGen data.Adjacent start end_ →
    ∃ path, Returns sort adjacency start end_ (.ok path) ∧ Shortest data.Adjacent start end_ path
  noPath : ¬ReflTransGen data.Adjacent start end_ →
    ∃ error, Returns sort adjacency start end_ (.error error)

/-- The end has edges, and no edge comes from an unreachable vertex into a shortest path; or
no cycle leads to the end. -/
structure Sound (data : AdjacencyList V) (start end_ : V) : Prop where
  reachable : start ≠ end_ → ReflTransGen data.Adjacent start end_ → end_ ∈ data ∧
    ∀ u v, data.Adjacent u v → v ≠ start → Between data.Adjacent start v end_ →
      ReflTransGen data.Adjacent start u
  unreachable : ¬ReflTransGen data.Adjacent start end_ → end_ ∉ data ∨
    ∀ x, ReflTransGen data.Adjacent x end_ → ¬TransGen data.Adjacent x x

section follow

variable {previous : V → Option V} {start node : V} {ret : List V} {fuel n : ℕ}
  {result : Except RuntimeError (List V)}

theorem follow_succ (h : follow previous start fuel node ret = some result) :
    follow previous start (fuel + 1) node ret = some result := by
  induction fuel generalizing node ret with
  | zero => cases h
  | succ fuel ih =>
    rw [follow] at h ⊢
    split
    · rwa [if_pos ‹_›] at h
    · rw [if_neg ‹_›] at h
      cases hprevious : previous node with
      | none =>
        rw [hprevious] at h
        exact h
      | some w =>
        rw [hprevious] at h
        exact ih h

theorem follow_le (h : follow previous start n node ret = some result) (hle : n ≤ fuel) :
    follow previous start fuel node ret = some result := by
  induction hle with
  | refl => exact h
  | step _ ih => exact follow_succ ih

theorem follow_start : follow previous start (n + 1) start ret = some (.ok ret.reverse) := by
  rw [follow, if_pos rfl]

theorem follow_none (h : node ≠ start) (hprevious : previous node = none) :
    follow previous start (n + 1) node ret = some (.error noPath) := by
  rw [follow, if_neg h, hprevious]

theorem follow_some {w : V} (h : node ≠ start) (hprevious : previous node = some w) :
    follow previous start (n + 1) node ret = follow previous start n w (ret ++ [w]) := by
  rw [follow, if_neg h, hprevious]

end follow

section search

variable {data : AdjacencyList V} {sort : QueueSort V} {adjacency : Adjacency data}
  {start end_ node : V} {ret : List V} {n : ℕ} {s : Search V}

theorem dijkstraSearch_of_ne (h : start ≠ end_) (fuel : ℕ) :
    dijkstraSearch sort adjacency start end_ fuel =
      follow (findShortestPaths sort adjacency (initialEstimates adjacency start)).previous start
        (fuel + 1) end_ [end_] := by
  rw [dijkstraSearch, if_neg h, follow, if_neg h.symm]
  rfl

theorem Returns.of_follow {result : Except RuntimeError (List V)} (h : start ≠ end_)
    (hresult : follow (findShortestPaths sort adjacency (initialEstimates adjacency start)).previous
      start n end_ [end_] = some result) : Returns sort adjacency start end_ result := by
  refine ⟨n, fun fuel hle => ?_⟩
  rw [dijkstraSearch_of_ne h]
  exact follow_le hresult (by omega)

theorem Settled.closer (h : Settled data start s) (hsane : Sane data start s) {v : V}
    (hv : v ∈ data) (hstart : v ≠ start) (hdist : Distance data.Adjacent start (n + 1) v)
    (hreachable : ∀ u, data.Adjacent u v → ReflTransGen data.Adjacent start u) :
    ∃ w, s.previous v = some w ∧ data.Adjacent w v ∧ Distance data.Adjacent start n w := by
  obtain ⟨w, hw, hor⟩ := h.previous v hv hstart hdist.reachable
  have hadjacent := hsane.previous v w hw
  obtain hunreachable | ⟨m, hm, hm'⟩ := hor
  · exact absurd (hreachable w hadjacent) hunreachable
  · obtain rfl : m = n := Nat.succ.inj (hm'.unique hdist)
    exact ⟨w, hw, hadjacent, hm⟩

theorem Settled.follow (h : Settled data start s) (hsane : Sane data start s)
    (hsound : ∀ u v, data.Adjacent u v → v ≠ start → Between data.Adjacent start v end_ →
      ReflTransGen data.Adjacent start u)
    (hdist : Distance data.Adjacent start n node) (hbetween : Between data.Adjacent start node end_)
    (hret : Route data.Adjacent node end_ ret.reverse) (hnode : node ∈ data) :
    ∃ path, Motion.follow s.previous start (n + 1) node ret = some (.ok path) ∧
      Route data.Adjacent start end_ path ∧ path.length = n + ret.length := by
  induction n generalizing node ret with
  | zero =>
    obtain rfl := hdist.steps.eq_of_zero
    exact ⟨ret.reverse, follow_start, hret, by rw [List.length_reverse, Nat.zero_add]⟩
  | succ n ih =>
    have hne : node ≠ start := by
      rintro rfl
      cases hdist.unique .zero
    obtain ⟨w, hw, hadjacent, hdistw⟩ := h.closer hsane hnode hne hdist fun u hu =>
      hsound u node hu hne hbetween
    have hroute : Route data.Adjacent w end_ (ret ++ [w]).reverse := by
      rw [List.reverse_append]
      exact hret.cons hadjacent
    obtain ⟨path, hpath, hroute, hlength⟩ :=
      ih hdistw (hbetween.pred hdistw hadjacent hdist) hroute hadjacent.mem
    rw [List.length_append] at hlength
    exact ⟨path, (follow_some hne hw).trans hpath, hroute, by rw [hlength]; simp; omega⟩

theorem Sane.follow_of_acc (h : Sane data start s) (hacc : Acc data.Adjacent node)
    (hnode : ¬ReflTransGen data.Adjacent start node) :
    ∃ n, Motion.follow s.previous start n node ret = some (.error noPath) := by
  induction hacc generalizing ret with
  | intro node _ ih =>
    have hne : node ≠ start := fun heq => hnode (heq ▸ .refl)
    cases hprevious : s.previous node with
    | none => exact ⟨1, follow_none hne hprevious⟩
    | some w =>
      have hadjacent := h.previous node w hprevious
      have hw : ¬ReflTransGen data.Adjacent start w := fun hw => hnode (hw.tail hadjacent)
      obtain ⟨n, hn⟩ : ∃ n, Motion.follow s.previous start n w (ret ++ [w]) = some (.error noPath) :=
        ih w hadjacent hw
      exact ⟨n + 1, (follow_some hne hprevious).trans hn⟩

theorem Sound.right (h : Sound data start end_) : Right sort adjacency start end_ := by
  obtain ⟨hsane, hsettled⟩ := findShortestPaths_settled sort adjacency start
  by_cases hne : start = end_
  · subst hne
    refine ⟨fun _ => ⟨[start], ⟨0, fun fuel _ => if_pos rfl⟩, ?_⟩, fun hnot => absurd .refl hnot⟩
    exact Distance.zero.shortest .singleton rfl
  refine ⟨fun hreachable => ?_, fun hunreachable => ?_⟩
  · obtain ⟨hmem, hsound⟩ := h.reachable hne hreachable
    obtain ⟨n, hdist⟩ := Distance.of_reachable hreachable
    have hroute : Route data.Adjacent end_ end_ [end_].reverse := .singleton
    obtain ⟨path, hpath, hroute, hlength⟩ :=
      hsettled.follow hsane hsound hdist (.refl hdist) hroute hmem
    exact ⟨path, .of_follow hne hpath, hdist.shortest hroute hlength⟩
  · obtain hmem | hacyclic := h.unreachable hunreachable
    · exact ⟨noPath, .of_follow hne (n := 1)
        (follow_none (Ne.symm hne) (hsane.fixed end_ (.inr hmem)).2)⟩
    · have hacc : Acc data.Adjacent end_ :=
        acc_of_acyclic (data.keys.finite_toSet) (fun u v huv => Finmap.mem_keys.mpr huv.mem) hacyclic
      obtain ⟨n, hn⟩ := hsane.follow_of_acc hacc hunreachable
      exact ⟨noPath, .of_follow hne hn⟩

end search

end NaviMisc.Motion

/-!
An order of the vertices in which the search goes astray, where it can.
-/

namespace NaviMisc.Motion

open NaviMisc.Lib
open Relation

variable {V : Type} [DecidableEq V]

def Favoured (first : V → Bool) (d : V → Option ℤ) (u v : V) : Prop :=
  if cost d u = cost d v then first v → first u else ¬dijkstraCompare d v u < 0

instance (first : V → Bool) (d : V → Option ℤ) : DecidableRel (Favoured first d) :=
  fun _ _ => inferInstanceAs (Decidable (ite _ _ _))

section favoured

variable {first : V → Bool} {d : V → Option ℤ} {u v : V}

omit [DecidableEq V]

theorem Favoured.not_lt (h : Favoured first d u v) : ¬dijkstraCompare d v u < 0 := by
  rw [Favoured] at h
  split_ifs at h with heq
  · rw [dijkstraCompare_lt]
    omega
  · exact h

theorem Favoured.first_of_cost_eq (h : Favoured first d u v) (heq : cost d u = cost d v) :
    first v → first u := by
  rwa [Favoured, if_pos heq] at h

instance : Std.Total (Favoured first d) := by
  refine ⟨fun u v => ?_⟩
  by_cases heq : cost d u = cost d v
  · rw [Favoured, Favoured, if_pos heq, if_pos heq.symm]
    cases first u <;> simp
  · rw [Favoured, Favoured, if_neg heq, if_neg (Ne.symm heq), dijkstraCompare_lt, dijkstraCompare_lt]
    omega

instance : IsTrans V (Favoured first d) := by
  refine ⟨fun u v w huv hvw => ?_⟩
  have huv' := huv.not_lt
  have hvw' := hvw.not_lt
  rw [dijkstraCompare_lt] at huv' hvw'
  rw [Favoured]
  split_ifs with heq
  · have heq' : cost d u = cost d v := by omega
    exact fun hw => huv.first_of_cost_eq heq' (hvw.first_of_cost_eq (by omega) hw)
  · rw [dijkstraCompare_lt]
    omega

end favoured

def QueueSort.favouring (first : V → Bool) : QueueSort V where
  sort d q := q.insertionSort (Favoured first d)
  perm _ q := List.perm_insertionSort _ q
  ordered d q := (List.pairwise_insertionSort (Favoured first d) q).imp Favoured.not_lt

section adjacency

theorem lookup_map (entries : List (Sigma fun _ : V => Finset V)) (f : V → Finset V → List V)
    (u : V) : (entries.map fun item => (item.1, f item.1 item.2)).lookup u =
      (entries.dlookup u).map (f u) := by
  induction entries with
  | nil => rfl
  | cons item entries ih =>
    obtain ⟨v, vList⟩ := item
    rw [List.map_cons, List.lookup_cons]
    by_cases hu : u = v
    · subst hu
      simp
    · rw [beq_false_of_ne hu, List.dlookup_cons_ne _ _ hu]
      exact ih

theorem Adjacency.exists_of (data : AdjacencyList V) (f : V → Finset V → List V)
    (hf : ∀ u vList, Multiset.ofList (f u vList) = vList.val) :
    ∃ adjacency : Adjacency data, ∀ u, adjacency.vs u = ((data.lookup u).map (f u)).getD [] := by
  induction data using Finmap.induction_on with
  | _ data =>
    refine ⟨⟨data.entries.map fun item => (item.1, f item.1 item.2), ?_, fun u => ?_⟩, fun u => ?_⟩
    · rw [List.map_map]
      exact data.nodupKeys
    · rw [lookup_map, Option.map_map]
      apply congrArg (fun g => Option.map g _)
      funext vList
      exact hf u vList
    · rw [vs, lookup_map]
      rfl

theorem Adjacency.exists_first {data : AdjacencyList V} {u v : V} (h : data.Adjacent u v) :
    ∃ (adjacency : Adjacency data) (vs : List V), adjacency.vs u = v :: vs := by
  obtain ⟨vList, hlookup, hv⟩ := AdjacencyList.contains_iff.mp h
  obtain ⟨adjacency, hadjacency⟩ := Adjacency.exists_of data
    (fun _ vList => if v ∈ vList then v :: (vList.erase v).toList else vList.toList) (by
      intro _ vList
      split_ifs with hmem
      · rw [← Multiset.cons_coe, Finset.coe_toList, Finset.erase_val, Multiset.cons_erase hmem]
      · exact vList.coe_toList)
  refine ⟨adjacency, (vList.erase v).toList, ?_⟩
  rw [hadjacency, hlookup, Option.map_some, Option.getD_some, if_pos hv]

end adjacency

structure Way (data : AdjacencyList V) (start : V) (p : ℕ → V) (n : ℕ) : Prop where
  mem : ∀ j ≤ n, p j ∈ data
  dist : ∀ j ≤ n, Distance data.Adjacent start j (p j)
  adjacent : ∀ j < n, data.Adjacent (p j) (p (j + 1))

def ahead (p : ℕ → V) (n : ℕ) (u : V) (x : V) : Bool := x = u ∨ ∃ j ≤ n, x = p j

def Kept (p : ℕ → V) (n : ℕ) (s : Search V) : Prop :=
  ∀ j < n, cost s.d (p (j + 1)) ≠ -1 → s.previous (p (j + 1)) = some (p j)

structure Left (data : AdjacencyList V) (start : V) (p : ℕ → V) (n : ℕ) (v : V) (s : Search V) :
    Prop where
  astray : Astray data start s v
  previous : ∀ j < n, s.previous (p (j + 1)) = some (p j) ∨ Astray data start s (p (j + 1))

section run

variable {data : AdjacencyList V} {sort : QueueSort V} {adjacency : Adjacency data} {start u v x : V}
  {s : Search V} {agenda vs : List V} {p : ℕ → V} {i n : ℕ}

theorem Left.visit (h : Left data start p n v s) (hsettled : Settled data start s) :
    Left data start p n v (visit sort adjacency s) := by
  have hastray : ∀ x, Astray data start s x → Astray data start (Motion.visit sort adjacency s) x := by
    rintro x ⟨w, hw, hunreachable⟩
    obtain hprevious | hastray := hsettled.previous_visit sort adjacency x
    · exact ⟨w, hprevious.trans hw, hunreachable⟩
    · exact hastray
  refine ⟨hastray v h.astray, fun j hj => ?_⟩
  obtain hprevious | hprevious := h.previous j hj
  · rw [← hprevious]
    exact hsettled.previous_visit sort adjacency (p (j + 1))
  · exact .inr (hastray _ hprevious)

theorem Way.cost_eq (h : Way data start p n) (hsane : Sane data start s) (hknown : Known data start s)
    (hqueued : Queued data s) (hagenda : s.agenda = x :: agenda) {c j : ℕ} (hcost : cost s.d x = c)
    (hj : j ≤ n) (hle : j ≤ c) : cost s.d (p j) = j := by
  have hdist := h.dist j hj
  cases j with
  | zero =>
    rw [← hdist.steps.eq_of_zero]
    exact (hsane.fixed start (.inl rfl)).1
  | succ j =>
    apply hknown.cost_eq (.inr (h.mem _ hj)) ?_ hdist
    apply hknown.reached (p j) _ (h.adjacent j (by omega))
    intro hmem
    obtain ⟨y, hy, k, hk, hcosty⟩ := hknown.frontier hsane hqueued hmem (h.dist j (by omega))
    have hhead := (hqueued.head hagenda hy (by omega)).2
    omega

theorem Kept.visit (h : Kept p n s) (hway : Way data start p n) (hsane : Sane data start s)
    (hknown : Known data start s) (hqueued : Queued data s)
    (hu : ¬ReflTransGen data.Adjacent start u) (hagenda : s.agenda = x :: agenda)
    (hfavoured : ∀ y ∈ agenda, Favoured (ahead p n u) s.d x y) (hcost : cost s.d x ≠ -1) :
    Kept p n (visit sort adjacency s) := by
  obtain ⟨c, hc, hx⟩ := hknown.distance_head hqueued hagenda hcost
  obtain ⟨hlabelled, hkept⟩ := hknown.foldl hsane adjacency hqueued hagenda hcost
  intro j hj hreached
  rw [visit_cons hagenda] at hreached ⊢
  by_cases hold : cost s.d (p (j + 1)) = -1
  · -- the vertex has just been found from `x`, which is then the one of the path
    obtain ⟨hsame, -⟩ | ⟨hvs, hprevious⟩ := foldl_relax_cases x s (adjacency.vs x) (p (j + 1))
    · exact absurd (hsame.trans hold) hreached
    have hdist := hknown.distance_succ hsane hqueued hagenda hc hx (adjacency.mem_vs.mp hvs) hold
    obtain rfl : c = j := Nat.succ.inj (hdist.unique (hway.dist (j + 1) (by omega)))
    have hcostp := hway.cost_eq hsane hknown hqueued hagenda hc (by omega) le_rfl
    have hmem : p c ∈ s.agenda := by
      by_contra hmem
      exact hknown.reached (p c) _ (hway.adjacent c hj) hmem hold
    have hfirst : x = p c ∨ ahead p n u x := by
      rw [hagenda] at hmem
      obtain heq | hmem := List.mem_cons.mp hmem
      · exact .inl heq.symm
      · right
        apply (hfavoured _ hmem).first_of_cost_eq (by rw [hc, hcostp])
        exact decide_eq_true (.inr ⟨c, by omega, rfl⟩)
    have heq : x = p c := by
      obtain heq | hfirst := hfirst
      · exact heq
      · obtain rfl | ⟨k, hk, rfl⟩ := of_decide_eq_true hfirst
        · exact absurd hx.reachable hu
        · rw [hx.unique (hway.dist k hk)]
    rw [← heq]
    exact hprevious
  · rw [(hkept _ hold).2]
    exact h j hj hold

theorem Kept.left (h : Kept p n s) (hway : Way data start p n) (hsane : Sane data start s)
    (hknown : Known data start s) (hqueued : Queued data s)
    (hu : ¬ReflTransGen data.Adjacent start u) (hmem : u ∈ s.agenda) (hagenda : s.agenda = x :: agenda)
    (hfavoured : ∀ y ∈ agenda, Favoured (ahead p n u) s.d x y) (hcost : cost s.d x = -1)
    (hi : i < n) (hvs : adjacency.vs u = p (i + 1) :: vs) :
    Left data start p n (p (i + 1)) (Motion.visit sort adjacency s) := by
  have hsettled := hknown.settled_of_head hsane hqueued hagenda hcost
  have hreached : ∀ j < n, cost s.d (p (j + 1)) ≠ -1 := by
    intro j hj
    apply hknown.reached (p j) _ (hway.adjacent j hj)
    exact fun hpj => hsettled.unreachable _ hpj (hway.dist j (by omega)).reachable
  have hcostu : cost s.d u = -1 := by
    by_contra hne
    exact (hqueued.head hagenda hmem hne).1 hcost
  obtain rfl : x = u := by
    rw [hagenda] at hmem
    obtain heq | hmem := List.mem_cons.mp hmem
    · exact heq.symm
    · have hfirst := (hfavoured u hmem).first_of_cost_eq (by rw [hcost, hcostu])
        (decide_eq_true (.inl rfl))
      obtain heq | ⟨k, hk, rfl⟩ := of_decide_eq_true hfirst
      · exact heq
      · refine absurd (hway.dist k hk).reachable (hsettled.unreachable _ ?_)
        rw [hagenda]
        exact List.mem_cons_self
  refine ⟨⟨x, ?_, hu⟩, fun j hj => ?_⟩
  · have hrelaxes : Relaxes s x (p (i + 1)) := by
      right
      rw [hcost, hknown.cost_eq (.inr (hway.mem _ hi)) (hreached i hi) (hway.dist _ hi)]
      omega
    rw [visit_cons hagenda, hvs, List.foldl_cons]
    obtain ⟨-, hprevious⟩ | ⟨-, hprevious⟩ :=
      foldl_relax_cases x (relax x s (p (i + 1))) vs (p (i + 1))
    · refine hprevious.trans ?_
      rw [relax_of_relaxes hrelaxes]
      exact Function.update_self _ _ _
    · exact hprevious
  · rw [← h j hj (hreached j hj)]
    exact hsettled.previous_visit sort adjacency (p (j + 1))

structure Misled (data : AdjacencyList V) (start : V) (p : ℕ → V) (n i : ℕ) (u : V) (s : Search V) :
    Prop where
  favoured : s.agenda.Pairwise (Favoured (ahead p n u) s.d)
  phase : Known data start s ∧ Kept p n s ∧ u ∈ s.agenda ∨
    Settled data start s ∧ Left data start p n (p (i + 1)) s

omit [DecidableEq V] in
theorem pairwise_favouring (first : V → Bool) (d : V → Option ℤ) (q : List V) :
    ((QueueSort.favouring first).sort d q).Pairwise (Favoured first d) :=
  List.pairwise_insertionSort (Favoured first d) q

theorem Way.ne_start (h : Way data start p n) (hi : i < n) : p (i + 1) ≠ start := by
  intro heq
  have hdist := h.dist (i + 1) hi
  rw [heq] at hdist
  cases hdist.unique .zero

theorem Way.kept_initial (h : Way data start p n) : Kept p n (Search.initial sort adjacency start) := by
  intro j hj hreached
  have hcost : cost (Search.initial sort adjacency start).d (p (j + 1)) =
      if p (j + 1) = start then 0 else if p (j + 1) ∈ data then -1 else 0 := cost_initialEstimates
  rw [hcost, if_neg (h.ne_start hj), if_pos (h.mem _ hj)] at hreached
  exact absurd rfl hreached

theorem Misled.initial (hway : Way data start p n) (hu : u ∈ data) : Misled data start p n i u
    (Search.initial (.favouring (ahead p n u)) adjacency start) where
  favoured := pairwise_favouring _ _ _
  phase := .inl ⟨.initial, hway.kept_initial,
    Search.perm_initial.mem_iff.mpr (Adjacency.mem_keys.mpr hu)⟩

theorem Misled.visit (h : Misled data start p n i u s) (hway : Way data start p n)
    (hsane : Sane data start s) (hqueued : Queued data s)
    (hu : ¬ReflTransGen data.Adjacent start u) (hi : i < n) (hvs : adjacency.vs u = p (i + 1) :: vs) :
    Misled data start p n i u (Motion.visit (.favouring (ahead p n u)) adjacency s) := by
  cases hagenda : s.agenda with
  | nil => rwa [visit_nil hagenda]
  | cons x agenda =>
    have hhead := h.favoured
    rw [hagenda, List.pairwise_cons] at hhead
    refine ⟨by rw [visit_cons hagenda]; exact pairwise_favouring _ _ _, ?_⟩
    obtain ⟨hknown, hkept, hmem⟩ | ⟨hsettled, hleft⟩ := h.phase
    · by_cases hcost : cost s.d x = -1
      · exact .inr ⟨(hknown.settled_of_head hsane hqueued hagenda hcost).visit,
          hkept.left hway hsane hknown hqueued hu hmem hagenda hhead.1 hcost hi hvs⟩
      · left
        refine ⟨hknown.visit hsane hqueued hagenda hcost,
          hkept.visit hway hsane hknown hqueued hu hagenda hhead.1 hcost, ?_⟩
        obtain ⟨c, -, hx⟩ := hknown.distance_head hqueued hagenda hcost
        rw [hagenda] at hmem
        have hne : u ≠ x := fun heq => hu (heq ▸ hx.reachable)
        rw [visit_cons hagenda]
        exact ((QueueSort.favouring _).perm _ _).mem_iff.mpr ((List.mem_cons.mp hmem).resolve_left hne)
    · exact .inr ⟨hsettled.visit, hleft.visit hsettled⟩

theorem Way.exists_left (h : Way data start p n) (hi : i < n)
    (hu : ¬ReflTransGen data.Adjacent start u) (huv : data.Adjacent u (p (i + 1))) :
    ∃ (adjacency : Adjacency data) (sort : QueueSort V),
      let s := findShortestPaths sort adjacency (initialEstimates adjacency start)
      Sane data start s ∧ Left data start p n (p (i + 1)) s := by
  obtain ⟨adjacency, vs, hvs⟩ := Adjacency.exists_first huv
  obtain ⟨hsane, -, hnil, hmisled⟩ := findShortestPaths_of_visit (Misled.initial (i := i) h huv.mem)
    fun s hsane hqueued hmisled => hmisled.visit h hsane hqueued hu hi hvs
  refine ⟨adjacency, .favouring (ahead p n u), hsane, ?_⟩
  obtain ⟨-, -, hmem⟩ | ⟨-, hleft⟩ := hmisled.phase
  · rw [hnil] at hmem
    cases hmem
  · exact hleft

end run

section follow

variable {data : AdjacencyList V} {start end_ v node : V} {s : Search V} {p : ℕ → V} {i j n fuel : ℕ}
  {ret path : List V}

theorem Sane.follow_ne_ok (h : Sane data start s) (hnode : ¬ReflTransGen data.Adjacent start node) :
    Motion.follow s.previous start fuel node ret ≠ some (.ok path) := by
  induction fuel generalizing node ret with
  | zero => rintro ⟨⟩
  | succ fuel ih =>
    have hne : node ≠ start := fun heq => hnode (heq ▸ .refl)
    cases hprevious : s.previous node with
    | none =>
      rw [follow_none hne hprevious]
      rintro ⟨⟩
    | some w =>
      rw [follow_some hne hprevious]
      exact ih fun hw => hnode (hw.tail (h.previous node w hprevious))

theorem Astray.follow_ne_ok (h : Astray data start s node) (hsane : Sane data start s)
    (hne : node ≠ start) : Motion.follow s.previous start fuel node ret ≠ some (.ok path) := by
  obtain ⟨w, hw, hunreachable⟩ := h
  cases fuel with
  | zero => rintro ⟨⟩
  | succ fuel =>
    rw [follow_some hne hw]
    exact hsane.follow_ne_ok hunreachable

theorem Left.follow_ne_ok (h : Left data start p n (p (i + 1)) s) (hsane : Sane data start s)
    (hway : Way data start p n) (hij : i + 1 ≤ j) (hjn : j ≤ n) :
    Motion.follow s.previous start fuel (p j) ret ≠ some (.ok path) := by
  induction j, hij using Nat.le_induction generalizing fuel ret with
  | base => exact h.astray.follow_ne_ok hsane (hway.ne_start hjn)
  | succ j hij ih =>
    obtain hprevious | hastray := h.previous j hjn
    · cases fuel with
      | zero => rintro ⟨⟩
      | succ fuel =>
        rw [follow_some (hway.ne_start hjn) hprevious]
        exact ih (by omega)
    · exact hastray.follow_ne_ok hsane (hway.ne_start hjn)

end follow

section right

variable {data : AdjacencyList V} {start end_ : V}

theorem mem_of_right (hne : start ≠ end_) (hreachable : ReflTransGen data.Adjacent start end_)
    (h : ∀ (adjacency : Adjacency data) (sort : QueueSort V), Right sort adjacency start end_) :
    end_ ∈ data := by
  by_contra hmem
  obtain ⟨adjacency, -⟩ := Adjacency.exists_of data (fun _ vList => vList.toList) fun _ vList =>
    vList.coe_toList
  let sort : QueueSort V := .favouring fun _ => false
  obtain ⟨path, ⟨fuel, hpath⟩, -⟩ := (h adjacency sort).path hreachable
  have hsane := (findShortestPaths_settled sort adjacency start).1
  have hresult := hpath fuel le_rfl
  rw [dijkstraSearch_of_ne hne, follow_none hne.symm (hsane.fixed end_ (.inr hmem)).2] at hresult
  cases hresult

theorem Sound.of_right (hreachable : ReflTransGen data.Adjacent start end_)
    (h : ∀ (adjacency : Adjacency data) (sort : QueueSort V), Right sort adjacency start end_) :
    Sound data start end_ := by
  refine ⟨fun hne _ => ?_, fun hnot => absurd hreachable hnot⟩
  have hmem := mem_of_right hne hreachable h
  refine ⟨hmem, fun u v huv hv hbetween => ?_⟩
  by_contra hu
  obtain ⟨p, k, m, rfl, hend, hdist, hadjacent⟩ := hbetween.nodes
  obtain _ | i := k
  · exact hv (hdist 0 (Nat.zero_le _)).steps.eq_of_zero.symm
  have hway : Way data start p (i + 1 + m) := by
    refine ⟨fun j hj => ?_, hdist, hadjacent⟩
    obtain hlt | rfl := Nat.lt_or_eq_of_le hj
    · exact (hadjacent j hlt).mem
    · rwa [hend]
  obtain ⟨adjacency, sort, hsane, hleft⟩ := hway.exists_left (by omega) hu huv
  obtain ⟨path, ⟨fuel, hpath⟩, -⟩ := (h adjacency sort).path hreachable
  have hresult := hpath fuel le_rfl
  rw [dijkstraSearch_of_ne hne, ← hend] at hresult
  exact hleft.follow_ne_ok hsane hway (by omega) le_rfl hresult

/-- For an end that is reachable, the condition is exact: else there is an order of the vertices
in which the search goes wrong. -/
theorem dijkstraSearch_right (data : AdjacencyList V) (start end_ : V) :
    (Sound data start end_ → ∀ (adjacency : Adjacency data) (sort : QueueSort V),
        Right sort adjacency start end_) ∧
      (ReflTransGen data.Adjacent start end_ →
        (∀ (adjacency : Adjacency data) (sort : QueueSort V), Right sort adjacency start end_) →
          Sound data start end_) :=
  ⟨fun h _ _ => h.right, Sound.of_right⟩

/-- One edge, to a vertex that has none. -/
def oneEdge : AdjacencyList ℕ := Finmap.singleton 0 {1}

def oneEdgeTable : Adjacency oneEdge where
  entries := [(0, [1])]
  nodup := by decide
  lookup u := by
    by_cases hu : u = 0
    · subst hu
      rfl
    · rw [oneEdge, AdjacencyList.lookup_singleton_of_ne hu, List.lookup_cons, beq_false_of_ne hu]
      rfl

theorem sink_not_found : ¬∀ (data : AdjacencyList ℕ), (∀ u ∈ data, ∃ v, data.Adjacent u v) →
    ∀ (adjacency : Adjacency data) (sort : QueueSort ℕ) (start end_ : ℕ),
      Right sort adjacency start end_ := by
  intro h
  have hedges : ∀ u ∈ oneEdge, ∃ v, oneEdge.Adjacent u v := by
    intro u hu
    rw [oneEdge, Finmap.mem_singleton] at hu
    subst hu
    exact ⟨1, rfl⟩
  have hright := h oneEdge hedges oneEdgeTable (.favouring fun _ => false) 0 1
  obtain ⟨path, ⟨fuel, hpath⟩, -⟩ := hright.path (.single rfl)
  have hraised : dijkstraSearch (.favouring fun _ => false) oneEdgeTable 0 1 fuel =
      some (.error noPath) := rfl
  rw [hpath fuel le_rfl] at hraised
  cases hraised

end right

end NaviMisc.Motion
