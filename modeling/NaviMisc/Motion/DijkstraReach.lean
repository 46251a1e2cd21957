import NaviMisc.Motion.Dijkstra

/-!
First the vertices that are reachable are visited by their distance, and then the others
from the cost -1 on, from which they replace estimates that were right.
-/

namespace NaviMisc.Motion

open NaviMisc.Lib
open Relation

variable {V : Type} [DecidableEq V] {data : AdjacencyList V} {sort : QueueSort V}
  {adjacency : Adjacency data} {start u v w x : V} {s : Search V} {agenda vs : List V} {c n : ℕ}

structure Labelled (data : AdjacencyList V) (start : V) (s : Search V) : Prop where
  dist : ∀ v, v = start ∨ v ∈ data → cost s.d v ≠ -1 →
    ∃ n : ℕ, cost s.d v = n ∧ Distance data.Adjacent start n v
  closer : ∀ v ∈ data, v ≠ start → cost s.d v ≠ -1 →
    ∃ w n, s.previous v = some w ∧ Distance data.Adjacent start n w ∧
      Distance data.Adjacent start (n + 1) v

structure Known (data : AdjacencyList V) (start : V) (s : Search V) : Prop
    extends Labelled data start s where
  popped : ∀ u ∈ data, u ∉ s.agenda → ReflTransGen data.Adjacent start u
  reached : ∀ u v, data.Adjacent u v → u ∉ s.agenda → cost s.d v ≠ -1

structure Settled (data : AdjacencyList V) (start : V) (s : Search V) : Prop where
  unreachable : ∀ u ∈ s.agenda, ¬ReflTransGen data.Adjacent start u
  previous : ∀ v ∈ data, v ≠ start → ReflTransGen data.Adjacent start v →
    ∃ w, s.previous v = some w ∧ (¬ReflTransGen data.Adjacent start w ∨
      ∃ n, Distance data.Adjacent start n w ∧ Distance data.Adjacent start (n + 1) v)

theorem Labelled.cost_eq (h : Labelled data start s) (hv : v = start ∨ v ∈ data)
    (hcost : cost s.d v ≠ -1) (hdist : Distance data.Adjacent start n v) : cost s.d v = n := by
  obtain ⟨m, hm, hdist'⟩ := h.dist v hv hcost
  rw [hm, hdist'.unique hdist]

section relax

variable (hsane : Sane data start s)

include hsane

theorem Labelled.eq_of_relaxes (h : Labelled data start s) (hcost : cost s.d u = c)
    (hu : Distance data.Adjacent start c u) (huv : data.Adjacent u v) (hrelaxes : Relaxes s u v) :
    v ∈ data ∧ v ≠ start ∧ cost s.d v = -1 := by
  have hfloor := hsane.floor u
  rw [Relaxes] at hrelaxes
  have hfixed : ¬(v = start ∨ v ∉ data) := by
    intro hv
    have hzero := (hsane.fixed v hv).1
    omega
  push Not at hfixed
  refine ⟨hfixed.2, hfixed.1, ?_⟩
  by_contra hne
  obtain ⟨n, hn, hv⟩ := h.dist v (.inr hfixed.2) hne
  have hle := hu.le_succ huv hv
  omega

theorem Labelled.relax (h : Labelled data start s) (hcost : cost s.d u = c)
    (hu : Distance data.Adjacent start c u) (huv : data.Adjacent u v)
    (hv : v ∈ data → cost s.d v = -1 → Distance data.Adjacent start (c + 1) v) :
    Labelled data start (relax u s v) := by
  by_cases hrelaxes : Relaxes s u v
  · obtain ⟨hmem, hne, hinfinite⟩ := h.eq_of_relaxes hsane hcost hu huv hrelaxes
    have hdist := hv hmem hinfinite
    refine ⟨fun x hx hreached => ?_, fun x hx hstart hreached => ?_⟩
    · obtain ⟨hkept, -⟩ | ⟨rfl, -, hnew, -⟩ := relax_cases s u v x
      · rw [hkept] at hreached ⊢
        exact h.dist x hx hreached
      · exact ⟨c + 1, by rw [hnew, hcost]; rfl, hdist⟩
    · obtain ⟨hkept, hprevious⟩ | ⟨rfl, -, -, hprevious⟩ := relax_cases s u v x
      · rw [hkept] at hreached
        rw [hprevious]
        exact h.closer x hx hstart hreached
      · exact ⟨u, c, hprevious, hu, hdist⟩
  · rwa [relax_of_not hrelaxes]

theorem Labelled.kept (h : Labelled data start s) (hcost : cost s.d u = c)
    (hu : Distance data.Adjacent start c u) (huv : data.Adjacent u v) (hx : cost s.d x ≠ -1) :
    cost (Motion.relax u s v).d x = cost s.d x ∧
      (Motion.relax u s v).previous x = s.previous x := by
  obtain hkept | ⟨rfl, hrelaxes, -⟩ := relax_cases s u v x
  · exact hkept
  · exact absurd (h.eq_of_relaxes hsane hcost hu huv hrelaxes).2.2 hx

theorem Labelled.foldl (h : Labelled data start s) (hcost : cost s.d u = c)
    (hu : Distance data.Adjacent start c u) (hvs : ∀ v ∈ vs, data.Adjacent u v)
    (hv : ∀ v ∈ vs, v ∈ data → cost s.d v = -1 → Distance data.Adjacent start (c + 1) v) :
    Labelled data start (vs.foldl (Motion.relax u) s) ∧ ∀ x, cost s.d x ≠ -1 →
      cost (vs.foldl (Motion.relax u) s).d x = cost s.d x ∧
        (vs.foldl (Motion.relax u) s).previous x = s.previous x := by
  induction vs generalizing s with
  | nil => exact ⟨h, fun x _ => ⟨rfl, rfl⟩⟩
  | cons v vs ih =>
    rw [List.foldl_cons]
    have huv := hvs v List.mem_cons_self
    have hkept := fun x => h.kept (x := x) hsane hcost hu huv
    have hcost' : cost (Motion.relax u s v).d u = c := by
      rw [(hkept u (by omega)).1, hcost]
    obtain ⟨hlabelled, hrest⟩ := ih (hsane.relax huv)
      (h.relax hsane hcost hu huv (hv v List.mem_cons_self)) hcost'
      (fun y hy => hvs y (List.mem_cons_of_mem v hy)) (by
        intro y hy hmem hinfinite
        apply hv y (List.mem_cons_of_mem v hy) hmem
        by_contra hne
        exact hne ((hkept y hne).1 ▸ hinfinite))
    refine ⟨hlabelled, fun x hx => ?_⟩
    obtain ⟨hcostx, hpreviousx⟩ := hkept x hx
    obtain ⟨hcosty, hpreviousy⟩ := hrest x (hcostx ▸ hx)
    exact ⟨hcosty.trans hcostx, hpreviousy.trans hpreviousx⟩

theorem Known.frontier (h : Known data start s) (hqueued : Queued data s) (hw : w ∈ s.agenda)
    (hdist : Distance data.Adjacent start n w) : ∃ x ∈ s.agenda, ∃ k ≤ n, cost s.d x = k := by
  induction n generalizing w with
  | zero =>
    obtain rfl := hdist.steps.eq_of_zero
    exact ⟨start, hw, 0, le_rfl, (hsane.fixed start (.inl rfl)).1⟩
  | succ n ih =>
    obtain ⟨b, hb, hbw⟩ := hdist.pred
    by_cases hmem : b ∈ s.agenda
    · obtain ⟨x, hx, k, hk, hcost⟩ := ih hmem hb
      exact ⟨x, hx, k, by omega, hcost⟩
    · exact ⟨w, hw, n + 1, le_rfl,
        h.cost_eq (.inr (hqueued.mem w hw)) (h.reached b w hbw hmem) hdist⟩

theorem Known.distance_succ (h : Known data start s) (hqueued : Queued data s)
    (hagenda : s.agenda = u :: agenda) (hcost : cost s.d u = c)
    (hu : Distance data.Adjacent start c u) (huv : data.Adjacent u v) (hv : cost s.d v = -1) :
    Distance data.Adjacent start (c + 1) v := by
  obtain ⟨m, hm⟩ := Distance.of_reachable (hu.reachable.tail huv)
  have hle := hu.le_succ huv hm
  suffices hlt : c < m by rwa [show c + 1 = m by omega]
  cases m with
  | zero =>
    obtain rfl := hm.steps.eq_of_zero
    have hzero := (hsane.fixed start (.inl rfl)).1
    omega
  | succ m =>
    obtain ⟨b, hb, hbv⟩ := hm.pred
    have hmem : b ∈ s.agenda := by
      by_contra hmem
      exact h.reached b v hbv hmem hv
    obtain ⟨x, hx, k, hk, hcostx⟩ := h.frontier hsane hqueued hmem hb
    have hhead := (hqueued.head hagenda hx (by omega)).2
    omega

omit hsane in
theorem Known.distance_head (h : Known data start s) (hqueued : Queued data s)
    (hagenda : s.agenda = u :: agenda) (hcost : cost s.d u ≠ -1) :
    ∃ c : ℕ, cost s.d u = c ∧ Distance data.Adjacent start c u := by
  apply h.dist u (.inr (hqueued.mem u ?_)) hcost
  rw [hagenda]
  exact List.mem_cons_self

theorem Known.foldl (h : Known data start s) (adjacency : Adjacency data) (hqueued : Queued data s)
    (hagenda : s.agenda = u :: agenda) (hcost : cost s.d u ≠ -1) :
    Labelled data start ((adjacency.vs u).foldl (Motion.relax u) s) ∧ ∀ x, cost s.d x ≠ -1 →
      cost ((adjacency.vs u).foldl (Motion.relax u) s).d x = cost s.d x ∧
        ((adjacency.vs u).foldl (Motion.relax u) s).previous x = s.previous x := by
  obtain ⟨c, hc, hu⟩ := h.distance_head hqueued hagenda hcost
  apply h.toLabelled.foldl hsane hc hu
  · exact fun v hv => adjacency.mem_vs.mp hv
  · exact fun v hv _ => h.distance_succ hsane hqueued hagenda hc hu (adjacency.mem_vs.mp hv)

theorem Known.visit (h : Known data start s) (hqueued : Queued data s)
    (hagenda : s.agenda = u :: agenda) (hcost : cost s.d u ≠ -1) :
    Known data start (visit sort adjacency s) := by
  obtain ⟨hlabelled, hkept⟩ := h.foldl hsane adjacency hqueued hagenda hcost
  obtain ⟨c, hc, hu⟩ := h.distance_head hqueued hagenda hcost
  have hvs : ∀ v ∈ adjacency.vs u, data.Adjacent u v := fun v => adjacency.mem_vs.mp
  rw [visit_cons hagenda]
  have hgone : ∀ x, x ∉ sort.sort ((adjacency.vs u).foldl (Motion.relax u) s).d agenda →
      x = u ∨ x ∉ s.agenda := by
    intro x hx
    rw [(sort.perm _ _).mem_iff] at hx
    rw [hagenda, List.mem_cons]
    tauto
  refine ⟨⟨hlabelled.dist, hlabelled.closer⟩, fun x hx hmem => ?_, fun x y hxy hmem => ?_⟩
  · obtain rfl | hmem := hgone x hmem
    · exact hu.reachable
    · exact h.popped x hx hmem
  · obtain rfl | hmem := hgone x hmem
    · exact hsane.reached_foldl hvs (.inr (adjacency.mem_vs.mpr hxy))
    · exact hsane.reached_foldl hvs (.inl (h.reached x y hxy hmem))

theorem Known.settled (h : Known data start s) (hqueued : Queued data s)
    (hagenda : ∀ u ∈ s.agenda, cost s.d u = -1) : Settled data start s := by
  have hunreachable : ∀ u ∈ s.agenda, ¬ReflTransGen data.Adjacent start u := by
    intro u hu hreachable
    obtain ⟨n, hdist⟩ := Distance.of_reachable hreachable
    obtain ⟨x, hx, k, -, hcost⟩ := h.frontier hsane hqueued hu hdist
    have hinfinite := hagenda x hx
    omega
  refine ⟨hunreachable, fun v hv hstart hreachable => ?_⟩
  obtain ⟨n, hdist⟩ := Distance.of_reachable hreachable
  cases n with
  | zero => exact absurd hdist.steps.eq_of_zero.symm hstart
  | succ n =>
    obtain ⟨b, hb, hbv⟩ := hdist.pred
    have hmem : b ∉ s.agenda := fun hmem => hunreachable b hmem hb.reachable
    obtain ⟨w, m, hw, hdistw, hdistv⟩ := h.closer v hv hstart (h.reached b v hbv hmem)
    exact ⟨w, hw, .inr ⟨m, hdistw, hdistv⟩⟩

end relax

def Astray (data : AdjacencyList V) (start : V) (s : Search V) (v : V) : Prop :=
  ∃ w, s.previous v = some w ∧ ¬ReflTransGen data.Adjacent start w

theorem Settled.previous_visit (h : Settled data start s) (sort : QueueSort V)
    (adjacency : Adjacency data) (v : V) :
    (visit sort adjacency s).previous v = s.previous v ∨
      Astray data start (visit sort adjacency s) v := by
  cases hagenda : s.agenda with
  | nil =>
    rw [visit_nil hagenda]
    exact .inl rfl
  | cons u agenda =>
    have hu : ¬ReflTransGen data.Adjacent start u := by
      apply h.unreachable
      rw [hagenda]
      exact List.mem_cons_self
    rw [visit_cons hagenda]
    obtain ⟨-, hprevious⟩ | ⟨-, hprevious⟩ := foldl_relax_cases u s (adjacency.vs u) v
    · exact .inl hprevious
    · exact .inr ⟨u, hprevious, hu⟩

theorem Settled.visit (h : Settled data start s) : Settled data start (visit sort adjacency s) := by
  refine ⟨fun x hx => h.unreachable x (mem_of_mem_visit hx), fun v hv hstart hreachable => ?_⟩
  obtain hprevious | ⟨w, hw, hunreachable⟩ := h.previous_visit sort adjacency v
  · rw [hprevious]
    exact h.previous v hv hstart hreachable
  · exact ⟨w, hw, .inl hunreachable⟩

theorem Known.initial : Known data start (Search.initial sort adjacency start) := by
  have hcost : ∀ v, cost (Search.initial sort adjacency start).d v =
      if v = start then 0 else if v ∈ data then -1 else 0 := fun v => cost_initialEstimates
  have hagenda : ∀ u ∈ data, u ∈ (Search.initial sort adjacency start).agenda := fun u hu =>
    Search.perm_initial.mem_iff.mpr (Adjacency.mem_keys.mpr hu)
  refine ⟨⟨fun v hv hne => ?_, fun v hv hstart hne => ?_⟩, fun u hu hmem => ?_, fun u v huv hmem => ?_⟩
  · rw [hcost] at hne ⊢
    by_cases hstart : v = start
    · subst hstart
      exact ⟨0, if_pos rfl, .zero⟩
    · rw [if_neg hstart, if_pos (hv.resolve_left hstart)] at hne
      exact absurd rfl hne
  · rw [hcost, if_neg hstart, if_pos hv] at hne
    exact absurd rfl hne
  · exact absurd (hagenda u hu) hmem
  · exact absurd (hagenda u huv.mem) hmem

theorem Known.settled_of_head (h : Known data start s) (hsane : Sane data start s)
    (hqueued : Queued data s) (hagenda : s.agenda = u :: agenda) (hcost : cost s.d u = -1) :
    Settled data start s := by
  apply h.settled hsane hqueued
  intro v hv
  by_contra hne
  exact (hqueued.head hagenda hv hne).1 hcost

theorem findShortestPaths_settled (sort : QueueSort V) (adjacency : Adjacency data) (start : V) :
    Sane data start (findShortestPaths sort adjacency (initialEstimates adjacency start)) ∧
      Settled data start (findShortestPaths sort adjacency (initialEstimates adjacency start)) := by
  have hvisit : ∀ s, Sane data start s → Queued data s → Known data start s ∨ Settled data start s →
      Known data start (visit sort adjacency s) ∨ Settled data start (visit sort adjacency s) := by
    intro s hsane hqueued h
    obtain hknown | hsettled := h
    · cases hagenda : s.agenda with
      | nil =>
        rw [visit_nil hagenda]
        exact .inl hknown
      | cons u agenda =>
        by_cases hcost : cost s.d u = -1
        · exact .inr (hknown.settled_of_head hsane hqueued hagenda hcost).visit
        · exact .inl (hknown.visit hsane hqueued hagenda hcost)
    · exact .inr hsettled.visit
  obtain ⟨hsane, hqueued, hnil, hfinal⟩ := findShortestPaths_of_visit (.inl Known.initial) hvisit
  obtain hknown | hsettled := hfinal
  · refine ⟨hsane, hknown.settled hsane hqueued fun u hu => ?_⟩
    rw [hnil] at hu
    cases hu
  · exact ⟨hsane, hsettled⟩

end NaviMisc.Motion
