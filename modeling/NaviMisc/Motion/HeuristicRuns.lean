import NaviMisc.Lib.Lists
import NaviMisc.Motion.HeuristicPointers

/-!
Runs of the search: the loop ends once everything reachable was visited, where the sort does not
stop it.
-/

namespace NaviMisc.Motion.Heuristic

open NaviMisc.Lib
open NaviMisc.Lib.Outcome
open Relation

variable {V C : Type}

theorem ListSort.yields {sort : ListSort V} {A : Stop → Prop} {cmp : V → V → Except Stop ℤ} {l : List V}
    (hA : ∀ e, sort.sort cmp l = .error e → A e) : Yields A (·.Perm l) (sort.sort cmp l) := by
  cases hsort : sort.sort cmp l with
  | ok l' => exact sort.perm cmp l l' hsort
  | error e => exact hA e hsort

variable [DecidableEq V]

structure Searching (data : AdjacencyList V) (source goal : V) (s : Locals V) : Prop where
  pointers : Pointers data source s
  unmet : s.path = none → goal ∉ s.visited
  closed : s.path = none → ∀ u ∈ s.visited, ∀ v, data.Adjacent u v → s.predecessors v ≠ none
  found : ∀ path, s.path = some path → Route data.Adjacent source goal path

structure After (data : AdjacencyList V) (source goal : V) (Q : List V → Prop) (s : Locals V)
    (node : V) (s' : Locals V) : Prop where
  searching : Searching data source goal s'
  visited : s'.visited = s.visited ++ [node]
  found : node = goal → s'.path ≠ none
  agenda : node ≠ goal → s'.path = none ∧ Q s'.agenda ∧
    ∀ x, x ∈ s'.agenda ↔ x ∈ s.agenda.dropLast ∨ data.Adjacent node x ∧ x ∉ s.visited ++ [node]

section visit

variable {costs : Costs V C} {sort : ListSort V} {data : AdjacencyList V}
  {adjacency : Adjacency data} {source goal node : V} {fuel : ℕ} {s s' : Locals V}

theorem Searching.start {h : Heuristic V} (hclean : h.predecessors = (new source).predecessors) :
    Searching data source goal (h.start source) := by
  refine ⟨.start hclean, fun _ => List.not_mem_nil, ?_, ?_⟩
  · intro _ u hu
    cases hu
  · intro path hpath
    cases hpath

theorem Searching.expand (h : Searching data source goal s) (hpath : s.path = none)
    (hnode : s.agenda.getLast? = some node) (hgoal : node ≠ goal)
    (hopened : Opened data source (Heuristic.pop s node) (adjacency.vs node) s') {agenda : List V}
    (hperm : agenda.Perm s'.agenda) {Q : List V → Prop} (hQ : Q agenda) :
    After data source goal Q s node { s' with agenda := agenda } := by
  have hvisited : s'.visited = s.visited ++ [node] := hopened.visited
  have hpath' : s'.path = none := hopened.path.trans hpath
  have hsource : source ∈ s'.visited := by
    obtain ⟨hempty, -⟩ | hsource := hopened.pointers.first
    · rw [hvisited] at hempty
      simp at hempty
    · exact hsource
  have hpointers := hopened.pointers.perm hsource hperm
  have hagenda : ∀ x, x ∈ agenda ↔
      x ∈ s.agenda.dropLast ∨ data.Adjacent node x ∧ x ∉ s.visited ++ [node] := by
    intro x
    rw [hperm.mem_iff, hopened.agenda, Adjacency.mem_vs]
    rfl
  refine ⟨⟨hpointers, fun _ => ?_, fun _ u hu v huv => ?_, fun path heq => ?_⟩, hvisited,
    fun heq => absurd heq hgoal, fun _ => ⟨hpath', hQ, hagenda⟩⟩
  · rw [hvisited, List.mem_append, List.mem_singleton, not_or]
    exact ⟨h.unmet hpath, Ne.symm hgoal⟩
  · rw [hpointers.mem]
    dsimp only at hu ⊢
    rw [hvisited, List.mem_append, List.mem_singleton] at hu
    rw [hagenda, hvisited]
    by_cases hv : v ∈ s.visited ++ [node]
    · exact .inl hv
    right
    obtain hu | rfl := hu
    · -- an older node has its successors on the agenda, and this one is still there
      obtain hv' | hv' := (h.pointers.mem v).mp (h.closed hpath u hu v huv)
      · exact absurd (List.mem_append_left _ hv') hv
      · rw [← List.dropLast_append_getLast? node hnode, List.mem_append, List.mem_singleton] at hv'
        exact .inl (hv'.resolve_right fun heq => hv (by simp [heq]))
    · exact .inr ⟨huv, hv⟩
  · dsimp only at heq
    rw [hpath'] at heq
    cases heq

theorem Searching.visit {A : Stop → Prop} {Q : List V → Prop} (h : Searching data source goal s)
    (hpath : s.path = none) (hnode : s.agenda.getLast? = some node)
    (hfuel : ∀ e, fuel ≤ s.visited.length + 1 → A e)
    (hsort : node ≠ goal → ∀ s', Opened data source (Heuristic.pop s node) (adjacency.vs node) s' →
      Yields A (fun l => l.Perm s'.agenda ∧ Q l)
        (sort.sort (compare costs goal fuel s'.predecessors) s'.agenda)) :
    Yields A (After data source goal Q s node)
      (Heuristic.visit costs sort adjacency goal fuel s node) := by
  have hpop := h.pointers.pop hnode
  have hmem : node ∈ (Heuristic.pop s node).visited := by simp [Heuristic.pop]
  have hlength : (Heuristic.pop s node).visited.length = s.visited.length + 1 := by
    simp [Heuristic.pop]
  rw [Heuristic.visit]
  by_cases hgoal : node = goal
  · rw [if_pos hgoal]
    have hyields := hpop.pathToNode ((hpop.mem node).mpr (.inl hmem)) fuel
    rw [hlength] at hyields
    refine (hyields.imp hfuel fun _ hroute => hroute).bind fun path hroute => ?_
    have hpointers : Pointers data source { Heuristic.pop s node with path := some path } :=
      ⟨hpop.origin, hpop.root, hpop.back, hpop.mem, hpop.nodup, hpop.first⟩
    refine ⟨⟨hpointers, ?_, ?_, ?_⟩, rfl, fun _ => Option.some_ne_none path,
      fun hne => absurd hgoal hne⟩
    · intro hnone
      cases hnone
    · intro hnone
      cases hnone
    · intro path' heq
      cases heq
      rwa [hgoal] at hroute
  · rw [if_neg hgoal]
    have hedges : Yields (fun _ => fuel ≤ (Heuristic.pop s node).visited.length)
        (Opened data source (Heuristic.pop s node) (adjacency.vs node))
        ((adjacency.vs node).foldlM (visitEdge costs goal fuel node) (Heuristic.pop s node)) :=
      hpop.edges hmem fun v hv => Adjacency.mem_vs.mp hv
    rw [hlength] at hedges
    refine (hedges.imp hfuel fun _ hopened => hopened).bind fun s' hopened => ?_
    refine (hsort hgoal s' hopened).bind fun agenda hagenda => ?_
    exact h.expand hpath hnode hgoal hopened hagenda.1 hagenda.2

theorem Searching.passes (h : Searching data source goal s)
    (hpasses : Passes costs sort adjacency goal fuel s s') : Searching data source goal s' := by
  induction hpasses with
  | refl => exact h
  | @visit t t' node _ hpath hnode ht ih =>
    have hyields : Yields (fun _ => True) (After data source goal (fun _ => True) t node)
        (Heuristic.visit costs sort adjacency goal fuel t node) := by
      refine ih.visit hpath hnode (fun _ _ => trivial) fun _ s' _ => ?_
      exact (ListSort.yields fun _ _ => trivial).mono fun _ hperm => ⟨hperm, trivial⟩
    exact (hyields.of_ok ht).searching

end visit

section loop

variable {costs : Costs V C} {sort : ListSort V} {data : AdjacencyList V}
  {adjacency : Adjacency data} {source goal node : V} {fuel n : ℕ} {s s' : Locals V}

def vertices (data : AdjacencyList V) (source : V) : Finset V :=
  insert source (data.iter.toFinset.image Prod.snd)

theorem Pointers.mem_vertices {v : V} (h : Pointers data source s) (hv : s.predecessors v ≠ none) :
    v ∈ vertices data source := by
  rw [vertices, Finset.mem_insert]
  obtain ⟨next, hnext⟩ := Option.ne_none_iff_exists'.mp hv
  cases next with
  | none => exact .inl (h.root v hnext)
  | some u =>
    right
    apply Finset.mem_image.mpr
    exact ⟨(u, v), by rw [Multiset.mem_toFinset]; exact AdjacencyList.mem_iter.mpr (h.back v u hnext).1, rfl⟩

theorem Pointers.length_le (h : Pointers data source s) :
    s.visited.length ≤ (vertices data source).card := by
  have hnodup : s.visited.Nodup := h.nodup.of_append_left
  rw [← List.toFinset_card_of_nodup hnodup]
  apply Finset.card_le_card
  intro v hv
  exact h.mem_vertices ((h.mem v).mpr (.inl (List.mem_toFinset.mp hv)))

def Sortable (costs : Costs V C) (data : AdjacencyList V) (source goal : V) (s : Locals V) : Prop :=
  IntCosts costs data source goal ∨
    (s.path = none → s.agenda.length ≤ 1 ∧ ∀ v ∈ s.agenda, Narrow data goal s.visited v)

theorem Narrow.expand {visited agenda : List V} (h : Narrow data goal visited node)
    (hgoal : node ≠ goal) (hnodup : agenda.Nodup)
    (hmem : ∀ x ∈ agenda, data.Adjacent node x ∧ x ∉ visited ++ [node]) :
    agenda.length ≤ 1 ∧ ∀ v ∈ agenda, Narrow data goal (visited ++ [node]) v := by
  cases h with
  | goal => exact absurd rfl hgoal
  | last h =>
    obtain rfl : agenda = [] := List.eq_nil_iff_forall_not_mem.mpr fun x hx =>
      (hmem x hx).2 (h x (hmem x hx).1)
    simp
  | @next _ _ v _ _ h hnext =>
    have heq : ∀ x ∈ agenda, x = v := fun x hx =>
      (h x (hmem x hx).1).resolve_left (hmem x hx).2
    refine ⟨?_, fun x hx => heq x hx ▸ hnext⟩
    have hsubperm : agenda.Subperm [v] :=
      hnodup.subperm fun x hx => List.mem_singleton.mpr (heq x hx)
    exact hsubperm.length_le

theorem Pointers.compare (h : Pointers data source s) (hfuel : s.visited.length < fuel) {a b : V}
    (ha : a ∈ s.agenda) (hb : b ∈ s.agenda) : ∃ a_path b_path,
      Route data.Adjacent source a a_path ∧ Route data.Adjacent source b b_path ∧
        Heuristic.compare costs goal fuel s.predecessors a b =
          difference costs (costs.costf b_path goal) (costs.costf a_path goal) := by
  obtain ⟨a_path, hok, hroute⟩ := (h.pathToNode ((h.mem a).mpr (.inr ha)) fuel).exists_ok
    fun _ => Nat.not_le.mpr hfuel
  obtain ⟨b_path, hok', hroute'⟩ := (h.pathToNode ((h.mem b).mpr (.inr hb)) fuel).exists_ok
    fun _ => Nat.not_le.mpr hfuel
  refine ⟨a_path, b_path, hroute, hroute', ?_⟩
  rw [Heuristic.compare, hok, hok']
  rfl

namespace Sortable

theorem expand (h : Sortable costs data source goal s) (hpath : s.path = none)
    (hnode : s.agenda.getLast? = some node) (hgoal : node ≠ goal) {agenda : List V}
    (hnodup : agenda.Nodup) (hmem : ∀ x ∈ agenda,
      x ∈ s.agenda.dropLast ∨ data.Adjacent node x ∧ x ∉ s.visited ++ [node]) :
    IntCosts costs data source goal ∨ agenda.length ≤ 1 ∧
      ∀ v ∈ agenda, Narrow data goal (s.visited ++ [node]) v := by
  refine h.imp_right fun hnarrow => ?_
  obtain ⟨hlength, hnarrow⟩ := hnarrow hpath
  have hempty : s.agenda.dropLast = [] := by
    apply List.eq_nil_of_length_eq_zero
    rw [List.length_dropLast]
    omega
  rw [hempty] at hmem
  exact (hnarrow node (List.mem_of_getLast? hnode)).expand hgoal hnodup fun x hx =>
    (hmem x hx).resolve_left List.not_mem_nil

theorem sorts (h : Sortable costs data source goal s) (hpath : s.path = none)
    (hnode : s.agenda.getLast? = some node) (hgoal : node ≠ goal)
    (hfuel : s.visited.length + 1 < fuel)
    (hopened : Opened data source (Heuristic.pop s node) (adjacency.vs node) s') :
    Yields (fun _ => False) (·.Perm s'.agenda)
      (sort.sort (Heuristic.compare costs goal fuel s'.predecessors) s'.agenda) := by
  have hnodup : s'.agenda.Nodup := hopened.pointers.nodup.of_append_right
  have hvisited : s'.visited.length < fuel := by
    rw [hopened.visited]
    simpa [Heuristic.pop] using hfuel
  apply ListSort.yields
  intro e he
  obtain ⟨l, hl⟩ : ∃ l, sort.sort (Heuristic.compare costs goal fuel s'.predecessors) s'.agenda =
      .ok l := by
    obtain hint | ⟨hshort, -⟩ := h.expand hpath hnode hgoal hnodup fun x hx => by
      rw [hopened.agenda, Adjacency.mem_vs] at hx
      exact hx
    · refine sort.returns _ _ fun a ha b hb => ?_
      obtain ⟨a_path, b_path, hroute, hroute', hcompare⟩ := hopened.pointers.compare hvisited ha hb
      obtain ⟨n, hn⟩ := hint b a b_path a_path hroute' hroute
      exact ⟨n, by rw [hcompare, difference, hn]⟩
    · exact ⟨_, sort.short _ _ hshort⟩
  rw [hl] at he
  cases he

theorem after {Q : List V → Prop} (h : Sortable costs data source goal s) (hpath : s.path = none)
    (hnode : s.agenda.getLast? = some node) (hafter : After data source goal Q s node s') :
    Sortable costs data source goal s' := by
  by_cases hgoal : node = goal
  · exact .inr fun hnone => absurd hnone (hafter.found hgoal)
  · obtain ⟨-, -, hagenda⟩ := hafter.agenda hgoal
    have hexpand := h.expand hpath hnode hgoal hafter.searching.pointers.nodup.of_append_right
      fun x hx => (hagenda x).mp hx
    rw [← hafter.visited] at hexpand
    exact hexpand.imp_right fun hnarrow _ => hnarrow

end Sortable

theorem Searching.length_lt (h : Searching data source goal s)
    (hnode : s.agenda.getLast? = some node) : s.visited.length < (vertices data source).card := by
  have hle := (h.pointers.pop hnode).length_le
  rw [Heuristic.pop, List.length_append, List.length_singleton] at hle
  exact hle

theorem Searching.loop (h : Searching data source goal s) (hsortable : Sortable costs data source goal s)
    (hfuel : (vertices data source).card < fuel)
    (hn : (vertices data source).card < n + s.visited.length) :
    ∃ s', loop costs sort adjacency goal fuel n s = .ok s' ∧ Searching data source goal s' ∧
      (s'.path = none → s'.agenda = []) := by
  induction n generalizing s with
  | zero =>
    have hle := h.pointers.length_le
    omega
  | succ n ih =>
    rw [Heuristic.loop]
    cases hpath : s.path with
    | some path => exact ⟨s, rfl, h, fun hnone => absurd (hpath.symm.trans hnone) (by simp)⟩
    | none =>
      cases hnode : s.agenda.getLast? with
      | none => exact ⟨s, rfl, h, fun _ => List.getLast?_eq_none_iff.mp hnode⟩
      | some node =>
        have hlength := h.length_lt hnode
        have hvisit : Yields (fun _ => False) (After data source goal (fun _ => True) s node)
            (Heuristic.visit costs sort adjacency goal fuel s node) := by
          refine h.visit hpath hnode (fun _ hle => by omega) fun hgoal s' hopened => ?_
          exact (hsortable.sorts hpath hnode hgoal (by omega) hopened).mono fun _ hperm =>
            ⟨hperm, trivial⟩
        obtain ⟨s', hok, hafter⟩ := hvisit.exists_ok fun _ => id
        simp only [hok]
        refine ih hafter.searching (hsortable.after hpath hnode hafter) ?_
        rw [hafter.visited, List.length_append, List.length_singleton]
        omega

theorem loop_passes (h : loop costs sort adjacency goal fuel n s = .ok s') :
    Passes costs sort adjacency goal fuel s s' := by
  suffices hpasses : ∀ t, Passes costs sort adjacency goal fuel s t →
      loop costs sort adjacency goal fuel n t = .ok s' → Passes costs sort adjacency goal fuel s s' from
    hpasses s .refl h
  clear h
  induction n with
  | zero =>
    intro t _ hloop
    cases hloop
  | succ n ih =>
    intro t ht hloop
    rw [loop] at hloop
    cases hpath : t.path with
    | some path =>
      simp only [hpath] at hloop
      cases hloop
      exact ht
    | none =>
      cases hnode : t.agenda.getLast? with
      | none =>
        simp only [hpath, hnode] at hloop
        cases hloop
        exact ht
      | some node =>
        simp only [hpath, hnode] at hloop
        obtain ⟨t', hvisit, hloop⟩ := Lists.bind_eq_ok hloop
        exact ih t' (.visit ht hpath hnode hvisit) hloop

theorem Pointers.sort_short (h : Pointers data source s)
    (hcosts : NoIntCosts costs data source goal) (hfuel : s.visited.length < fuel)
    {l : List V} (hsort : sort.sort (Heuristic.compare costs goal fuel s.predecessors) s.agenda = .ok l) :
    l.Perm s.agenda ∧ l.length ≤ 1 := by
  have hperm := sort.perm _ _ _ hsort
  refine ⟨hperm, ?_⟩
  by_contra hlong
  rw [hperm.length_eq, not_le] at hlong
  have herror : ∀ a ∈ s.agenda, ∀ b ∈ s.agenda,
      ∃ e, Heuristic.compare costs goal fuel s.predecessors a b = .error e := by
    intro a ha b hb
    obtain ⟨a_path, b_path, hroute, hroute', hcompare⟩ := h.compare hfuel ha hb
    exact ⟨.typeError, by rw [hcompare, difference, hcosts b a b_path a_path hroute' hroute]⟩
  obtain ⟨e, he⟩ := sort.raises _ _ hlong herror
  rw [hsort] at he
  cases he

theorem Searching.visit_short (h : Searching data source goal s)
    (hcosts : NoIntCosts costs data source goal) (hfuel : s.visited.length + 1 < fuel)
    (hpath : s.path = none) (hnode : s.agenda.getLast? = some node) :
    Yields (fun _ => True) (After data source goal (·.length ≤ 1) s node)
      (Heuristic.visit costs sort adjacency goal fuel s node) := by
  refine h.visit hpath hnode (fun _ _ => trivial) fun _ s' hopened => ?_
  have hvisited : s'.visited.length < fuel := by
    rw [hopened.visited]
    simpa [Heuristic.pop] using hfuel
  cases hsort : sort.sort (Heuristic.compare costs goal fuel s'.predecessors) s'.agenda with
  | error e => trivial
  | ok l => exact hopened.pointers.sort_short hcosts hvisited hsort

theorem Searching.narrow (h : Searching data source goal s)
    (hcosts : NoIntCosts costs data source goal)
    (hfuel : (vertices data source).card < fuel) (hpath : s.path = none)
    (hagenda : s.agenda = [node]) (hloop : Heuristic.loop costs sort adjacency goal fuel n s = .ok s') :
    Narrow data goal s.visited node := by
  induction n generalizing s node with
  | zero => cases hloop
  | succ n ih =>
    have hnode : s.agenda.getLast? = some node := by rw [hagenda]; rfl
    have hlength := h.length_lt hnode
    by_cases hgoal : node = goal
    · subst hgoal
      exact .goal _
    rw [Heuristic.loop] at hloop
    simp only [hpath, hnode] at hloop
    obtain ⟨t, hvisit, hloop⟩ := Lists.bind_eq_ok hloop
    have hafter := (h.visit_short hcosts (by omega) hpath hnode).of_ok hvisit
    obtain ⟨hpath', hshort, hmem⟩ := hafter.agenda hgoal
    rw [hagenda] at hmem
    cases hagenda' : t.agenda with
    | nil =>
      refine .last fun v hv => ?_
      by_contra hnot
      have hv' := (hmem v).mpr (.inr ⟨hv, hnot⟩)
      rw [hagenda'] at hv'
      cases hv'
    | cons v l =>
      obtain rfl : l = [] := by
        rw [hagenda'] at hshort
        exact List.eq_nil_of_length_eq_zero (by simpa using hshort)
      rw [hagenda'] at hmem
      have hv : data.Adjacent node v ∧ v ∉ s.visited ++ [node] :=
        ((hmem v).mp (List.mem_singleton_self v)).resolve_left List.not_mem_nil
      refine .next hv.1 hv.2 (fun w hw => ?_) ?_
      · by_cases hw' : w ∈ s.visited ++ [node]
        · exact .inl hw'
        · exact .inr (List.mem_singleton.mp ((hmem w).mpr (.inr ⟨hw, hw'⟩)))
      · rw [← hafter.visited]
        exact ih hafter.searching hpath' hagenda' hloop

end loop

end NaviMisc.Motion.Heuristic
