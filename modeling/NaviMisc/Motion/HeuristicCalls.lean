import NaviMisc.Motion.HeuristicRuns

/-!
Calls of `run` on one object. A call after one that found no path starts with the pointers that
this one left, and these may come to form a cycle.
-/

namespace NaviMisc.Motion.Heuristic

open NaviMisc.Lib
open NaviMisc.Lib.Outcome
open Relation

variable {V C : Type} [DecidableEq V]

section calls

variable {costs : Costs V C} {sort : ListSort V} {data : AdjacencyList V}
  {adjacency : Adjacency data} {source goal : V} {fuel : ℕ} {h h' : Heuristic V} {s : Locals V}

theorem Searching.result (hs : Searching data source goal s) (hagenda : s.path = none → s.agenda = []) :
    (ReflTransGen data.Adjacent source goal →
        ∃ path, s.path = some path ∧ Route data.Adjacent source goal path) ∧
      (¬ReflTransGen data.Adjacent source goal → s.path = none) := by
  cases hpath : s.path with
  | some path =>
    have hroute := hs.found path hpath
    exact ⟨fun _ => ⟨path, rfl, hroute⟩, fun hnot => absurd hroute.reachable hnot⟩
  | none =>
    refine ⟨fun hreachable => ?_, fun _ => rfl⟩
    have hempty := hagenda hpath
    have hvisited : ∀ v, ReflTransGen data.Adjacent source v → v ∈ s.visited := by
      intro v hv
      induction hv with
      | refl =>
        obtain ⟨-, hstart⟩ | hsource := hs.pointers.first
        · rw [hempty] at hstart
          cases hstart
        · exact hsource
      | @tail u v _ huv ih =>
        obtain hv | hv := (hs.pointers.mem v).mp (hs.closed hpath u ih v huv)
        · exact hv
        · rw [hempty] at hv
          cases hv
    exact absurd (hvisited goal hreachable) (hs.unmet hpath)

theorem run_of_path {path : List V} (hpath : h.path = some path) :
    run costs sort adjacency goal fuel source h = .ok h := by
  rw [run, hpath]

theorem run_of_none (hpath : h.path = none)
    (hrun : run costs sort adjacency goal fuel source h = .ok h') :
    ∃ s, loop costs sort adjacency goal fuel fuel (h.start source) = .ok s ∧
      h' = ⟨s.path, s.predecessors⟩ := by
  rw [run, hpath] at hrun
  obtain ⟨s, hs, hrun⟩ := Lists.bind_eq_ok hrun
  cases hrun
  exact ⟨s, hs, rfl⟩

theorem right_of_none (hcosts : IntCosts costs data source goal ∨ Narrow data goal [] source)
    (hpath : h.path = none) (hclean : Clean source h) :
    Right costs sort adjacency source goal h := by
  have hstart : Searching data source goal (h.start source) := .start (hclean hpath)
  have hsortable : Sortable costs data source goal (h.start source) := by
    refine hcosts.imp_right fun hnarrow _ => ⟨le_rfl, fun v hv => ?_⟩
    rwa [List.mem_singleton.mp hv]
  refine ⟨fun _ fuel s hpasses => (hstart.passes hpasses).pointers.ends,
    (vertices data source).card + 1, fun fuel hfuel => ?_⟩
  obtain ⟨s, hloop, hs, hagenda⟩ : ∃ s,
      loop costs sort adjacency goal fuel fuel (h.start source) = .ok s ∧
        Searching data source goal s ∧ (s.path = none → s.agenda = []) :=
    hstart.loop hsortable hfuel hfuel
  refine ⟨⟨s.path, s.predecessors⟩, ?_, hs.pointers.ends, hs.result hagenda⟩
  rw [run, hpath]
  simp only [hloop]
  rfl

theorem Called.found (hcalled : Called costs sort adjacency source goal h) {path : List V}
    (hpath : h.path = some path) : Route data.Adjacent source goal path ∧ Ends h.predecessors := by
  induction hcalled with
  | new => cases hpath
  | @run h h' fuel _ hclean hrun ih =>
    cases hpath' : h.path with
    | some path' =>
      rw [run_of_path hpath'] at hrun
      cases hrun
      exact ih hpath
    | none =>
      obtain ⟨s, hloop, rfl⟩ := run_of_none hpath' hrun
      have hs : Searching data source goal s :=
        (Searching.start (hclean hpath')).passes (loop_passes hloop)
      exact ⟨hs.found path hpath, hs.pointers.ends⟩

end calls

variable (costs : Costs V C) (sort : ListSort V) {data : AdjacencyList V}
  (adjacency : Adjacency data) (source goal : V)

theorem run_right : (IntCosts costs data source goal ∨ Narrow data goal [] source →
      ∀ h, Called costs sort adjacency source goal h → Clean source h →
        Right costs sort adjacency source goal h) ∧
    (NoIntCosts costs data source goal → ¬Narrow data goal [] source →
      ¬Right costs sort adjacency source goal (.new source)) := by
  constructor
  · intro hcosts h hcalled hclean
    cases hpath : h.path with
    | none => exact right_of_none hcosts hpath hclean
    | some path =>
      obtain ⟨hroute, hends⟩ := hcalled.found hpath
      refine ⟨fun hnone => absurd (hpath.symm.trans hnone) (Option.some_ne_none path), 0, fun _ _ => ?_⟩
      exact ⟨h, run_of_path hpath, hends, fun _ => ⟨path, hpath, hroute⟩,
        fun hnot => absurd hroute.reachable hnot⟩
  · intro hcosts hnarrow hright
    obtain ⟨n, hresult⟩ := hright.result
    obtain ⟨h', hrun, -⟩ := hresult (max n ((vertices data source).card + 1)) (le_max_left _ _)
    obtain ⟨s, hloop, -⟩ := run_of_none rfl hrun
    have hstart : Searching data source goal (Heuristic.start (.new source) source) := .start rfl
    exact hnarrow (hstart.narrow hcosts (Nat.lt_of_succ_le (le_max_right _ _)) rfl rfl hloop)

section sort

/-- A stable sort that first tries whether it can compare all elements. -/
def sortAll (cmp : V → V → Except Stop ℤ) (l : List V) : Except Stop (List V) :=
  if l.length ≤ 1 then .ok l
  else if ∀ a ∈ l, ∀ b ∈ l, (cmp a b).isOk then
    .ok (l.insertionSort fun a b => (cmp a b).toOption.getD 0 ≤ 0)
  else .error .typeError

def listSort : ListSort V where
  sort := sortAll
  perm cmp l l' h := by
    rw [sortAll] at h
    split at h
    · cases h
      exact .refl _
    split at h
    · cases h
      exact List.perm_insertionSort _ _
    · cases h
  short cmp l h := if_pos h
  returns cmp l h := by
    have hok : ∀ a ∈ l, ∀ b ∈ l, (cmp a b).isOk := by
      intro a ha b hb
      obtain ⟨n, hn⟩ := h a ha b hb
      rw [hn]
      rfl
    rw [sortAll, if_pos hok]
    split
    · exact ⟨_, rfl⟩
    · exact ⟨_, rfl⟩
  raises cmp l hlength h := by
    obtain ⟨a, ha⟩ := List.exists_mem_of_length_pos (Nat.zero_lt_two.trans_le hlength)
    have herror : ¬∀ a ∈ l, ∀ b ∈ l, (cmp a b).isOk := by
      intro hok
      obtain ⟨e, he⟩ := h a ha a ha
      have hok := hok a ha a ha
      rw [he] at hok
      cases hok
    rw [sortAll, if_neg (by omega), if_neg herror]
    exact ⟨_, rfl⟩

end sort

section cycle

/-- From `a` there are two ways around, and none to `d`. -/
inductive Corner
  | a | b | c | d
  deriving DecidableEq

def corners : List (Corner × List Corner) := [(.a, [.b, .c]), (.b, [.c]), (.c, [.b]), (.d, [.a])]

def around : AdjacencyList Corner :=
  (corners.map fun e => (⟨e.1, e.2.toFinset⟩ : Σ _ : Corner, Finset Corner)).toFinmap

def aroundTable : Adjacency around where
  entries := corners
  nodup := by decide
  lookup u := by cases u <;> decide

def longest : Costs Corner ℤ where
  costf path _ := -path.length
  lt x y := x < y
  sub x y := some (x - y)

theorem run_right_longest : Right longest listSort aroundTable .a .d (.new .a) :=
  (run_right longest listSort aroundTable .a .d).1 (.inl fun _ _ _ _ _ _ => ⟨_, rfl⟩) _ .new
    fun _ => rfl

theorem follow_cycle {predecessors : Corner → Option (Option Corner)} {u v : Corner}
    (hu : predecessors u = some (some v)) (hv : predecessors v = some (some u)) (fuel : ℕ)
    (path : List Corner) : follow predecessors fuel u path = .error .outOfFuel := by
  induction fuel generalizing u v path with
  | zero => rfl
  | succ fuel ih =>
    rw [follow, hu]
    exact ih hv hu _

def stale : Heuristic Corner where
  path := none
  predecessors
    | .a => some none
    | .b => some (some .c)
    | .c => some (some .a)
    | .d => none

theorem run_stale : run longest listSort aroundTable .d 10 .a (.new .a) = .ok stale := by
  obtain ⟨h, hrun, hpath, hpredecessors⟩ : ∃ h,
      run longest listSort aroundTable .d 10 .a (.new .a) = .ok h ∧ h.path = none ∧
        ∀ u, h.predecessors u = stale.predecessors u :=
    ⟨_, rfl, rfl, fun u => by cases u <;> rfl⟩
  rw [hrun]
  congr
  cases h
  cases hpath
  exact congrArg (Heuristic.mk none) (funext hpredecessors)

theorem pointers_cycle : run longest listSort aroundTable .d 10 .a (.new .a) = .ok stale ∧
    ¬Right longest listSort aroundTable .a .d stale := by
  refine ⟨run_stale, fun hright => ?_⟩
  obtain ⟨s, hloop, hb, hc⟩ : ∃ s,
      loop longest listSort aroundTable .d 10 10 (stale.start .a) = .ok s ∧
        s.predecessors .b = some (some .c) ∧ s.predecessors .c = some (some .b) := ⟨_, rfl, rfl, rfl⟩
  obtain ⟨n, hends⟩ := hright.throughout rfl 10 s (loop_passes hloop) .b (by rw [hb]; simp)
  obtain ⟨path, hpath⟩ := hends n le_rfl
  rw [pathToNode, follow_cycle hb hc] at hpath
  cases hpath

end cycle

end NaviMisc.Motion.Heuristic
