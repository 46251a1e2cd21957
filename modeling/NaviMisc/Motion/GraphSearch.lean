import NaviMisc.Motion.BayesNet
import NaviMisc.Motion.Dijkstra

/-!
The costs that `GraphSearch.f` of `Motion/Interpolate.py` keeps between its calls.
-/

namespace NaviMisc.Motion

open NaviMisc.Lib

variable {V : Type} [DecidableEq V]

/-- A dictionary from bones to nodes, in the order of its keys. -/
structure Pose (V : Type) where
  items : List (Bone × V)
  nodup : (items.map Prod.fst).Nodup

namespace GraphSearch

inductive Raised
  | indexError
  | keyError
  | runtimeError
  deriving DecidableEq

abbrev Cache (V : Type) := Bone → V × V → Option ℕ

structure Search (V : Type) [DecidableEq V] where
  adjacency : Bone → Option (AdjacencyList V)
  dijkstraSearch : AdjacencyList V → V → V → Except Raised (List V)

structure Totals where
  h : ℤ
  done : List ℤ
  notDone : List ℤ

def Totals.add (t : Totals) (atGoal : Bool) (cost : ℕ) : Totals :=
  if atGoal then { t with h := t.h + cost, done := t.done ++ [(cost : ℤ)] }
  else { t with h := t.h + cost, notDone := t.notDone ++ [(cost : ℤ)] }

def remember (costs : V × V → Option ℕ) (endb goalb : V) (path : List V) : V × V → Option ℕ :=
  let costs := (path.zipIdx.drop 1).foldl
    (fun costs e => Function.update costs (endb, e.1) (some (e.2 + 1))) costs
  path.zipIdx.dropLast.foldl
    (fun costs e => Function.update costs (e.1, goalb) (some (e.2 + 2))) costs

def visitBones (search : Search V) (goal : Dict Bone V) :
    Cache V → Totals → List (Bone × V) → Cache V × Except Raised Totals
  | cache, t, [] => (cache, .ok t)
  | cache, t, (bone, endb) :: items =>
    match search.adjacency bone with
    | none => visitBones search goal cache t items
    | some adj =>
      match goal bone with
      | none => (cache, .error .keyError)
      | some goalb =>
        match cache bone (endb, goalb) with
        | some cost => visitBones search goal cache (t.add (endb = goalb) cost) items
        | none =>
          match search.dijkstraSearch adj endb goalb with
          | .error e => (cache, .error e)
          | .ok path =>
            visitBones search goal
              (Function.update cache bone (remember (cache bone) endb goalb path))
              (t.add (endb = goalb) path.length) items

def total (g : ℕ) (t : Totals) : ℤ :=
  g + (t.h + (t.done.map fun i => (t.notDone.map fun j => j - i).sum).sum)

def f (search : Search V) (cache : Cache V) (path : List (Pose V)) (goal : Dict Bone V) :
    Cache V × Except Raised ℤ :=
  match path.getLast? with
  | none => (cache, .error .indexError)
  | some pose =>
    let (cache, t) := visitBones search goal cache ⟨0, [], []⟩ pose.items
    (cache, t.map (total path.length))

structure Call (V : Type) where
  path : List (Pose V)
  goal : Dict Bone V

structure Session (V : Type) where
  cached_costs : Cache V
  cost : Option (Except Raised ℤ)
  fresh : Option (Except Raised ℤ)

def Session.empty : Session V := ⟨fun _ _ => none, none, none⟩

def step (search : Search V) (s : Session V) (call : Call V) : Session V :=
  let (cache, cost) := f search s.cached_costs call.path call.goal
  ⟨cache, some cost, some (f search (fun _ _ => none) call.path call.goal).2⟩

def RightAt (search : Search V) (cache : Cache V) (bone : Bone) : Prop :=
  ∀ x y n, cache bone (x, y) = some n → ∃ adj path, search.adjacency bone = some adj ∧
    search.dijkstraSearch adj x y = .ok path ∧ n = path.length

structure Faithful (search : Search V) (s : Session V) : Prop where
  cached_costs : ∀ bone, RightAt search s.cached_costs bone
  cost : s.cost = s.fresh

/-- The paths that are searched for in a call, up to the first exception. -/
def misses (search : Search V) (cache : Cache V) (goal : Dict Bone V) :
    List (Bone × V) → List (List V)
  | [] => []
  | (bone, endb) :: items =>
    match search.adjacency bone, goal bone with
    | none, _ => misses search cache goal items
    | some _, none => []
    | some adj, some goalb =>
      match cache bone (endb, goalb), search.dijkstraSearch adj endb goalb with
      | some _, _ => misses search cache goal items
      | none, .error _ => []
      | none, .ok path => path :: misses search cache goal items

/-- All paths searched for have at most two nodes. -/
def Short (search : Search V) (s : Session V) (call : Call V) : Prop :=
  ∀ pose, call.path.getLast? = some pose →
    ∀ path ∈ misses search s.cached_costs call.goal pose.items, path.length ≤ 2

def FindsShortest (search : Search V) : Prop :=
  ∀ bone adj, search.adjacency bone = some adj → ∀ x y path,
    search.dijkstraSearch adj x y = .ok path → Shortest adj.Adjacent x y path

section remember

variable {costs : V × V → Option ℕ} {x goalb : V}

theorem foldl_update_of_ne {α : Type} {g : α → V × V} {n : α → ℕ} {l : List α} {k : V × V}
    (h : ∀ e ∈ l, g e ≠ k) :
    l.foldl (fun costs e => Function.update costs (g e) (some (n e))) costs k = costs k := by
  induction l generalizing costs with
  | nil => rfl
  | cons e l ih =>
    rw [List.foldl_cons, ih fun e he => h e (List.mem_cons_of_mem _ he)]
    exact Function.update_of_ne (h e List.mem_cons_self).symm _ _

theorem remember_singleton : remember costs x goalb [x] = costs := rfl

theorem remember_pair : remember costs x goalb [x, goalb] =
    Function.update costs (x, goalb) (some 2) := Function.update_idem _ _ _

theorem remember_apply {l : List V} (hl : l ≠ []) (h : x ∉ l) :
    remember costs x goalb (x :: l) (x, goalb) = some 2 := by
  have hzip : (x :: l).zipIdx.dropLast = (x, 0) :: (l.zipIdx 1).dropLast := by
    rw [List.zipIdx_cons, List.dropLast_cons_of_ne_nil]
    simpa using hl
  rw [remember, hzip, List.foldl_cons, foldl_update_of_ne]
  · exact Function.update_self _ _ _
  · intro e he heq
    obtain rfl : e.1 = x := congrArg Prod.fst heq
    exact h (List.fst_mem_of_mem_zipIdx (List.mem_of_mem_dropLast he))

end remember

section loop

variable {search : Search V} {cache cache' : Cache V} {goal : Dict Bone V} {t : Totals}
  {bone : Bone} {endb goalb : V} {items : List (Bone × V)} {adj : AdjacencyList V}
  {path : List V}

theorem RightAt.congr (h : cache bone = cache' bone) :
    RightAt search cache bone ↔ RightAt search cache' bone := by
  rw [RightAt, RightAt, h]

theorem RightAt.update (h : RightAt search cache bone) (hadj : search.adjacency bone = some adj)
    (hpath : search.dijkstraSearch adj endb goalb = .ok path)
    (hshortest : Shortest adj.Adjacent endb goalb path) :
    RightAt search (Function.update cache bone (remember (cache bone) endb goalb path)) bone ↔
      path.length ≤ 2 := by
  obtain ⟨l, rfl⟩ : ∃ l, path = endb :: l := List.head?_eq_some_iff.mp hshortest.route.head
  rw [RightAt, Function.update_self]
  cases l with
  | nil =>
    rw [remember_singleton]
    exact iff_of_true h (by simp)
  | cons y l =>
    have hstored : remember (cache bone) endb goalb (endb :: y :: l) (endb, goalb) = some 2 :=
      remember_apply (List.cons_ne_nil y l) hshortest.notMem
    constructor
    · intro hright
      obtain ⟨adj', path', hadj', hpath', hlength⟩ := hright _ _ _ hstored
      rw [hadj] at hadj'
      cases hadj'
      rw [hpath] at hpath'
      cases hpath'
      exact hlength.ge
    · intro hshort
      obtain rfl : l = [] := by
        rw [List.length_cons, List.length_cons] at hshort
        exact List.eq_nil_of_length_eq_zero (by omega)
      obtain rfl : y = goalb := Option.some.inj hshortest.route.last
      rw [remember_pair]
      intro u v n hn
      by_cases huv : (u, v) = (endb, y)
      · cases huv
        rw [Function.update_self] at hn
        cases hn
        exact ⟨adj, _, hadj, hpath, rfl⟩
      · rw [Function.update_of_ne huv] at hn
        exact h u v n hn

theorem visitBones_of_notMem (h : bone ∉ items.map Prod.fst) :
    (visitBones search goal cache t items).1 bone = cache bone := by
  induction items generalizing cache t with
  | nil => rfl
  | cons item items ih =>
    obtain ⟨b, x⟩ := item
    have hb : bone ≠ b := fun heq => h (heq ▸ List.mem_cons_self)
    have hrest : bone ∉ items.map Prod.fst := fun hmem => h (List.mem_cons_of_mem _ hmem)
    rw [visitBones]
    split
    · exact ih hrest
    split
    · rfl
    split
    · exact ih hrest
    split
    · rfl
    · rw [ih hrest]
      exact Function.update_of_ne hb _ _

theorem misses_congr (h : ∀ bone ∈ items.map Prod.fst, cache bone = cache' bone) :
    misses search cache goal items = misses search cache' goal items := by
  induction items with
  | nil => rfl
  | cons item items ih =>
    obtain ⟨b, x⟩ := item
    have ih := ih fun bone hbone => h bone (List.mem_cons_of_mem _ hbone)
    rw [misses, misses, h b List.mem_cons_self, ih]

def lengths (search : Search V) (goal : Dict Bone V) :
    Totals → List (Bone × V) → Except Raised Totals
  | t, [] => .ok t
  | t, (bone, endb) :: items =>
    match search.adjacency bone with
    | none => lengths search goal t items
    | some adj =>
      match goal bone with
      | none => .error .keyError
      | some goalb =>
        match search.dijkstraSearch adj endb goalb with
        | .error e => .error e
        | .ok path => lengths search goal (t.add (endb = goalb) path.length) items

theorem visitBones_snd (hnodup : (items.map Prod.fst).Nodup)
    (h : ∀ bone ∈ items.map Prod.fst, RightAt search cache bone) :
    (visitBones search goal cache t items).2 = lengths search goal t items := by
  induction items generalizing cache t with
  | nil => rfl
  | cons item items ih =>
    obtain ⟨b, x⟩ := item
    obtain ⟨hb, hnodup⟩ := List.nodup_cons.mp hnodup
    have hne : ∀ bone ∈ items.map Prod.fst, bone ≠ b := by
      rintro bone hbone rfl
      exact hb hbone
    have hrest : ∀ bone ∈ items.map Prod.fst, RightAt search cache bone := fun bone hbone =>
      h bone (List.mem_cons_of_mem _ hbone)
    rw [visitBones, lengths]
    cases hadj : search.adjacency b with
    | none => exact ih hnodup hrest
    | some adj =>
      cases hgoal : goal b with
      | none => rfl
      | some goalb =>
        simp only
        cases hcache : cache b (x, goalb) with
        | some n =>
          obtain ⟨adj', path, hadj', hpath, rfl⟩ := h b List.mem_cons_self x goalb n hcache
          rw [hadj] at hadj'
          cases hadj'
          simp only [hpath]
          exact ih hnodup hrest
        | none =>
          cases hpath : search.dijkstraSearch adj x goalb with
          | error e => rfl
          | ok path =>
            refine ih hnodup fun bone hbone => (RightAt.congr ?_).mpr (hrest bone hbone)
            exact Function.update_of_ne (hne bone hbone) _ _

theorem visitBones_right_iff (hsearch : FindsShortest search)
    (hnodup : (items.map Prod.fst).Nodup)
    (h : ∀ bone ∈ items.map Prod.fst, RightAt search cache bone) :
    (∀ bone ∈ items.map Prod.fst, RightAt search (visitBones search goal cache t items).1 bone) ↔
      ∀ path ∈ misses search cache goal items, path.length ≤ 2 := by
  induction items generalizing cache t with
  | nil => simp [misses]
  | cons item items ih =>
    obtain ⟨b, x⟩ := item
    obtain ⟨hb, hnodup⟩ := List.nodup_cons.mp hnodup
    have hright : RightAt search cache b := h b List.mem_cons_self
    have hne : ∀ bone ∈ items.map Prod.fst, bone ≠ b := by
      rintro bone hbone rfl
      exact hb hbone
    have hrest : ∀ bone ∈ items.map Prod.fst, RightAt search cache bone := fun bone hbone =>
      h bone (List.mem_cons_of_mem _ hbone)
    have hsame {t} : (∀ bone ∈ b :: items.map Prod.fst,
        RightAt search (visitBones search goal cache t items).1 bone) ↔
        ∀ path ∈ misses search cache goal items, path.length ≤ 2 := by
      rw [List.forall_mem_cons, ih hnodup hrest, RightAt.congr (visitBones_of_notMem hb)]
      exact and_iff_right hright
    rw [visitBones, misses, List.map_cons]
    cases hadj : search.adjacency b with
    | none => exact hsame
    | some adj =>
      cases hgoal : goal b with
      | none => exact iff_of_true h (by simp)
      | some goalb =>
        simp only
        cases hcache : cache b (x, goalb) with
        | some n => exact hsame
        | none =>
          cases hpath : search.dijkstraSearch adj x goalb with
          | error e => exact iff_of_true h (by simp)
          | ok path =>
            have hother : ∀ bone ∈ items.map Prod.fst,
                Function.update cache b (remember (cache b) x goalb path) bone = cache bone :=
              fun bone hbone => Function.update_of_ne (hne bone hbone) _ _
            simp only [List.forall_mem_cons]
            rw [ih hnodup fun bone hbone => (RightAt.congr (hother bone hbone)).mpr (hrest bone hbone),
              RightAt.congr (visitBones_of_notMem hb), misses_congr hother]
            have hshortest := hsearch b adj hadj x goalb path hpath
            rw [hright.update hadj hpath hshortest]

theorem f_cost (h : ∀ bone, RightAt search cache bone) (path : List (Pose V)) :
    (f search cache path goal).2 = (f search (fun _ _ => none) path goal).2 := by
  have hempty : ∀ bone, RightAt search (fun _ _ => none) bone := fun _ _ _ _ hn => nomatch hn
  rw [f, f]
  cases path.getLast? with
  | none => rfl
  | some pose =>
    simp only
    rw [visitBones_snd pose.nodup fun bone _ => h bone,
      visitBones_snd pose.nodup fun bone _ => hempty bone]

theorem f_right_iff (hsearch : FindsShortest search) (h : ∀ bone, RightAt search cache bone)
    (path : List (Pose V)) : (∀ bone, RightAt search (f search cache path goal).1 bone) ↔
      ∀ pose, path.getLast? = some pose →
        ∀ path ∈ misses search cache goal pose.items, path.length ≤ 2 := by
  rw [f]
  cases path.getLast? with
  | none => exact iff_of_true h fun _ hpose => nomatch hpose
  | some pose =>
    simp only [Option.some.injEq, forall_eq']
    rw [← visitBones_right_iff (t := ⟨0, [], []⟩) hsearch pose.nodup fun bone _ => h bone]
    constructor
    · exact fun hright bone _ => hright bone
    · intro hright bone
      by_cases hbone : bone ∈ pose.items.map Prod.fst
      · exact hright bone hbone
      · exact (RightAt.congr (visitBones_of_notMem hbone)).mpr (h bone)

theorem step_faithful_iff (hsearch : FindsShortest search) {s : Session V}
    (h : Faithful search s) (call : Call V) :
    Faithful search (step search s call) ↔ Short search s call := by
  rw [Short, ← f_right_iff hsearch h.cached_costs]
  refine ⟨fun hstep => hstep.cached_costs, fun hright => ⟨hright, ?_⟩⟩
  exact congrArg some (f_cost h.cached_costs call.path)

end loop

theorem faithful_empty (search : Search V) : Faithful search .empty :=
  ⟨fun _ _ _ _ hn => (nomatch hn), rfl⟩

theorem cached_costs_faithful_iff (search : Search V) (hsearch : FindsShortest search)
    (calls : List (Call V)) :
    Runs.Always (step search) (Faithful search) .empty calls ↔
      Runs.Meets (step search) (Short search) .empty calls :=
  Runs.always_iff_meets (P := Faithful search) (I := fun _ => True) (fun _ _ _ => trivial)
    (fun _ call _ h => step_faithful_iff hsearch h call) trivial (faithful_empty search) calls

section ring

def circle : AdjacencyList (Fin 3) :=
  ([0, 1, 2] : List (Fin 3)).map (fun v => (⟨v, {v + 1}⟩ : Σ _ : Fin 3, Finset (Fin 3))) |>.toFinmap

def ring : Search (Fin 3) where
  adjacency bone := if bone = "root" then some circle else none
  dijkstraSearch _ x y :=
    .ok (if x = y then [x] else if y = x + 1 then [x, y] else [x, x + 1, y])

def rootAt (v : Fin 3) : Pose (Fin 3) := ⟨[("root", v)], List.nodup_singleton _⟩

def goalAt (v : Fin 3) : Dict Bone (Fin 3) := fun _ => some v

theorem circle_adjacent {u v : Fin 3} : circle.Adjacent u v ↔ v = u + 1 := by
  rw [AdjacencyList.Adjacent]
  revert u v
  decide

theorem circle_steps {x y : Fin 3} {n : ℕ} (h : Steps circle.Adjacent x n y) :
    y.val = (x.val + n) % 3 := by
  induction h with
  | refl => exact (Nat.mod_eq_of_lt x.isLt).symm
  | tail _ hbc ih =>
    rw [circle_adjacent.mp hbc, Fin.val_add, ih]
    exact Nat.mod_add_mod _ _ _

theorem findsShortest_ring : FindsShortest ring := by
  intro bone adj hadj x y path hpath
  obtain ⟨-, rfl⟩ : bone = "root" ∧ circle = adj := by simpa [ring] using hadj
  have hnext : ∀ u, circle.Adjacent u (u + 1) := fun u => circle_adjacent.mpr rfl
  have htwo : ∀ u : Fin 3, (u + 1 + 1).val = (u.val + 2) % 3 := by decide
  obtain ⟨n, hn, hy, hlength, hroute⟩ : ∃ n < 3, y.val = (x.val + n) % 3 ∧ path.length = n + 1 ∧
      Route circle.Adjacent x y path := by
    cases Except.ok.inj hpath
    by_cases hxy : x = y
    · subst hxy
      rw [if_pos rfl]
      exact ⟨0, by decide, (Nat.mod_eq_of_lt x.isLt).symm, rfl, .singleton⟩
    rw [if_neg hxy]
    by_cases hy : y = x + 1
    · subst hy
      rw [if_pos rfl]
      exact ⟨1, by decide, Fin.val_add x 1, rfl, .cons (hnext x) .singleton⟩
    · rw [if_neg hy]
      obtain rfl : y = x + 1 + 1 := by
        revert x y
        decide
      exact ⟨2, by decide, htwo x, rfl, .cons (hnext x) (.cons (hnext (x + 1)) .singleton)⟩
  have hdist : Distance circle.Adjacent x n y := by
    obtain ⟨m, hm, hsteps⟩ := hroute.steps
    obtain rfl : n = m := by omega
    refine ⟨hsteps, fun k hk => ?_⟩
    have hk := circle_steps hk
    omega
  exact hdist.shortest hroute hlength

def callTo (v : Fin 3) : Call (Fin 3) := ⟨[rootAt 0], goalAt v⟩

theorem cached_costs_faithful_next :
    Runs.Always (step ring) (Faithful ring) .empty [callTo 1, callTo 1] := by
  apply (cached_costs_faithful_iff ring findsShortest_ring _).mpr
  refine ⟨?_, ?_, trivial⟩
  · rintro pose hpose
    cases hpose
    decide
  · rintro pose hpose
    cases hpose
    decide

theorem cached_end_node : FindsShortest ring ∧
    ([callTo 2, callTo 2].foldl (step ring) .empty).cost = some (.ok 3) ∧
    ([callTo 2, callTo 2].foldl (step ring) .empty).fresh = some (.ok 4) ∧
    ¬Runs.Always (step ring) (Faithful ring) .empty [callTo 2, callTo 2] := by
  have hcost : ([callTo 2, callTo 2].foldl (step ring) .empty).cost = some (.ok 3) := by decide
  have hfresh : ([callTo 2, callTo 2].foldl (step ring) .empty).fresh = some (.ok 4) := by decide
  refine ⟨findsShortest_ring, hcost, hfresh, fun halways => ?_⟩
  have heq := halways.last.cost
  rw [hcost, hfresh] at heq
  cases heq

end ring

end GraphSearch

end NaviMisc.Motion
