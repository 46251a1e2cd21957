import NaviMisc.Motion.DepthLimited
import NaviMisc.Motion.DijkstraSearch

/-!
What the depth limited search returns: for each length the walk that was found first among the
best, from its end to its start.
-/

namespace NaviMisc.Motion.DepthLimited

open NaviMisc.Lib

variable {V : Type} {address : V → BitVec 64}

section weights

variable {edges : List (ProbabilityEdge V)} {table : BitVec 32 → Option ℚ} {l : List V}

theorem key_comm (u v : V) : key address u v = key address v u := BitVec.add_comm _ _

theorem queryEdges_of_mem (hpos : ∀ e ∈ edges, 0 < e.weight) {e : ProbabilityEdge V} (he : e ∈ edges) :
    ∃ weight, queryEdges address edges (key address e.u e.v) = some weight ∧ 0 < weight := by
  induction edges using List.reverseRecOn with
  | nil => cases he
  | append_singleton edges e' ih =>
    rw [queryEdges, List.foldl_append, List.foldl_cons, List.foldl_nil]
    by_cases hkey : key address e.u e.v = key address e'.u e'.v
    · rw [hkey, Function.update_self]
      exact ⟨_, rfl, hpos e' (by simp)⟩
    · rw [Function.update_of_ne hkey]
      have hne : e ≠ e' := by
        rintro rfl
        exact hkey rfl
      have he : e ∈ edges := by simpa [hne] using he
      exact ih (fun e he => hpos e (List.mem_append_left _ he)) he

def weightAt (address : V → BitVec 64) (table : BitVec 32 → Option ℚ) (u v : V) : ℚ :=
  (table (key address u v)).getD 0

theorem multiply_eq {probability : ℚ} (h : l.IsChain fun u v => 0 < weightAt address table u v) :
    multiply address table probability l =
      .ok (probability * product (weightAt address table) l) := by
  induction l generalizing probability with
  | nil => rw [multiply, product, mul_one] <;> simp
  | cons u l ih =>
    cases l with
    | nil => rw [multiply, product, mul_one] <;> simp
    | cons v l =>
      obtain ⟨huv, hchain⟩ := List.isChain_cons_cons.mp h
      rw [multiply, product]
      cases hkey : table (key address u v) with
      | none =>
        rw [weightAt, hkey] at huv
        exact absurd huv (lt_irrefl 0)
      | some weight =>
        have hweight : weightAt address table u v = weight := by rw [weightAt, hkey]; rfl
        simp only [hweight]
        rw [ih hchain, mul_assoc]

end weights

section slots

variable {table : BitVec 32 → Option ℚ} {depth i : ℕ} {done news : List (List V)} {new l : List V}

structure Offered (address : V → BitVec 64) (table : BitVec 32 → Option ℚ) (depth : ℕ)
    (l : List V) : Prop where
  length : 2 ≤ l.length
  le : l.length ≤ depth + 1
  chain : l.IsChain fun u v => 0 < weightAt address table u v

def slot (address : V → BitVec 64) (table : BitVec 32 → Option ℚ) (done : List (List V)) (i : ℕ) :
    List V :=
  ((done.filter fun l => l.length = i + 2).argmax (product (weightAt address table))).getD []

theorem Offered.computeProbability (h : Offered address table depth l) :
    computeProbability address table l = .ok (product (weightAt address table) l) := by
  have hne : l ≠ [] := by
    rintro rfl
    exact absurd h.length (by simp)
  rw [DepthLimited.computeProbability, if_neg hne, multiply_eq h.chain, one_mul]

theorem slot_append_of_ne (h : new.length ≠ i + 2) :
    slot address table (done ++ [new]) i = slot address table done i := by
  simp [slot, h]

theorem slot_cases [DecidableEq V] (address : V → BitVec 64) (table : BitVec 32 → Option ℚ)
    (done : List (List V)) (i : ℕ) :
    (slot address table done i = [] ∧ ∀ l ∈ done, l.length ≠ i + 2) ∨
      (slot address table done i ∈ done ∧ (slot address table done i).length = i + 2 ∧
        ∀ l ∈ done, l.length = i + 2 → product (weightAt address table) l ≤
          product (weightAt address table) (slot address table done i)) := by
  rw [slot]
  cases hargmax : (done.filter fun l => l.length = i + 2).argmax
      (product (weightAt address table)) with
  | none =>
    left
    refine ⟨rfl, ?_⟩
    simpa using List.filter_eq_nil_iff.mp (List.argmax_eq_none.mp hargmax)
  | some l =>
    right
    obtain ⟨hmem, hle, -⟩ := List.argmax_eq_some_iff.mp hargmax
    obtain ⟨hmem, hlength⟩ := List.mem_filter.mp hmem
    refine ⟨hmem, by simpa using hlength, fun l' hl' hlength' => ?_⟩
    exact hle l' (List.mem_filter.mpr ⟨hl', by simpa using hlength'⟩)

theorem slot_append (hdone : ∀ l ∈ done, Offered address table depth l)
    (hnew : Offered address table depth new) (hlength : new.length = i + 2) :
    ∃ old, computeProbability address table (slot address table done i) = .ok old ∧
      slot address table (done ++ [new]) i =
        if product (weightAt address table) new > old then new else slot address table done i := by
  have hfilter : (done ++ [new]).filter (fun l => l.length = i + 2) =
      done.filter (fun l => l.length = i + 2) ++ [new] := by
    simp [hlength]
  rw [slot, slot, hfilter, List.argmax_concat]
  cases hargmax : (done.filter fun l => l.length = i + 2).argmax
      (product (weightAt address table)) with
  | none =>
    refine ⟨0, if_pos rfl, ?_⟩
    rw [if_pos (product_pos hnew.chain)]
    rfl
  | some l =>
    have hl : l ∈ done := List.mem_of_mem_filter (List.argmax_mem hargmax)
    refine ⟨_, (hdone l hl).computeProbability, ?_⟩
    simp only
    split <;> rfl

theorem cookie_slots (hdone : ∀ l ∈ done, Offered address table depth l)
    (hnew : Offered address table depth new) :
    cookie address table ((List.range depth).map (slot address table done)) new (new.length - 2) =
      .ok ((List.range depth).map (slot address table (done ++ [new]))) := by
  obtain ⟨d, hd⟩ := Nat.exists_eq_add_of_le' hnew.length
  have hlt : d < depth := by
    have hle := hnew.le
    omega
  obtain ⟨old, hold, hslot⟩ := slot_append hdone hnew hd
  have hget : ((List.range depth).map (slot address table done))[new.length - 2]? =
      some (slot address table done d) := by
    simp [hd, hlt]
  rw [cookie, hget]
  simp only [hnew.computeProbability, hold]
  have hother : ∀ i, i ≠ d → slot address table (done ++ [new]) i = slot address table done i :=
    fun i hi => slot_append_of_ne (by omega)
  by_cases hbetter : product (weightAt address table) new > old
  · rw [if_pos hbetter] at hslot
    refine (if_pos hbetter).trans (congrArg Except.ok (List.ext_getElem (by simp) ?_))
    intro i hi hi'
    rw [List.getElem_set, List.getElem_map, List.getElem_map, List.getElem_range]
    split
    · rename_i heq
      obtain rfl : i = d := by omega
      exact hslot.symm
    · exact (hother i (by omega)).symm
  · rw [if_neg hbetter] at hslot
    refine (if_neg hbetter).trans (congrArg Except.ok (List.map_congr_left fun i _ => ?_))
    by_cases hi : i = d
    · rw [hi, hslot]
    · rw [hother i hi]

theorem foldlM_cookie (h : ∀ l ∈ done ++ news, Offered address table depth l) :
    news.foldlM (fun good_paths new => cookie address table good_paths new (new.length - 2))
        ((List.range depth).map (slot address table done)) =
      .ok ((List.range depth).map (slot address table (done ++ news))) := by
  induction news generalizing done with
  | nil =>
    rw [List.append_nil]
    rfl
  | cons new news ih =>
    rw [List.append_cons done new news] at h ⊢
    have hdone : ∀ l ∈ done ++ [new], Offered address table depth l := fun l hl =>
      h l (List.mem_append_left _ hl)
    rw [List.foldlM_cons, cookie_slots (fun l hl => hdone l (List.mem_append_left _ hl))
      (hdone new (by simp))]
    exact ih h

end slots

section listPaths

variable {paths : List (List V)} {l : List V}

def item (path : List V) : Option (List V) := if path = [] then none else some path

theorem foldl_set (k n : ℕ) (items : List (Option (List V))) (hk : items.length = k)
    (hn : paths.length = n) :
    (paths.zipIdx k).foldl (fun path_list e =>
        if e.1 = [] then path_list else path_list.set e.2 (some e.1))
      (items ++ List.replicate (n + 1) none) = items ++ paths.map item ++ [none] := by
  induction paths generalizing k n items with
  | nil =>
    subst hn
    simp
  | cons path paths ih =>
    subst hn
    have hset : (if path = [] then items ++ List.replicate (paths.length + 1 + 1) none
        else (items ++ List.replicate (paths.length + 1 + 1) none).set k (some path)) =
        (items ++ [item path]) ++ List.replicate (paths.length + 1) none := by
      subst hk
      rw [item]
      split
      · simp [List.replicate_succ]
      · simp [List.replicate_succ]
    rw [List.zipIdx_cons, List.foldl_cons, List.length_cons, hset,
      ih (k + 1) _ (items ++ [item path]) (by simp [hk]) rfl]
    simp

theorem listPaths_eq {depth : ℕ} (h : paths.length = depth) :
    listPaths depth paths = paths.map item ++ [none] := by
  have heq := foldl_set 0 depth [] rfl h
  rw [List.nil_append, List.nil_append] at heq
  exact heq

end listPaths

section result

variable [DecidableEq V] (address : V → BitVec 64) (g : Representations V)
  (adjacency : Adjacency g.data) (start end_ : V) (depth : ℕ)

variable {g} in
theorem weightAt_pos {u v : V} (h : g.data.Adjacent u v) :
    0 < weightAt address (queryEdges address g.edges) u v := by
  obtain ⟨e, he, heq⟩ := List.mem_map.mp ((g.mem_edges (u, v)).mpr h)
  obtain ⟨rfl, rfl⟩ := Prod.mk.inj heq
  obtain ⟨weight, hweight, hpos⟩ : ∃ weight,
      queryEdges address g.edges (key address e.u e.v) = some weight ∧ 0 < weight :=
    queryEdges_of_mem g.positive he
  rw [weightAt, hweight]
  exact hpos

variable {adjacency start end_ depth} in
theorem Offered.of_mem_walks {l : List V} (h : l ∈ walks adjacency end_ depth start []) :
    Offered address (queryEdges address g.edges) depth l := by
  obtain ⟨w, hw, hlength, rfl⟩ := mem_walks.mp h
  rw [List.append_nil]
  refine ⟨?_, ?_, ?_⟩
  · rw [List.length_reverse]
    exact hw.length
  · rwa [List.length_reverse]
  · rw [List.isChain_reverse]
    refine hw.route.chain.imp fun u v huv => ?_
    rw [weightAt, key_comm]
    exact weightAt_pos address huv

theorem search_slots : search address adjacency (queryEdges address g.edges) end_ depth start []
    (List.replicate depth []) = .ok ((List.range depth).map
      (slot address (queryEdges address g.edges) (walks adjacency end_ depth start []))) := by
  have hempty : List.replicate depth [] = (List.range depth).map
      (slot address (queryEdges address g.edges) []) := by
    apply List.ext_getElem
    · simp
    · intro i hi hi'
      simp [slot]
  rw [search_eq, hempty]
  exact foldlM_cookie fun l hl => .of_mem_walks address g hl

theorem depthLimitedSearch_slots : ∃ path_list,
    depthLimitedSearch address g adjacency start end_ depth = .ok path_list ∧
      path_list.length = depth + 1 ∧ ∀ i < depth,
        (path_list[i]? = some none ∧
          ∀ l, Arrives g.data start end_ l → l.length ≠ i + 2) ∨
        ∃ l, path_list[i]? = some (some l.reverse) ∧ Arrives g.data start end_ l ∧
          l.length = i + 2 ∧ ∀ l', Arrives g.data start end_ l' → l'.length = i + 2 →
            product (weightAt address (queryEdges address g.edges)) l' ≤
              product (weightAt address (queryEdges address g.edges)) l := by
  have hsymm : (fun u v => weightAt address (queryEdges address g.edges) v u) =
      weightAt address (queryEdges address g.edges) := by
    funext u v
    rw [weightAt, weightAt, key_comm]
  have hoffered : ∀ l i, i < depth → Arrives g.data start end_ l → l.length = i + 2 →
      l.reverse ∈ walks adjacency end_ depth start [] := fun l i hi hl hlength =>
    mem_walks.mpr ⟨l, hl, by omega, (List.append_nil _).symm⟩
  refine ⟨_, by rw [depthLimitedSearch, search_slots]; rfl, ?_, fun i hi => ?_⟩
  · rw [listPaths_eq (by simp)]
    simp
  rw [listPaths_eq (by simp), List.getElem?_append_left (by simpa using hi), List.getElem?_map,
    List.getElem?_map, List.getElem?_range hi, Option.map_some, Option.map_some]
  obtain ⟨hnil, hnone⟩ | ⟨hmem, hlength, hle⟩ := slot_cases address (queryEdges address g.edges)
    (walks adjacency end_ depth start []) i
  · left
    rw [hnil]
    refine ⟨rfl, fun l hl hlength => ?_⟩
    exact hnone l.reverse (hoffered l i hi hl hlength) (by rwa [List.length_reverse])
  · right
    obtain ⟨l, hl, -, heq⟩ := mem_walks.mp hmem
    rw [List.append_nil] at heq
    rw [heq, List.length_reverse] at hlength
    refine ⟨l, ?_, hl, hlength, fun l' hl' hlength' => ?_⟩
    · have hne : l.reverse ≠ [] := by
        rintro hnil
        rw [List.reverse_eq_nil_iff.mp hnil] at hlength
        simp at hlength
      rw [heq, item, if_neg hne]
    · have hle := hle l'.reverse (hoffered l' i hi hl' hlength') (by rwa [List.length_reverse])
      rwa [heq, product_reverse, product_reverse, hsymm] at hle

/-- Only where no walk is listed the order of a list does not matter. -/
theorem depthLimitedSearch_right_iff :
    Right g start end_ depth (depthLimitedSearch address g adjacency start end_ depth) ↔
      ∀ l, Route g.data.Adjacent start end_ l → 2 ≤ l.length → depth + 1 < l.length := by
  obtain ⟨path_list, hresult, hlength, hslots⟩ :=
    depthLimitedSearch_slots address g adjacency start end_ depth
  rw [hresult]
  constructor
  · rintro ⟨path_list', hok, -, hright⟩ l hl hl₂
    cases hok
    obtain ⟨w, hw, hle⟩ := Arrives.of_route hl hl₂
    by_contra hshort
    obtain ⟨i, hi⟩ := Nat.exists_eq_add_of_le' hw.length
    have hdepth : i < depth := by omega
    obtain ⟨-, hnone⟩ | ⟨w', hslot, hw', hlength', -⟩ := hslots i hdepth
    · exact hnone w hw hi
    obtain ⟨hslot', -⟩ | ⟨w'', hslot', hbest⟩ := hright i hdepth
    · rw [hslot] at hslot'
      cases hslot'
    rw [hslot] at hslot'
    obtain rfl : w'.reverse = w'' := by simpa using hslot'
    have hhead : w'.reverse.head? = some end_ := by
      rw [List.head?_reverse, hw'.route.last]
    obtain ⟨t, ht⟩ := List.head?_eq_some_iff.mp hhead
    have hmem : end_ ∈ w'.reverse.dropLast := by
      rw [← List.length_reverse, ht] at hlength'
      rw [ht]
      cases t with
      | nil => simp at hlength'
      | cons x t => exact List.mem_cons_self
    exact hbest.walk.first hmem
  · intro hlong
    refine ⟨path_list, rfl, hlength, fun i hi => .inl ?_⟩
    have hnowalk : ∀ l, Route g.data.Adjacent start end_ l → l.length ≠ i + 2 := by
      intro l hl hl₂
      have hlong := hlong l hl (by omega)
      omega
    obtain ⟨hslot, -⟩ | ⟨w, -, hw, hw₂, -⟩ := hslots i hi
    · exact ⟨hslot, fun l hl => hnowalk l hl.route⟩
    · exact absurd hw₂ (hnowalk w hw.route)

end result

section oneStep

def oneStep : Representations ℕ where
  data := oneEdge
  edges := [⟨⟨0, 1⟩, 1⟩]
  nodup := List.nodup_singleton _
  mem_edges := by
    intro p
    rw [oneEdge, AdjacencyList.contains_singleton]
    exact List.mem_singleton
  positive := by decide

theorem oneStep_backwards : depthLimitedSearch (BitVec.ofNat 64) oneStep oneEdgeTable 0 1 1 =
      .ok [some [1, 0], none] ∧
    ¬Right oneStep 0 1 1 (depthLimitedSearch (BitVec.ofNat 64) oneStep oneEdgeTable 0 1 1) := by
  have hresult : depthLimitedSearch (BitVec.ofNat 64) oneStep oneEdgeTable 0 1 1 =
      .ok [some [1, 0], none] := by decide +kernel
  refine ⟨hresult, fun hright => ?_⟩
  rw [hresult] at hright
  obtain ⟨path_list, hok, -, hslots⟩ := hright
  cases hok
  obtain ⟨hslot, -⟩ | ⟨l, hslot, hbest⟩ := hslots 0 one_pos
  · cases hslot
  · cases hslot
    cases hbest.walk.route.head

end oneStep

end NaviMisc.Motion.DepthLimited
