import NaviMisc.Lib.Interning
import NaviMisc.Lib.Outcome
import NaviMisc.Motion.Graph

/-!
`Graph/Combinatoric.py`: a graph whose nodes are combinations of nodes of other graphs. The
generators work through a dictionary of named graphs.
-/

namespace NaviMisc.Motion

open NaviMisc.Lib.Generator NaviMisc.Lib.Interning

variable {N V C D R : Type} [DecidableEq N] [DecidableEq V] [DecidableEq R]

abbrev Dict (N V : Type) := N → Option V

namespace Dict

def empty : Dict N V := fun _ => none

def set (d : Dict N V) (name : N) (v : V) : Dict N V := Function.update d name (some v)

end Dict

structure Component (V : Type) [DecidableEq V] where
  edges : Finset (V × V)
  adjacency : List (V × V)
  query : V → List (V × V)
  map : V → List (V × V)
  adjacency_eq : (adjacency : Multiset (V × V)) = edges.val
  query_nodup : ∀ u, (query u).Nodup
  mem_query : ∀ u p, p ∈ query u ↔ p ∈ edges ∧ p.1 = u
  map_nodup : ∀ v, (map v).Nodup
  mem_map : ∀ v p, p ∈ map v ↔ p ∈ edges ∧ Touches p v

def AdjacencyList.query (data : AdjacencyList V) (u : V) : Multiset (V × V) :=
  ((data.lookup u).getD ∅).val.map fun v => (u, v)

theorem AdjacencyList.mem_query {data : AdjacencyList V} {u : V} {p : V × V} :
    p ∈ data.query u ↔ data.contains p ∧ p.1 = u := by
  rw [AdjacencyList.query, Multiset.mem_map, AdjacencyList.contains_iff]
  constructor
  · rintro ⟨v, hv, rfl⟩
    cases h : data.lookup u with
    | none =>
      rw [h] at hv
      cases hv
    | some vList =>
      rw [h] at hv
      exact ⟨⟨vList, rfl, hv⟩, rfl⟩
  · rintro ⟨⟨vList, hlookup, hv⟩, rfl⟩
    refine ⟨p.2, ?_, rfl⟩
    rw [hlookup]
    exact hv

theorem AdjacencyList.nodup_query (data : AdjacencyList V) (u : V) : (data.query u).Nodup :=
  Multiset.Nodup.map (fun _ _ h => congrArg Prod.snd h) (Finset.nodup _)

def Component.ofGraph {α : Type} {value : α → V} {edges : Finset (V × V)} {data : AdjacencyList V}
    {map : VertexMap α V} (hdata : data.Describes edges) (hmap : map.Describes value edges)
    (adjacency : List (V × V)) (hadjacency : (adjacency : Multiset (V × V)) = data.iter)
    (query : V → List (V × V)) (hquery : ∀ u, (query u : Multiset (V × V)) = data.query u) :
    Component V where
  edges := edges
  adjacency := adjacency
  query := query
  map := map.pairs value
  adjacency_eq := hadjacency.trans hdata.iter
  query_nodup := fun u => by
    rw [← Multiset.coe_nodup, hquery u]
    exact data.nodup_query u
  mem_query := fun u p => by
    rw [← Multiset.mem_coe, hquery u, AdjacencyList.mem_query, hdata.contains]
  map_nodup := hmap.nodup
  mem_map := hmap.query

def Component.ofEdges (l : List (V × V)) (h : l.Nodup) : Component V where
  edges := l.toFinset
  adjacency := l
  query := fun u => l.filter fun p => p.1 = u
  map := fun v => l.filter fun p => Touches p v
  adjacency_eq := by
    rw [List.toFinset_val, h.dedup]
  query_nodup := fun u => h.filter _
  mem_query := fun u p => by
    rw [List.mem_filter, decide_eq_true_eq, List.mem_toFinset]
  map_nodup := fun v => h.filter _
  mem_map := fun v p => by
    rw [List.mem_filter, decide_eq_true_eq, List.mem_toFinset]

namespace Combinatoric

inductive Error
  | indexError
  | keyError
  deriving DecidableEq

/-- The recursive generators: the nodes or edges that a graph offers, each combined with what
the other graphs offer. -/
def combine (choices : N × Component V → Gen Error C) (start : N → C → D)
    (put : D → N → C → D) : List (N × Component V) → Gen Error D
  | [] => Gen.raise .indexError
  | [item] => (choices item).bind fun c => Gen.yield (start item.1 c)
  | item :: item' :: graphs =>
    (choices item).bind fun c =>
      (combine choices start put (item' :: graphs)).bind fun d => Gen.yield (put d item.1 c)

def lookup (node : Dict N V) (name : N) (f : V → List C) : Gen Error C :=
  match node name with
  | none => Gen.raise .keyError
  | some v => ⟨f v, none⟩

def combineIter : List (N × Component V) → Gen Error (Dict N V × Dict N V) :=
  combine (fun item => ⟨item.2.adjacency, none⟩)
    (fun name edge => (Dict.empty.set name edge.1, Dict.empty.set name edge.2))
    (fun d name edge => (d.1.set name edge.1, d.2.set name edge.2))

def combineQuery (u : Dict N V) : List (N × Component V) → Gen Error (Dict N V) :=
  combine (fun item => lookup u item.1 fun x => (item.2.query x).map Prod.snd)
    (fun name v => Dict.empty.set name v) (fun d name v => d.set name v)

def combineU (node : Dict N V) : List (N × Component V) → Gen Error (Dict N V) :=
  combine
    (fun item => lookup node item.1 fun x =>
      ((item.2.map x).filter fun edge => edge.2 = x ∧ edge.1 ≠ edge.2).map Prod.fst)
    (fun name v => Dict.empty.set name v) (fun d name v => d.set name v)

def combineV (node : Dict N V) : List (N × Component V) → Gen Error (Dict N V) :=
  combine
    (fun item => lookup node item.1 fun x =>
      ((item.2.map x).filter fun edge => edge.1 = x).map Prod.snd)
    (fun name v => Dict.empty.set name v) (fun d name v => d.set name v)

structure Node (N V : Type) where
  data : Dict N V
  keys : List N
  nodup : keys.Nodup
  mem_keys : ∀ name, name ∈ keys ↔ data name ≠ none

variable (items : List (N × Component V))

/-- `AdjacencyList.__iter__`; an edge is given by the data of its nodes. -/
def iter (repr : Dict N V → R) : Gen Error (Dict N V × Dict N V) :=
  ⟨internPairs repr (fun _ => none) (combineIter items).yielded, (combineIter items).raised⟩

def contains (u v : Node N V) : Bool :=
  (items.all fun item =>
    match u.data item.1, v.data item.1 with
    | some x, some y => decide ((x, y) ∈ item.2.edges)
    | _, _ => false) &&
  decide (items.map Prod.fst = u.keys)

def query (u : Dict N V) : Gen Error (Dict N V × Dict N V) :=
  (combineQuery u items).map fun v => (u, v)

def queryMap (repr : Dict N V → R) (node : Dict N V) : Gen Error (Dict N V × Dict N V) :=
  let us := internAll repr (fun _ => none) (combineU node items).yielded
  let vs := internAll repr us.2 (combineV node items).yielded
  Gen.andThen ⟨us.1.map fun u => (u, node), (combineU node items).raised⟩
    ⟨vs.1.map fun v => (node, v), (combineV node items).raised⟩

end Combinatoric

end NaviMisc.Motion

/-!
The products that the combinatoric representations enumerate, and when they do.
-/

namespace NaviMisc.Motion

open NaviMisc.Lib.Generator NaviMisc.Lib.Interning

variable {N V C D R : Type} [DecidableEq V]

namespace Dict

def map (f : C → D) (d : Dict N C) : Dict N D := fun name => (d name).map f

theorem map_empty (f : C → D) : (Dict.empty : Dict N C).map f = Dict.empty := rfl

variable [DecidableEq N]

theorem map_set (f : C → D) (d : Dict N C) (name : N) (c : C) :
    (d.set name c).map f = (d.map f).set name (f c) := by
  funext n
  rw [Dict.map, Dict.set, Dict.set, Function.update_apply, Function.update_apply]
  split_ifs with h
  · rfl
  · rfl

theorem set_self (d : Dict N C) (name : N) (c : C) : d.set name c name = some c :=
  Function.update_self ..

theorem set_of_ne (d : Dict N C) {name n : N} (c : C) (h : n ≠ name) : d.set name c n = d n :=
  Function.update_of_ne h ..

theorem set_injective {d d' : Dict N C} {name : N} {c c' : C} (hd : d name = none)
    (hd' : d' name = none) (h : d.set name c = d'.set name c') : d = d' ∧ c = c' := by
  have hat (n : N) := congrFun h n
  constructor
  · funext n
    by_cases hn : n = name
    · rw [hn, hd, hd']
    · rw [← set_of_ne d c hn, hat n, set_of_ne d' c' hn]
  · have hname := hat name
    rw [set_self, set_self] at hname
    exact Option.some.inj hname

end Dict

namespace Combinatoric

def Combination (cs : N × Component V → List C) (items : List (N × Component V))
    (d : Dict N C) : Prop :=
  (∀ item ∈ items, ∃ c ∈ cs item, d item.1 = some c) ∧
    ∀ name, name ∉ items.map Prod.fst → d name = none

variable {cs : N × Component V → List C} {item : N × Component V} {items : List (N × Component V)}

def Over (items : List (N × Component V)) (d : Dict N V) : Prop :=
  ∀ name, d name ≠ none ↔ name ∈ items.map Prod.fst

structure IsEdge (items : List (N × Component V)) (u v : Dict N V) : Prop where
  edge : ∀ item ∈ items, ∃ p ∈ item.2.edges, u item.1 = some p.1 ∧ v item.1 = some p.2
  rest : ∀ name, name ∉ items.map Prod.fst → u name = none ∧ v name = none

/-- Without an exception, all that is asked for and each once. -/
def Exactly (g : Gen Error C) (P : C → Prop) : Prop :=
  g.raised = none ∧ g.yielded.Nodup ∧ ∀ c, c ∈ g.yielded ↔ P c

def endpoints (items : List (N × Component V)) : Set (Dict N V) :=
  {d | ∃ e : Dict N V × Dict N V, IsEdge items e.1 e.2 ∧ (d = e.1 ∨ d = e.2)}

theorem Over.get {d : Dict N V} (h : Over items d) {item : N × Component V} (hitem : item ∈ items) :
    ∃ v, d item.1 = some v :=
  Option.ne_none_iff_exists'.mp ((h item.1).mpr (List.mem_map_of_mem hitem))

theorem Over.absent {d : Dict N V} (h : Over items d) {name : N}
    (hname : name ∉ items.map Prod.fst) : d name = none := by
  by_contra hsome
  exact hname ((h name).mp hsome)

theorem Over.of_get {d : Dict N V} (hsome : ∀ item ∈ items, ∃ v, d item.1 = some v)
    (hnone : ∀ name, name ∉ items.map Prod.fst → d name = none) : Over items d := by
  intro name
  constructor
  · intro h
    by_contra hname
    exact h (hnone name hname)
  · intro hname
    obtain ⟨item, hitem, rfl⟩ := List.mem_map.mp hname
    exact Option.ne_none_iff_exists'.mpr (hsome item hitem)

def unzip (d : Dict N (V × V)) : Dict N V × Dict N V := (d.map Prod.fst, d.map Prod.snd)

def zip (e : Dict N V × Dict N V) : Dict N (V × V) := fun name =>
  match e.1 name, e.2 name with
  | some u, some v => some (u, v)
  | _, _ => none

omit [DecidableEq V] in
theorem zip_unzip (d : Dict N (V × V)) : zip (unzip d) = d := by
  funext name
  rw [zip]
  show (match (d name).map Prod.fst, (d name).map Prod.snd with
    | some u, some v => some (u, v)
    | _, _ => none) = d name
  cases d name with
  | none => rfl
  | some p => rfl

theorem unzip_zip {e : Dict N V × Dict N V} (h : IsEdge items e.1 e.2) : unzip (zip e) = e := by
  have hat : ∀ name, (zip e name).map Prod.fst = e.1 name ∧ (zip e name).map Prod.snd = e.2 name := by
    intro name
    rw [zip]
    by_cases hname : name ∈ items.map Prod.fst
    · obtain ⟨item, hitem, rfl⟩ := List.mem_map.mp hname
      obtain ⟨p, -, hu, hv⟩ := h.edge item hitem
      rw [hu, hv]
      exact ⟨rfl, rfl⟩
    · obtain ⟨hu, hv⟩ := h.rest name hname
      rw [hu, hv]
      exact ⟨rfl, rfl⟩
  exact Prod.ext (funext fun name => (hat name).1) (funext fun name => (hat name).2)

theorem isEdge_unzip_iff {d : Dict N (V × V)} :
    IsEdge items (unzip d).1 (unzip d).2 ↔ Combination (fun item => item.2.adjacency) items d := by
  have hmem (item : N × Component V) (p : V × V) : p ∈ item.2.adjacency ↔ p ∈ item.2.edges := by
    rw [← Multiset.mem_coe, item.2.adjacency_eq, Finset.mem_val]
  constructor
  · intro h
    have hd := zip_unzip d
    constructor
    · intro item hitem
      obtain ⟨p, hp, hu, hv⟩ := h.edge item hitem
      refine ⟨p, (hmem item p).mpr hp, ?_⟩
      rw [← hd, zip, hu, hv]
    · intro name hname
      rw [← hd, zip, (h.rest name hname).1]
  · rintro ⟨hedge, hrest⟩
    constructor
    · intro item hitem
      obtain ⟨p, hp, hd⟩ := hedge item hitem
      refine ⟨p, (hmem item p).mp hp, ?_⟩
      exact ⟨congrArg (Option.map Prod.fst) hd, congrArg (Option.map Prod.snd) hd⟩
    · intro name hname
      have hd := hrest name hname
      exact ⟨congrArg (Option.map Prod.fst) hd, congrArg (Option.map Prod.snd) hd⟩

def choicesAt (node : Dict N V) (f : Component V → V → List C) (item : N × Component V) : List C :=
  match node item.1 with
  | none => []
  | some x => f item.2 x

theorem lookup_eq {node : Dict N V} (h : Over items node) (f : Component V → V → List C) :
    ∀ item ∈ items, lookup node item.1 (f item.2) = ⟨choicesAt node f item, none⟩ := by
  intro item hitem
  obtain ⟨x, hx⟩ := h.get hitem
  rw [lookup, choicesAt, hx]

theorem combination_choicesAt_iff {node d : Dict N V} (h : Over items node)
    {f : Component V → V → List V} {E : Component V → V → V → Prop}
    (hf : ∀ g x y, y ∈ f g x ↔ E g x y) :
    Combination (choicesAt node f) items d ↔ Over items d ∧ ∀ item ∈ items, ∀ x y,
      node item.1 = some x → d item.1 = some y → E item.2 x y := by
  constructor
  · rintro ⟨hmem, hnone⟩
    constructor
    · apply Over.of_get _ hnone
      intro item hitem
      obtain ⟨y, -, hy⟩ := hmem item hitem
      exact ⟨y, hy⟩
    · intro item hitem x y hx hy
      obtain ⟨y', hy', hd⟩ := hmem item hitem
      rw [choicesAt, hx] at hy'
      rw [hy] at hd
      cases hd
      exact (hf ..).mp hy'
  · rintro ⟨hover, hat⟩
    refine ⟨?_, fun name => hover.absent⟩
    intro item hitem
    obtain ⟨x, hx⟩ := h.get hitem
    obtain ⟨y, hy⟩ := hover.get hitem
    refine ⟨y, ?_, hy⟩
    rw [choicesAt, hx]
    exact (hf ..).mpr (hat item hitem x y hx hy)

theorem nodup_choicesAt {node : Dict N V} {f : Component V → V → List C}
    (h : ∀ g x, (f g x).Nodup) (item : N × Component V) : (choicesAt node f item).Nodup := by
  rw [choicesAt]
  cases node item.1 with
  | none => exact List.nodup_nil
  | some x => exact h item.2 x

theorem isEdge_iff {u v : Dict N V} :
    IsEdge items u v ↔ Over items u ∧ Over items v ∧ ∀ item ∈ items, ∀ x y,
      u item.1 = some x → v item.1 = some y → (x, y) ∈ item.2.edges := by
  constructor
  · rintro ⟨hedge, hrest⟩
    refine ⟨?_, ?_, ?_⟩
    · apply Over.of_get _ fun name hname => (hrest name hname).1
      intro item hitem
      obtain ⟨p, -, hu, -⟩ := hedge item hitem
      exact ⟨p.1, hu⟩
    · apply Over.of_get _ fun name hname => (hrest name hname).2
      intro item hitem
      obtain ⟨p, -, -, hv⟩ := hedge item hitem
      exact ⟨p.2, hv⟩
    · intro item hitem x y hx hy
      obtain ⟨p, hp, hu, hv⟩ := hedge item hitem
      rw [hx] at hu
      rw [hy] at hv
      cases hu
      cases hv
      exact hp
  · rintro ⟨hu, hv, hedge⟩
    refine ⟨?_, fun name hname => ⟨hu.absent hname, hv.absent hname⟩⟩
    intro item hitem
    obtain ⟨x, hx⟩ := hu.get hitem
    obtain ⟨y, hy⟩ := hv.get hitem
    exact ⟨(x, y), hedge item hitem x y hx hy, hx, hy⟩

theorem Combination.nil_iff {d : Dict N C} : Combination cs [] d ↔ d = Dict.empty := by
  constructor
  · rintro ⟨-, h⟩
    funext name
    exact h name List.not_mem_nil
  · rintro rfl
    exact ⟨fun item h => absurd h List.not_mem_nil, fun name _ => rfl⟩

variable [DecidableEq N] {d : Dict N C}

theorem Combination.cons_iff (hname : item.1 ∉ items.map Prod.fst) :
    Combination cs (item :: items) d ↔
      ∃ c ∈ cs item, ∃ d', Combination cs items d' ∧ d = d'.set item.1 c := by
  constructor
  · rintro ⟨hmem, hnone⟩
    obtain ⟨c, hc, hd⟩ := hmem item List.mem_cons_self
    refine ⟨c, hc, Function.update d item.1 none, ⟨?_, ?_⟩, ?_⟩
    · intro item' hitem'
      have hne : item'.1 ≠ item.1 := by
        intro heq
        exact hname (heq ▸ List.mem_map_of_mem hitem')
      rw [Function.update_of_ne hne]
      exact hmem item' (List.mem_cons_of_mem item hitem')
    · intro name hmem'
      by_cases heq : name = item.1
      · rw [heq, Function.update_self]
      · rw [Function.update_of_ne heq]
        apply hnone name
        rw [List.map_cons, List.mem_cons, not_or]
        exact ⟨heq, hmem'⟩
    · rw [Dict.set, Function.update_idem, ← hd, Function.update_eq_self]
  · rintro ⟨c, hc, d', ⟨hmem, hnone⟩, rfl⟩
    constructor
    · intro item' hitem'
      rcases List.mem_cons.mp hitem' with rfl | hitem'
      · exact ⟨c, hc, Dict.set_self ..⟩
      · have hne : item'.1 ≠ item.1 := by
          intro heq
          exact hname (heq ▸ List.mem_map_of_mem hitem')
        rw [Dict.set_of_ne _ _ hne]
        exact hmem item' hitem'
    · intro name hname'
      rw [List.map_cons, List.mem_cons, not_or] at hname'
      rw [Dict.set_of_ne _ _ hname'.1]
      exact hnone name hname'.2

def combinations (cs : N × Component V → List C) : List (N × Component V) → List (Dict N C)
  | [] => [Dict.empty]
  | item :: items => (cs item).flatMap fun c => (combinations cs items).map fun d => d.set item.1 c

theorem mem_combinations (hnames : (items.map Prod.fst).Nodup) :
    d ∈ combinations cs items ↔ Combination cs items d := by
  induction items generalizing d with
  | nil => rw [combinations, List.mem_singleton, Combination.nil_iff]
  | cons item items ih =>
    obtain ⟨hname, hnames⟩ := List.nodup_cons.mp hnames
    simp only [combinations, List.mem_flatMap, List.mem_map, Combination.cons_iff hname, ih hnames,
      eq_comm (a := d)]

theorem nodup_combinations (hnames : (items.map Prod.fst).Nodup)
    (hcs : ∀ item ∈ items, (cs item).Nodup) : (combinations cs items).Nodup := by
  induction items with
  | nil => exact List.nodup_singleton _
  | cons item items ih =>
    obtain ⟨hname, hnames⟩ := List.nodup_cons.mp hnames
    have hnone : ∀ d ∈ combinations cs items, d item.1 = none := by
      intro d hd
      exact ((mem_combinations hnames).mp hd).2 item.1 hname
    have htail := ih hnames fun item' h => hcs item' (List.mem_cons_of_mem item h)
    rw [combinations, List.nodup_flatMap]
    constructor
    · intro c _
      apply List.Nodup.map_on _ htail
      intro d hd d' hd' heq
      exact (Dict.set_injective (hnone d hd) (hnone d' hd') heq).1
    · apply List.Pairwise.imp _ (hcs item List.mem_cons_self)
      intro c c' hne
      rw [Function.onFun, List.disjoint_left]
      intro e he he'
      obtain ⟨d, hd, rfl⟩ := List.mem_map.mp he
      obtain ⟨d', hd', heq⟩ := List.mem_map.mp he'
      exact hne (Dict.set_injective (hnone d' hd') (hnone d hd) heq).2.symm

theorem combine_eq {choices : N × Component V → Gen Error C}
    (hchoices : ∀ item ∈ items, choices item = ⟨cs item, none⟩) (hne : items ≠ []) :
    combine choices (fun name c => Dict.empty.set name c) (fun d name c => d.set name c) items =
      ⟨combinations cs items, none⟩ := by
  induction items with
  | nil => exact absurd rfl hne
  | cons item items ih =>
    have hitem := hchoices item List.mem_cons_self
    cases items with
    | nil =>
      rw [combine, hitem, Gen.bind_yield, combinations, List.map_eq_flatMap]
      rfl
    | cons item' items =>
      have htail := ih (fun i h => hchoices i (List.mem_cons_of_mem item h)) (List.cons_ne_nil item' items)
      rw [combine, hitem, htail]
      simp only [Gen.bind_yield]
      exact Gen.bind_eq rfl fun _ _ => rfl

theorem combine_map {choices : N × Component V → Gen Error C} {start : N → C → D}
    {put : D → N → C → D} (h : Dict N C → D)
    (hstart : ∀ name c, start name c = h (Dict.empty.set name c))
    (hput : ∀ d name c, put (h d) name c = h (d.set name c)) :
    combine choices start put items =
      (combine choices (fun name c => Dict.empty.set name c) (fun d name c => d.set name c)
        items).map h := by
  induction items with
  | nil => rfl
  | cons item items ih =>
    cases items with
    | nil =>
      rw [combine, combine, Gen.map_bind]
      simp only [hstart]
      rfl
    | cons item' items =>
      rw [combine, combine, Gen.map_bind, ih]
      simp only [Gen.map_bind, Gen.bind_map, hput]
      rfl

variable [DecidableEq R]

theorem combineIter_eq (hne : items ≠ []) :
    combineIter items = ⟨(combinations (fun item => item.2.adjacency) items).map unzip, none⟩ := by
  rw [combineIter, combine_map unzip, combine_eq (fun _ _ => rfl) hne]
  · rfl
  · intro name e
    rw [unzip, Dict.map_set, Dict.map_set, Dict.map_empty, Dict.map_empty]
  · intro d name e
    rw [unzip, unzip, Dict.map_set, Dict.map_set]

theorem exactly_combineIter (hne : items ≠ []) (hnames : (items.map Prod.fst).Nodup) :
    Exactly (combineIter items) fun e => IsEdge items e.1 e.2 := by
  rw [combineIter_eq hne]
  refine ⟨rfl, ?_, ?_⟩
  · apply List.Nodup.map (Function.LeftInverse.injective zip_unzip)
    apply nodup_combinations hnames
    intro item _
    rw [← Multiset.coe_nodup, item.2.adjacency_eq]
    exact item.2.edges.nodup
  · intro e
    rw [List.mem_map]
    constructor
    · rintro ⟨d, hd, rfl⟩
      exact isEdge_unzip_iff.mpr ((mem_combinations hnames).mp hd)
    · intro he
      refine ⟨zip e, (mem_combinations hnames).mpr ?_, unzip_zip he⟩
      rw [← isEdge_unzip_iff, unzip_zip he]
      exact he

theorem exactly_iter_iff (hne : items ≠ []) (hnames : (items.map Prod.fst).Nodup)
    (repr : Dict N V → R) :
    Exactly (iter items repr) (fun e => IsEdge items e.1 e.2) ↔ Set.InjOn repr (endpoints items) := by
  obtain ⟨hraised, hnodup, hmem⟩ := exactly_combineIter hne hnames
  constructor
  · rintro ⟨-, -, h⟩
    have hinj := injOn_internPairs repr (combineIter items).yielded
    apply hinj.mono
    rintro d ⟨e, he, hd⟩
    exact ⟨e, (h e).mpr he, hd⟩
  · intro h
    have hself : internPairs repr (fun _ => none) (combineIter items).yielded =
        (combineIter items).yielded := by
      apply internPairs_eq_self
      apply h.mono
      rintro d ⟨e, he, hd⟩
      exact ⟨e, (hmem e).mp he, hd⟩
    rw [iter, hself]
    exact ⟨hraised, hnodup, hmem⟩

theorem contains_iff {u v : Node N V} (hu : Over items u.data) (hv : Over items v.data) :
    contains items u v ↔ IsEdge items u.data v.data ∧ items.map Prod.fst = u.keys := by
  rw [contains, Bool.and_eq_true, List.all_eq_true, decide_eq_true_eq]
  apply and_congr_left'
  constructor
  · intro h
    refine ⟨?_, fun name hname => ⟨hu.absent hname, hv.absent hname⟩⟩
    intro item hitem
    obtain ⟨x, hx⟩ := hu.get hitem
    obtain ⟨y, hy⟩ := hv.get hitem
    have hedge := h item hitem
    rw [hx, hy] at hedge
    exact ⟨(x, y), of_decide_eq_true hedge, hx, hy⟩
  · rintro ⟨hedge, -⟩ item hitem
    obtain ⟨p, hp, hx, hy⟩ := hedge item hitem
    rw [hx, hy]
    exact decide_eq_true hp

theorem mem_query_snd (g : Component V) (x y : V) :
    y ∈ (g.query x).map Prod.snd ↔ (x, y) ∈ g.edges := by
  rw [List.mem_map]
  constructor
  · rintro ⟨p, hp, rfl⟩
    obtain ⟨hedge, rfl⟩ := (g.mem_query x p).mp hp
    exact hedge
  · intro h
    exact ⟨(x, y), (g.mem_query x (x, y)).mpr ⟨h, rfl⟩, rfl⟩

theorem mem_into_fst (g : Component V) (x y : V) :
    y ∈ ((g.map x).filter fun edge => edge.2 = x ∧ edge.1 ≠ edge.2).map Prod.fst ↔
      (y, x) ∈ g.edges ∧ y ≠ x := by
  simp only [List.mem_map, List.mem_filter, g.mem_map, decide_eq_true_eq]
  constructor
  · rintro ⟨p, ⟨⟨hedge, -⟩, rfl, hne⟩, rfl⟩
    exact ⟨hedge, hne⟩
  · rintro ⟨hedge, hne⟩
    exact ⟨(y, x), ⟨⟨hedge, Or.inr rfl⟩, rfl, hne⟩, rfl⟩

theorem mem_from_snd (g : Component V) (x y : V) :
    y ∈ ((g.map x).filter fun edge => edge.1 = x).map Prod.snd ↔ (x, y) ∈ g.edges := by
  simp only [List.mem_map, List.mem_filter, g.mem_map, decide_eq_true_eq]
  constructor
  · rintro ⟨p, ⟨⟨hedge, -⟩, rfl⟩, rfl⟩
    exact hedge
  · intro hedge
    exact ⟨(x, y), ⟨⟨hedge, Or.inl rfl⟩, rfl⟩, rfl⟩

theorem nodup_query_snd (g : Component V) (x : V) : ((g.query x).map Prod.snd).Nodup := by
  apply List.Nodup.map_on _ (g.query_nodup x)
  intro p hp q hq h
  exact Prod.ext (((g.mem_query x p).mp hp).2.trans ((g.mem_query x q).mp hq).2.symm) h

theorem nodup_into_fst (g : Component V) (x : V) :
    (((g.map x).filter fun edge => edge.2 = x ∧ edge.1 ≠ edge.2).map Prod.fst).Nodup := by
  apply List.Nodup.map_on _ ((g.map_nodup x).filter _)
  intro p hp q hq h
  rw [List.mem_filter, decide_eq_true_eq] at hp hq
  exact Prod.ext h (hp.2.1.trans hq.2.1.symm)

theorem nodup_from_snd (g : Component V) (x : V) :
    (((g.map x).filter fun edge => edge.1 = x).map Prod.snd).Nodup := by
  apply List.Nodup.map_on _ ((g.map_nodup x).filter _)
  intro p hp q hq h
  rw [List.mem_filter, decide_eq_true_eq] at hp hq
  exact Prod.ext (hp.2.trans hq.2.symm) h

section queryMap

variable {node : Dict N V} (hne : items ≠ []) (hnames : (items.map Prod.fst).Nodup)
  (h : Over items node)
include hne hnames h

theorem exactly_combineQuery : Exactly (combineQuery node items) (IsEdge items node) := by
  have heq : combineQuery node items = _ :=
    combine_eq (lookup_eq h fun g x => (g.query x).map Prod.snd) hne
  rw [heq]
  refine ⟨rfl, nodup_combinations hnames fun item _ => nodup_choicesAt nodup_query_snd item, ?_⟩
  intro d
  rw [mem_combinations hnames, combination_choicesAt_iff h mem_query_snd, isEdge_iff]
  exact ⟨fun hd => ⟨h, hd⟩, fun hd => hd.2⟩

theorem exactly_combineV : Exactly (combineV node items) (IsEdge items node) := by
  have heq : combineV node items = _ :=
    combine_eq (lookup_eq h fun g x => ((g.map x).filter fun edge => edge.1 = x).map Prod.snd) hne
  rw [heq]
  refine ⟨rfl, nodup_combinations hnames fun item _ => nodup_choicesAt nodup_from_snd item, ?_⟩
  intro d
  rw [mem_combinations hnames, combination_choicesAt_iff h mem_from_snd, isEdge_iff]
  exact ⟨fun hd => ⟨h, hd⟩, fun hd => hd.2⟩

theorem exactly_combineU : Exactly (combineU node items) fun d =>
    IsEdge items d node ∧ ∀ item ∈ items, d item.1 ≠ node item.1 := by
  have heq : combineU node items = _ :=
    combine_eq (lookup_eq h fun g x =>
      ((g.map x).filter fun edge => edge.2 = x ∧ edge.1 ≠ edge.2).map Prod.fst) hne
  rw [heq]
  refine ⟨rfl, nodup_combinations hnames fun item _ => nodup_choicesAt nodup_into_fst item, ?_⟩
  intro d
  rw [mem_combinations hnames, combination_choicesAt_iff h mem_into_fst]
  show _ ↔ IsEdge items d node ∧ _
  rw [isEdge_iff]
  constructor
  · rintro ⟨hover, hat⟩
    refine ⟨⟨hover, h, fun item hitem x y hx hy => (hat item hitem y x hy hx).1⟩, ?_⟩
    intro item hitem heq
    obtain ⟨x, hx⟩ := h.get hitem
    exact (hat item hitem x x hx (heq.trans hx)).2 rfl
  · rintro ⟨⟨hover, -, hedge⟩, hdiffer⟩
    refine ⟨hover, fun item hitem x y hx hy => ⟨hedge item hitem y x hy hx, ?_⟩⟩
    rintro rfl
    exact hdiffer item hitem (hy.trans hx.symm)

theorem exactly_query : Exactly (query items node) fun e => IsEdge items e.1 e.2 ∧ e.1 = node := by
  obtain ⟨hraised, hnodup, hmem⟩ := exactly_combineQuery hne hnames h
  refine ⟨hraised, hnodup.map fun _ _ heq => congrArg Prod.snd heq, ?_⟩
  rintro ⟨u, v⟩
  rw [query, Gen.map, List.mem_map]
  constructor
  · rintro ⟨d, hd, heq⟩
    cases heq
    exact ⟨(hmem v).mp hd, rfl⟩
  · rintro ⟨hedge, rfl⟩
    exact ⟨v, (hmem v).mpr hedge, rfl⟩

def Mixed (items : List (N × Component V)) (node : Dict N V) : Prop :=
  ∃ u, IsEdge items u node ∧ u ≠ node ∧ ∃ item ∈ items, u item.1 = node item.1

theorem not_mixed_of_exactly {repr : Dict N V → R}
    (hexactly : Exactly (queryMap items repr node)
      fun e => IsEdge items e.1 e.2 ∧ (e.1 = node ∨ e.2 = node)) : ¬ Mixed items node := by
  rintro ⟨u, hedge, hu, item, hitem, hloop⟩
  obtain ⟨hraisedU, hnodupU, hmemU⟩ := exactly_combineU hne hnames h
  obtain ⟨-, -, hmem⟩ := hexactly
  have hyield := (hmem (u, node)).mpr ⟨hedge, Or.inr rfl⟩
  rw [queryMap] at hyield
  simp only [Gen.andThen, hraisedU] at hyield
  rcases List.mem_append.mp hyield with hyield | hyield
  · obtain ⟨d, hd, heq⟩ := List.mem_map.mp hyield
    cases heq
    have hin : u ∈ {d | d ∈ (combineU node items).yielded} :=
      internAll_mem (fun k d hd => by cases hd) (fun d hd => hd) keyed_empty u hd
    exact ((hmemU u).mp hin).2 item hitem hloop
  · obtain ⟨d, hd, heq⟩ := List.mem_map.mp hyield
    cases heq
    exact hu rfl

theorem queryMap_eq {repr : Dict N V → R} (hinj : Set.InjOn repr (endpoints items)) :
    queryMap items repr node =
      ⟨(combineU node items).yielded.map (fun u => (u, node)) ++
        (combineV node items).yielded.map (fun v => (node, v)), none⟩ := by
  obtain ⟨hraisedU, -, hmemU⟩ := exactly_combineU hne hnames h
  obtain ⟨hraisedV, -, hmemV⟩ := exactly_combineV hne hnames h
  have hendU : ∀ d ∈ (combineU node items).yielded, d ∈ endpoints items :=
    fun d hd => ⟨(d, node), ((hmemU d).mp hd).1, Or.inl rfl⟩
  have hendV : ∀ d ∈ (combineV node items).yielded, d ∈ endpoints items :=
    fun d hd => ⟨(node, d), (hmemV d).mp hd, Or.inr rfl⟩
  have hstart : ∀ (k : R) (d : Dict N V), (fun _ => none : R → Option (Dict N V)) k = some d →
      d ∈ endpoints items := by
    intro k d hd
    cases hd
  have hus := internAll_eq_self hstart hendU hinj keyed_empty
  have hcache : ∀ k d, (internAll repr (fun _ => none) (combineU node items).yielded).2 k = some d →
      d ∈ endpoints items := internAll_cache hstart hendU
  have hvs := internAll_eq_self hcache hendV hinj (keyed_empty.internAll _)
  rw [queryMap, Gen.andThen]
  simp only [hraisedU, hraisedV, hus, hvs]

theorem exactly_queryMap {repr : Dict N V → R} (hinj : Set.InjOn repr (endpoints items))
    (hmixed : ¬ Mixed items node) :
    Exactly (queryMap items repr node)
      fun e => IsEdge items e.1 e.2 ∧ (e.1 = node ∨ e.2 = node) := by
  obtain ⟨-, hnodupU, hmemU⟩ := exactly_combineU hne hnames h
  obtain ⟨-, hnodupV, hmemV⟩ := exactly_combineV hne hnames h
  obtain ⟨item, hitem⟩ := List.exists_mem_of_ne_nil items hne
  rw [queryMap_eq hne hnames h hinj]
  refine ⟨rfl, ?_, ?_⟩
  · rw [List.nodup_append']
    refine ⟨hnodupU.map fun _ _ heq => congrArg Prod.fst heq,
      hnodupV.map fun _ _ heq => congrArg Prod.snd heq, ?_⟩
    rw [List.disjoint_left]
    intro e he he'
    obtain ⟨u, hu, rfl⟩ := List.mem_map.mp he
    obtain ⟨v, -, heq⟩ := List.mem_map.mp he'
    cases heq
    exact ((hmemU node).mp hu).2 item hitem rfl
  · rintro ⟨u, v⟩
    rw [List.mem_append, List.mem_map, List.mem_map]
    constructor
    · rintro (⟨d, hd, heq⟩ | ⟨d, hd, heq⟩)
      · cases heq
        exact ⟨((hmemU u).mp hd).1, Or.inr rfl⟩
      · cases heq
        exact ⟨(hmemV v).mp hd, Or.inl rfl⟩
    · rintro ⟨hedge, rfl | rfl⟩
      · exact Or.inr ⟨v, (hmemV v).mpr hedge, rfl⟩
      · by_cases huv : u = v
        · exact Or.inr ⟨v, (hmemV v).mpr (huv ▸ hedge), by rw [huv]⟩
        · refine Or.inl ⟨u, (hmemU u).mpr ⟨hedge, ?_⟩, rfl⟩
          intro item hitem heq
          exact hmixed ⟨u, hedge, huv, item, hitem, heq⟩

end queryMap

/-- What is asked of the combinatoric representations: for the iteration, for `__contains__` at
an edge from `u` to `v`, and for both queries at a node. -/
structure IsProduct (items : List (N × Component V)) (repr : Dict N V → R) (u v : Node N V)
    (node : Dict N V) : Prop where
  iter : Exactly (iter items repr) fun e => IsEdge items e.1 e.2
  contains : contains items u v ↔ IsEdge items u.data v.data
  query : Exactly (query items node) fun e => IsEdge items e.1 e.2 ∧ e.1 = node
  queryMap : Exactly (queryMap items repr node)
    fun e => IsEdge items e.1 e.2 ∧ (e.1 = node ∨ e.2 = node)

theorem isProduct_iff (items : List (N × Component V)) (repr : Dict N V → R) (u v : Node N V)
    (node : Dict N V) (hne : items ≠ []) (hnames : (items.map Prod.fst).Nodup)
    (hu : Over items u.data) (hv : Over items v.data) (hnode : Over items node) :
    IsProduct items repr u v node ↔
      Set.InjOn repr (endpoints items) ∧
        (IsEdge items u.data v.data → items.map Prod.fst = u.keys) ∧ ¬ Mixed items node := by
  constructor
  · intro h
    refine ⟨(exactly_iter_iff hne hnames repr).mp h.iter, ?_,
      not_mixed_of_exactly hne hnames hnode h.queryMap⟩
    intro hedge
    exact ((contains_iff hu hv).mp (h.contains.mpr hedge)).2
  · rintro ⟨hinj, hkeys, hmixed⟩
    refine ⟨(exactly_iter_iff hne hnames repr).mpr hinj, ?_, exactly_query hne hnames hnode,
      exactly_queryMap hne hnames hnode hinj hmixed⟩
    rw [contains_iff hu hv]
    exact ⟨fun h => h.1, fun h => ⟨h, hkeys h⟩⟩

def standing : List (String × Component ℕ) :=
  [("hips", .ofEdges [(0, 0)] (by decide)), ("knee", .ofEdges [(1, 2)] (by decide))]

def pose (hips knee : ℕ) : Dict String ℕ := (Dict.empty.set "knee" knee).set "hips" hips

theorem over_pose (hips knee : ℕ) : Over standing (pose hips knee) := by
  have hhips : pose hips knee "hips" = some hips := Dict.set_self ..
  have hknee : pose hips knee "knee" = some knee := by
    rw [pose, Dict.set_of_ne _ _ (by decide), Dict.set_self]
  apply Over.of_get
  · intro item hitem
    rcases List.mem_pair.mp hitem with rfl | rfl
    · exact ⟨hips, hhips⟩
    · exact ⟨knee, hknee⟩
  · intro name hname
    have hne : name ≠ "hips" ∧ name ≠ "knee" := by
      simpa only [standing, List.map_cons, List.map_nil, List.mem_cons, List.not_mem_nil, or_false,
        not_or] using hname
    rw [pose, Dict.set_of_ne _ _ hne.1, Dict.set_of_ne _ _ hne.2]
    rfl

def poseNode (hips knee : ℕ) : Node String ℕ where
  data := pose hips knee
  keys := ["hips", "knee"]
  nodup := by decide
  mem_keys := fun name => (over_pose hips knee name).symm

theorem isProduct_standing :
    IsProduct standing (fun d => (d "hips", d "knee")) (poseNode 0 1) (poseNode 0 2) (pose 0 1) ↔
      Set.InjOn (fun d : Dict String ℕ => (d "hips", d "knee")) (endpoints standing) ∧
        (IsEdge standing (pose 0 1) (pose 0 2) → standing.map Prod.fst = ["hips", "knee"]) ∧
        ¬ Mixed standing (pose 0 1) :=
  isProduct_iff standing (fun d => (d "hips", d "knee")) (poseNode 0 1) (poseNode 0 2) (pose 0 1)
    (by decide) (by decide) (over_pose 0 1) (over_pose 0 2) (over_pose 0 1)

theorem standing_mixed : Mixed standing (pose 0 2) := by
  refine ⟨pose 0 1, isEdge_iff.mpr ⟨over_pose 0 1, over_pose 0 2, ?_⟩, ?_, ?_⟩
  · intro item hitem x y hx hy
    rcases List.mem_pair.mp hitem with rfl | rfl
    · cases hx
      cases hy
      decide
    · cases hx
      cases hy
      decide
  · intro heq
    cases congrFun heq "knee"
  · exact ⟨_, List.mem_cons_self, rfl⟩

/-- The edge into the pose (0, 2) from (0, 1) is not among those `VertexMap.query` yields. -/
theorem standing_not_product :
    ¬ IsProduct standing (fun d => (d "hips", d "knee")) (poseNode 0 1) (poseNode 0 2)
      (pose 0 2) := by
  intro h
  exact not_mixed_of_exactly (by decide) (by decide) (over_pose 0 2) h.queryMap standing_mixed

end Combinatoric

end NaviMisc.Motion
