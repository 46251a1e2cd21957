import NaviMisc.Motion.BayesNet

/-!
What the filter yields: the poses that pass every check on the way, and these are the poses
whose whole weight reaches the threshold.
-/

namespace NaviMisc.Motion

open NaviMisc.Lib.Generator

variable {V M : Type}

namespace BayesAdjacency

open Combinatoric

section Loops

variable {K : Set Bone} {f : V → Dict Bone V → Outcome V} {S : V → Dict Bone V → Prop}
  {good : Prop} {c c' : Dict Bone V}

def AgreeOff (K : Set Bone) (c c' : Dict Bone V) : Prop := ∀ bone ∉ K, c bone = c' bone

theorem AgreeOff.refl (K : Set Bone) (c : Dict Bone V) : AgreeOff K c c := fun _ _ => rfl

theorem AgreeOff.trans {c'' : Dict Bone V} (h : AgreeOff K c c') (h' : AgreeOff K c' c'') :
    AgreeOff K c c'' := fun bone hbone => (h bone hbone).trans (h' bone hbone)

theorem AgreeOff.symm (h : AgreeOff K c c') : AgreeOff K c' c :=
  fun bone hbone => (h bone hbone).symm

theorem AgreeOff.mono {K' : Set Bone} (h : AgreeOff K c c') (hK : K ⊆ K') :
    AgreeOff K' c c' := fun bone hbone => h bone fun hmem => hbone (hK hmem)

theorem agreeOff_set {bone : Bone} (c : Dict Bone V) (v : V) (h : bone ∈ K) :
    AgreeOff K c (c.set bone v) := by
  intro bone' hbone'
  have hne : bone' ≠ bone := by
    rintro rfl
    exact hbone' h
  rw [Dict.set_of_ne _ _ hne]

theorem AgreeOff.of_cons {bone bone' : Bone} {l : List Bone}
    (h : AgreeOff {bone' | bone' ∈ bone :: l} c c') (hne : bone' ≠ bone) (hl : bone' ∉ l) :
    c bone' = c' bone' := by
  apply h
  rw [Set.mem_ofPred_eq, List.mem_cons, not_or]
  exact ⟨hne, hl⟩

theorem AgreeOff.set_cons {bone : Bone} {l : List Bone}
    (h : AgreeOff {bone' | bone' ∈ bone :: l} c c') (v : V) :
    AgreeOff {bone' | bone' ∈ l} (c.set bone v) (c'.set bone v) := by
  intro bone' hbone'
  by_cases heq : bone' = bone
  · rw [heq, Dict.set_self, Dict.set_self]
  · rw [Dict.set_of_ne _ _ heq, Dict.set_of_ne _ _ heq]
    exact h.of_cons heq hbone'

theorem agreeOff_set_iff {bone : Bone} {l : List Bone} {v : V} (h : bone ∉ l) :
    AgreeOff {bone' | bone' ∈ l} (c.set bone v) c' ↔
      AgreeOff {bone' | bone' ∈ bone :: l} c c' ∧ c' bone = some v := by
  constructor
  · intro hagree
    constructor
    · intro bone' hbone'
      rw [Set.mem_ofPred_eq, List.mem_cons, not_or] at hbone'
      rw [← hagree bone' hbone'.2, Dict.set_of_ne _ _ hbone'.1]
    · rw [← hagree bone h, Dict.set_self]
  · rintro ⟨hagree, hv⟩ bone' hbone'
    by_cases heq : bone' = bone
    · rw [heq, Dict.set_self, hv]
    · rw [Dict.set_of_ne _ _ heq]
      exact hagree.of_cons heq hbone'

/-- Where the order ends well, the poses of `S` are yielded, each once; else it is left with an
exception as soon as there is one of them. -/
structure Spec (good : Prop) (S : Dict Bone V → Prop) (out : Outcome V) : Prop where
  yields : good → out.raised = none ∧ out.yielded.Nodup ∧ ∀ d, d ∈ out.yielded ↔ S d
  raises : ¬ good → out.yielded = [] ∧ (out.raised = none ↔ ∀ d, ¬ S d)

theorem Spec.congr {S S' : Dict Bone V → Prop} {out : Outcome V} (h : Spec good S out)
    (hS : ∀ d, S d ↔ S' d) : Spec good S' out := by
  obtain rfl : S = S' := funext fun d => propext (hS d)
  exact h

theorem spec_empty (good : Prop) (c : Dict Bone V) : Spec good (fun _ => False) ⟨[], c, none⟩ :=
  ⟨fun _ => ⟨rfl, List.nodup_nil, fun _ => iff_of_false List.not_mem_nil not_false⟩,
    fun _ => ⟨rfl, iff_of_true rfl fun _ => not_false⟩⟩

theorem Spec.of_raised {S S' : Dict Bone V → Prop} {yielded : List (Dict Bone V)} {e : Error}
    (h : Spec good S ⟨yielded, c, some e⟩) (hS : ∀ d, S d → S' d) :
    Spec good S' ⟨yielded, c, some e⟩ := by
  constructor
  · intro hgood
    cases (h.yields hgood).1
  · intro hgood
    obtain ⟨hnil, hraised⟩ := h.raises hgood
    refine ⟨hnil, iff_of_false (Option.some_ne_none e) ?_⟩
    intro hnone
    have hall : ∀ d, ¬ S d := fun d hd => hnone d (hS d hd)
    exact Option.some_ne_none e (hraised.mpr hall)

theorem Spec.append {S S' : Dict Bone V → Prop} {yielded : List (Dict Bone V)} {out : Outcome V}
    (h : Spec good S ⟨yielded, c, none⟩) (h' : Spec good S' out) (hdisjoint : ∀ d, S d → ¬ S' d) :
    Spec good (fun d => S d ∨ S' d) ⟨yielded ++ out.yielded, out.current, out.raised⟩ := by
  constructor
  · intro hgood
    obtain ⟨-, hnodup, hmem⟩ := h.yields hgood
    obtain ⟨hraised, hnodup', hmem'⟩ := h'.yields hgood
    refine ⟨hraised, List.nodup_append'.mpr ⟨hnodup, hnodup', ?_⟩, ?_⟩
    · rw [List.disjoint_left]
      intro d hd hd'
      exact hdisjoint d ((hmem d).mp hd) ((hmem' d).mp hd')
    · intro d
      rw [List.mem_append, hmem, hmem']
  · intro hgood
    obtain ⟨hnil, hraised⟩ := h.raises hgood
    obtain ⟨hnil', hraised'⟩ := h'.raises hgood
    refine ⟨List.append_eq_nil_iff.mpr ⟨hnil, hnil'⟩, hraised'.trans ?_⟩
    constructor
    · intro hnone d hd
      exact hd.elim (hraised.mp rfl d) (hnone d)
    · intro hnone d hd
      exact hnone d (Or.inr hd)

theorem forEach_spec (hf : ∀ v c', AgreeOff K c c' → AgreeOff K c (f v c').current ∧
      Spec good (S v) (f v c'))
    (hdisjoint : ∀ v v' d, S v d → S v' d → v = v') (vs : List V) (hvs : vs.Nodup)
    (hc : AgreeOff K c c') :
    AgreeOff K c (forEach f vs c').current ∧
      Spec good (fun d => ∃ v ∈ vs, S v d) (forEach f vs c') := by
  induction vs generalizing c' with
  | nil =>
    refine ⟨hc, (spec_empty good c').congr ?_⟩
    intro d
    simp
  | cons v vs ih =>
    obtain ⟨hv, hvs⟩ := List.nodup_cons.mp hvs
    obtain ⟨hagree, hspec⟩ := hf v c' hc
    rw [forEach]
    cases hout : f v c' with
    | mk yielded current raised =>
      rw [hout] at hagree hspec
      cases raised with
      | some e => exact ⟨hagree, hspec.of_raised fun d hd => ⟨v, List.mem_cons_self, hd⟩⟩
      | none =>
        obtain ⟨hagree', hspec'⟩ := ih hvs hagree
        refine ⟨hagree', (hspec.append hspec' ?_).congr ?_⟩
        · rintro d hd ⟨v', hv', hS⟩
          exact hv (hdisjoint v v' d hd hS ▸ hv')
        · intro d
          rw [List.exists_mem_cons_iff]

end Loops

variable [DecidableEq V] (b : BayesAdjacency V M) (u : Dict Bone V)

def Passes (d : Dict Bone V) : List Bone → ℚ → Prop
  | [], _ => True
  | bone :: order, prob =>
    if b.skips bone then Passes d order prob
    else
      match (b.parents bone).bind d with
      | none => Passes d order prob
      | some _ => prob * b.factor d bone ≥ b.epsilon ∧ Passes d order (prob * b.factor d bone)

def Reach (order : List Bone) (current : Dict Bone V) (prob : ℚ) (d : Dict Bone V) : Prop :=
  AgreeOff {bone | bone ∈ b.kept order} current d ∧
    (∀ bone ∈ b.kept order, ∃ x y, u bone = some x ∧ d bone = some y ∧
      (x, y) ∈ (b.data bone).edges) ∧
    b.Passes d order prob

def ReachAt (bone : Bone) (order : List Bone) (current : Dict Bone V) (prob : ℚ)
    (ppos : Option V) (v : V) (d : Dict Bone V) : Prop :=
  match ppos with
  | none => b.Reach u order (current.set bone v) prob d
  | some ppos => prob * b.probability bone ppos v ≥ b.epsilon ∧
      b.Reach u order (current.set bone v) (prob * b.probability bone ppos v) d

def ParentsBefore : List Bone → Prop
  | [] => True
  | bone :: order => (∀ parent, b.parents bone = some parent → parent ∉ bone :: order) ∧
      ParentsBefore order

def EndsKept (order : List Bone) : Prop := ∀ bone ∈ order.getLast?, b.skips bone = false

def accept (order : List Bone) (current : Dict Bone V) (prob : ℚ) : Outcome V :=
  if order ≠ [] then b.filter u order current prob else ⟨[current], current, none⟩

variable {b u} {bone : Bone} {order : List Bone} {current d : Dict Bone V} {prob : ℚ}

theorem kept_cons_of_skips (h : b.skips bone = true) :
    b.kept (bone :: order) = b.kept order := by
  rw [kept, List.filter_cons, h]
  rfl

theorem kept_cons (h : b.skips bone = false) :
    b.kept (bone :: order) = bone :: b.kept order := by
  rw [kept, List.filter_cons, h]
  rfl

theorem mem_of_mem_kept (h : bone ∈ b.kept order) : bone ∈ order := (List.mem_filter.mp h).1

theorem Reach.congr {current' : Dict Bone V}
    (h : AgreeOff {bone | bone ∈ b.kept order} current current') :
    b.Reach u order current prob d ↔ b.Reach u order current' prob d := by
  apply and_congr_left'
  constructor
  · intro hd bone hbone
    exact (h bone hbone).symm.trans (hd bone hbone)
  · intro hd bone hbone
    exact (h bone hbone).trans (hd bone hbone)

theorem reach_nil : b.Reach u [] current prob d ↔ d = current := by
  constructor
  · rintro ⟨hagree, -, -⟩
    funext bone
    exact (hagree bone List.not_mem_nil).symm
  · rintro rfl
    exact ⟨AgreeOff.refl _ _, fun bone h => absurd h List.not_mem_nil, trivial⟩

theorem reach_cons_of_skips (h : b.skips bone = true) :
    b.Reach u (bone :: order) current prob d ↔ b.Reach u order current prob d := by
  rw [Reach, Reach, kept_cons_of_skips h, Passes, if_pos h]

theorem bind_eq_of_agreeOff (hparent : ∀ parent, b.parents bone = some parent → parent ∉ order)
    (h : AgreeOff {bone | bone ∈ b.kept order} current d) :
    (b.parents bone).bind current = (b.parents bone).bind d := by
  cases hb : b.parents bone with
  | none => rfl
  | some parent => exact h parent fun hmem => hparent parent hb (mem_of_mem_kept hmem)

theorem mem_successors {x y : V} :
    y ∈ ((b.data bone).query x).map Prod.snd ↔ (x, y) ∈ (b.data bone).edges :=
  mem_query_snd (b.data bone) x y

theorem edges_cons_iff (h : b.skips bone = false) {x : V} (hx : u bone = some x) :
    (∀ bone' ∈ b.kept (bone :: order), ∃ x y, u bone' = some x ∧ d bone' = some y ∧
        (x, y) ∈ (b.data bone').edges) ↔
      (∃ v ∈ ((b.data bone).query x).map Prod.snd, d bone = some v) ∧
        ∀ bone' ∈ b.kept order, ∃ x y, u bone' = some x ∧ d bone' = some y ∧
          (x, y) ∈ (b.data bone').edges := by
  rw [kept_cons h, List.forall_mem_cons]
  apply and_congr_left'
  constructor
  · rintro ⟨x', y, hx', hy, hedge⟩
    rw [hx] at hx'
    cases hx'
    exact ⟨y, mem_successors.mpr hedge, hy⟩
  · rintro ⟨v, hv, hd⟩
    exact ⟨x, v, hx, hd, mem_successors.mp hv⟩

theorem passes_cons (h : b.skips bone = false) {v : V} (hd : d bone = some v) :
    b.Passes d (bone :: order) prob ↔ match (b.parents bone).bind d with
      | none => b.Passes d order prob
      | some ppos => prob * b.probability bone ppos v ≥ b.epsilon ∧
          b.Passes d order (prob * b.probability bone ppos v) := by
  rw [Passes, if_neg (by rw [h]; exact Bool.false_ne_true), factor]
  cases (b.parents bone).bind d with
  | none => rfl
  | some ppos => rw [hd]

theorem reachAt_iff (hnodup : bone ∉ order) {ppos : Option V} {v : V} :
    b.ReachAt u bone order current prob ppos v d ↔
      (AgreeOff {bone' | bone' ∈ bone :: b.kept order} current d ∧ d bone = some v) ∧
        (∀ bone' ∈ b.kept order, ∃ x y, u bone' = some x ∧ d bone' = some y ∧
          (x, y) ∈ (b.data bone').edges) ∧
        match ppos with
        | none => b.Passes d order prob
        | some ppos => prob * b.probability bone ppos v ≥ b.epsilon ∧
            b.Passes d order (prob * b.probability bone ppos v) := by
  rw [← agreeOff_set_iff fun hmem => hnodup (mem_of_mem_kept hmem)]
  cases ppos with
  | none => rfl
  | some ppos => exact ⟨fun ⟨hcheck, hagree, hedges, hrest⟩ => ⟨hagree, hedges, hcheck, hrest⟩,
      fun ⟨hagree, hedges, hcheck, hrest⟩ => ⟨hcheck, hagree, hedges, hrest⟩⟩

theorem reach_cons (h : b.skips bone = false) (hnodup : bone ∉ order) {x : V} (hx : u bone = some x)
    (hparent : ∀ parent, b.parents bone = some parent → parent ∉ bone :: order) :
    b.Reach u (bone :: order) current prob d ↔
      ∃ v ∈ ((b.data bone).query x).map Prod.snd,
        b.ReachAt u bone order current prob ((b.parents bone).bind current) v d := by
  rw [Reach, edges_cons_iff h hx]
  constructor
  · rintro ⟨hagree, ⟨⟨v, hv, hd⟩, hrest⟩, hpass⟩
    refine ⟨v, hv, (reachAt_iff hnodup).mpr ?_⟩
    rw [passes_cons h hd, ← bind_eq_of_agreeOff hparent hagree] at hpass
    rw [kept_cons h] at hagree
    exact ⟨⟨hagree, hd⟩, hrest, hpass⟩
  · rintro ⟨v, hv, hreach⟩
    obtain ⟨⟨hagree, hd⟩, hrest, hpass⟩ := (reachAt_iff hnodup).mp hreach
    rw [← kept_cons h] at hagree
    refine ⟨hagree, ⟨⟨v, hv, hd⟩, hrest⟩, (passes_cons h hd).mpr ?_⟩
    rw [← bind_eq_of_agreeOff hparent hagree]
    exact hpass

theorem endsKept_nil : b.EndsKept [] := nofun

theorem endsKept_cons (h : b.skips bone = false) :
    b.EndsKept (bone :: order) ↔ b.EndsKept order := by
  rw [EndsKept, EndsKept]
  cases order with
  | nil => simp [h]
  | cons bone' order => rw [List.getLast?_cons_cons]

def branch (b : BayesAdjacency V M) (u : Dict Bone V) (bone : Bone) (order : List Bone)
    (ppos : Option V) (prob : ℚ) (v : V) (current : Dict Bone V) : Outcome V :=
  match ppos with
  | none => b.accept u order (current.set bone v) prob
  | some ppos =>
    if prob * b.probability bone ppos v ≥ b.epsilon then
      b.accept u order (current.set bone v) (prob * b.probability bone ppos v)
    else ⟨[], current.set bone v, none⟩

theorem filter_cons (h : b.skips bone = false) {x : V} (hx : u bone = some x) :
    b.filter u (bone :: order) current prob =
      forEach (b.branch u bone order ((b.parents bone).bind current) prob)
        (((b.data bone).query x).map Prod.snd) current := by
  rw [filter, if_neg (by rw [h]; exact Bool.false_ne_true)]
  simp only [hx]
  rfl

theorem set_of_reach {v : V} (hnodup : bone ∉ order)
    (h : b.Reach u order (current.set bone v) prob d) : d bone = some v := by
  rw [← h.1 bone fun hmem => hnodup (mem_of_mem_kept hmem), Dict.set_self]

theorem set_of_reachAt {v : V} {ppos : Option V} (hnodup : bone ∉ order)
    (h : b.ReachAt u bone order current prob ppos v d) : d bone = some v := by
  cases ppos with
  | none => exact set_of_reach hnodup h
  | some ppos => exact set_of_reach hnodup h.2

theorem branch_spec
    (ih : ∀ current prob, AgreeOff {bone | bone ∈ b.kept order} current
        (b.accept u order current prob).current ∧
      Spec (b.EndsKept order) (b.Reach u order current prob) (b.accept u order current prob))
    (ppos : Option V) (v : V) {current' : Dict Bone V}
    (h : AgreeOff {bone' | bone' ∈ bone :: b.kept order} current current') :
    AgreeOff {bone' | bone' ∈ bone :: b.kept order} current
        (b.branch u bone order ppos prob v current').current ∧
      Spec (b.EndsKept order) (b.ReachAt u bone order current prob ppos v)
        (b.branch u bone order ppos prob v current') := by
  have hset := h.trans (agreeOff_set current' v List.mem_cons_self)
  have hsame := (h.set_cons v).symm
  have haccept (prob : ℚ) :
      AgreeOff {bone' | bone' ∈ bone :: b.kept order} current
          (b.accept u order (current'.set bone v) prob).current ∧
        Spec (b.EndsKept order) (b.Reach u order (current.set bone v) prob)
          (b.accept u order (current'.set bone v) prob) := by
    obtain ⟨hagree, hspec⟩ := ih (current'.set bone v) prob
    exact ⟨hset.trans (hagree.mono fun _ hmem => List.mem_cons_of_mem bone hmem),
      hspec.congr fun d => Reach.congr hsame⟩
  cases ppos with
  | none => exact haccept prob
  | some ppos =>
    rw [branch]
    by_cases hcheck : prob * b.probability bone ppos v ≥ b.epsilon
    · simp only [if_pos hcheck]
      refine ⟨(haccept _).1, (haccept _).2.congr ?_⟩
      intro d
      exact ⟨fun hd => ⟨hcheck, hd⟩, fun hd => hd.2⟩
    · simp only [if_neg hcheck]
      refine ⟨hset, (spec_empty _ _).congr ?_⟩
      intro d
      exact ⟨False.elim, fun hd => hcheck hd.1⟩

theorem accept_spec_of_skips (h : b.skips bone = true)
    (ih : AgreeOff {bone | bone ∈ b.kept order} current (b.accept u order current prob).current ∧
      Spec (b.EndsKept order) (b.Reach u order current prob) (b.accept u order current prob)) :
    AgreeOff {bone | bone ∈ b.kept order} current
        (b.filter u (bone :: order) current prob).current ∧
      Spec (b.EndsKept (bone :: order)) (b.Reach u order current prob)
        (b.filter u (bone :: order) current prob) := by
  rw [filter, if_pos h]
  cases order with
  | nil =>
    refine ⟨AgreeOff.refl _ _, ?_, ?_⟩
    · intro hends
      have hkept := hends bone rfl
      rw [h] at hkept
      cases hkept
    · intro _
      refine ⟨rfl, iff_of_false (Option.some_ne_none _) ?_⟩
      intro hnone
      exact hnone current (reach_nil.mpr rfl)
  | cons bone' order =>
    have hends : b.EndsKept (bone :: bone' :: order) = b.EndsKept (bone' :: order) := by
      rw [EndsKept, EndsKept, List.getLast?_cons_cons]
    rw [hends]
    exact ih

theorem accept_spec (order : List Bone) (hnodup : order.Nodup) (hparents : b.ParentsBefore order)
    (hu : ∀ bone ∈ b.kept order, ∃ x, u bone = some x) (current : Dict Bone V) (prob : ℚ) :
    AgreeOff {bone | bone ∈ b.kept order} current (b.accept u order current prob).current ∧
      Spec (b.EndsKept order) (b.Reach u order current prob) (b.accept u order current prob) := by
  induction order generalizing current prob with
  | nil =>
    refine ⟨AgreeOff.refl _ _, ?_, fun h => absurd endsKept_nil h⟩
    intro _
    refine ⟨rfl, List.nodup_singleton _, ?_⟩
    intro d
    rw [reach_nil]
    exact List.mem_singleton
  | cons bone order ih =>
    obtain ⟨hbone, hnodup⟩ := List.nodup_cons.mp hnodup
    obtain ⟨hparent, hparents⟩ := hparents
    rw [accept, if_pos (List.cons_ne_nil bone order)]
    cases hskips : b.skips bone with
    | true =>
      rw [kept_cons_of_skips hskips] at hu ⊢
      have hreach : b.Reach u (bone :: order) current prob = b.Reach u order current prob :=
        funext fun d => propext (reach_cons_of_skips hskips)
      rw [hreach]
      exact accept_spec_of_skips hskips (ih hnodup hparents hu current prob)
    | false =>
      rw [kept_cons hskips, List.forall_mem_cons] at hu
      obtain ⟨⟨x, hx⟩, hu⟩ := hu
      have hends : b.EndsKept (bone :: order) = b.EndsKept order := propext (endsKept_cons hskips)
      rw [filter_cons hskips hx, hends, kept_cons hskips]
      have hdisjoint : ∀ v v' d,
          b.ReachAt u bone order current prob ((b.parents bone).bind current) v d →
          b.ReachAt u bone order current prob ((b.parents bone).bind current) v' d → v = v' := by
        intro v v' d hv hv'
        exact Option.some.inj ((set_of_reachAt hbone hv).symm.trans (set_of_reachAt hbone hv'))
      obtain ⟨hagree, hspec⟩ := forEach_spec
        (fun v c' hc => branch_spec (fun c p => ih hnodup hparents hu c p)
          ((b.parents bone).bind current) v hc)
        hdisjoint _ (nodup_query_snd (b.data bone) x) (AgreeOff.refl _ current)
      refine ⟨hagree, hspec.congr ?_⟩
      intro d
      exact (reach_cons hskips hbone hx hparent).symm

section Weight

variable (hprob : ∀ bone spot p, b.bayes bone spot = some p → 0 ≤ p ∧ p ≤ 1)
include hprob

theorem factor_mem (d : Dict Bone V) (bone : Bone) : 0 ≤ b.factor d bone ∧ b.factor d bone ≤ 1 := by
  rw [factor]
  split
  · rename_i ppos v _ _
    rw [probability]
    cases hp : b.bayes bone (b.mins ppos, b.mins v) with
    | none => exact ⟨le_rfl, zero_le_one⟩
    | some p => exact hprob _ _ _ hp
  · exact ⟨zero_le_one, le_rfl⟩

theorem weight_mem (d : Dict Bone V) (order : List Bone) :
    0 ≤ b.weight d order ∧ b.weight d order ≤ 1 := by
  rw [weight]
  induction b.kept order with
  | nil => exact ⟨zero_le_one, le_rfl⟩
  | cons bone l ih =>
    obtain ⟨hpos, hle⟩ := factor_mem hprob d bone
    rw [List.map_cons, List.prod_cons]
    exact ⟨mul_nonneg hpos ih.1, mul_le_one₀ hle ih.1 ih.2⟩

omit hprob in
theorem factor_of_bind_eq_none {d : Dict Bone V} (h : (b.parents bone).bind d = none) :
    b.factor d bone = 1 := by
  rw [factor, h]

omit hprob in
theorem weight_cons (h : b.skips bone = false) (d : Dict Bone V) :
    b.weight d (bone :: order) = b.factor d bone * b.weight d order := by
  rw [weight, kept_cons h, List.map_cons, List.prod_cons]
  rfl

omit hprob in
theorem weight_eq_one {d : Dict Bone V}
    (h : ∀ bone ∈ b.kept order, (b.parents bone).bind d = none) : b.weight d order = 1 := by
  apply List.prod_eq_one
  intro p hp
  obtain ⟨bone, hbone, rfl⟩ := List.mem_map.mp hp
  exact factor_of_bind_eq_none (h bone hbone)

theorem passes_iff (d : Dict Bone V) (order : List Bone) {prob : ℚ} (hpos : 0 ≤ prob) :
    b.Passes d order prob ↔ ((∃ bone ∈ b.kept order, (b.parents bone).bind d ≠ none) →
      b.epsilon ≤ prob * b.weight d order) := by
  induction order generalizing prob with
  | nil =>
    refine iff_of_true trivial ?_
    rintro ⟨bone, hbone, -⟩
    exact absurd hbone List.not_mem_nil
  | cons bone order ih =>
    rw [Passes]
    cases hskips : b.skips bone with
    | true =>
      rw [if_pos rfl, ih hpos, weight, weight, kept_cons_of_skips hskips]
    | false =>
      rw [if_neg Bool.false_ne_true, weight_cons hskips, kept_cons hskips, List.exists_mem_cons_iff]
      cases hbind : (b.parents bone).bind d with
      | none =>
        have hne : ¬ (none : Option V) ≠ none := fun hne => hne rfl
        simp only [hne, false_or]
        rw [ih hpos, factor_of_bind_eq_none hbind, one_mul]
      | some ppos =>
        have hfactor := factor_mem hprob d bone
        have hweight := weight_mem hprob d order
        have hnext : 0 ≤ prob * b.factor d bone := mul_nonneg hpos hfactor.1
        have hdrop : prob * b.factor d bone * b.weight d order ≤ prob * b.factor d bone :=
          mul_le_of_le_one_right hnext hweight.2
        simp only [ne_eq, Option.some_ne_none, not_false_eq_true, true_or, true_imp_iff]
        rw [ih hnext, ← mul_assoc]
        constructor
        · rintro ⟨hcheck, hrest⟩
          by_cases hlater : ∃ bone ∈ b.kept order, (b.parents bone).bind d ≠ none
          · exact hrest hlater
          · have hone : b.weight d order = 1 := by
              apply weight_eq_one
              intro bone hbone
              by_contra hne
              exact hlater ⟨bone, hbone, hne⟩
            rw [hone, mul_one]
            exact hcheck
        · intro h
          exact ⟨h.trans hdrop, fun _ => h⟩

end Weight

def SomeChecked (b : BayesAdjacency V M) : Prop :=
  ∃ bone ∈ b.kept b.order, ∃ parent ∈ b.kept b.order, b.parents bone = some parent

theorem map_fst_items : b.items.map Prod.fst = b.kept b.order := by
  rw [items, List.map_map]
  exact List.map_id _

theorem checked_iff (h : IsEdge b.items u d) :
    (∃ bone ∈ b.kept b.order, (b.parents bone).bind d ≠ none) ↔ b.SomeChecked := by
  have hover := (isEdge_iff.mp h).2.1
  rw [Over, map_fst_items] at hover
  constructor
  · rintro ⟨bone, hbone, hbind⟩
    cases hparent : b.parents bone with
    | none =>
      rw [hparent] at hbind
      exact absurd rfl hbind
    | some parent =>
      rw [hparent] at hbind
      exact ⟨bone, hbone, parent, (hover parent).mp hbind, hparent⟩
  · rintro ⟨bone, hbone, parent, hmem, hparent⟩
    refine ⟨bone, hbone, ?_⟩
    rw [hparent]
    exact (hover parent).mpr hmem

theorem reach_iff (hu : Over b.items u) : b.Reach u b.order Dict.empty 1 d ↔
    IsEdge b.items u d ∧ b.Passes d b.order 1 := by
  rw [Reach, ← and_assoc]
  apply and_congr_left'
  constructor
  · rintro ⟨hagree, hedge⟩
    constructor
    · intro item hitem
      obtain ⟨bone, hbone, rfl⟩ := List.mem_map.mp hitem
      obtain ⟨x, y, hx, hy, hxy⟩ := hedge bone hbone
      exact ⟨(x, y), hxy, hx, hy⟩
    · intro name hname
      refine ⟨hu.absent hname, ?_⟩
      rw [map_fst_items] at hname
      exact (hagree name hname).symm
  · rintro ⟨hedge, hrest⟩
    constructor
    · intro bone hbone
      rw [Set.mem_ofPred_eq, ← map_fst_items] at hbone
      exact (hrest bone hbone).2.symm
    · intro bone hbone
      obtain ⟨p, hp, hx, hy⟩ := hedge (bone, b.data bone) (List.mem_map_of_mem hbone)
      exact ⟨p.1, p.2, hx, hy, hp⟩

theorem parentsBefore_of {b : BayesAdjacency V M} (pre order : List Bone)
    (hnodup : (pre ++ order).Nodup)
    (h : ∀ pre' bone post, pre ++ order = pre' ++ bone :: post →
      ∀ parent, b.parents bone = some parent → parent ∈ pre') : b.ParentsBefore order := by
  induction order generalizing pre with
  | nil => trivial
  | cons bone order ih =>
    constructor
    · intro parent hparent hmem
      have hpre := h pre bone order rfl parent hparent
      exact List.disjoint_of_nodup_append hnodup hpre hmem
    · rw [List.append_cons] at hnodup h
      exact ih _ hnodup h

theorem Ordered.accept_eq (hb : b.Ordered) :
    b.filter u b.order Dict.empty 1 = b.accept u b.order Dict.empty 1 := by
  have hne : b.order ≠ [] := by
    intro hnil
    have hroot := hb.root
    rw [hnil] at hroot
    cases hroot
  rw [accept, if_pos hne]

omit [DecidableEq V] in
theorem exactly_pairs_iff {l : List (Dict Bone V)} {raised : Option Error}
    {P : Dict Bone V → Prop} :
    Exactly ⟨l.map fun v => (u, v), raised⟩ (fun e => e.1 = u ∧ P e.2) ↔
      raised = none ∧ l.Nodup ∧ ∀ v, v ∈ l ↔ P v := by
  have hinj : Function.Injective fun v : Dict Bone V => (u, v) := fun _ _ h => congrArg Prod.snd h
  rw [Exactly]
  apply and_congr_right'
  apply and_congr (List.nodup_map_iff hinj)
  constructor
  · intro h v
    have hv := h (u, v)
    rw [List.mem_map_of_injective hinj] at hv
    exact hv.trans ⟨fun hP => hP.2, fun hP => ⟨rfl, hP⟩⟩
  · rintro h ⟨u', v⟩
    rw [List.mem_map]
    constructor
    · rintro ⟨v', hv', heq⟩
      cases heq
      exact ⟨rfl, (h v).mp hv'⟩
    · rintro ⟨rfl, hP⟩
      exact ⟨v, (h v).mpr hP, rfl⟩

section setOrder

variable {s : List Bone × (Bone → Option Bone)} {parent child : Bone}

structure Attached (done : List Bone) (s : List Bone × (Bone → Option Bone)) : Prop where
  root : s.1.head? = some "root"
  nodup : s.1.Nodup
  mem : ∀ bone ∈ s.1, bone = "root" ∨ bone ∈ done
  parents : ∀ pre bone post, s.1 = pre ++ bone :: post →
    ∀ parent, s.2 bone = some parent → parent ∈ pre

theorem Attached.notMem {done : List Bone} (h : Attached done s) (hroot : child ≠ "root")
    (hdone : child ∉ done) : child ∉ s.1 := by
  intro hmem
  exact (h.mem child hmem).elim hroot hdone

theorem Attached.parents_update {done : List Bone} (h : Attached done s) (hchild : child ∉ s.1)
    (pre : List Bone) (bone : Bone) (post : List Bone) (horder : s.1 = pre ++ bone :: post)
    (p : Bone) (hp : Function.update s.2 child (some parent) bone = some p) : p ∈ pre := by
  have hne : bone ≠ child := by
    rintro rfl
    apply hchild
    rw [horder]
    exact List.mem_append_right pre List.mem_cons_self
  rw [Function.update_of_ne hne] at hp
  exact h.parents pre bone post horder p hp

theorem Attached.attach_of_mem {done : List Bone} (h : Attached done s) (hchild : child ∉ s.1)
    (hparent : parent ∈ s.1) :
    Attached (child :: done) (s.1 ++ [child], Function.update s.2 child (some parent)) where
  root := by
    rw [List.head?_append, h.root]
    rfl
  nodup := List.nodup_append'.mpr ⟨h.nodup, List.nodup_singleton child,
    List.disjoint_singleton.mpr hchild⟩
  mem := by
    intro bone hbone
    rw [List.mem_append, List.mem_singleton] at hbone
    rcases hbone with hbone | rfl
    · exact (h.mem bone hbone).imp_right (List.mem_cons_of_mem child)
    · exact Or.inr List.mem_cons_self
  parents := by
    intro pre bone post heq p hp
    rcases List.eq_nil_or_concat' post with rfl | ⟨post, last, rfl⟩
    · obtain ⟨rfl, hlast⟩ := List.append_inj' heq rfl
      cases hlast
      dsimp only at hp
      rw [Function.update_self] at hp
      cases hp
      exact hparent
    · rw [← List.cons_append, ← List.append_assoc] at heq
      exact h.parents_update hchild pre bone post (List.append_inj' heq rfl).1 p hp

theorem Attached.attach_of_not_mem {done : List Bone} (h : Attached done s) (hchild : child ∉ s.1) :
    Attached (child :: done) (s.1, Function.update s.2 child (some parent)) where
  root := h.root
  nodup := h.nodup
  mem := fun bone hbone => (h.mem bone hbone).imp_right (List.mem_cons_of_mem child)
  parents := h.parents_update hchild

theorem Attached.attach {done : List Bone} (h : Attached done s) (hroot : child ≠ "root")
    (hdone : child ∉ done) : Attached (child :: done) (BayesAdjacency.attach parent s child) := by
  have hchild := h.notMem hroot hdone
  rw [BayesAdjacency.attach]
  by_cases hparent : parent ∈ s.1
  · rw [if_pos ⟨hparent, hchild⟩]
    exact h.attach_of_mem hchild hparent
  · rw [if_neg fun hand => hparent hand.1]
    exact h.attach_of_not_mem hchild

theorem Attached.children {done : List Bone} (h : Attached done s) (parent : Bone)
    (children : List Bone) (hnodup : children.Nodup)
    (hnew : ∀ child ∈ children, child ≠ "root" ∧ child ∉ done) :
    Attached (children.reverse ++ done) (children.foldl (BayesAdjacency.attach parent) s) := by
  induction children generalizing done s with
  | nil => exact h
  | cons child children ih =>
    obtain ⟨hchild, hnodup⟩ := List.nodup_cons.mp hnodup
    obtain ⟨hroot, hdone⟩ := hnew child List.mem_cons_self
    rw [List.reverse_cons, List.append_assoc, List.foldl_cons]
    apply ih (h.attach hroot hdone) hnodup
    intro child' hchild'
    obtain ⟨hroot', hdone'⟩ := hnew child' (List.mem_cons_of_mem child hchild')
    refine ⟨hroot', ?_⟩
    exact List.not_mem_cons_of_ne_of_not_mem (fun heq => hchild (heq ▸ hchild')) hdone'

theorem attached_setOrder (hierarchy : List (List Bone))
    (hnodup : (hierarchy.flatMap List.tail).Nodup) (hroot : "root" ∉ hierarchy.flatMap List.tail) :
    Attached (hierarchy.flatMap List.tail).reverse (setOrder hierarchy) := by
  have hstart : Attached [] (["root"], fun _ => none) := by
    refine ⟨rfl, List.nodup_singleton _, fun bone h => Or.inl (List.mem_singleton.mp h), ?_⟩
    intro pre bone post _ parent hparent
    cases hparent
  suffices h : ∀ done s, Attached done s → (hierarchy.flatMap List.tail ++ done).Nodup →
      "root" ∉ hierarchy.flatMap List.tail →
        Attached ((hierarchy.flatMap List.tail).reverse ++ done)
        (hierarchy.foldl (fun s group => match group with
          | [] => s
          | parent :: children => children.foldl (BayesAdjacency.attach parent) s) s) by
    have hall := h [] _ hstart (by rwa [List.append_nil]) hroot
    rwa [List.append_nil] at hall
  clear hnodup hroot
  induction hierarchy with
  | nil => exact fun done s h _ _ => h
  | cons group hierarchy ih =>
    intro done s h hnodup hroot
    rw [List.flatMap_cons, List.append_assoc] at hnodup
    rw [List.flatMap_cons, List.mem_append, not_or] at hroot
    cases group with
    | nil => exact ih done s h hnodup hroot.2
    | cons parent children =>
      obtain ⟨hchildren, hrest, hdisjoint⟩ := List.nodup_append'.mp hnodup
      have hnext := h.children parent children hchildren fun child hchild =>
        ⟨fun heq => hroot.1 (heq ▸ hchild), fun hdone =>
          List.disjoint_left.mp hdisjoint hchild (List.mem_append_right _ hdone)⟩
      rw [List.flatMap_cons, List.reverse_append, List.append_assoc]
      apply ih _ _ hnext _ hroot.2
      have hperm := (List.perm_append_comm_assoc children (hierarchy.flatMap List.tail) done).trans
        ((children.reverse_perm.symm.append_right done).append_left _)
      exact hperm.nodup_iff.mp hnodup

theorem ordered_setOrder (b : BayesAdjacency V M) {hierarchy : List (List Bone)}
    (hnodup : (hierarchy.flatMap List.tail).Nodup) (hroot : "root" ∉ hierarchy.flatMap List.tail)
    (horder : (b.order, b.parents) = setOrder hierarchy) : b.Ordered := by
  have h := attached_setOrder hierarchy hnodup hroot
  rw [← horder] at h
  exact ⟨h.root, h.nodup, h.parents⟩

end setOrder

section Threshold

variable (hprob : ∀ bone spot p, b.bayes bone spot = some p → 0 ≤ p ∧ p ≤ 1)
  (hu : Over b.items u)
include hprob hu

theorem reach_iff_checked (v : Dict Bone V) : b.Reach u b.order Dict.empty 1 v ↔
    IsEdge b.items u v ∧ (b.SomeChecked → b.epsilon ≤ b.weight v b.order) := by
  rw [reach_iff hu]
  apply and_congr_right
  intro hedge
  rw [passes_iff hprob v b.order zero_le_one, checked_iff hedge, one_mul]

omit hprob hu in
theorem weight_eq_one_of_not_checked (h : ¬ b.SomeChecked) {v : Dict Bone V}
    (hedge : IsEdge b.items u v) : b.weight v b.order = 1 := by
  apply weight_eq_one
  intro bone hbone
  by_contra hbind
  exact h ((checked_iff hedge).mp ⟨bone, hbone, hbind⟩)

theorem reach_accepted_iff : (∀ v, b.Reach u b.order Dict.empty 1 v ↔ b.Accepted u v) ↔
    b.SomeChecked ∨ b.epsilon ≤ 1 ∨ ∀ v, ¬ IsEdge b.items u v := by
  constructor
  · intro h
    by_cases hchecked : b.SomeChecked
    · exact Or.inl hchecked
    · by_cases hedges : ∃ v, IsEdge b.items u v
      · obtain ⟨v, hedge⟩ := hedges
        have hreach := (reach_iff_checked hprob hu v).mpr ⟨hedge, fun h => absurd h hchecked⟩
        have haccepted := (h v).mp hreach
        rw [Accepted, weight_eq_one_of_not_checked hchecked hedge] at haccepted
        exact Or.inr (Or.inl haccepted.2)
      · exact Or.inr (Or.inr fun v hedge => hedges ⟨v, hedge⟩)
  · intro h v
    rw [reach_iff_checked hprob hu v, Accepted]
    apply and_congr_right
    intro hedge
    refine ⟨fun hv => ?_, fun hv _ => hv⟩
    by_cases hchecked : b.SomeChecked
    · exact hv hchecked
    · rw [weight_eq_one_of_not_checked hchecked hedge]
      exact (h.resolve_left hchecked).resolve_right fun hnone => hnone v hedge

end Threshold

/-- The filter is right unless the order ends with a bone it skips, or the threshold is above 1
and nothing is ever checked. -/
theorem query_exactly_iff (b : BayesAdjacency V M) (u : Dict Bone V) (hb : b.Ordered)
    (hprob : ∀ bone spot p, b.bayes bone spot = some p → 0 ≤ p ∧ p ≤ 1) (hu : Over b.items u) :
    Exactly (b.query u) (fun e => e.1 = u ∧ b.Accepted u e.2) ↔
      (b.EndsKept b.order ∨ ∀ v, ¬ b.Accepted u v) ∧
        (b.SomeChecked ∨ b.epsilon ≤ 1 ∨ ∀ v, ¬ IsEdge b.items u v) := by
  have hknown : ∀ bone ∈ b.kept b.order, ∃ x, u bone = some x :=
    fun bone hbone => hu.get (List.mem_map_of_mem (f := fun bone => (bone, b.data bone)) hbone)
  have hbefore : b.ParentsBefore b.order := parentsBefore_of [] b.order hb.nodup hb.parents
  have hspec := (accept_spec b.order hb.nodup hbefore hknown Dict.empty 1).2
  rw [query, hb.accept_eq, exactly_pairs_iff, ← reach_accepted_iff hprob hu]
  by_cases hends : b.EndsKept b.order
  · obtain ⟨hraised, hnodup, hmem⟩ := hspec.yields hends
    simp only [hraised, hnodup, hends, true_and, true_or, hmem]
  · obtain ⟨hnil, hraised⟩ := hspec.raises hends
    simp only [hnil, List.nodup_nil, List.not_mem_nil, false_iff, true_and, hends, false_or,
      hraised]
    -- Nothing is yielded, and the exception is raised as soon as there is a pose to yield.
    constructor
    · rintro ⟨hnone, haccepted⟩
      exact ⟨haccepted, fun v => iff_of_false (hnone v) (haccepted v)⟩
    · rintro ⟨haccepted, hsame⟩
      exact ⟨fun v hreach => haccepted v ((hsame v).mp hreach), haccepted⟩

def toes (dof : Bone → Bool) : BayesAdjacency ℕ ℕ where
  order := ["root", "toe"]
  parents := fun bone => if bone = "toe" then some "root" else none
  dof := dof
  data := fun _ => .ofEdges [(0, 1)] (by decide)
  bayes := fun _ _ => none
  epsilon := 1 / 2
  mins := id

theorem ordered_toes (dof : Bone → Bool) : (toes dof).Ordered := by
  have hparents : (toes dof).parents = Function.update (fun _ => none) "toe" (some "root") := by
    funext bone
    rw [Function.update_apply]
    rfl
  have horder : ((toes dof).order, (toes dof).parents) = setOrder [["root", "toe"]] := by
    rw [hparents]
    rfl
  exact ordered_setOrder (toes dof) (by decide) (by decide) horder

theorem over_root {d : Dict Bone ℕ} (h : d = Dict.empty.set "root" 0) :
    Over (toes fun _ => false).items d := by
  have hitems : (toes fun _ => false).items.map Prod.fst = ["root"] := by
    rw [map_fst_items]
    decide
  intro name
  rw [hitems, List.mem_singleton, h]
  by_cases hname : name = "root"
  · rw [hname, Dict.set_self]
    simp
  · rw [Dict.set_of_ne _ _ hname]
    simp [Dict.empty, hname]

theorem query_exactly_iff_toes :
    Exactly ((toes fun _ => false).query (Dict.empty.set "root" 0))
        (fun e => e.1 = Dict.empty.set "root" 0 ∧
          (toes fun _ => false).Accepted (Dict.empty.set "root" 0) e.2) ↔
      ((toes fun _ => false).EndsKept ["root", "toe"] ∨
        ∀ v, ¬ (toes fun _ => false).Accepted (Dict.empty.set "root" 0) v) ∧
        ((toes fun _ => false).SomeChecked ∨ (1 / 2 : ℚ) ≤ 1 ∨
          ∀ v, ¬ IsEdge (toes fun _ => false).items (Dict.empty.set "root" 0) v) :=
  query_exactly_iff (toes fun _ => false) (Dict.empty.set "root" 0) (ordered_toes _)
    (fun _ _ _ h => by cases h) (over_root rfl)

/-- At the toe the rest of the order is empty, and so is `order[0]` asked for. -/
theorem toe_raises :
    ((toes fun _ => false).query (Dict.empty.set "root" 0)).raised = some .indexError ∧
      ¬ Exactly ((toes fun _ => false).query (Dict.empty.set "root" 0))
        (fun e => e.1 = Dict.empty.set "root" 0 ∧
          (toes fun _ => false).Accepted (Dict.empty.set "root" 0) e.2) := by
  have hraised : ((toes fun _ => false).query (Dict.empty.set "root" 0)).raised =
      some .indexError := by decide
  refine ⟨hraised, ?_⟩
  rintro ⟨hnone, -⟩
  rw [hraised] at hnone
  cases hnone

end BayesAdjacency

end NaviMisc.Motion
