import NaviMisc.Lib.Lists
import NaviMisc.Motion.BayesNet

/-!
What `build_bayes` counts, against the nodes that `build_graphs` gives to the same frames.
-/

namespace NaviMisc.Motion.MotionGraph

open NaviMisc.Lib.Outcome NaviMisc.Lib.Lists NaviMisc.Lib.Tally

def moving (amcs : List AMC) (bone : Bone) : Bool :=
  match amcs with
  | [] => false
  | amc :: _ => (amc.bones bone).isSome

def groupOf : List Bone → Option (Bone × List Bone)
  | [] => none
  | parent :: children => if parent = "" then none else some (parent, children)

def groups (hierarchy : List (List Bone)) : List (Bone × List Bone) := hierarchy.filterMap groupOf

def linksOf (groups : List (Bone × List Bone)) : List (Bone × Bone) :=
  groups.flatMap fun group => group.2.map fun child => (group.1, child)

def rowsOf (amc : AMC) (bone : Bone) : List (List ℚ) :=
  ((amc.bones bone).map MotionArray.rows).getD []

def framesOf (amcs : List AMC) (parent child : Bone) : List (List ℚ × List ℚ) :=
  amcs.flatMap fun amc => (rowsOf amc parent).zip (rowsOf amc child)

def spots (amcs : List AMC) (interval : ℕ) (parent child : Bone) : List Spot :=
  if moving amcs parent then (framesOf amcs parent child).map fun f => spot interval f.1 f.2
  else (amcs.flatMap fun amc => rowsOf amc child).map (lone interval)

def rootSpots (amcs : List AMC) (interval : ℕ) : List Spot :=
  (amcs.flatMap fun amc => rowsOf amc "root").map fun row => lone interval (used "root" row)

/-- Motion captured for a skeleton: all files have the same bones with the same degrees of freedom,
all bones of a file its frames, the root the six columns of its `order`. The hierarchy is a
tree. -/
structure Corpus (hierarchy : List (List Bone)) (amcs : List AMC) : Prop where
  files : amcs ≠ []
  bones : ∀ amc ∈ amcs, ∀ bone, (amc.bones bone).isSome = moving amcs bone
  frames : ∀ amc ∈ amcs, ∃ n, 1 ≤ n ∧ ∀ bone d, amc.bones bone = some d → d.rows.length = n
  dof : ∀ bone, ∃ dof, 1 ≤ dof ∧
    ∀ amc ∈ amcs, ∀ d, amc.bones bone = some d → (columns bone d).width = dof
  root : ∀ amc ∈ amcs, ∃ d, amc.bones "root" = some d ∧ d.width = 6
  lines : ∀ group ∈ hierarchy, group ≠ []
  parents : ((groups hierarchy).map Prod.fst).Nodup
  children : (((linksOf (groups hierarchy)).filter (moving amcs ·.2)).map Prod.snd).Nodup
  orphan : ∀ link ∈ linksOf (groups hierarchy), link.2 ≠ "root"

variable {interval : ℕ} {hierarchy : List (List Bone)} {amcs : List AMC}

/-! Counting. -/

section counting

theorem foldl_bump {α : Type} (key : α → Spot) (rows : List α) (net : BayesNet) :
    rows.foldl (fun net row => bump (key row) net) net = tally (rows.map key) net := by
  rw [tally, List.foldl_map]

theorem countFrames_eq {ps cs : List (List ℚ)} (h : ps.length = cs.length) (net : BayesNet) :
    countFrames interval net ps cs =
      .ok (tally ((ps.zip cs).map fun f => spot interval f.1 f.2) net) := by
  induction ps generalizing cs net with
  | nil => rfl
  | cons p ps ih =>
    cases cs with
    | nil => cases h
    | cons c cs => exact ih (Nat.succ.inj h) _

theorem foldlM_tally {f : BayesNet × ℕ → AMC → Except Raised (BayesNet × ℕ)}
    {keys : AMC → List Spot}
    (hf : ∀ amc ∈ amcs, ∀ s, f s amc = .ok (tally (keys amc) s.1, s.2 + (keys amc).length))
    (s : BayesNet × ℕ) :
    amcs.foldlM f s = .ok (tally (amcs.flatMap keys) s.1, s.2 + (amcs.flatMap keys).length) := by
  induction amcs generalizing s with
  | nil => rfl
  | cons amc amcs ih =>
    rw [List.forall_mem_cons] at hf
    rw [List.foldlM_cons, hf.1]
    change amcs.foldlM f _ = _
    rw [ih hf.2, List.flatMap_cons, List.length_append, ← Nat.add_assoc]
    simp only [tally, List.foldl_append]

theorem probabilities_tally {keys : List Spot} (h : keys ≠ []) :
    probabilities (tally keys [], 0 + keys.length) = .ok (frequencies keys) := by
  rw [probabilities, Nat.zero_add, if_neg]
  · rfl
  · intro hempty
    exact h (List.length_eq_zero_iff.mp hempty.1)

theorem inMocap_eq (hamcs : amcs ≠ []) (bone : Bone) :
    inMocap amcs bone = .ok (moving amcs bone) := by
  cases amcs with
  | nil => exact absurd rfl hamcs
  | cons amc amcs => rfl

theorem rowsOf_eq {amc : AMC} {bone : Bone} {d : MotionArray} (h : amc.bones bone = some d) :
    rowsOf amc bone = d.rows := by
  rw [rowsOf, h]
  rfl

theorem AMC.get_eq {amc : AMC} {bone : Bone} {d : MotionArray} (h : amc.bones bone = some d) :
    amc.get bone = .ok d := by
  rw [AMC.get, h]

theorem Corpus.exists_bone (h : Corpus hierarchy amcs) {bone : Bone} (hbone : moving amcs bone)
    {amc : AMC} (hamc : amc ∈ amcs) : ∃ d, amc.bones bone = some d ∧ d.rows ≠ [] := by
  have hsome := h.bones amc hamc bone
  rw [hbone, Option.isSome_iff_exists] at hsome
  obtain ⟨d, hd⟩ := hsome
  obtain ⟨n, hn, hlength⟩ := h.frames amc hamc
  refine ⟨d, hd, ?_⟩
  rw [← List.length_pos_iff, hlength bone d hd]
  exact hn

theorem Corpus.moving_root (h : Corpus hierarchy amcs) : moving amcs "root" := by
  obtain ⟨amc, hamc⟩ := List.exists_mem_of_ne_nil _ h.files
  obtain ⟨d, hd, -⟩ := h.root amc hamc
  rw [← h.bones amc hamc, hd]
  rfl

theorem countRoot_ok (h : Corpus hierarchy amcs) :
    amcs.foldlM (countRoot interval) ([], 0) =
      .ok (tally (rootSpots amcs interval) [], 0 + (rootSpots amcs interval).length) := by
  rw [rootSpots, List.map_flatMap]
  apply foldlM_tally
  intro amc hamc s
  obtain ⟨d, hd, -⟩ := h.exists_bone h.moving_root hamc
  rw [countRoot, AMC.get_eq hd, rowsOf_eq hd, List.length_map, ← foldl_bump]
  rfl

theorem countAlone_ok (h : Corpus hierarchy amcs) {child : Bone} (hchild : moving amcs child)
    {keys : List Spot} (hkeys : keys = (amcs.flatMap fun amc => rowsOf amc child).map (lone interval)) :
    amcs.foldlM (countAlone interval child) ([], 0) = .ok (tally keys [], 0 + keys.length) := by
  rw [hkeys, List.map_flatMap]
  apply foldlM_tally
  intro amc hamc s
  obtain ⟨d, hd, -⟩ := h.exists_bone hchild hamc
  rw [countAlone, AMC.get_eq hd, rowsOf_eq hd, List.length_map, ← foldl_bump]
  rfl

theorem countWithParent_ok (h : Corpus hierarchy amcs) {parent child : Bone}
    (hparent : moving amcs parent) (hchild : moving amcs child) {keys : List Spot}
    (hkeys : keys = (framesOf amcs parent child).map fun f => spot interval f.1 f.2) :
    amcs.foldlM (countWithParent interval parent child) ([], 0) =
      .ok (tally keys [], 0 + keys.length) := by
  rw [hkeys, framesOf, List.map_flatMap]
  apply foldlM_tally
  intro amc hamc s
  obtain ⟨p, hp, -⟩ := h.exists_bone hparent hamc
  obtain ⟨c, hc, -⟩ := h.exists_bone hchild hamc
  obtain ⟨n, -, hlength⟩ := h.frames amc hamc
  have hsame : p.rows.length = c.rows.length := by rw [hlength _ _ hp, hlength _ _ hc]
  rw [countWithParent, AMC.get_eq hp, AMC.get_eq hc, rowsOf_eq hp, rowsOf_eq hc]
  change (countFrames interval s.1 p.rows c.rows >>= fun net => _) = _
  rw [countFrames_eq hsame, List.length_map, List.length_zip, hsame, Nat.min_self]
  rfl

theorem framesOf_ne_nil (h : Corpus hierarchy amcs) {parent child : Bone}
    (hparent : moving amcs parent) (hchild : moving amcs child) :
    framesOf amcs parent child ≠ [] := by
  obtain ⟨amc, hamc⟩ := List.exists_mem_of_ne_nil _ h.files
  obtain ⟨p, hp, hpne⟩ := h.exists_bone hparent hamc
  obtain ⟨c, hc, hcne⟩ := h.exists_bone hchild hamc
  intro hnil
  have hzip := List.flatMap_eq_nil_iff.mp hnil amc hamc
  rw [rowsOf_eq hp, rowsOf_eq hc, List.zip_eq_nil_iff] at hzip
  exact hzip.elim hpne hcne

theorem rows_ne_nil (h : Corpus hierarchy amcs) {bone : Bone} (hbone : moving amcs bone) :
    (amcs.flatMap fun amc => rowsOf amc bone) ≠ [] := by
  obtain ⟨amc, hamc⟩ := List.exists_mem_of_ne_nil _ h.files
  obtain ⟨d, hd, hne⟩ := h.exists_bone hbone hamc
  intro hnil
  have hrows := List.flatMap_eq_nil_iff.mp hnil amc hamc
  rw [rowsOf_eq hd] at hrows
  exact hne hrows

theorem rootSpots_ne_nil (h : Corpus hierarchy amcs) : rootSpots amcs interval ≠ [] := by
  rw [rootSpots, ne_eq, List.map_eq_nil_iff]
  exact rows_ne_nil h h.moving_root

theorem spots_ne_nil (h : Corpus hierarchy amcs) {parent child : Bone}
    (hchild : moving amcs child) : spots amcs interval parent child ≠ [] := by
  rw [spots]
  split_ifs with hparent
  · rw [ne_eq, List.map_eq_nil_iff]
    exact framesOf_ne_nil h hparent hchild
  · rw [ne_eq, List.map_eq_nil_iff]
    exact rows_ne_nil h hchild

theorem countChild_ok (h : Corpus hierarchy amcs) {parent child : Bone}
    (hchild : moving amcs child) : countChild amcs interval parent child [] =
      .ok (tally (spots amcs interval parent child) [],
        0 + (spots amcs interval parent child).length) := by
  rw [countChild, inMocap_eq h.files]
  cases hparent : moving amcs parent with
  | true => exact countWithParent_ok h hparent hchild (by rw [spots, hparent]; rfl)
  | false => exact countAlone_ok h hchild (by rw [spots, hparent]; rfl)

theorem childNet_ok (h : Corpus hierarchy amcs) {parent child : Bone}
    (hchild : moving amcs child) {nets : Dict Bone BayesNet} (hnets : nets child = some []) :
    childNet amcs interval parent nets child =
      .ok (nets.set child (frequencies (spots amcs interval parent child))) := by
  rw [childNet, inMocap_eq h.files, getNet, hnets, hchild]
  change (countChild amcs interval parent child [] >>= fun s => do
    let net ← probabilities s
    return nets.set child net) = _
  rw [countChild_ok h hchild]
  change (probabilities (tally _ [], 0 + _) >>= fun net => Except.ok (nets.set child net)) = _
  rw [probabilities_tally (spots_ne_nil h hchild)]
  rfl

theorem childNet_still (h : Corpus hierarchy amcs) {parent child : Bone}
    (hchild : moving amcs child = false) (nets : Dict Bone BayesNet) :
    childNet amcs interval parent nets child = .ok nets := by
  rw [childNet, inMocap_eq h.files, hchild]
  rfl

end counting

/-! The hierarchy. -/

section gather

theorem gather_children (hfiles : amcs ≠ []) (children : List Bone) (nets : Dict Bone BayesNet) :
    children.foldlM (fun nets child => do
        let moves ← inMocap amcs child
        return if moves then nets.set child [] else nets) nets =
      Except.ok (ε := Raised) fun b => if moving amcs b ∧ b ∈ children then some [] else nets b := by
  induction children generalizing nets with
  | nil => simp [pure, Except.pure]
  | cons child children ih =>
    rw [List.foldlM_cons, inMocap_eq hfiles]
    change children.foldlM _ (if moving amcs child then nets.set child [] else nets) = _
    rw [ih]
    congr 1
    funext b
    by_cases hb : b = child
    · subst hb
      by_cases hmoving : moving amcs b <;> simp [hmoving, Dict.set]
    · have hset : (if moving amcs child then nets.set child [] else nets) b = nets b := by
        split_ifs
        · exact Function.update_of_ne hb ..
        · rfl
      simp [hb, hset]

theorem assign_of_notMem {parent : Bone} {d : List (Bone × List Bone)}
    (h : parent ∉ d.map Prod.fst) (children : List Bone) :
    assign parent children d = d ++ [(parent, children)] := by
  induction d with
  | nil => rfl
  | cons e d ih =>
    rw [List.map_cons, List.mem_cons, not_or] at h
    rw [assign, if_neg (Ne.symm h.1), ih h.2]
    rfl

theorem groups_append (lines : List (List Bone)) (line : List Bone) :
    groups (lines ++ [line]) = groups lines ++ (groupOf line).toList := by
  rw [groups, List.filterMap_append, List.filterMap_cons, List.filterMap_nil, groups]
  cases groupOf line <;> rfl

def Gathered (amcs : List AMC) (gs : List (Bone × List Bone)) (nets : Dict Bone BayesNet) : Prop :=
  ∀ b, nets b = if moving amcs b ∧ ∃ group ∈ gs, b ∈ group.2 then some [] else none

theorem Gathered.append {gs : List (Bone × List Bone)} {nets : Dict Bone BayesNet}
    (h : Gathered amcs gs nets) (parent : Bone) (children : List Bone) :
    Gathered amcs (gs ++ [(parent, children)])
      fun b => if moving amcs b ∧ b ∈ children then some [] else nets b := by
  intro b
  have hexists : (∃ group ∈ gs ++ [(parent, children)], b ∈ group.2) ↔
      (∃ group ∈ gs, b ∈ group.2) ∨ b ∈ children := by
    simp only [List.mem_append, List.mem_singleton, or_and_right, exists_or, exists_eq_left]
  change (if moving amcs b ∧ b ∈ children then some [] else nets b) = _
  rw [h]
  by_cases hmoving : moving amcs b
  · by_cases hb : b ∈ children
    · simp only [hmoving, hexists, hb, and_self, or_true, if_true]
    · simp only [hmoving, hexists, hb, and_false, or_false, if_false]
  · rw [if_neg (fun hb => hmoving hb.1), if_neg (fun hb => hmoving hb.1),
      if_neg (fun hb => hmoving hb.1)]

theorem gather_ok (h : Corpus hierarchy amcs) :
    Yields Never (fun s => s.1 = groups hierarchy ∧ Gathered amcs (groups hierarchy) s.2)
      (hierarchy.foldlM (gatherGroup amcs) ([], Dict.empty)) := by
  have hfold : Yields Never (fun s : List (Bone × List Bone) × Dict Bone BayesNet =>
      (((groups hierarchy).map Prod.fst).Nodup → s.1 = groups hierarchy) ∧
        Gathered amcs (groups hierarchy) s.2)
      (hierarchy.foldlM (gatherGroup amcs) ([], Dict.empty)) := by
    apply Yields.foldlM (I := fun done (s : List (Bone × List Bone) × Dict Bone BayesNet) => (((groups done).map Prod.fst).Nodup →
      s.1 = groups done) ∧ Gathered amcs (groups done) s.2)
    · exact ⟨fun _ => rfl, fun b => by simp [groups, Dict.empty]⟩
    · rintro group hgroup done ⟨relationships, nets⟩ ⟨hrel, hnets⟩
      cases group with
      | nil => exact absurd rfl (h.lines _ hgroup)
      | cons parent children =>
        rw [gatherGroup, groups_append]
        by_cases hempty : parent = ""
        · rw [if_pos hempty, groupOf, if_pos hempty, Option.toList_none, List.append_nil]
          exact ⟨hrel, hnets⟩
        · rw [if_neg hempty, groupOf, if_neg hempty, gather_children h.files]
          refine ⟨?_, hnets.append parent children⟩
          intro hnodup
          rw [Option.toList_some, List.map_append, List.nodup_append'] at hnodup
          have hrel : relationships = groups done := hrel hnodup.1
          have hnew : parent ∉ relationships.map Prod.fst := by
            rw [hrel]
            exact fun hmem => List.disjoint_left.mp hnodup.2.2 hmem List.mem_cons_self
          exact (assign_of_notMem hnew children).trans (congrArg (· ++ _) hrel)
  apply hfold.mono
  rintro s ⟨hrel, hnets⟩
  exact ⟨hrel h.parents, hnets⟩

theorem mem_linksOf {gs : List (Bone × List Bone)} {link : Bone × Bone} :
    link ∈ linksOf gs ↔ ∃ group ∈ gs, group.1 = link.1 ∧ link.2 ∈ group.2 := by
  rw [linksOf, List.mem_flatMap]
  apply exists_congr
  intro group
  apply and_congr_right
  intro _
  rw [List.mem_map]
  constructor
  · rintro ⟨child, hchild, rfl⟩
    exact ⟨rfl, hchild⟩
  · rintro ⟨hparent, hchild⟩
    exact ⟨link.2, hchild, Prod.ext hparent rfl⟩

theorem foldlM_childNet (h : Corpus hierarchy amcs) {links : List (Bone × Bone)}
    (hnodup : ((links.filter (moving amcs ·.2)).map Prod.snd).Nodup) {nets : Dict Bone BayesNet}
    (hnets : ∀ link ∈ links, moving amcs link.2 → nets link.2 = some []) :
    Yields Never (fun nets' : Dict Bone BayesNet =>
      (∀ link ∈ links, moving amcs link.2 →
        nets' link.2 = some (frequencies (spots amcs interval link.1 link.2))) ∧
      ∀ b, (∀ link ∈ links, moving amcs link.2 → link.2 ≠ b) → nets' b = nets b)
      (links.foldlM (fun nets link => childNet amcs interval link.1 nets link.2) nets) := by
  induction links generalizing nets with
  | nil => exact ⟨by simp, fun _ _ => rfl⟩
  | cons link links ih =>
    rw [List.forall_mem_cons] at hnets
    rw [List.foldlM_cons]
    cases hlink : moving amcs link.2 with
    | false =>
      rw [List.filter_cons_of_neg (by simp [hlink])] at hnodup
      rw [childNet_still h hlink]
      apply (ih hnodup hnets.2).mono
      rintro nets' ⟨hall, hothers⟩
      refine ⟨?_, ?_⟩
      · rw [List.forall_mem_cons]
        exact ⟨fun hmoving => absurd (hlink.symm.trans hmoving) Bool.false_ne_true, hall⟩
      · intro b hb
        rw [List.forall_mem_cons] at hb
        exact hothers b hb.2
    | true =>
      have hfilter : (link :: links).filter (moving amcs ·.2) =
          link :: links.filter (moving amcs ·.2) := List.filter_cons_of_pos hlink
      rw [hfilter, List.map_cons, List.nodup_cons] at hnodup
      have hne : ∀ link' ∈ links, moving amcs link'.2 → link'.2 ≠ link.2 := by
        intro link' hmem hmoving heq
        exact hnodup.1 (List.mem_map.mpr ⟨link', List.mem_filter.mpr ⟨hmem, hmoving⟩, heq⟩)
      rw [childNet_ok h hlink (hnets.1 hlink)]
      apply (ih hnodup.2 _).mono
      · rintro nets' ⟨hall, hothers⟩
        refine ⟨?_, ?_⟩
        · rw [List.forall_mem_cons]
          refine ⟨fun _ => ?_, hall⟩
          rw [hothers link.2 hne]
          exact Function.update_self ..
        · intro b hb
          rw [List.forall_mem_cons] at hb
          rw [hothers b hb.2]
          exact Function.update_of_ne (Ne.symm (hb.1 hlink)) ..
      · intro link' hmem hmoving
        exact (Function.update_of_ne (hne link' hmem hmoving) ..).trans (hnets.2 link' hmem hmoving)

theorem foldlM_linksOf (gs : List (Bone × List Bone)) (nets : Dict Bone BayesNet) :
    gs.foldlM (fun nets group => group.2.foldlM (childNet amcs interval group.1) nets) nets =
      (linksOf gs).foldlM (fun nets link => childNet amcs interval link.1 nets link.2) nets := by
  rw [linksOf, foldlM_flatMap]
  simp only [List.foldlM_map]

end gather

theorem Gathered.set_root (h : Corpus hierarchy amcs) {nets : Dict Bone BayesNet}
    (hnets : Gathered amcs (groups hierarchy) nets) (net : BayesNet) {link : Bone × Bone}
    (hlink : link ∈ linksOf (groups hierarchy)) (hmoving : moving amcs link.2) :
    (nets.set "root" net) link.2 = some [] := by
  obtain ⟨group, hgroup, -, hmem⟩ := mem_linksOf.mp hlink
  rw [Dict.set, Function.update_of_ne (h.orphan link hlink), hnets link.2,
    if_pos ⟨hmoving, group, hgroup, hmem⟩]

theorem Gathered.eq_root {nets : Dict Bone BayesNet} (hnets : Gathered amcs (groups hierarchy) nets)
    {roots net : BayesNet} {bone : Bone} (hnet : (nets.set "root" roots) bone = some net)
    (hbone : ∀ link ∈ linksOf (groups hierarchy), moving amcs link.2 → link.2 ≠ bone) :
    net = roots := by
  by_cases hroot : bone = "root"
  · rw [hroot, Dict.set, Function.update_self] at hnet
    exact (Option.some.inj hnet).symm
  · rw [Dict.set, Function.update_of_ne hroot, hnets bone] at hnet
    split_ifs at hnet with hgathered
    obtain ⟨hmoving, group, hgroup, hmem⟩ := hgathered
    have hlink : (group.1, bone) ∈ linksOf (groups hierarchy) :=
      mem_linksOf.mpr ⟨group, hgroup, rfl, hmem⟩
    exact absurd rfl (hbone _ hlink hmoving)

theorem countAll_eq (h : Corpus hierarchy amcs) (gs : List (Bone × List Bone))
    (nets : Dict Bone BayesNet) :
    (amcs.foldlM (countRoot interval) ([], 0) >>= fun s => probabilities s >>= fun net =>
      gs.foldlM (fun nets group => group.2.foldlM (childNet amcs interval group.1) nets)
        (nets.set "root" net)) =
      (linksOf gs).foldlM (fun nets link => childNet amcs interval link.1 nets link.2)
        (nets.set "root" (frequencies (rootSpots amcs interval))) := by
  rw [countRoot_ok h, ← foldlM_linksOf]
  change (probabilities (tally _ [], 0 + _) >>= fun net => _) = _
  rw [probabilities_tally (rootSpots_ne_nil h)]
  rfl

theorem buildBayes_ok (h : Corpus hierarchy amcs)
    {listing : List (Bone × List Bone) → List (Bone × List Bone)}
    (hlisting : ∀ l, (listing l).Perm l) :
    ∃ nets, buildBayes listing hierarchy amcs interval = .ok nets ∧
      (∀ link ∈ linksOf (groups hierarchy), moving amcs link.2 →
        nets link.2 = some (frequencies (spots amcs interval link.1 link.2))) ∧
      ∀ bone net, nets bone = some net → total net = 1 := by
  suffices hyields : Yields Never (fun nets : Dict Bone BayesNet =>
      (∀ link ∈ linksOf (groups hierarchy), moving amcs link.2 →
        nets link.2 = some (frequencies (spots amcs interval link.1 link.2))) ∧
      ∀ bone net, nets bone = some net → total net = 1)
      (buildBayes listing hierarchy amcs interval) from hyields.exists_ok fun _ => id
  rw [buildBayes]
  apply (gather_ok h).bind
  rintro ⟨relationships, nets⟩ ⟨rfl, hnets⟩
  have hperm : (linksOf (listing (groups hierarchy))).Perm (linksOf (groups hierarchy)) :=
    (hlisting _).flatMap_right _
  have hnodup := ((hperm.filter (moving amcs ·.2)).map Prod.snd).nodup_iff.mpr h.children
  have hroots : ∀ link ∈ linksOf (listing (groups hierarchy)), moving amcs link.2 →
      (nets.set "root" (frequencies (rootSpots amcs interval))) link.2 = some [] :=
    fun link hlink => Gathered.set_root h hnets _ (hperm.mem_iff.mp hlink)
  change Yields _ _ (amcs.foldlM (countRoot interval) ([], 0) >>= fun s => probabilities s >>=
    fun net => (listing (groups hierarchy)).foldlM (fun nets group =>
      group.2.foldlM (childNet amcs interval group.1) nets) (nets.set "root" net))
  rw [countAll_eq h]
  apply (foldlM_childNet h hnodup hroots).mono
  rintro nets' ⟨hall, hothers⟩
  simp only [hperm.mem_iff] at hall hothers
  refine ⟨hall, ?_⟩
  intro bone net hnet
  by_cases hbone : ∃ link ∈ linksOf (groups hierarchy), moving amcs link.2 ∧ link.2 = bone
  · obtain ⟨link, hlink, hmoving, rfl⟩ := hbone
    rw [hall link hlink hmoving] at hnet
    cases hnet
    exact total_frequencies (spots_ne_nil h hmoving)
  · have hne : ∀ link ∈ linksOf (groups hierarchy), moving amcs link.2 → link.2 ≠ bone :=
      fun link hlink hmoving heq => hbone ⟨link, hlink, hmoving, heq⟩
    rw [hothers bone hne] at hnet
    rw [Gathered.eq_root hnets hnet hne]
    exact total_frequencies (rootSpots_ne_nil h)

/-! The nodes of the same frames. -/

/-- The node that `build_graphs` looks up for a row of a bone. -/
def graphNode (remainder : ℚ → ℚ) (interval : ℕ) (amcs : List AMC) (bone : Bone) (row : List ℚ) :
    Except Raised MotionGraphNode :=
  match amcs.filterMap (·.bones bone) with
  | [] => .error .indexError
  | d :: _ => do
    let nodes ← nodesFor interval (columns bone d).width
    nodeAt nodes interval ((used bone row).map remainder)

theorem graphNode_ok (h : Corpus hierarchy amcs) {remainder : ℚ → ℚ}
    (hremainder : IsRemainder remainder) (hinterval : 1 ≤ interval) {bone : Bone} {amc : AMC}
    (hamc : amc ∈ amcs) {row : List ℚ} (hrow : row ∈ rowsOf amc bone) :
    graphNode remainder interval amcs bone row = .ok (frameNode interval (used bone row)) := by
  obtain ⟨dof, hpos, hdof⟩ := h.dof bone
  obtain ⟨d, hd⟩ : ∃ d, amc.bones bone = some d := by
    rw [← Option.isSome_iff_exists, Option.isSome_iff_ne_none]
    intro hnone
    rw [rowsOf, hnone] at hrow
    cases hrow
  rw [rowsOf_eq hd] at hrow
  have hlength : (used bone row).length = dof := by
    rw [← hdof amc hamc d hd]
    apply (columns bone d).length_row
    rw [rows_columns]
    exact List.mem_map_of_mem hrow
  obtain ⟨angles, hangles, hmem⟩ := cpRange_ok hinterval hpos
  have hnodes : nodesFor interval dof = .ok (nodesOf interval angles) := by
    rw [nodesFor, hangles]
    rfl
  rw [graphNode]
  cases harrays : amcs.filterMap (·.bones bone) with
  | nil =>
    have hmem : d ∈ amcs.filterMap (·.bones bone) := List.mem_filterMap.mpr ⟨amc, hamc, hd⟩
    rw [harrays] at hmem
    cases hmem
  | cons d' ds =>
    have hmem' : d' ∈ amcs.filterMap (·.bones bone) := harrays ▸ List.mem_cons_self
    obtain ⟨amc', hamc', hd'⟩ := List.mem_filterMap.mp hmem'
    simp only [hdof amc' hamc' d' hd', hnodes]
    exact nodeAt_remainders hremainder hinterval (hmem _ hlength)

def lookups (nets : Dict Bone BayesNet) (bone : Bone) (spot : Spot) : Option ℚ :=
  (nets bone).bind (List.lookup spot)

def counted (amcs : List AMC) (interval : ℕ) (parent child : Bone) (f : List ℚ × List ℚ) : ℚ :=
  ((spots amcs interval parent child).count (spot interval f.1 f.2) : ℚ) /
    (spots amcs interval parent child).length

/-- The key of a frame is that of its nodes, for which the filter then finds the probability that
was counted. -/
def SameCells (remainder : ℚ → ℚ) (interval : ℕ) (amcs : List AMC) (nets : Dict Bone BayesNet)
    (parent child : Bone) (f : List ℚ × List ℚ) : Prop :=
  ∃ parentNode childNode, graphNode remainder interval amcs parent f.1 = .ok parentNode ∧
    graphNode remainder interval amcs child f.2 = .ok childNode ∧
    spot interval f.1 f.2 = (parentNode.mins, childNode.mins) ∧
    ∀ b : BayesAdjacency MotionGraphNode (List ℤ), b.mins = MotionGraphNode.mins →
      b.bayes = lookups nets →
        b.probability child parentNode childNode = counted amcs interval parent child f

def Consistent (remainder : ℚ → ℚ) (interval : ℕ) (hierarchy : List (List Bone)) (amcs : List AMC)
    (nets : Dict Bone BayesNet) : Prop :=
  (∀ link ∈ linksOf (groups hierarchy), moving amcs link.1 → moving amcs link.2 →
    ∀ f ∈ framesOf amcs link.1 link.2,
      SameCells remainder interval amcs nets link.1 link.2 f) ∧
  ∀ bone net, nets bone = some net → total net = 1

def FrameFits (interval : ℕ) (parent : Bone) (f : List ℚ × List ℚ) : Prop :=
  (parent = "root" ∨ f.1.length ≤ 3) ∧ (∀ x ∈ used parent f.1, Fits interval x) ∧
    ∀ x ∈ f.2, Fits interval x

def Fitting (interval : ℕ) (hierarchy : List (List Bone)) (amcs : List AMC) : Prop :=
  ∀ link ∈ linksOf (groups hierarchy), moving amcs link.1 → moving amcs link.2 →
    ∀ f ∈ framesOf amcs link.1 link.2, FrameFits interval link.1 f

theorem sameCells_iff (h : Corpus hierarchy amcs) {remainder : ℚ → ℚ}
    (hremainder : IsRemainder remainder) (hinterval : 1 ≤ interval) {nets : Dict Bone BayesNet}
    {parent child : Bone} (hchild : child ≠ "root") (hparent : moving amcs parent)
    (hnet : nets child = some (frequencies (spots amcs interval parent child)))
    {f : List ℚ × List ℚ} (hf : f ∈ framesOf amcs parent child) :
    SameCells remainder interval amcs nets parent child f ↔ FrameFits interval parent f := by
  obtain ⟨amc, hamc, hzip⟩ := List.mem_flatMap.mp hf
  obtain ⟨hp, hc⟩ := List.of_mem_zip hzip
  have hroot : parent = "root" → f.1.length = 6 := by
    rintro rfl
    obtain ⟨d, hd, hwidth⟩ := h.root amc hamc
    rw [rowsOf_eq hd] at hp
    rw [d.length_row _ hp, hwidth]
  have hpnode := graphNode_ok h hremainder hinterval hamc hp
  have hcnode := graphNode_ok h hremainder hinterval hamc hc
  rw [FrameFits, ← spot_eq_iff hinterval hroot hchild]
  constructor
  · rintro ⟨parentNode, childNode, hp', hc', hspot, -⟩
    cases hpnode.symm.trans hp'
    cases hcnode.symm.trans hc'
    exact hspot
  · intro hspot
    refine ⟨_, _, hpnode, hcnode, hspot, ?_⟩
    intro b hmins hbayes
    have hmem : spot interval f.1 f.2 ∈ spots amcs interval parent child := by
      rw [spots, if_pos hparent]
      exact List.mem_map_of_mem hf
    rw [BayesAdjacency.probability, hmins, hbayes, ← hspot, lookups, hnet, Option.bind_some,
      lookup_frequencies hmem]
    rfl

def hips : MotionArray := ⟨[[0, 0, 0, 10, 20, 30]], 6, by decide⟩

def femur (angle : ℚ) : MotionArray := ⟨[[angle]], 1, by simp⟩

def walk (angle : ℚ) : AMC where
  bones := fun bone => if bone = "root" then some hips
    else if bone = "lfemur" then some (femur angle) else none

def legs : List (List Bone) := [["root", "lfemur"]]

theorem walk_cases {angle : ℚ} {bone : Bone} {d : MotionArray}
    (h : (walk angle).bones bone = some d) :
    bone = "root" ∧ d = hips ∨ bone = "lfemur" ∧ d = femur angle := by
  simp only [walk] at h
  split_ifs at h with hroot hfemur
  · exact .inl ⟨hroot, (Option.some.inj h).symm⟩
  · exact .inr ⟨hfemur, (Option.some.inj h).symm⟩

theorem corpus_walk (angle : ℚ) : Corpus legs [walk angle] where
  files := List.cons_ne_nil _ _
  bones := by
    rw [List.forall_mem_singleton]
    exact fun _ => rfl
  frames := by
    rw [List.forall_mem_singleton]
    refine ⟨1, le_rfl, ?_⟩
    intro bone d hd
    rcases walk_cases hd with ⟨-, rfl⟩ | ⟨-, rfl⟩ <;> rfl
  dof bone := by
    simp only [List.forall_mem_singleton]
    by_cases hbone : bone = "root"
    · refine ⟨3, by norm_num, ?_⟩
      intro d hd
      rcases walk_cases hd with ⟨rfl, rfl⟩ | ⟨rfl, -⟩
      · rfl
      · exact absurd hbone (by decide)
    · refine ⟨1, le_rfl, ?_⟩
      intro d hd
      rcases walk_cases hd with ⟨rfl, -⟩ | ⟨rfl, rfl⟩
      · exact absurd rfl hbone
      · rfl
  root := by
    rw [List.forall_mem_singleton]
    exact ⟨hips, rfl, rfl⟩
  lines := by decide
  parents := by decide
  children := by
    have hlinks : linksOf (groups legs) = [("root", "lfemur")] := rfl
    rw [hlinks]
    exact (List.nodup_singleton ("root", "lfemur")).filter _ |>.map_on (by simp)
  orphan := by decide

/-- The nets and the graphs have the same cells exactly where no angle of a parent or a child goes
past the full turn by so much that its cell is another one, and no parent but the root has more
than three columns. -/
theorem buildBayes_consistent_iff (h : Corpus hierarchy amcs) {remainder : ℚ → ℚ}
    (hremainder : IsRemainder remainder) (hinterval : 1 ≤ interval)
    {listing : List (Bone × List Bone) → List (Bone × List Bone)}
    (hlisting : ∀ l, (listing l).Perm l) :
    ∃ nets, buildBayes listing hierarchy amcs interval = .ok nets ∧
      (Consistent remainder interval hierarchy amcs nets ↔ Fitting interval hierarchy amcs) := by
  obtain ⟨nets, hnets, hfrequencies, htotal⟩ := buildBayes_ok h hlisting
  refine ⟨nets, hnets, ?_⟩
  rw [Consistent, and_iff_left htotal, Fitting]
  apply forall₂_congr
  intro link hlink
  apply forall₂_congr
  intro hparent hchild
  apply forall₂_congr
  intro f hf
  exact sameCells_iff h hremainder hinterval (h.orphan link hlink) hparent
    (hfrequencies link hlink hchild) hf

theorem buildBayes_consistent_iff_walk : Corpus legs [walk 95] ∧ IsRemainder fmod ∧
    (∀ l : List (Bone × List Bone), (id l).Perm l) ∧
    ∃ nets, buildBayes id legs [walk 95] 30 = .ok nets ∧
      (Consistent fmod 30 legs [walk 95] nets ↔ Fitting 30 legs [walk 95]) :=
  ⟨corpus_walk 95, isRemainder_fmod, List.Perm.refl, buildBayes_consistent_iff (corpus_walk 95)
    isRemainder_fmod (by norm_num) List.Perm.refl⟩

/-- At 400 degrees the net has the cell from 390 on, which no node has. -/
theorem femur_past_turn : Corpus legs [walk 400] ∧ IsRemainder fmod ∧
    ∃ nets, buildBayes id legs [walk 400] 30 = .ok nets ∧
      ¬Consistent fmod 30 legs [walk 400] nets := by
  obtain ⟨nets, hnets, hfrequencies, -⟩ :
      ∃ nets, buildBayes id legs [walk 400] 30 = .ok nets ∧ _ ∧ _ :=
    buildBayes_ok (corpus_walk 400) List.Perm.refl
  refine ⟨corpus_walk 400, isRemainder_fmod, nets, hnets, ?_⟩
  intro hconsistent
  have hlink : ("root", "lfemur") ∈ linksOf (groups legs) := by decide
  have hframe : ([0, 0, 0, 10, 20, 30], [400]) ∈ framesOf [walk 400] "root" "lfemur" :=
    List.mem_cons_self
  have hsame := hconsistent.1 _ hlink rfl rfl _ hframe
  rw [sameCells_iff (corpus_walk 400) isRemainder_fmod (by norm_num) (by decide) rfl
    (hfrequencies _ hlink rfl) hframe] at hsame
  have hfits : Fits 30 400 := hsame.2.2 400 List.mem_cons_self
  norm_num [Fits] at hfits

end NaviMisc.Motion.MotionGraph
