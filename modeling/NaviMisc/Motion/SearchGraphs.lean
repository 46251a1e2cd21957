import NaviMisc.Motion.DepthLimitedSlots

/-!
`search_graphs` of `Graph/MotionGraph.py`, over the depth limited searches of all bones.
-/

namespace NaviMisc.Motion.SearchGraphs

open DepthLimited
open Lib (Route)

variable {V : Type} [DecidableEq V]

inductive Raised
  | keyError
  | indexError
  | typeError
  | crash (reason : Crash)
  deriving DecidableEq

structure Bone (V : Type) [DecidableEq V] where
  graph : Representations V
  adjacency : Adjacency graph.data
  start : V
  end_ : V

structure Skeleton (V : Type) [DecidableEq V] where
  bones : List (String × Bone V)
  nodup : (bones.map Prod.fst).Nodup
  root : "root" ∈ bones.map Prod.fst

def searchBone (address : V → BitVec 64) (depth : ℕ) (bone : String × Bone V) :
    Except Raised (String × List (Option (List V))) :=
  match depthLimitedSearch address bone.2.graph bone.2.adjacency bone.2.start bone.2.end_ depth with
  | .ok path_list => .ok (bone.1, path_list)
  | .error reason => .error (.crash reason)

/-- `'    depth = %2d, match!' % i + 1`: the text is made first, and then 1 is added to it. -/
def matchMessage (_i : ℕ) : Except Raised String := .error .typeError

abbrev Paths (V : Type) := List (String × List (Option (List V)))

/-- `paths[bone][i]` of each bone. -/
def at_ (paths : Paths V) (i : ℕ) : Except Raised (List (String × Option (List V))) :=
  paths.mapM fun (bone, path) =>
    match path[i]? with
    | some l => .ok (bone, l)
    | none => .error .indexError

def firstMatch (paths : Paths V) : List ℕ → Except Raised (Option (List (String × Option (List V))))
  | [] => .ok none
  | i :: is => do
    let retpaths ← at_ paths i
    if ∀ bone ∈ retpaths, bone.2 ≠ none then do
      let _ ← matchMessage i
      return some retpaths
    else firstMatch paths is

def searchGraphs (address : V → BitVec 64) (s : Skeleton V) (depth : ℕ) :
    Except Raised (Option (List (String × Option (List V)))) := do
  let paths ← s.bones.mapM (searchBone address depth)
  match paths.lookup "root" with
  | none => .error .keyError
  | some root => firstMatch paths (List.range (root.length - 1))

/-- Every bone has a path of `n` edges that meets its goal at its end and not before. -/
def Common (s : Skeleton V) (n : ℕ) : Prop :=
  ∀ bone ∈ s.bones, ∃ l, Walk bone.2.graph.data bone.2.start bone.2.end_ l ∧ l.length = n + 1

/-- Nothing is found, or for every bone one of the paths of the least common length. -/
structure Simultaneous (s : Skeleton V) (depth : ℕ)
    (result : Except Raised (Option (List (String × Option (List V))))) : Prop where
  none : (∀ n ≤ depth, ¬Common s n) → result = .ok none
  some : ∀ n ≤ depth, Common s n → (∀ m < n, ¬Common s m) →
    ∃ retpaths, result = .ok (some retpaths) ∧ List.Forall₂ (fun found bone => found.1 = bone.1 ∧
      ∃ l, found.2 = some l ∧ Walk bone.2.graph.data bone.2.start bone.2.end_ l ∧
        l.length = n + 1) retpaths s.bones

/-- Every bone has a path of `n` edges that comes to its goal after its start only at its end. -/
def Matches (s : Skeleton V) (n : ℕ) : Prop :=
  ∀ bone ∈ s.bones, ∃ l, Arrives bone.2.graph.data bone.2.start bone.2.end_ l ∧ l.length = n + 1

structure Slots (depth : ℕ) (bone : String × Bone V) (path : String × List (Option (List V))) :
    Prop where
  name : path.1 = bone.1
  length : path.2.length = depth + 1
  slot : ∀ i < depth, ∃ slot, path.2[i]? = some slot ∧ (slot ≠ none ↔
    ∃ l, Arrives bone.2.graph.data bone.2.start bone.2.end_ l ∧ l.length = i + 2)

section search

variable {address : V → BitVec 64} {s : Skeleton V} {depth i : ℕ}
  {bones : List (String × Bone V)} {paths : Paths V}

theorem search_slots (bone : String × Bone V) :
    ∃ path, searchBone address depth bone = .ok path ∧ Slots depth bone path := by
  obtain ⟨path_list, hresult, hlength, hslots⟩ := depthLimitedSearch_slots address bone.2.graph
    bone.2.adjacency bone.2.start bone.2.end_ depth
  refine ⟨(bone.1, path_list), by rw [searchBone, hresult], rfl, hlength, ?_⟩
  intro i hi
  obtain ⟨hslot, hnone⟩ | ⟨l, hslot, hl, hlength, -⟩ := hslots i hi
  · refine ⟨none, hslot, iff_of_false (fun h => h rfl) ?_⟩
    rintro ⟨l, hl, hlength⟩
    exact hnone l hl hlength
  · exact ⟨_, hslot, iff_of_true (Option.some_ne_none _) ⟨l, hl, hlength⟩⟩

theorem at_slots (h : List.Forall₂ (Slots depth) bones paths) (hi : i < depth) :
    ∃ retpaths, at_ paths i = .ok retpaths ∧ ((∀ bone ∈ retpaths, bone.2 ≠ none) ↔
      ∀ bone ∈ bones, ∃ l, Arrives bone.2.graph.data bone.2.start bone.2.end_ l ∧
        l.length = i + 2) := by
  induction h with
  | nil => exact ⟨[], rfl, by simp⟩
  | @cons bone path bones paths hslots hrest ih =>
    obtain ⟨retpaths, hat, hiff⟩ := ih
    obtain ⟨slot, hslot, hfound⟩ := hslots.slot i hi
    obtain ⟨name, path⟩ := path
    refine ⟨(name, slot) :: retpaths, ?_, ?_⟩
    · rw [at_] at hat ⊢
      rw [List.mapM_cons, hat]
      simp only [hslot]
      rfl
    · rw [List.forall_mem_cons, List.forall_mem_cons, hiff, hfound]

theorem lookup_slots (h : List.Forall₂ (Slots depth) bones paths) {name : String}
    (hname : name ∈ bones.map Prod.fst) :
    ∃ path, paths.lookup name = some path ∧ path.length = depth + 1 := by
  induction h with
  | nil => simp at hname
  | @cons bone path bones paths hslots hrest ih =>
    obtain ⟨key, path⟩ := path
    obtain rfl : key = bone.1 := hslots.name
    rw [List.lookup_cons]
    by_cases heq : name = bone.1
    · subst heq
      exact ⟨path, by simp, hslots.length⟩
    · rw [List.map_cons, List.mem_cons] at hname
      obtain ⟨path', hpath, hlength⟩ := ih (hname.resolve_left heq)
      have hbeq : (name == bone.1) = false := beq_false_of_ne heq
      exact ⟨path', by rw [hbeq]; exact hpath, hlength⟩

theorem firstMatch_none (h : List.Forall₂ (Slots depth) s.bones paths) {is : List ℕ}
    (his : ∀ i ∈ is, i < depth) (hnone : ∀ i ∈ is, ¬Matches s (i + 1)) :
    firstMatch paths is = .ok none := by
  induction is with
  | nil => rfl
  | cons i is ih =>
    rw [List.forall_mem_cons] at his hnone
    obtain ⟨retpaths, hat, hiff⟩ := at_slots h his.1
    have hnot : ¬∀ bone ∈ retpaths, bone.2 ≠ none := fun hall => hnone.1 (hiff.mp hall)
    rw [firstMatch, hat]
    change (if _ then _ else _) = _
    rw [if_neg hnot]
    exact ih his.2 hnone.2

theorem firstMatch_some (h : List.Forall₂ (Slots depth) s.bones paths) {is : List ℕ}
    (his : ∀ i ∈ is, i < depth) (hsome : ∃ i ∈ is, Matches s (i + 1)) :
    firstMatch paths is = .error .typeError := by
  induction is with
  | nil => simp at hsome
  | cons i is ih =>
    rw [List.forall_mem_cons] at his
    obtain ⟨retpaths, hat, hiff⟩ := at_slots h his.1
    rw [firstMatch, hat]
    change (if _ then _ else _) = _
    by_cases hall : ∀ bone ∈ retpaths, bone.2 ≠ none
    · rw [if_pos hall]
      rfl
    · rw [if_neg hall]
      apply ih his.2
      rw [List.exists_mem_cons_iff] at hsome
      exact hsome.resolve_left fun hmatch => hall (hiff.mpr hmatch)

theorem searchGraphs_eq : ∃ paths, List.Forall₂ (Slots depth) s.bones paths ∧
    searchGraphs address s depth = firstMatch paths (List.range depth) := by
  have hall : ∀ bone ∈ s.bones, ∃ path, searchBone address depth bone = .ok path ∧
      Slots depth bone path := fun bone _ => search_slots bone
  obtain ⟨paths, hpaths, hslots⟩ := Lib.Lists.exists_mapM hall
  obtain ⟨root, hroot, hlength⟩ := lookup_slots hslots s.root
  refine ⟨paths, hslots, ?_⟩
  rw [searchGraphs, hpaths]
  change (match paths.lookup "root" with | none => _ | some root => _) = _
  rw [hroot]
  change firstMatch paths (List.range (root.length - 1)) = _
  rw [hlength]
  rfl

end search

section common

variable {s : Skeleton V} {n : ℕ}

theorem common_zero_iff : Common s 0 ↔ ∀ bone ∈ s.bones, bone.2.start = bone.2.end_ := by
  apply forall₂_congr
  intro bone _
  constructor
  · rintro ⟨l, hl, hlength⟩
    obtain ⟨v, rfl⟩ := List.length_eq_one_iff.mp hlength
    have hhead := Option.some.inj hl.route.head
    have hlast := Option.some.inj hl.route.last
    exact hhead.symm.trans hlast
  · intro heq
    rw [heq]
    exact ⟨[bone.2.end_], ⟨.singleton, List.not_mem_nil⟩, rfl⟩

theorem Common.matches (h : Common s (n + 1)) : Matches s (n + 1) := by
  intro bone hbone
  obtain ⟨l, hl, hlength⟩ := h bone hbone
  refine ⟨l, ⟨hl.route, by omega, ?_⟩, hlength⟩
  intro hmem
  apply hl.first
  rw [← List.tail_dropLast] at hmem
  exact List.mem_of_mem_tail hmem

end common

/-- Nothing may be found: `search_graphs` returns only then. -/
theorem searchGraphs_simultaneous_iff (address : V → BitVec 64) (s : Skeleton V) (depth : ℕ) :
    Simultaneous s depth (searchGraphs address s depth) ↔
      (∀ i < depth, ¬Matches s (i + 1)) ∧ ∃ bone ∈ s.bones, bone.2.start ≠ bone.2.end_ := by
  obtain ⟨paths, hslots, hresult⟩ : ∃ paths, List.Forall₂ (Slots depth) s.bones paths ∧
    searchGraphs address s depth = firstMatch paths (List.range depth) := searchGraphs_eq
  have hrange : ∀ i ∈ List.range depth, i < depth := fun i hi => List.mem_range.mp hi
  by_cases hmatch : ∃ i ∈ List.range depth, Matches s (i + 1)
  · rw [hresult, firstMatch_some hslots hrange hmatch]
    obtain ⟨i, hi, hmatches⟩ := hmatch
    refine iff_of_false ?_ fun h => h.1 i (hrange i hi) hmatches
    intro h
    by_cases hcommon : ∃ n, n ≤ depth ∧ Common s n
    · classical
      obtain ⟨hle, hleast⟩ := Nat.find_spec hcommon
      obtain ⟨retpaths, hok, -⟩ := h.some _ hle hleast fun m hm hcommon' =>
        Nat.find_min hcommon hm ⟨hm.le.trans hle, hcommon'⟩
      cases hok
    · have hok := h.none fun n hn hcommon' => hcommon ⟨n, hn, hcommon'⟩
      cases hok
  · have hnone : ∀ i < depth, ¬Matches s (i + 1) := fun i hi hmatches =>
      hmatch ⟨i, List.mem_range.mpr hi, hmatches⟩
    rw [hresult, firstMatch_none hslots hrange fun i hi => hnone i (hrange i hi),
      and_iff_right hnone]
    constructor
    · intro h
      by_contra hall
      simp only [not_exists, not_and, not_not] at hall
      obtain ⟨retpaths, hok, -⟩ := h.some 0 (Nat.zero_le _) (common_zero_iff.mpr hall)
        fun m hm => absurd hm (Nat.not_lt_zero m)
      cases hok
    · rintro ⟨bone, hbone, hne⟩
      refine ⟨fun _ => rfl, ?_⟩
      intro n hn hcommon
      cases n with
      | zero => exact absurd (common_zero_iff.mp hcommon bone hbone) hne
      | succ n => exact absurd hcommon.matches (hnone n hn)

def oneBone : Skeleton ℕ where
  bones := [("root", ⟨oneStep, oneEdgeTable, 0, 1⟩)]
  nodup := List.nodup_singleton _
  root := List.mem_singleton_self _

/-- A single edge is a path, and no path is returned. -/
theorem searchGraphs_raises : ¬∀ (address : ℕ → BitVec 64) (s : Skeleton ℕ) (depth : ℕ),
    Simultaneous s depth (searchGraphs address s depth) := by
  intro h
  have hresult : searchGraphs (BitVec.ofNat 64) oneBone 1 = .error .typeError := by decide +kernel
  have hpath : Walk oneEdge 0 1 [0, 1] := by
    refine ⟨⟨List.isChain_pair.mpr ?_, rfl, rfl⟩, by decide⟩
    rw [AdjacencyList.Adjacent]
    decide
  have hone : Common oneBone 1 := by
    intro bone hbone
    obtain rfl := List.mem_singleton.mp hbone
    exact ⟨[0, 1], hpath, rfl⟩
  have hzero : ∀ m < 1, ¬Common oneBone m := by
    intro m hm
    obtain rfl := Nat.lt_one_iff.mp hm
    intro hcommon
    have heq := common_zero_iff.mp hcommon _ (List.mem_singleton_self _)
    exact absurd heq (by decide)
  obtain ⟨retpaths, hok, -⟩ := (h (BitVec.ofNat 64) oneBone 1).some 1 le_rfl hone hzero
  rw [hresult] at hok
  cases hok

end NaviMisc.Motion.SearchGraphs
