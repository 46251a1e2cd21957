import Mathlib.Data.BitVec
import Mathlib.Data.Set.BooleanAlgebra
import Mathlib.Order.CompletePartialOrder
import Mathlib.Tactic.Ring

/-!
`Rect` and `DirtyRectTracker` of include/rect.h and source/rect.cpp.
-/

namespace NaviMisc.RobotOdyssey

structure Rect where
  left : ℤ
  top : ℤ
  right : ℤ
  bottom : ℤ
  deriving DecidableEq, Repr

namespace Rect

def isEmpty (r : Rect) : Bool := r.bottom ≤ r.top || r.right ≤ r.left

def containsPoint (r : Rect) (x y : ℤ) : Bool :=
  x ≥ r.left && x < r.right && y ≥ r.top && y < r.bottom

def intersectWith (a r : Rect) : Rect where
  left := max a.left r.left
  top := max a.top r.top
  right := min a.right r.right
  bottom := min a.bottom r.bottom

def unionWith (a r : Rect) : Rect where
  left := min a.left r.left
  top := min a.top r.top
  right := max a.right r.right
  bottom := max a.bottom r.bottom

def touchesRect (a r : Rect) : Bool := !(a.intersectWith r).isEmpty

def pixels (r : Rect) : Set (ℤ × ℤ) := {p | r.containsPoint p.1 p.2}

@[simp] theorem mem_pixels (r : Rect) (p : ℤ × ℤ) :
    p ∈ r.pixels ↔ r.left ≤ p.1 ∧ p.1 < r.right ∧ r.top ≤ p.2 ∧ p.2 < r.bottom := by
  simp [pixels, containsPoint, and_assoc]

theorem isEmpty_iff (r : Rect) : r.isEmpty = true ↔ r.pixels = ∅ := by
  rw [Set.eq_empty_iff_forall_notMem]
  simp only [isEmpty, mem_pixels, Bool.or_eq_true, decide_eq_true_eq]
  constructor
  · intro h p hp
    omega
  · intro h
    by_contra hne
    exact h (r.left, r.top) (by simp only; omega)

theorem pixels_intersectWith (a r : Rect) : (a.intersectWith r).pixels = a.pixels ∩ r.pixels := by
  ext p
  simp only [intersectWith, mem_pixels, Set.mem_inter_iff]
  omega

theorem touchesRect_eq_false_iff (a r : Rect) :
    a.touchesRect r = false ↔ Disjoint a.pixels r.pixels := by
  rw [touchesRect, Bool.not_eq_false', isEmpty_iff, pixels_intersectWith,
    Set.disjoint_iff_inter_eq_empty]

theorem pixels_subset_unionWith (a r : Rect) : a.pixels ∪ r.pixels ⊆ (a.unionWith r).pixels := by
  intro p hp
  simp only [unionWith, mem_pixels, Set.mem_union] at *
  omega

end Rect

structure DirtyRectTracker where
  rects : List Rect

namespace DirtyRectTracker

def mergeRects : List Rect → Rect → Option (List Rect × Rect)
  | [], _ => none
  | i :: rects, r =>
    if i.touchesRect r then some (rects, r.unionWith i)
    else match mergeRects rects r with
      | some (rects, r) => some (i :: rects, r)
      | none => none

theorem mergeRects_some {rects rects' : List Rect} {r r' : Rect}
    (h : mergeRects rects r = some (rects', r')) :
    ∃ l₁ i l₂, rects = l₁ ++ i :: l₂ ∧ rects' = l₁ ++ l₂ ∧ r' = r.unionWith i := by
  induction rects generalizing rects' r' with
  | nil => cases h
  | cons i rects ih =>
    rw [mergeRects] at h
    split at h
    · cases h
      exact ⟨[], i, rects, rfl, rfl, rfl⟩
    · split at h
      · rename_i tail merged htail
        cases h
        obtain ⟨l₁, j, l₂, hsplit, htail, hr⟩ := ih htail
        exact ⟨i :: l₁, j, l₂, by rw [hsplit]; rfl, by rw [htail]; rfl, hr⟩
      · cases h

theorem mergeRects_none {rects : List Rect} {r : Rect} (h : mergeRects rects r = none) :
    ∀ i ∈ rects, i.touchesRect r = false := by
  induction rects with
  | nil => exact fun i hi => absurd hi List.not_mem_nil
  | cons i rects ih =>
    rw [mergeRects] at h
    split at h
    · cases h
    · rename_i htouch
      split at h
      · cases h
      · rename_i hnone
        intro j hj
        rcases List.mem_cons.mp hj with rfl | hj
        · exact Bool.eq_false_of_not_eq_true htouch
        · exact ih hnone j hj

theorem mergeRects_length {rects rects' : List Rect} {r r' : Rect}
    (h : mergeRects rects r = some (rects', r')) : rects'.length < rects.length := by
  obtain ⟨l₁, i, l₂, rfl, rfl, -⟩ := mergeRects_some h
  simp only [List.length_append, List.length_cons]
  omega

/-- `while (mergeRects(merged));` ends because each turn deletes a rectangle. -/
def mergeAll (rects : List Rect) (merged : Rect) : List Rect × Rect :=
  match _h : mergeRects rects merged with
  | some (rects', merged') => mergeAll rects' merged'
  | none => (rects, merged)
termination_by rects.length
decreasing_by exact mergeRects_length _h

def clear (_ : DirtyRectTracker) : DirtyRectTracker := ⟨[]⟩

def add (t : DirtyRectTracker) (r : Rect) : DirtyRectTracker :=
  let (rects, merged) := mergeAll t.rects r
  ⟨rects ++ [merged]⟩

def region (rects : List Rect) : Set (ℤ × ℤ) := {p | ∃ s ∈ rects, p ∈ s.pixels}

def PairwiseDisjoint (rects : List Rect) : Prop :=
  rects.Pairwise fun a b => Disjoint a.pixels b.pixels

theorem mergeAll_spec (rects : List Rect) (merged : Rect) :
    (mergeAll rects merged).1.Sublist rects ∧
      (∀ i ∈ (mergeAll rects merged).1, Disjoint i.pixels (mergeAll rects merged).2.pixels) ∧
      region rects ∪ merged.pixels ⊆
        region (mergeAll rects merged).1 ∪ (mergeAll rects merged).2.pixels := by
  induction rects, merged using mergeAll.induct with
  | case1 rects merged rects' merged' h ih =>
    rw [mergeAll]
    split
    · rename_i hsome
      rw [h] at hsome
      cases hsome
      obtain ⟨hsub, hdisj, hcover⟩ := ih
      obtain ⟨l₁, i, l₂, rfl, rfl, rfl⟩ := mergeRects_some h
      have hdrop : (l₁ ++ l₂).Sublist (l₁ ++ i :: l₂) :=
        List.Sublist.append_left (List.sublist_cons_self i l₂) l₁
      refine ⟨hsub.trans hdrop, hdisj, Set.Subset.trans ?_ hcover⟩
      have hunion := merged.pixels_subset_unionWith i
      rintro p (⟨s, hs, hp⟩ | hp)
      · rcases List.mem_append.mp hs with hs | hs
        · exact .inl ⟨s, List.mem_append_left _ hs, hp⟩
        · rcases List.mem_cons.mp hs with rfl | hs
          · exact .inr (hunion (.inr hp))
          · exact .inl ⟨s, List.mem_append_right _ hs, hp⟩
      · exact .inr (hunion (.inl hp))
    · rename_i hnone
      rw [h] at hnone
      cases hnone
  | case2 rects merged h =>
    rw [mergeAll]
    split
    · rename_i hsome
      rw [h] at hsome
      cases hsome
    · refine ⟨List.Sublist.refl _, fun i hi => ?_, Set.Subset.rfl⟩
      exact (i.touchesRect_eq_false_iff merged).mp (mergeRects_none h i hi)

theorem region_append (l₁ l₂ : List Rect) : region (l₁ ++ l₂) = region l₁ ∪ region l₂ := by
  ext p
  simp only [region, Set.mem_ofPred_eq, List.mem_append, Set.mem_union, or_and_right, exists_or]

theorem region_singleton (r : Rect) : region [r] = r.pixels := by
  ext p
  simp only [region, Set.mem_ofPred_eq, List.mem_singleton, exists_eq_left]

theorem pairwiseDisjoint_add {t : DirtyRectTracker} (h : PairwiseDisjoint t.rects) (r : Rect) :
    PairwiseDisjoint (t.add r).rects := by
  obtain ⟨hsub, hdisj, -⟩ := mergeAll_spec t.rects r
  apply List.pairwise_append.mpr
  refine ⟨h.sublist hsub, List.pairwise_singleton _ _, fun a ha b hb => ?_⟩
  rw [List.mem_singleton.mp hb]
  exact hdisj a ha

theorem region_add (t : DirtyRectTracker) (r : Rect) :
    region t.rects ∪ r.pixels ⊆ region (t.add r).rects := by
  obtain ⟨-, -, hcover⟩ := mergeAll_spec t.rects r
  change _ ⊆ region ((mergeAll t.rects r).1 ++ [(mergeAll t.rects r).2])
  rwa [region_append, region_singleton]

inductive Call
  | clear
  | add (r : Rect)

def call (t : DirtyRectTracker) : Call → DirtyRectTracker
  | .clear => t.clear
  | .add r => t.add r

def run (calls : List Call) : DirtyRectTracker := calls.foldl call ⟨[]⟩

def addedAfter (added : List Rect) : Call → List Rect
  | .clear => []
  | .add r => added ++ [r]

def added (calls : List Call) : List Rect := calls.foldl addedAfter []

structure Tracks (t : DirtyRectTracker) (added : List Rect) : Prop where
  disjoint : PairwiseDisjoint t.rects
  covers : ∀ r ∈ added, r.pixels ⊆ region t.rects

theorem Tracks.call {t : DirtyRectTracker} {added : List Rect} (h : t.Tracks added) (c : Call) :
    (t.call c).Tracks (addedAfter added c) := by
  cases c with
  | clear => exact ⟨List.Pairwise.nil, fun r hr => absurd hr List.not_mem_nil⟩
  | add r =>
    refine ⟨pairwiseDisjoint_add h.disjoint r, fun s hs => ?_⟩
    have hcover := region_add t r
    rcases List.mem_append.mp hs with hs | hs
    · exact fun p hp => hcover (.inl (h.covers s hs hp))
    · rw [List.mem_singleton.mp hs]
      exact fun p hp => hcover (.inr hp)

theorem tracks_run (calls : List Call) : (run calls).Tracks (added calls) := by
  induction calls using List.reverseRecOn with
  | nil => exact ⟨List.Pairwise.nil, fun r hr => absurd hr List.not_mem_nil⟩
  | append_singleton calls c ih =>
    simp only [run, added, List.foldl_append, List.foldl_cons, List.foldl_nil]
    exact ih.call c

/-- After any sequence of calls, no pixel is in two rectangles of the list, and every pixel added
since the last `clear` is in one. -/
theorem run_disjoint_and_covers (calls : List Call) :
    (run calls).rects.Pairwise (fun a b => ∀ x y, ¬(a.containsPoint x y ∧ b.containsPoint x y)) ∧
      ∀ r ∈ added calls, ∀ x y, r.containsPoint x y →
        ∃ s ∈ (run calls).rects, s.containsPoint x y := by
  obtain ⟨hdisjoint, hcovers⟩ := tracks_run calls
  constructor
  · apply hdisjoint.imp
    intro a b hab x y hxy
    have ha : (x, y) ∈ a.pixels := hxy.1
    exact Set.disjoint_left.mp hab ha hxy.2
  · intro r hr x y hxy
    have hp : (x, y) ∈ r.pixels := hxy
    exact hcovers r hr hp

end DirtyRectTracker

end NaviMisc.RobotOdyssey
