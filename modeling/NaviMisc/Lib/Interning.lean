import Mathlib.Data.Set.Function

/-!
Interning: of the values with one key, the first one seen stands for all.
-/

namespace NaviMisc.Lib.Interning

variable {D K : Type*} [DecidableEq K]

def setdefault (cache : K → Option D) (k : K) (d : D) : D × (K → Option D) :=
  match cache k with
  | some d' => (d', cache)
  | none => (d, Function.update cache k (some d))

def internAll (key : D → K) : (K → Option D) → List D → List D × (K → Option D)
  | cache, [] => ([], cache)
  | cache, d :: l =>
    let (d, cache) := setdefault cache (key d) d
    let (l, cache) := internAll key cache l
    (d :: l, cache)

def internPairs (key : D → K) : (K → Option D) → List (D × D) → List (D × D)
  | _, [] => []
  | cache, (u, v) :: l =>
    let (u, cache) := setdefault cache (key u) u
    let (v, cache) := setdefault cache (key v) v
    (u, v) :: internPairs key cache l

def flatten (l : List (D × D)) : List D := l.flatMap fun p => [p.1, p.2]

variable {key : D → K} {cache : K → Option D} {d : D}

theorem setdefault_of_none {k : K} (h : cache k = none) (d : D) :
    setdefault cache k d = (d, Function.update cache k (some d)) := by
  rw [setdefault, h]

theorem setdefault_of_some {k : K} {d' : D} (h : cache k = some d') (d : D) :
    setdefault cache k d = (d', cache) := by
  rw [setdefault, h]

theorem setdefault_lookup (cache : K → Option D) (k : K) (d : D) :
    (setdefault cache k d).2 k = some (setdefault cache k d).1 := by
  cases h : cache k with
  | none =>
    rw [setdefault_of_none h]
    exact Function.update_self ..
  | some d' =>
    rw [setdefault_of_some h]
    exact h

theorem setdefault_keeps {k k' : K} {d' : D} (h : cache k' = some d') :
    (setdefault cache k d).2 k' = some d' := by
  cases hk : cache k with
  | none =>
    have hne : k' ≠ k := by
      rintro rfl
      rw [hk] at h
      cases h
    rw [setdefault_of_none hk]
    exact (Function.update_of_ne hne _ _).trans h
  | some x =>
    rw [setdefault_of_some hk]
    exact h

theorem eq_or_of_setdefault {k k' : K} {x : D} (h : (setdefault cache k d).2 k' = some x) :
    cache k' = some x ∨ k' = k ∧ x = d := by
  cases hk : cache k with
  | none =>
    rw [setdefault_of_none hk] at h
    simp only [Function.update_apply] at h
    split_ifs at h with heq
    · cases h
      exact Or.inr ⟨heq, rfl⟩
    · exact Or.inl h
  | some y =>
    rw [setdefault_of_some hk] at h
    exact Or.inl h

def Keyed (key : D → K) (cache : K → Option D) : Prop := ∀ k d, cache k = some d → key d = k

omit [DecidableEq K] in
theorem keyed_empty : Keyed key fun _ => none := by
  intro k d h
  cases h

theorem Keyed.setdefault (h : Keyed key cache) (d : D) :
    Keyed key (Interning.setdefault cache (key d) d).2 := by
  intro k x hx
  rcases eq_or_of_setdefault hx with hx | ⟨rfl, rfl⟩
  · exact h k x hx
  · rfl

theorem Keyed.key_setdefault (h : Keyed key cache) (d : D) :
    key (Interning.setdefault cache (key d) d).1 = key d :=
  h.setdefault d _ _ (setdefault_lookup cache (key d) d)

theorem internAll_cons (d : D) (l : List D) :
    internAll key cache (d :: l) =
      ((setdefault cache (key d) d).1 :: (internAll key (setdefault cache (key d) d).2 l).1,
        (internAll key (setdefault cache (key d) d).2 l).2) := rfl

theorem internAll_keeps {k : K} {d' : D} (h : cache k = some d') (l : List D) :
    (internAll key cache l).2 k = some d' := by
  induction l generalizing cache with
  | nil => exact h
  | cons d l ih => exact ih (setdefault_keeps h)

theorem internAll_lookup (h : Keyed key cache) {l : List D} (hd : d ∈ (internAll key cache l).1) :
    (internAll key cache l).2 (key d) = some d := by
  induction l generalizing cache with
  | nil => cases hd
  | cons x l ih =>
    rw [internAll_cons] at hd ⊢
    rcases List.mem_cons.mp hd with rfl | hd
    · rw [h.key_setdefault x]
      exact internAll_keeps (setdefault_lookup cache (key x) x) l
    · exact ih (h.setdefault x) hd

theorem injOn_internAll (h : Keyed key cache) (l : List D) :
    Set.InjOn key {d | d ∈ (internAll key cache l).1} := by
  intro d hd d' hd' heq
  have hlookup := internAll_lookup h hd
  rw [heq, internAll_lookup h hd'] at hlookup
  exact (Option.some.inj hlookup).symm

theorem Keyed.internAll (h : Keyed key cache) (l : List D) :
    Keyed key (Interning.internAll key cache l).2 := by
  induction l generalizing cache with
  | nil => exact h
  | cons d l ih => exact ih (h.setdefault d)

section Values

variable {S : Set D} {l : List D} (hcache : ∀ k d, cache k = some d → d ∈ S)
  (hl : ∀ d ∈ l, d ∈ S)
include hcache hl

theorem internAll_cache : ∀ k d, (internAll key cache l).2 k = some d → d ∈ S := by
  induction l generalizing cache with
  | nil => exact hcache
  | cons d l ih =>
    apply ih _ fun x hx => hl x (List.mem_cons_of_mem d hx)
    intro k x hx
    rcases eq_or_of_setdefault hx with hx | ⟨-, rfl⟩
    · exact hcache k x hx
    · exact hl x List.mem_cons_self

theorem internAll_mem (h : Keyed key cache) : ∀ d ∈ (internAll key cache l).1, d ∈ S := by
  intro d hd
  exact internAll_cache hcache hl _ d (internAll_lookup h hd)

theorem internAll_eq_self (hS : Set.InjOn key S) (h : Keyed key cache) :
    (internAll key cache l).1 = l := by
  induction l generalizing cache with
  | nil => rfl
  | cons d l ih =>
    have hd : d ∈ S := hl d List.mem_cons_self
    have hcache' : ∀ k x, (setdefault cache (key d) d).2 k = some x → x ∈ S := by
      intro k x hx
      rcases eq_or_of_setdefault hx with hx | ⟨-, rfl⟩
      · exact hcache k x hx
      · exact hd
    have hself : (setdefault cache (key d) d).1 = d :=
      hS (hcache' _ _ (setdefault_lookup cache (key d) d)) hd (h.key_setdefault d)
    have htail := ih hcache' (fun x hx => hl x (List.mem_cons_of_mem d hx)) (h.setdefault d)
    rw [internAll_cons]
    exact congrArg₂ List.cons hself htail

end Values

theorem flatten_cons (p : D × D) (l : List (D × D)) :
    flatten (p :: l) = p.1 :: p.2 :: flatten l := rfl

theorem flatten_injective : Function.Injective (flatten : List (D × D) → List D) := by
  intro l l' h
  induction l generalizing l' with
  | nil =>
    cases l' with
    | nil => rfl
    | cons p l' => cases h
  | cons p l ih =>
    cases l' with
    | nil => cases h
    | cons p' l' =>
      rw [flatten_cons, flatten_cons, List.cons.injEq, List.cons.injEq] at h
      rw [Prod.ext h.1 h.2.1, ih h.2.2]

theorem flatten_internPairs (l : List (D × D)) :
    flatten (internPairs key cache l) = (internAll key cache (flatten l)).1 := by
  induction l generalizing cache with
  | nil => rfl
  | cons p l ih =>
    rw [internPairs, flatten_cons, ih, flatten_cons, internAll_cons, internAll_cons]

theorem mem_flatten {l : List (D × D)} : d ∈ flatten l ↔ ∃ p ∈ l, d = p.1 ∨ d = p.2 := by
  rw [flatten, List.mem_flatMap]
  simp only [List.mem_cons, List.not_mem_nil, or_false]

theorem injOn_internPairs (key : D → K) (l : List (D × D)) :
    Set.InjOn key {d | ∃ p ∈ internPairs key (fun _ => none) l, d = p.1 ∨ d = p.2} := by
  have hkeyed : Keyed key fun _ => none := keyed_empty
  have h := injOn_internAll hkeyed (flatten l)
  simpa only [← flatten_internPairs, mem_flatten] using h

theorem internPairs_eq_self {l : List (D × D)}
    (h : Set.InjOn key {d | ∃ p ∈ l, d = p.1 ∨ d = p.2}) :
    internPairs key (fun _ => none) l = l := by
  apply flatten_injective
  rw [flatten_internPairs]
  apply internAll_eq_self _ (fun d hd => mem_flatten.mp hd) h keyed_empty
  intro k d hd
  cases hd

end NaviMisc.Lib.Interning
