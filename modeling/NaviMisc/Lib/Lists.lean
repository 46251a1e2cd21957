import Mathlib.Data.List.Destutter
import Mathlib.Data.List.Sort

/-!
Lists: the results of a computation that can fail, by position; the neighbour of
an element in a strictly sorted list; cuts of a concatenation; a list without what repeats the
element before; lists of keys and values.
-/

namespace NaviMisc.Lib.Lists

universe u

theorem bind_eq_ok {ε : Type*} {α β : Type u} {x : Except ε α} {f : α → Except ε β} {b : β}
    (h : x >>= f = .ok b) : ∃ a, x = .ok a ∧ f a = .ok b := by
  cases x with
  | error e => cases h
  | ok a => exact ⟨a, rfl, h⟩

theorem bind_return_eq_ok {ε : Type*} {α β : Type u} {x : Except ε α} {f : α → β} {b : β} :
    (do return f (← x)) = .ok b ↔ ∃ a, x = .ok a ∧ b = f a := by
  cases x with
  | error e =>
    apply iff_of_false
    · intro h
      cases h
    · rintro ⟨a, ha, -⟩
      cases ha
  | ok a =>
    constructor
    · intro h
      cases h
      exact ⟨a, rfl, rfl⟩
    · rintro ⟨a', ha, rfl⟩
      cases ha
      rfl

theorem foldlM_flatMap {m : Type u → Type*} [Monad m] [LawfulMonad m] {α β : Type*} {γ : Type u}
    (l : List α) (f : α → List β) (g : γ → β → m γ) (c : γ) :
    (l.flatMap f).foldlM g c = l.foldlM (fun c a => (f a).foldlM g c) c := by
  induction l generalizing c with
  | nil => rfl
  | cons a l ih =>
    rw [List.flatMap_cons, List.foldlM_append, List.foldlM_cons]
    congr 1
    funext c'
    exact ih c'

section traverse

variable {ε α : Type*} {β : Type u} {f : α → Except ε β} {l : List α} {l' : List β}

theorem mapM_rel (h : l.mapM f = .ok l') (j : ℕ) :
    Option.Rel (fun a b => f a = .ok b) l[j]? l'[j]? := by
  induction l generalizing l' j with
  | nil =>
    cases h
    exact .none
  | cons a l ih =>
    rw [List.mapM_cons] at h
    obtain ⟨b, ha, h⟩ := bind_eq_ok h
    obtain ⟨bs, hl, h⟩ := bind_eq_ok h
    cases h
    cases j with
    | zero => exact .some ha
    | succ j => exact ih hl j

theorem mapM_eq_map_iff {g : α → β} : l.mapM f = .ok (l.map g) ↔ ∀ a ∈ l, f a = .ok (g a) := by
  constructor
  · intro h a ha
    obtain ⟨j, hj⟩ := List.mem_iff_getElem?.mp ha
    have hrel := mapM_rel h j
    rw [List.getElem?_map, hj] at hrel
    cases hrel with
    | some hab => exact hab
  · intro h
    induction l with
    | nil => rfl
    | cons a l ih =>
      rw [List.mapM_cons, h a List.mem_cons_self, ih fun b hb => h b (List.mem_cons_of_mem a hb)]
      rfl

theorem exists_mapM {R : α → β → Prop} (h : ∀ a ∈ l, ∃ b, f a = .ok b ∧ R a b) :
    ∃ l', l.mapM f = .ok l' ∧ List.Forall₂ R l l' := by
  induction l with
  | nil => exact ⟨[], rfl, .nil⟩
  | cons a l ih =>
    rw [List.forall_mem_cons] at h
    obtain ⟨b, hb, hR⟩ := h.1
    obtain ⟨l', hl', hall⟩ := ih h.2
    refine ⟨b :: l', ?_, .cons hR hall⟩
    rw [List.mapM_cons, hb, hl']
    rfl

theorem of_getElem?_mapM (h : l.mapM f = .ok l') {j : ℕ} {b : β} (hb : l'[j]? = some b) :
    ∃ a, l[j]? = some a ∧ f a = .ok b := by
  have hrel := mapM_rel h j
  rw [hb] at hrel
  generalize l[j]? = o at hrel
  cases hrel with
  | some hab => exact ⟨_, rfl, hab⟩

theorem getElem?_mapM (h : l.mapM f = .ok l') {j : ℕ} {a : α} (ha : l[j]? = some a) :
    ∃ b, l'[j]? = some b ∧ f a = .ok b := by
  have hrel := mapM_rel h j
  rw [ha] at hrel
  generalize l'[j]? = o at hrel
  cases hrel with
  | some hab => exact ⟨_, rfl, hab⟩

theorem of_mem_mapM (h : l.mapM f = .ok l') {b : β} (hb : b ∈ l') : ∃ a ∈ l, f a = .ok b := by
  obtain ⟨j, hj⟩ := List.mem_iff_getElem?.mp hb
  obtain ⟨a, ha, hab⟩ := of_getElem?_mapM h hj
  exact ⟨a, List.mem_of_getElem? ha, hab⟩

theorem mem_mapM (h : l.mapM f = .ok l') {a : α} (ha : a ∈ l) : ∃ b ∈ l', f a = .ok b := by
  obtain ⟨j, hj⟩ := List.mem_iff_getElem?.mp ha
  obtain ⟨b, hb, hab⟩ := getElem?_mapM h hj
  exact ⟨b, List.mem_of_getElem? hb, hab⟩

theorem map_eq_of_mapM {γ : Type*} {g : α → γ} {g' : β → γ} (hg : ∀ a b, f a = .ok b → g' b = g a)
    (h : l.mapM f = .ok l') : l'.map g' = l.map g := by
  apply List.ext_getElem?
  intro j
  rw [List.getElem?_map, List.getElem?_map]
  have hrel := mapM_rel h j
  generalize l[j]? = a at *
  generalize l'[j]? = b at *
  cases hrel with
  | some hab => rw [Option.map_some, Option.map_some, hg _ _ hab]
  | none => rfl

end traverse

theorem next_iff {α : Type*} [LinearOrder α] {l : List α} (hl : l.SortedLT) {j : ℕ} {x y : α}
    (hx : l[j]? = some x) (hy : y ∈ l) (hxy : x < y) :
    l[j + 1]? = some y ↔ ∀ z ∈ l, x < z → y ≤ z := by
  obtain ⟨hj, rfl⟩ := List.getElem?_eq_some_iff.mp hx
  constructor
  · intro hnext z hz hxz
    obtain ⟨hj', rfl⟩ := List.getElem?_eq_some_iff.mp hnext
    obtain ⟨k, hk, rfl⟩ := List.getElem_of_mem hz
    exact hl.getElem_le_getElem_iff.mpr (hl.getElem_lt_getElem_iff.mp hxz)
  · intro hleast
    obtain ⟨k, hk, rfl⟩ := List.getElem_of_mem hy
    have hkj : j + 1 ≤ k := hl.getElem_lt_getElem_iff.mp hxy
    have hj' : j + 1 < l.length := by omega
    rw [List.getElem?_eq_getElem hj', Option.some.injEq]
    apply le_antisymm
    · exact hl.getElem_le_getElem_iff.mpr hkj
    · exact hleast _ (List.getElem_mem hj') (hl.getElem_lt_getElem_iff.mpr (Nat.lt_succ_self j))

theorem flatMap_range_ite {α : Type*} {n m : ℕ} (h : m < n) (l : List α) :
    (List.range n).flatMap (fun i => if i = m then l else []) = l := by
  induction n with
  | zero => exact absurd h (Nat.not_lt_zero m)
  | succ n ih =>
    rw [List.range_succ, List.flatMap_append]
    by_cases hm : m = n
    · have hnil : (List.range n).flatMap (fun i => if i = m then l else []) = [] := by
        apply List.flatMap_eq_nil_iff.mpr
        intro i hi
        rw [List.mem_range] at hi
        exact if_neg (by omega)
      rw [hnil]
      simp [hm]
    · rw [ih (by omega)]
      simp [Ne.symm hm]

theorem take_drop_of_append_eq {α : Type*} {a b c r : List α} (h : a ++ r = b ++ c)
    (hle : b.length ≤ a.length) : a.take b.length = b ∧ a.drop b.length ++ r = c := by
  constructor
  · have htake := congrArg (List.take b.length) h
    rwa [List.take_append_of_le_length hle, List.take_left] at htake
  · have hdrop := congrArg (List.drop b.length) h
    rwa [List.drop_append_of_le_length hle, List.drop_left] at hdrop

section destutter

variable {α : Type*} {R : α → α → Prop} [DecidableRel R] {l : List α} {a b : α}

theorem destutter'_concat (l : List α) (a b : α) :
    (l ++ [b]).destutter' R a = l.destutter' R a ++
      if R ((l.destutter' R a).getLast (l.destutter'_ne_nil R)) b then [b] else [] := by
  induction l generalizing a with
  | nil =>
    rw [List.nil_append, List.destutter'_singleton]
    by_cases h : R a b <;> simp [h]
  | cons c l ih =>
    rw [List.cons_append]
    by_cases h : R a c
    · simp only [List.destutter'_cons_pos _ h, ih c, List.cons_append,
        List.getLast_cons (l.destutter'_ne_nil R)]
    · simp only [List.destutter'_cons_neg _ h, ih a]

theorem destutter_concat (h : ∀ a ∈ (l.destutter R).getLast?, R a b) :
    (l ++ [b]).destutter R = l.destutter R ++ [b] := by
  cases l with
  | nil => rfl
  | cons a l =>
    rw [List.cons_append, List.destutter_cons', List.destutter_cons', destutter'_concat, if_pos]
    exact h _ (List.getLast?_eq_some_getLast (l.destutter'_ne_nil R))

theorem destutter_concat_of_not_rel (h : a ∈ (l.destutter R).getLast?) (hR : ¬R a b) :
    (l ++ [b]).destutter R = l.destutter R := by
  cases l with
  | nil => cases h
  | cons c l =>
    rw [List.destutter_cons', List.getLast?_eq_some_getLast (l.destutter'_ne_nil R)] at h
    cases h
    rw [List.cons_append, List.destutter_cons', List.destutter_cons', destutter'_concat, if_neg hR,
      List.append_nil]

/-- Repetitions are all that is left out. -/
theorem destutter_flatMap_replicate [DecidableEq α] (n : ℕ) {l : List α} (h : l.IsChain (· ≠ ·)) :
    (l.flatMap (List.replicate (n + 1))).destutter (· ≠ ·) = l := by
  have hrepeat (n : ℕ) (a : α) (l : List α) :
      (List.replicate n a ++ l).destutter' (· ≠ ·) a = l.destutter' (· ≠ ·) a := by
    induction n with
    | zero => rfl
    | succ n ih => rw [List.replicate_succ, List.cons_append, List.destutter'_cons_neg _ (by simp), ih]
  have hchain (a : α) (l : List α) (h : (a :: l).IsChain (· ≠ ·)) :
      (l.flatMap (List.replicate (n + 1))).destutter' (· ≠ ·) a = a :: l := by
    induction l generalizing a with
    | nil => rfl
    | cons b l ih =>
      obtain ⟨hne, hl⟩ := List.isChain_cons_cons.mp h
      rw [List.flatMap_cons, List.replicate_succ, List.cons_append, List.destutter'_cons_pos _ hne,
        hrepeat, ih b hl]
  cases l with
  | nil => rfl
  | cons a l =>
    rw [List.flatMap_cons, List.replicate_succ, List.cons_append, List.destutter_cons', hrepeat,
      hchain a l h]

end destutter

theorem lookup_filterMap {α β : Type*} [DecidableEq α] {keys : List α} (f : α → Option β) {k : α}
    (h : k ∈ keys) : (keys.filterMap fun k => (f k).map fun v => (k, v)).lookup k = f k := by
  induction keys with
  | nil => cases h
  | cons k' keys ih =>
    by_cases hk : k = k'
    · subst hk
      cases hf : f k with
      | some v => rw [List.filterMap_cons_some (by rw [hf]; rfl), List.lookup_cons_self]
      | none =>
        rw [List.filterMap_cons_none (by rw [hf]; rfl), List.lookup_eq_none_iff]
        intro item hitem
        obtain ⟨k', _, hk'⟩ := List.mem_filterMap.mp hitem
        obtain ⟨v, hv, rfl⟩ := Option.map_eq_some_iff.mp hk'
        rw [bne_iff_ne]
        rintro rfl
        rw [hf] at hv
        cases hv
    · have hmem : k ∈ keys := (List.mem_cons.mp h).resolve_left hk
      cases hf : f k' with
      | some v =>
        rw [List.filterMap_cons_some (by rw [hf]; rfl), List.lookup_cons, beq_false_of_ne hk]
        exact ih hmem
      | none => rw [List.filterMap_cons_none (by rw [hf]; rfl), ih hmem]

end NaviMisc.Lib.Lists
