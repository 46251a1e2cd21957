import Mathlib.Data.List.Range
import Mathlib.Data.Nat.ModEq

/-!
A queue kept in a circular buffer of `N` slots: the elements stand in order from
slot `tail` on.
-/

namespace NaviMisc.Lib.Ring

variable {α : Type*} {N : ℕ}

def contents (N : ℕ) (buf : ℕ → α) (tail n : ℕ) : List α :=
  (List.range n).map fun i => buf ((tail + i) % N)

@[simp] theorem length_contents (buf : ℕ → α) (tail n : ℕ) : (contents N buf tail n).length = n := by
  rw [contents, List.length_map, List.length_range]

theorem contents_succ (buf : ℕ → α) (tail n : ℕ) :
    contents N buf tail (n + 1) = contents N buf tail n ++ [buf ((tail + n) % N)] := by
  rw [contents, List.range_succ, List.map_append]
  rfl

theorem contents_cons (buf : ℕ → α) (tail n : ℕ) :
    contents N buf tail (n + 1) = buf (tail % N) :: contents N buf ((tail + 1) % N) n := by
  rw [contents, List.range_succ_eq_map, List.map_cons, List.map_map]
  congr 1
  apply List.map_congr_left
  intro i _
  rw [Function.comp_apply, Nat.mod_add_mod, Nat.succ_eq_add_one, Nat.add_assoc, Nat.add_comm 1 i]

theorem slot_injective {tail i j : ℕ} (hi : i < N) (hj : j < N)
    (h : (tail + i) % N = (tail + j) % N) : i = j := by
  have hmod : i ≡ j [MOD N] := Nat.ModEq.add_left_cancel' tail h
  exact Nat.ModEq.eq_of_lt_of_lt hmod hi hj

theorem contents_update (buf : ℕ → α) (tail : ℕ) {n : ℕ} (hn : n < N) (v : α) :
    contents N (Function.update buf ((tail + n) % N) v) tail n = contents N buf tail n := by
  apply List.map_congr_left
  intro i hi
  have hlt : i < n := List.mem_range.mp hi
  apply Function.update_of_ne
  intro h
  exact Nat.ne_of_lt hlt (slot_injective (hlt.trans hn) hn h)

end NaviMisc.Lib.Ring

/-!
Segments of any lengths, laid out one after the other in a ring of addresses.
-/

namespace NaviMisc.Lib.SegmentRing

variable {α : Type*} (first next : α → ℕ)

/-- The segments follow each other from `a` to `b` without gaps. -/
def Packed : ℕ → List α → ℕ → Prop
  | a, [], b => a = b
  | a, s :: l, b => first s = a ∧ a < next s ∧ Packed (next s) l b

/-- From the head on the segments go up, at most to the limit, and those after them start again at
0 and stay below the head. -/
def Placed (limit : ℕ) (l : List α) : Prop :=
  ∃ upper lower a b c, l = upper ++ lower ∧ upper ≠ [] ∧ Packed first next a upper b ∧ b ≤ limit ∧
    Packed first next 0 lower c ∧ c ≤ a

def Apart (s t : α) : Prop := next s ≤ first t ∨ next t ≤ first s

variable {first next} {a b c limit : ℕ} {s t : α} {l l' : List α}

instance (s t : α) : Decidable (Apart first next s t) := inferInstanceAs (Decidable (_ ∨ _))

instance : Std.Symm (Apart first next) := ⟨fun _ _ h => h.symm⟩

theorem Packed.append (h : Packed first next a l b) (h' : Packed first next b l' c) :
    Packed first next a (l ++ l') c := by
  induction l generalizing a with
  | nil =>
    rw [Packed] at h
    rw [List.nil_append, h]
    exact h'
  | cons s l ih => exact ⟨h.1, h.2.1, ih h.2.2⟩

theorem Packed.length_le (h : Packed first next a l b) : a + l.length ≤ b := by
  induction l generalizing a with
  | nil => exact Nat.le_of_eq h
  | cons s l ih =>
    have hrest := ih h.2.2
    have hlt := h.2.1
    rw [List.length_cons]
    omega

theorem Packed.bounds (h : Packed first next a l b) (hs : s ∈ l) :
    a ≤ first s ∧ first s < next s ∧ next s ≤ b := by
  induction l generalizing a with
  | nil => cases hs
  | cons t l ih =>
    obtain ⟨hfirst, hlt, hrest⟩ := h
    rcases List.mem_cons.mp hs with rfl | hs
    · have hlength := hrest.length_le
      omega
    · have hbounds := ih hrest hs
      omega

theorem Packed.apart (h : Packed first next a l b) : l.Pairwise (Apart first next) := by
  induction l generalizing a with
  | nil => exact .nil
  | cons t l ih =>
    refine List.pairwise_cons.mpr ⟨fun s hs => Or.inl ?_, ih h.2.2⟩
    exact (h.2.2.bounds hs).1

theorem Packed.last (h : Packed first next a l b) (hlast : l.getLast? = some t) : next t = b := by
  induction l generalizing a with
  | nil => cases hlast
  | cons s l ih =>
    cases l with
    | nil =>
      cases hlast
      exact h.2.2
    | cons s' l => exact ih h.2.2 hlast

theorem Packed.head (h : Packed first next a l b) (hhead : l.head? = some s) : first s = a := by
  cases l with
  | nil => cases hhead
  | cons s' l =>
    cases hhead
    exact h.1

theorem Placed.bounds (h : Placed first next limit l) (hs : s ∈ l) :
    first s < next s ∧ next s ≤ limit := by
  obtain ⟨upper, lower, a, b, c, rfl, -, hupper, hb, hlower, hc⟩ := h
  have hle := hupper.length_le
  rcases List.mem_append.mp hs with hs | hs
  · have hbounds := hupper.bounds hs
    omega
  · have hbounds := hlower.bounds hs
    omega

theorem Placed.length_le (h : Placed first next limit l) : l.length ≤ limit := by
  obtain ⟨upper, lower, a, b, c, rfl, -, hupper, hb, hlower, hc⟩ := h
  have hle := hupper.length_le
  have hle' := hlower.length_le
  rw [List.length_append]
  omega

theorem Placed.apart (h : Placed first next limit l) : l.Pairwise (Apart first next) := by
  obtain ⟨upper, lower, a, b, c, rfl, -, hupper, -, hlower, hc⟩ := h
  refine List.pairwise_append.mpr ⟨hupper.apart, hlower.apart, fun s hs t ht => Or.inr ?_⟩
  exact Nat.le_trans (Nat.le_trans (hlower.bounds ht).2.2 hc) (hupper.bounds hs).1

theorem Placed.singleton (hlt : first s < next s) (h : next s ≤ limit) :
    Placed first next limit [s] :=
  ⟨[s], [], first s, next s, 0, rfl, List.cons_ne_nil _ _, ⟨rfl, hlt, rfl⟩, h, rfl, Nat.zero_le _⟩

theorem Placed.tail (h : Placed first next limit (s :: l)) (hne : l ≠ []) :
    Placed first next limit l := by
  obtain ⟨upper, lower, a, b, c, hl, hne', hupper, hb, hlower, hc⟩ := h
  cases upper with
  | nil => exact absurd rfl hne'
  | cons s' upper =>
    rw [List.cons_append, List.cons.injEq] at hl
    obtain ⟨rfl, rfl⟩ := hl
    obtain ⟨-, hlt, hrest⟩ := hupper
    have hle := hrest.length_le
    cases upper with
    | nil =>
      refine ⟨lower, [], 0, c, 0, (List.append_nil _).symm, hne, hlower, ?_, rfl, Nat.le_refl 0⟩
      omega
    | cons t upper =>
      exact ⟨t :: upper, lower, next s, b, c, rfl, List.cons_ne_nil _ _, hrest, hb, hlower, by omega⟩

theorem Placed.concat (h : Placed first next limit l) (hhead : l.head? = some s)
    (hlast : l.getLast? = some t) {u : α} (hu : first u < next u)
    (hfit : first u = next t ∧ (first s < next t ∧ next u ≤ limit ∨ next u ≤ first s) ∨
      first u = 0 ∧ first s < next t ∧ next u ≤ first s) :
    Placed first next limit (l ++ [u]) := by
  obtain ⟨upper, lower, a, b, c, rfl, hne, hupper, hb, hlower, hc⟩ := h
  obtain ⟨s', hs'⟩ := List.exists_mem_of_ne_nil upper hne
  have hlt := hupper.bounds hs'
  have hfirst : first s = a := by
    rw [List.head?_append_of_ne_nil _ hne] at hhead
    exact hupper.head hhead
  rcases List.eq_nil_or_concat' lower with rfl | ⟨lower', t', rfl⟩
  · rw [List.append_nil] at hlast ⊢
    have hnext := hupper.last hlast
    rcases hfit with ⟨hplace, hfit⟩ | ⟨hplace, -, hfit⟩
    · refine ⟨upper ++ [u], [], a, next u, 0, (List.append_nil _).symm, by simp, ?_, by omega, rfl,
        Nat.zero_le _⟩
      exact hupper.append ⟨hplace.trans hnext, by omega, rfl⟩
    · exact ⟨upper, [u], a, b, next u, rfl, hne, hupper, hb, ⟨hplace, by omega, rfl⟩, by omega⟩
  · have hlast' : (lower' ++ [t']).getLast? = some t := by
      rwa [List.getLast?_append_of_ne_nil _ (by simp)] at hlast
    have hnext := hlower.last hlast'
    refine ⟨upper, lower' ++ [t'] ++ [u], a, b, next u, List.append_assoc .., hne, hupper, hb, ?_, ?_⟩
    · exact hlower.append ⟨by omega, by omega, rfl⟩
    · omega

end NaviMisc.Lib.SegmentRing
