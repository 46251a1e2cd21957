import Mathlib.Data.Nat.Bitwise
import Mathlib.Order.Bounds.Defs

/-!
Sets of `k`-bit numbers as binary trees that branch on the bits from the highest
one down. In a canonical tree no node has two equal leaves.
-/

namespace NaviMisc.Lib.SetTree

inductive BitTree
  | leaf (b : Bool)
  | node (l r : BitTree)
  deriving DecidableEq

namespace BitTree

def height : BitTree → ℕ
  | leaf _ => 0
  | node l r => max l.height r.height + 1

def mem : BitTree → ℕ → ℕ → Bool
  | leaf b, _, _ => b
  | node l r, k, a => cond (a.testBit (k - 1)) (r.mem (k - 1) a) (l.mem (k - 1) a)

def Canonical : BitTree → Prop
  | leaf _ => True
  | node l r => l.Canonical ∧ r.Canonical ∧ ∀ b, ¬(l = leaf b ∧ r = leaf b)

def join : BitTree → BitTree → BitTree
  | leaf false, leaf false => leaf false
  | leaf true, leaf true => leaf true
  | l, r => node l r

def insert : ℕ → ℕ → BitTree → BitTree
  | _, _, leaf true => leaf true
  | 0, _, leaf false => leaf true
  | 0, _, node l r => node l r
  | k + 1, a, leaf false =>
    cond (a.testBit k) (join (leaf false) (insert k a (leaf false)))
      (join (insert k a (leaf false)) (leaf false))
  | k + 1, a, node l r =>
    cond (a.testBit k) (join l (insert k a r)) (join (insert k a l) r)

def first : ℕ → BitTree → Option ℕ
  | _, leaf true => none
  | _, leaf false => some 0
  | k, node l r =>
    if l = leaf true then (first (k - 1) r).map (2 ^ (k - 1) + ·) else first (k - 1) l

theorem join_cases (l r : BitTree) :
    (∃ b, l = leaf b ∧ r = leaf b ∧ join l r = leaf b) ∨
      (∀ b, ¬(l = leaf b ∧ r = leaf b)) ∧ join l r = node l r := by
  cases l with
  | node l₁ l₂ =>
    right
    constructor
    · rintro b ⟨hl, -⟩
      cases hl
    · cases r <;> rfl
  | leaf b =>
    cases r with
    | node r₁ r₂ =>
      right
      constructor
      · rintro b' ⟨-, hr⟩
        cases hr
      · cases b <;> rfl
    | leaf c => cases b <;> cases c <;> simp [join]

theorem mem_join (l r : BitTree) (k a : ℕ) : (join l r).mem k a = (node l r).mem k a := by
  rcases join_cases l r with ⟨b, rfl, rfl, h⟩ | ⟨-, h⟩
  · rw [h]
    simp [mem]
  · rw [h]

theorem canonical_join {l r : BitTree} (hl : l.Canonical) (hr : r.Canonical) :
    (join l r).Canonical := by
  rcases join_cases l r with ⟨b, -, -, h⟩ | ⟨hne, h⟩
  · rw [h]
    trivial
  · rw [h]
    exact ⟨hl, hr, hne⟩

theorem join_eq_node {l r : BitTree} (h : (node l r).Canonical) : join l r = node l r := by
  rcases join_cases l r with ⟨b, hl, hr, -⟩ | ⟨-, hj⟩
  · exact absurd ⟨hl, hr⟩ (h.2.2 b)
  · exact hj

theorem height_join (l r : BitTree) : (join l r).height ≤ max l.height r.height + 1 := by
  rcases join_cases l r with ⟨b, -, -, h⟩ | ⟨-, h⟩
  · rw [h]
    exact Nat.zero_le _
  · rw [h, height]

theorem decide_mod_two_pow_succ (k a x : ℕ) :
    decide (x % 2 ^ (k + 1) = a % 2 ^ (k + 1)) =
      (x.testBit k == a.testBit k && decide (x % 2 ^ k = a % 2 ^ k)) := by
  have hx : x % 2 ^ k < 2 ^ k := Nat.mod_lt _ (Nat.two_pow_pos k)
  have ha : a % 2 ^ k < 2 ^ k := Nat.mod_lt _ (Nat.two_pow_pos k)
  rw [Nat.mod_pow_succ, Nat.mod_pow_succ, ← Nat.toNat_testBit, ← Nat.toNat_testBit]
  cases x.testBit k <;> cases a.testBit k <;> simp <;> omega

theorem height_insert {k : ℕ} (a : ℕ) {t : BitTree} (ht : t.height ≤ k) :
    (insert k a t).height ≤ k := by
  induction k generalizing t with
  | zero =>
    cases t with
    | leaf b => cases b <;> simp [insert, height]
    | node l r => simp [height] at ht
  | succ k ih =>
    cases t with
    | leaf b =>
      cases b with
      | true => simp [insert, height]
      | false =>
        have h : (insert k a (leaf false)).height ≤ k := ih (Nat.zero_le k)
        rw [insert]
        cases a.testBit k with
        | true => exact (height_join _ _).trans (by simp [height, h])
        | false => exact (height_join _ _).trans (by simp [height, h])
    | node l r =>
      simp only [height, Nat.add_le_add_iff_right, Nat.max_le] at ht
      rw [insert]
      cases a.testBit k with
      | true => exact (height_join _ _).trans (Nat.succ_le_succ (max_le ht.1 (ih ht.2)))
      | false => exact (height_join _ _).trans (Nat.succ_le_succ (max_le (ih ht.1) ht.2))

theorem mem_insert {k : ℕ} (a x : ℕ) {t : BitTree} (ht : t.height ≤ k) :
    (insert k a t).mem k x = (t.mem k x || decide (x % 2 ^ k = a % 2 ^ k)) := by
  induction k generalizing t with
  | zero =>
    cases t with
    | leaf b => cases b <;> simp [insert, mem, Nat.mod_one]
    | node l r => simp [height] at ht
  | succ k ih =>
    cases t with
    | leaf b =>
      cases b with
      | true => simp [insert, mem]
      | false =>
        have h := ih (t := leaf false) (Nat.zero_le k)
        rw [insert, decide_mod_two_pow_succ]
        cases ha : a.testBit k <;> cases hx : x.testBit k <;> simp [mem_join, mem, h, hx]
    | node l r =>
      simp only [height, Nat.add_le_add_iff_right, Nat.max_le] at ht
      rw [insert, decide_mod_two_pow_succ]
      cases ha : a.testBit k <;> cases hx : x.testBit k <;>
        simp [mem_join, mem, ih ht.1, ih ht.2, hx]

theorem canonical_insert {k : ℕ} (a : ℕ) {t : BitTree} (ht : t.Canonical) :
    (insert k a t).Canonical := by
  induction k generalizing t with
  | zero =>
    cases t with
    | leaf b => cases b <;> trivial
    | node l r => exact ht
  | succ k ih =>
    cases t with
    | leaf b =>
      cases b with
      | true => trivial
      | false =>
        rw [insert]
        cases a.testBit k with
        | true => exact canonical_join trivial (ih trivial)
        | false => exact canonical_join (ih trivial) trivial
    | node l r =>
      rw [insert]
      cases a.testBit k with
      | true => exact canonical_join ht.1 (ih ht.2.1)
      | false => exact canonical_join (ih ht.1) ht.2.1

theorem insert_eq_self {k : ℕ} {a : ℕ} {t : BitTree} (ht : t.Canonical) (hk : t.height ≤ k)
    (h : t.mem k a = true) : insert k a t = t := by
  induction k generalizing t with
  | zero =>
    cases t with
    | leaf b =>
      obtain rfl : b = true := h
      rfl
    | node l r => simp [height] at hk
  | succ k ih =>
    cases t with
    | leaf b =>
      obtain rfl : b = true := h
      rfl
    | node l r =>
      simp only [height, Nat.add_le_add_iff_right, Nat.max_le] at hk
      rw [mem, Nat.add_sub_cancel] at h
      rw [insert]
      cases ha : a.testBit k with
      | true =>
        rw [ha] at h
        exact (congrArg (join l) (ih ht.2.1 hk.2 h)).trans (join_eq_node ht)
      | false =>
        rw [ha] at h
        exact (congrArg (join · r) (ih ht.1 hk.1 h)).trans (join_eq_node ht)

theorem mem_mod {k : ℕ} (a : ℕ) {t : BitTree} (ht : t.height ≤ k) :
    t.mem k (a % 2 ^ k) = t.mem k a := by
  induction t generalizing k a with
  | leaf b => rfl
  | node l r ihl ihr =>
    cases k with
    | zero => simp [height] at ht
    | succ k =>
      simp only [height, Nat.add_le_add_iff_right, Nat.max_le] at ht
      have hmod : a % 2 ^ (k + 1) % 2 ^ k = a % 2 ^ k := by
        rw [Nat.mod_mod_of_dvd _ (Nat.pow_dvd_pow 2 (Nat.le_succ k))]
      have hl := ihl (a % 2 ^ (k + 1)) ht.1
      have hr := ihr (a % 2 ^ (k + 1)) ht.2
      rw [hmod, ihl a ht.1] at hl
      rw [hmod, ihr a ht.2] at hr
      simp [mem, ← hl, ← hr]

theorem first_eq_none {k : ℕ} {t : BitTree} (ht : t.Canonical) : first k t = none ↔ t = leaf true := by
  induction t generalizing k with
  | leaf b => cases b <;> simp [first]
  | node l r ihl ihr =>
    have hr : r = leaf true → l ≠ leaf true := fun hr hl => ht.2.2 true ⟨hl, hr⟩
    rw [first]
    split
    · rename_i hl
      simpa [ihr ht.2.1] using fun h => hr h hl
    · rename_i hl
      simpa [ihl ht.1] using hl

theorem first_spec {k : ℕ} {t : BitTree} (ht : t.Canonical) (hk : t.height ≤ k) {a : ℕ}
    (h : first k t = some a) : a < 2 ^ k ∧ t.mem k a = false ∧ ∀ x < a, t.mem k x = true := by
  induction t generalizing k a with
  | leaf b =>
    cases b with
    | true => cases h
    | false =>
      cases h
      exact ⟨Nat.two_pow_pos k, rfl, by simp⟩
  | node l r ihl ihr =>
    cases k with
    | zero => simp [height] at hk
    | succ k =>
      simp only [height, Nat.add_le_add_iff_right, Nat.max_le] at hk
      rw [first, Nat.add_sub_cancel] at h
      split at h
      · rename_i hl
        obtain ⟨b, hb, rfl⟩ := Option.map_eq_some_iff.mp h
        obtain ⟨hlt, hmem, hless⟩ := ihr ht.2.1 hk.2 hb
        have hbit : (2 ^ k + b).testBit k = true := by
          rw [Nat.testBit_two_pow_add_eq, Nat.testBit_lt_two_pow hlt, Bool.not_false]
        have hmod : (2 ^ k + b) % 2 ^ k = b := by rw [Nat.add_mod_left, Nat.mod_eq_of_lt hlt]
        refine ⟨by rw [pow_succ]; omega, ?_, ?_⟩
        · rw [mem, Nat.add_sub_cancel, hbit, cond_true, ← mem_mod _ hk.2, hmod, hmem]
        · intro x hx
          rw [mem, Nat.add_sub_cancel]
          cases hxk : x.testBit k with
          | false => rw [hl, cond_false, mem]
          | true =>
            have hle : 2 ^ k ≤ x := Nat.ge_two_pow_of_testBit hxk
            obtain ⟨y, rfl⟩ := Nat.exists_eq_add_of_le hle
            have hy : y < b := by omega
            rw [cond_true, ← mem_mod _ hk.2, Nat.add_mod_left, Nat.mod_eq_of_lt (hy.trans hlt)]
            exact hless y hy
      · obtain ⟨hlt, hmem, hless⟩ := ihl ht.1 hk.1 h
        have hlow : ∀ x, x ≤ a → (node l r).mem (k + 1) x = l.mem k x := by
          intro x hx
          rw [mem, Nat.add_sub_cancel, Nat.testBit_lt_two_pow (hx.trans_lt hlt), cond_false]
        refine ⟨by rw [pow_succ]; omega, ?_, ?_⟩
        · rw [hlow a le_rfl, hmem]
        · intro x hx
          rw [hlow x hx.le]
          exact hless x hx

theorem first_eq_some_iff {k : ℕ} {t : BitTree} (ht : t.Canonical) (hk : t.height ≤ k) (a : ℕ) :
    first k t = some a ↔ IsLeast {x | x < 2 ^ k ∧ t.mem k x = false} a := by
  constructor
  · intro h
    obtain ⟨hlt, hmem, hless⟩ := first_spec ht hk h
    refine ⟨⟨hlt, hmem⟩, ?_⟩
    rintro x ⟨-, hx⟩
    by_contra hxa
    rw [hless x (Nat.lt_of_not_le hxa)] at hx
    cases hx
  · rintro ⟨⟨hlt, hmem⟩, hleast⟩
    cases h : first k t with
    | none =>
      rw [(first_eq_none ht).mp h] at hmem
      cases hmem
    | some b =>
      obtain ⟨hb, hbmem, hless⟩ := first_spec ht hk h
      have hab : a ≤ b := hleast ⟨hb, hbmem⟩
      rcases hab.lt_or_eq with hlt' | rfl
      · rw [hless a hlt'] at hmem
        cases hmem
      · rfl

end BitTree

end NaviMisc.Lib.SetTree
