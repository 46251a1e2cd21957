import Mathlib.Order.WellFoundedSet

/-!
Steps along a relation, the least number of them between two elements, and the lists
of the elements that are passed.
-/

namespace NaviMisc.Lib

open Relation

variable {α : Type*}

inductive Steps (r : α → α → Prop) (a : α) : ℕ → α → Prop
  | refl : Steps r a 0 a
  | tail {n : ℕ} {b c : α} (h : Steps r a n b) (hbc : r b c) : Steps r a (n + 1) c

structure Distance (r : α → α → Prop) (a : α) (n : ℕ) (b : α) : Prop where
  steps : Steps r a n b
  least : ∀ m, Steps r a m b → n ≤ m

structure Route (r : α → α → Prop) (a b : α) (l : List α) : Prop where
  chain : l.IsChain r
  head : l.head? = some a
  last : l.getLast? = some b

structure Shortest (r : α → α → Prop) (a b : α) (l : List α) : Prop where
  route : Route r a b l
  least : ∀ l', Route r a b l' → l.length ≤ l'.length

def Between (r : α → α → Prop) (a b c : α) : Prop :=
  ∃ n m, Steps r a n b ∧ Steps r b m c ∧ Distance r a (n + m) c

variable {r : α → α → Prop} {a b c : α} {n m : ℕ} {l : List α}

namespace Steps

theorem trans (h : Steps r a n b) (h' : Steps r b m c) : Steps r a (n + m) c := by
  induction h' with
  | refl => exact h
  | tail _ hbc ih => exact ih.tail hbc

theorem head (hab : r a b) (h : Steps r b n c) : Steps r a (n + 1) c := by
  rw [Nat.add_comm]
  exact trans (tail refl hab) h

theorem eq_of_zero (h : Steps r a 0 b) : a = b := by
  cases h
  rfl

theorem last (h : Steps r a (n + 1) c) : ∃ b, Steps r a n b ∧ r b c := by
  cases h with
  | tail h hbc => exact ⟨_, h, hbc⟩

theorem reachable (h : Steps r a n b) : ReflTransGen r a b := by
  induction h with
  | refl => exact .refl
  | tail _ hbc ih => exact ih.tail hbc

end Steps

theorem exists_steps (h : ReflTransGen r a b) : ∃ n, Steps r a n b := by
  induction h with
  | refl => exact ⟨0, .refl⟩
  | tail _ hbc ih =>
    obtain ⟨n, h⟩ := ih
    exact ⟨n + 1, h.tail hbc⟩

namespace Route

theorem cons (hab : r a b) (h : Route r b c l) : Route r a c (a :: l) := by
  refine ⟨?_, rfl, ?_⟩
  · rw [List.isChain_cons]
    refine ⟨fun x hx => ?_, h.chain⟩
    rw [h.head] at hx
    cases hx
    exact hab
  · rw [List.getLast?_cons, h.last]
    rfl

theorem singleton : Route r a a [a] := ⟨List.isChain_singleton a, rfl, rfl⟩

theorem steps (h : Route r a b l) : ∃ n, l.length = n + 1 ∧ Steps r a n b := by
  induction l generalizing a with
  | nil => cases h.head
  | cons x l ih =>
    cases h.head
    cases l with
    | nil =>
      cases h.last
      exact ⟨0, rfl, .refl⟩
    | cons y l =>
      have hchain := List.isChain_cons_cons.mp h.chain
      have hlast : (y :: l).getLast? = some b := by
        rw [← h.last, List.getLast?_cons_cons]
      obtain ⟨n, hn, hsteps⟩ := ih ⟨hchain.2, rfl, hlast⟩
      exact ⟨n + 1, by rw [List.length_cons, hn], hsteps.head hchain.1⟩

theorem reachable (h : Route r a b l) : ReflTransGen r a b := by
  obtain ⟨n, -, hsteps⟩ := h.steps
  exact hsteps.reachable

theorem drop {l₁ l₂ : List α} (h : Route r a c (l₁ ++ b :: l₂)) : Route r b c (b :: l₂) := by
  refine ⟨h.chain.right_of_append, rfl, ?_⟩
  rw [← h.last, List.getLast?_append_of_ne_nil _ (List.cons_ne_nil _ _)]

end Route

namespace Distance

theorem zero : Distance r a 0 a := ⟨.refl, fun m _ => Nat.zero_le m⟩

theorem of_reachable (h : ReflTransGen r a b) : ∃ n, Distance r a n b := by
  classical
  have hsteps := exists_steps h
  exact ⟨Nat.find hsteps, Nat.find_spec hsteps, fun m => Nat.find_min' hsteps⟩

theorem reachable (h : Distance r a n b) : ReflTransGen r a b := h.steps.reachable

theorem unique (h : Distance r a n b) (h' : Distance r a m b) : n = m :=
  Nat.le_antisymm (h.least m h'.steps) (h'.least n h.steps)

theorem le_succ (h : Distance r a n b) (hbc : r b c) (h' : Distance r a m c) : m ≤ n + 1 :=
  h'.least _ (h.steps.tail hbc)

theorem of_trans (h : Distance r a (n + m) c) (h₁ : Steps r a n b) (h₂ : Steps r b m c) :
    Distance r a n b := by
  refine ⟨h₁, fun k hk => ?_⟩
  have hle := h.least _ (hk.trans h₂)
  omega

theorem pred (h : Distance r a (n + 1) c) : ∃ b, Distance r a n b ∧ r b c := by
  obtain ⟨b, hb, hbc⟩ := h.steps.last
  exact ⟨b, h.of_trans hb (.tail .refl hbc), hbc⟩

theorem shortest (h : Distance r a n b) (hl : Route r a b l) (hlength : l.length = n + 1) :
    Shortest r a b l := by
  refine ⟨hl, fun l' hl' => ?_⟩
  obtain ⟨m, hm, hsteps⟩ := hl'.steps
  have hle := h.least m hsteps
  omega

end Distance

theorem Shortest.notMem (h : Shortest r a b (a :: l)) : a ∉ l := by
  intro hmem
  obtain ⟨l₁, l₂, rfl⟩ := List.append_of_mem hmem
  have hroute : Route r a b ((a :: l₁) ++ a :: l₂) := h.route
  have hle := h.least _ hroute.drop
  simp only [List.length_cons, List.length_append] at hle
  omega

theorem Between.refl (h : Distance r a n b) : Between r a b b := ⟨n, 0, h.steps, .refl, h⟩

theorem Between.pred (h : Between r a b c) {x : α} (hx : Distance r a n x) (hxb : r x b)
    (hb : Distance r a (n + 1) b) : Between r a x c := by
  obtain ⟨k, m, hk, hm, hdist⟩ := h
  obtain rfl := (hdist.of_trans hk hm).unique hb
  refine ⟨n, m + 1, hx.steps, hm.head hxb, ?_⟩
  rwa [Nat.add_comm m 1, ← Nat.add_assoc]

theorem Steps.extend {p : ℕ → α} {k : ℕ} (h : Steps r (p k) m b)
    (hp : ∀ j < k, r (p j) (p (j + 1))) :
    ∃ q : ℕ → α, (∀ j ≤ k, q j = p j) ∧ q (k + m) = b ∧ ∀ j < k + m, r (q j) (q (j + 1)) := by
  induction h with
  | refl => exact ⟨p, fun j _ => rfl, rfl, hp⟩
  | @tail m x y _ hxy ih =>
    obtain ⟨q, hq, hx, hr⟩ := ih
    have hold : ∀ j ≤ k + m, Function.update q (k + m + 1) y j = q j := fun j hj =>
      Function.update_of_ne (by omega) _ _
    refine ⟨Function.update q (k + m + 1) y, ?_, Function.update_self _ _ _, ?_⟩
    · intro j hj
      rw [hold j (by omega), hq j hj]
    · intro j hj
      rw [hold j (by omega)]
      by_cases hlast : j = k + m
      · subst hlast
        rw [Function.update_self, hx]
        exact hxy
      · rw [hold (j + 1) (by omega)]
        exact hr j (by omega)

theorem Between.nodes (h : Between r a b c) :
    ∃ (p : ℕ → α) (n m : ℕ), p n = b ∧ p (n + m) = c ∧ (∀ j ≤ n + m, Distance r a j (p j)) ∧
      ∀ j < n + m, r (p j) (p (j + 1)) := by
  obtain ⟨n, m, hn, hm, hdist⟩ := h
  obtain ⟨p, hp₀, hpn, hpr⟩ := Steps.extend (p := fun _ => a) (k := 0) hn (by simp)
  rw [Nat.zero_add] at hpn hpr
  obtain ⟨q, hqp, hqm, hqr⟩ := Steps.extend (p := p) (hpn ▸ hm) hpr
  have hsteps : ∀ i j, i + j ≤ n + m → Steps r (q i) j (q (i + j)) := by
    intro i j hij
    induction j with
    | zero => exact .refl
    | succ j ih => exact (ih (by omega)).tail (hqr (i + j) (by omega))
  have hstart : q 0 = a := (hqp 0 (Nat.zero_le n)).trans (hp₀ 0 le_rfl)
  refine ⟨q, n, m, (hqp n le_rfl).trans hpn, hqm, ?_, hqr⟩
  intro j hj
  obtain ⟨k, hk⟩ := Nat.exists_eq_add_of_le hj
  have h₁ := hsteps 0 j (by omega)
  have h₂ := hsteps j k (by omega)
  rw [Nat.zero_add, hstart] at h₁
  rw [← hk, hqm] at h₂
  rw [hk] at hdist
  exact hdist.of_trans h₁ h₂

theorem acc_of_acyclic {s : Set α} (hs : s.Finite) (hsource : ∀ a b, r a b → a ∈ s)
    (h : ∀ a, ReflTransGen r a c → ¬TransGen r a a) : Acc r c := by
  have : Finite {a // a ∈ s ∧ ReflTransGen r a c} := hs.subset fun a ha => ha.1
  let earlier (a b : {a // a ∈ s ∧ ReflTransGen r a c}) : Prop := TransGen r a.1 b.1
  have : IsTrans _ earlier := ⟨fun _ _ _ hab hbc => TransGen.trans hab hbc⟩
  have : Std.Irrefl earlier := ⟨fun a ha => h a.1 a.2.2 ha⟩
  have hacc : ∀ a : {a // a ∈ s ∧ ReflTransGen r a c}, Acc r a.1 := by
    intro a
    induction a using (Finite.wellFounded_of_trans_of_irrefl earlier).induction with
    | _ a ih =>
      refine Acc.intro _ fun b hb => ?_
      exact ih ⟨b, hsource _ _ hb, .head hb a.2.2⟩ (.single hb)
  exact Acc.intro _ fun b hb => hacc ⟨b, hsource _ _ hb, .single hb⟩

end NaviMisc.Lib
