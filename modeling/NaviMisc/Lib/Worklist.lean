import Mathlib.Data.List.Nodup
import Mathlib.Logic.Relation

/-!
A search with a stack of nodes to visit, a memo of the nodes visited and a state
that collects results. A node is visited once; visiting it can fail.
-/

namespace NaviMisc.Lib.Worklist

variable {κ σ ε : Type*} [DecidableEq κ]

inductive Stop (ε : Type*)
  | outOfFuel
  | failed (e : ε)

/-- `visit` returns the nodes to push, in the order they are pushed, and the new state. The last
node pushed is popped first. -/
def search (visit : κ → σ → Except ε (List κ × σ)) :
    ℕ → List κ → List κ → σ → Except (Stop ε) (List κ × σ)
  | _, [], memo, s => .ok (memo, s)
  | 0, _ :: _, _, _ => .error .outOfFuel
  | fuel + 1, k :: stack, memo, s =>
    if k ∈ memo then search visit fuel stack memo s
    else match visit k s with
      | .error e => .error (.failed e)
      | .ok (next, s) => search visit fuel (next.reverse ++ stack) (k :: memo) s

variable {visit : κ → σ → Except ε (List κ × σ)}

theorem search_induction {P : List κ → List κ → σ → Prop}
    (hseen : ∀ k stack memo s, P (k :: stack) memo s → k ∈ memo → P stack memo s)
    (hvisit : ∀ k stack memo s next s', P (k :: stack) memo s → k ∉ memo →
      visit k s = .ok (next, s') → P (next.reverse ++ stack) (k :: memo) s')
    {fuel : ℕ} {stack memo memo' : List κ} {s s' : σ} (h : P stack memo s)
    (hrun : search visit fuel stack memo s = .ok (memo', s')) : P [] memo' s' := by
  induction fuel generalizing stack memo s with
  | zero =>
    cases stack with
    | nil =>
      cases hrun
      exact h
    | cons k stack => cases hrun
  | succ fuel ih =>
    cases stack with
    | nil =>
      cases hrun
      exact h
    | cons k stack =>
      rw [search] at hrun
      by_cases hk : k ∈ memo
      · rw [if_pos hk] at hrun
        exact ih (hseen k stack memo s h hk) hrun
      · rw [if_neg hk] at hrun
        split at hrun
        · cases hrun
        · rename_i next s₁ hnext
          exact ih (hvisit k stack memo s next s₁ h hk hnext) hrun

theorem search_state {I : List κ → σ → Prop}
    (hvisit : ∀ k memo s next s', I memo s → k ∉ memo → visit k s = .ok (next, s') → I (k :: memo) s')
    {fuel : ℕ} {stack memo' : List κ} {s s' : σ} (h : I [] s)
    (hrun : search visit fuel stack [] s = .ok (memo', s')) : I memo' s' := by
  refine search_induction (P := fun _ memo s => I memo s) ?_ ?_ h hrun
  · exact fun k stack memo s h _ => h
  · exact fun k stack memo s next s' h hk hnext => hvisit k memo s next s' h hk hnext

def Reaches (succs : κ → List κ) : κ → κ → Prop := Relation.ReflTransGen fun a b => b ∈ succs a

structure Between (succs : κ → List κ) (start : κ) (stack memo : List κ) : Prop where
  nodup : memo.Nodup
  sound : ∀ k, k ∈ memo ∨ k ∈ stack → Reaches succs start k
  start : start ∈ memo ∨ start ∈ stack
  closed : ∀ k, k ∈ memo → ∀ k', k' ∈ succs k → k' ∈ memo ∨ k' ∈ stack

omit [DecidableEq κ] in
theorem Between.seen {succs : κ → List κ} {start k : κ} {stack memo : List κ}
    (h : Between succs start (k :: stack) memo) (hk : k ∈ memo) : Between succs start stack memo := by
  have drop {k' : κ} (hk' : k' ∈ memo ∨ k' ∈ k :: stack) : k' ∈ memo ∨ k' ∈ stack := by
    rcases hk' with hk' | hk'
    · exact .inl hk'
    · rcases List.mem_cons.mp hk' with rfl | hk'
      · exact .inl hk
      · exact .inr hk'
  constructor
  · exact h.nodup
  · exact fun k' hk' => h.sound k' (hk'.imp id (List.mem_cons_of_mem k))
  · exact drop h.start
  · exact fun k' hk' k'' hk'' => drop (h.closed k' hk' k'' hk'')

omit [DecidableEq κ] in
theorem Between.step {succs : κ → List κ} {start k : κ} {stack memo : List κ}
    (h : Between succs start (k :: stack) memo) (hk : k ∉ memo) :
    Between succs start ((succs k).reverse ++ stack) (k :: memo) := by
  have keep {k' : κ} (hk' : k' ∈ memo ∨ k' ∈ k :: stack) :
      k' ∈ k :: memo ∨ k' ∈ (succs k).reverse ++ stack := by
    rcases hk' with hk' | hk'
    · exact .inl (List.mem_cons_of_mem k hk')
    · rcases List.mem_cons.mp hk' with rfl | hk'
      · exact .inl (List.mem_cons_self ..)
      · exact .inr (List.mem_append_right _ hk')
  have hreach : Reaches succs start k := h.sound k (.inr (List.mem_cons_self ..))
  constructor
  · exact List.nodup_cons.mpr ⟨hk, h.nodup⟩
  · rintro k' (hk' | hk')
    · rcases List.mem_cons.mp hk' with rfl | hk'
      · exact hreach
      · exact h.sound k' (.inl hk')
    · rcases List.mem_append.mp hk' with hk' | hk'
      · exact hreach.tail (List.mem_reverse.mp hk')
      · exact h.sound k' (.inr (List.mem_cons_of_mem k hk'))
  · exact keep h.start
  · intro k' hk' k'' hk''
    rcases List.mem_cons.mp hk' with rfl | hk'
    · exact .inr (List.mem_append_left _ (List.mem_reverse.mpr hk''))
    · exact keep (h.closed k' hk' k'' hk'')

/-- A search that ends has visited exactly the nodes reachable from its start, each once. -/
theorem search_reaches {succs : κ → List κ}
    (hsuccs : ∀ k s next s', visit k s = .ok (next, s') → next = succs k) {fuel : ℕ} {start : κ}
    {memo : List κ} {s s' : σ} (hrun : search visit fuel [start] [] s = .ok (memo, s')) :
    memo.Nodup ∧ ∀ k, k ∈ memo ↔ Reaches succs start k := by
  have hinit : Between succs start [start] [] := by
    constructor
    · exact List.nodup_nil
    · rintro k (hk | hk)
      · cases hk
      · rw [List.mem_singleton.mp hk]
        exact .refl
    · exact .inr (List.mem_singleton_self start)
    · exact fun k hk => absurd hk List.not_mem_nil
  have hend : Between succs start [] memo := by
    refine search_induction (P := fun stack memo _ => Between succs start stack memo) ?_ ?_ hinit hrun
    · exact fun k stack memo _ h hk => h.seen hk
    · intro k stack memo s next s' h hk hnext
      rw [hsuccs k s next s' hnext]
      exact h.step hk
  have only {k : κ} (hk : k ∈ memo ∨ k ∈ []) : k ∈ memo := hk.resolve_right List.not_mem_nil
  refine ⟨hend.nodup, fun k => ⟨fun hk => hend.sound k (.inl hk), fun hk => ?_⟩⟩
  induction hk with
  | refl => exact only hend.start
  | tail _ hstep ih => exact only (hend.closed _ ih _ hstep)

end NaviMisc.Lib.Worklist
