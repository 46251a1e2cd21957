import Mathlib.Order.Lattice

/-!
Properties of all states of a run, against conditions on each step of it.
-/

namespace NaviMisc.Lib.Runs

variable {σ α : Type*} (step : σ → α → σ)

def Always (P : σ → Prop) : σ → List α → Prop
  | s, [] => P s
  | s, a :: l => P s ∧ Always P (step s a) l

/-- Each step meets `Q` in the state that it is taken from. -/
def Meets (Q : σ → α → Prop) : σ → List α → Prop
  | _, [] => True
  | s, a :: l => Q s a ∧ Meets Q (step s a) l

variable {step} {P : σ → Prop} {Q : σ → α → Prop} {s : σ} {l : List α}

theorem Always.head (h : Always step P s l) : P s := by
  cases l with
  | nil => exact h
  | cons a l => exact h.1

theorem Always.last (h : Always step P s l) : P (l.foldl step s) := by
  induction l generalizing s with
  | nil => exact h
  | cons a l ih => exact ih h.2

theorem always_of_invariant (h : ∀ s a, P s → P (step s a)) (hs : P s) (l : List α) :
    Always step P s l := by
  induction l generalizing s with
  | nil => exact hs
  | cons a l ih => exact ⟨hs, ih (h s a hs)⟩

theorem meets_const_iff {Q : α → Prop} : Meets step (fun _ => Q) s l ↔ ∀ a ∈ l, Q a := by
  induction l generalizing s with
  | nil => simp [Meets]
  | cons a l ih => rw [Meets, ih, List.forall_mem_cons]

instance decidableMeets [∀ s a, Decidable (Q s a)] : ∀ s l, Decidable (Meets step Q s l)
  | _, [] => inferInstanceAs (Decidable True)
  | s, a :: l =>
    have := decidableMeets (step s a) l
    inferInstanceAs (Decidable (Q s a ∧ Meets step Q (step s a) l))

theorem meets_append {l' : List α} :
    Meets step Q s (l ++ l') ↔ Meets step Q s l ∧ Meets step Q (l.foldl step s) l' := by
  induction l generalizing s with
  | nil => exact (and_iff_right trivial).symm
  | cons a l ih => rw [List.cons_append, Meets, ih, Meets, List.foldl_cons, and_assoc]

theorem Meets.of_forall_mem (h : ∀ a ∈ l, ∀ s, Q s a) (s : σ) : Meets step Q s l := by
  induction l generalizing s with
  | nil => trivial
  | cons a l ih =>
    rw [List.forall_mem_cons] at h
    exact ⟨h.1 s, ih h.2 (step s a)⟩

theorem Meets.of_forall (h : ∀ s a, Q s a) (s : σ) (l : List α) : Meets step Q s l :=
  Meets.of_forall_mem (fun a _ s => h s a) s

theorem Always.mono {P' : σ → Prop} (h : Always step P s l) (hP : ∀ s, P s → P' s) :
    Always step P' s l := by
  induction l generalizing s with
  | nil => exact hP s h
  | cons a l ih => exact ⟨hP s h.1, ih h.2⟩

/-- What every step that meets `Q` keeps holds in a whole run of them. -/
theorem Meets.always (h : ∀ s a, P s → Q s a → P (step s a)) (hs : P s)
    (hl : Meets step Q s l) : Always step P s l := by
  induction l generalizing s with
  | nil => exact hs
  | cons a l ih => exact ⟨hs, ih (h s a hs hl.1) hl.2⟩

theorem Meets.mono_of {Q' : σ → α → Prop} (hl : Meets step Q s l) (hP : Always step P s l)
    (h : ∀ s a, P s → Q s a → Q' s a) : Meets step Q' s l := by
  induction l generalizing s with
  | nil => trivial
  | cons a l ih => exact ⟨h s a hP.1 hl.1, ih hl.2 hP.2⟩

theorem meets_iff_meets {Q' : σ → α → Prop} (hI : ∀ s a, P s → Q' s a → P (step s a))
    (h : ∀ s a, P s → (Q s a ↔ Q' s a)) (hs : P s) : Meets step Q s l ↔ Meets step Q' s l := by
  induction l generalizing s with
  | nil => rfl
  | cons a l ih =>
    rw [Meets, Meets, h s a hs]
    exact and_congr_right fun hq => ih (hI s a hs hq)

/-- Where a step that meets `A` keeps `P` exactly if it meets `Q`, a run of such steps keeps `P`
exactly if all of them meet `Q`. -/
theorem always_iff_meets_of {A : σ → α → Prop} {I : σ → Prop}
    (hI : ∀ s a, I s → P s → A s a → I (step s a))
    (h : ∀ s a, I s → P s → A s a → (P (step s a) ↔ Q s a)) (hs : I s) (hp : P s)
    (hl : Meets step A s l) : Always step P s l ↔ Meets step Q s l := by
  induction l generalizing s with
  | nil => exact iff_of_true hp trivial
  | cons a l ih =>
    obtain ⟨ha, hl⟩ := hl
    have hstep : I (step s a) := hI s a hs hp ha
    constructor
    · rintro ⟨-, halways⟩
      have hnext : P (step s a) := halways.head
      exact ⟨(h s a hs hp ha).mp hnext, (ih hstep hnext hl).mp halways⟩
    · rintro ⟨hq, hmeets⟩
      have hnext : P (step s a) := (h s a hs hp ha).mpr hq
      exact ⟨hp, (ih hstep hnext hl).mpr hmeets⟩

theorem always_iff_meets {I : σ → Prop} (hI : ∀ s a, I s → I (step s a))
    (h : ∀ s a, I s → P s → (P (step s a) ↔ Q s a)) (hs : I s) (hp : P s) (l : List α) :
    Always step P s l ↔ Meets step Q s l :=
  always_iff_meets_of (A := fun _ _ => True) (fun s a hs _ _ => hI s a hs)
    (fun s a hs hp _ => h s a hs hp) hs hp (Meets.of_forall (fun _ _ => trivial) s l)

end NaviMisc.Lib.Runs

/-!
Runs without an end. What must happen in them is shown by a rank, and by what lowers it.
-/

namespace NaviMisc.Lib.Fairness

variable {σ α κ : Type*}

def trace (step : σ → α → σ) (s : σ) (inputs : ℕ → α) : ℕ → σ
  | 0 => s
  | n + 1 => step (trace step s inputs n) (inputs n)

def Fair (offered : α → κ → Prop) (inputs : ℕ → α) : Prop :=
  ∀ k n, ∃ m, n ≤ m ∧ offered (inputs m) k

/-- A step lowers the rank, unless what helps is not offered, and then the same helps after it. -/
structure Ranked (step : σ → α → σ) (offered : α → κ → Prop) (I Done : σ → Prop) (rank : σ → ℕ)
    (helpful : σ → κ) : Prop where
  invariant : ∀ s a, I s → I (step s a)
  lower : ∀ s a, I s → ¬Done s → rank (step s a) < rank s ∨
    rank (step s a) = rank s ∧ helpful (step s a) = helpful s ∧ ¬offered a (helpful s)

variable {step : σ → α → σ} {offered : α → κ → Prop} {I Done : σ → Prop} {rank : σ → ℕ}
  {helpful : σ → κ} {s : σ} {inputs : ℕ → α}

theorem trace_invariant (h : ∀ s a, I s → I (step s a)) (hs : I s) (n : ℕ) :
    I (trace step s inputs n) := by
  induction n with
  | zero => exact hs
  | succ n ih => exact h _ _ ih

theorem trace_add (n m : ℕ) :
    trace step s inputs (n + m) = trace step (trace step s inputs n) (fun k => inputs (n + k)) m := by
  induction m with
  | zero => rfl
  | succ m ih => rw [← Nat.add_assoc, trace, trace, ih]

/-- Until something is done, the rank is lowered at the latest when what helps is offered. -/
theorem Ranked.lowered (h : Ranked step offered I Done rank helpful) (hs : I s) (m : ℕ)
    (hoffered : offered (inputs m) (helpful s)) (hnot : ∀ n, ¬Done (trace step s inputs n)) :
    ∃ n, rank (trace step s inputs n) < rank s := by
  by_contra hnever
  rw [not_exists] at hnever
  have hsame : ∀ n ≤ m, rank (trace step s inputs n) = rank s ∧
      helpful (trace step s inputs n) = helpful s := by
    intro n
    induction n with
    | zero => exact fun _ => ⟨rfl, rfl⟩
    | succ n ih =>
      intro hle
      obtain ⟨hrank, hhelpful⟩ := ih (Nat.le_of_succ_le hle)
      rcases h.lower _ (inputs n) (trace_invariant h.invariant hs n) (hnot n) with
        hlt | ⟨heq, hkeep, -⟩
      · rw [hrank] at hlt
        exact absurd hlt (hnever (n + 1))
      · exact ⟨heq.trans hrank, hkeep.trans hhelpful⟩
  obtain ⟨hrank, hhelpful⟩ := hsame m (Nat.le_refl m)
  rcases h.lower _ (inputs m) (trace_invariant h.invariant hs m) (hnot m) with
    hlt | ⟨-, -, hneg⟩
  · rw [hrank] at hlt
    exact hnever (m + 1) hlt
  · rw [hhelpful] at hneg
    exact hneg hoffered

theorem Ranked.eventually (h : Ranked step offered I Done rank helpful) (hs : I s)
    (hfair : Fair offered inputs) : ∃ n, Done (trace step s inputs n) := by
  induction hr : rank s using Nat.strong_induction_on generalizing s inputs with
  | _ r ih =>
    by_contra hnever
    rw [not_exists] at hnever
    obtain ⟨m, -, hoffered⟩ := hfair (helpful s) 0
    obtain ⟨n, hlt⟩ := h.lowered hs m hoffered hnever
    rw [hr] at hlt
    have hfair' : Fair offered (fun k => inputs (n + k)) := by
      intro k n'
      obtain ⟨m, hle, hm⟩ := hfair k (n + n')
      obtain ⟨d, rfl⟩ := Nat.exists_eq_add_of_le hle
      refine ⟨n' + d, Nat.le_add_right n' d, ?_⟩
      rwa [Nat.add_assoc] at hm
    obtain ⟨n', hdone⟩ := ih _ hlt (trace_invariant h.invariant hs n) hfair' rfl
    rw [← trace_add] at hdone
    exact hnever _ hdone

end NaviMisc.Lib.Fairness

/-!
Histories of an object that is shared by clients. Each operation is called once and returns once,
and takes effect when it returns.
-/

namespace NaviMisc.Lib.AtomicObject

inductive Event (κ α β : Type*)
  | call (k : κ) (a : α)
  | ret (k : κ) (b : β)
  deriving DecidableEq

structure Session (κ σ α : Type*) where
  object : σ
  pending : κ → Option α

variable {κ σ α β : Type*} [DecidableEq κ] [DecidableEq β] (effect : α → σ → β × σ)

/-- A client has one operation at a time, and is returned what the object gives. -/
def next (s : Session κ σ α) : Event κ α β → Option (Session κ σ α)
  | .call k a =>
    match s.pending k with
    | none => some ⟨s.object, Function.update s.pending k (some a)⟩
    | some _ => none
  | .ret k b =>
    match s.pending k with
    | none => none
    | some a =>
      if b = (effect a s.object).1 then
        some ⟨(effect a s.object).2, Function.update s.pending k none⟩
      else none

def history (s : Session κ σ α) (events : List (Event κ α β)) : Option (Session κ σ α) :=
  events.foldlM (next effect) s

variable {effect} {s : Session κ σ α} {k : κ} {a : α}

theorem history_append (events events' : List (Event κ α β)) :
    history effect s (events ++ events') =
      (history effect s events).bind fun s' => history effect s' events' :=
  List.foldlM_append

theorem history_singleton (e : Event κ α β) : history effect s [e] = next effect s e := by
  rw [history, List.foldlM_cons]
  exact Option.bind_fun_some _

theorem next_call (h : s.pending k = none) (a : α) :
    next effect s (.call k a) = some ⟨s.object, Function.update s.pending k (some a)⟩ := by
  rw [next, h]

theorem next_ret (h : s.pending k = some a) :
    next effect s (.ret k (effect a s.object).1) =
      some ⟨(effect a s.object).2, Function.update s.pending k none⟩ := by
  rw [next, h]
  exact if_pos rfl

end NaviMisc.Lib.AtomicObject
