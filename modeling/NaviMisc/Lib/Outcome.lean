import Mathlib.Data.List.Nodup

/-!
Computations that may fail: what holds of their result, and which failures they may end in.
-/

namespace NaviMisc.Lib.Outcome

variable {ε α β : Type*} {A : ε → Prop} {P Q : α → Prop}

def Yields (A : ε → Prop) (P : α → Prop) : Except ε α → Prop
  | .ok a => P a
  | .error e => A e

theorem Yields.mono {r : Except ε α} (h : Yields A P r) (hPQ : ∀ a, P a → Q a) :
    Yields A Q r := by
  cases r with
  | ok a => exact hPQ a h
  | error e => exact h

theorem Yields.imp {B : ε → Prop} {r : Except ε α} (h : Yields A P r) (hAB : ∀ e, A e → B e)
    (hPQ : ∀ a, P a → Q a) : Yields B Q r := by
  cases r with
  | ok a => exact hPQ a h
  | error e => exact hAB e h

theorem Yields.and {r : Except ε α} (h : Yields A P r) (h' : ∀ a, r = .ok a → Q a) :
    Yields A (fun a => P a ∧ Q a) r := by
  cases r with
  | ok a => exact ⟨h, h' a rfl⟩
  | error e => exact h

theorem Yields.of_ok {r : Except ε α} {a : α} (h : Yields A P r) (hr : r = .ok a) : P a := by
  rw [hr] at h
  exact h

theorem Yields.exists_ok {r : Except ε α} (h : Yields A P r) (hA : ∀ e, ¬A e) :
    ∃ a, r = .ok a ∧ P a := by
  cases r with
  | ok a => exact ⟨a, rfl, h⟩
  | error e => exact (hA e h).elim

theorem Yields.bind {α β : Type u} {P : α → Prop} {Q : β → Prop} {r : Except ε α}
    {f : α → Except ε β} (h : Yields A P r) (hf : ∀ a, P a → Yields A Q (f a)) :
    Yields A Q (r >>= f) := by
  cases r with
  | ok a => exact hf a h
  | error e => exact h

theorem Yields.foldlM {α β : Type u} {I : List β → α → Prop} {f : α → β → Except ε α} {l : List β}
    {a : α} (ha : I [] a)
    (hf : ∀ b ∈ l, ∀ done a, I done a → Yields A (I (done ++ [b])) (f a b)) :
    Yields A (I l) (l.foldlM f a) := by
  suffices h : ∀ done a, I done a → Yields A (I (done ++ l)) (l.foldlM f a) from h [] a ha
  clear ha
  induction l with
  | nil =>
    intro done a h
    rw [List.append_nil]
    exact h
  | cons b l ih =>
    intro done a h
    rw [List.forall_mem_cons] at hf
    rw [List.foldlM_cons, List.append_cons]
    exact (hf.1 done a h).bind (fun a h => ih hf.2 (done ++ [b]) a h)

end NaviMisc.Lib.Outcome

/-!
Generators: what they yield, and the exception they may end with.
-/

namespace NaviMisc.Lib.Generator

structure Gen (ε α : Type*) where
  yielded : List α
  raised : Option ε

namespace Gen

variable {ε α β γ : Type*}

def yield (a : α) : Gen ε α := ⟨[a], none⟩

def raise (e : ε) : Gen ε α := ⟨[], some e⟩

def andThen (g h : Gen ε α) : Gen ε α :=
  match g.raised with
  | some e => ⟨g.yielded, some e⟩
  | none => ⟨g.yielded ++ h.yielded, h.raised⟩

def forEach : List α → (α → Gen ε β) → Gen ε β
  | [], _ => ⟨[], none⟩
  | a :: l, f => (f a).andThen (forEach l f)

def bind (g : Gen ε α) (f : α → Gen ε β) : Gen ε β := (forEach g.yielded f).andThen ⟨[], g.raised⟩

def map (h : α → β) (g : Gen ε α) : Gen ε β := ⟨g.yielded.map h, g.raised⟩

theorem forEach_eq {l : List α} {f : α → Gen ε β} {ys : α → List β}
    (h : ∀ a ∈ l, f a = ⟨ys a, none⟩) : forEach l f = ⟨l.flatMap ys, none⟩ := by
  induction l with
  | nil => rfl
  | cons a l ih =>
    rw [forEach, h a List.mem_cons_self, ih fun b hb => h b (List.mem_cons_of_mem a hb)]
    rfl

theorem bind_eq {g : Gen ε α} {f : α → Gen ε β} {ys : α → List β} (hg : g.raised = none)
    (h : ∀ a ∈ g.yielded, f a = ⟨ys a, none⟩) : g.bind f = ⟨g.yielded.flatMap ys, none⟩ := by
  rw [bind, forEach_eq h, hg, andThen, List.append_nil]

theorem bind_yield (l : List α) (k : α → β) :
    bind (⟨l, none⟩ : Gen ε α) (fun a => yield (k a)) = ⟨l.map k, none⟩ := by
  have h : ∀ a ∈ l, (yield (k a) : Gen ε β) = ⟨[k a], none⟩ := fun a _ => rfl
  rw [bind_eq rfl h, List.map_eq_flatMap]

theorem map_andThen (k : β → γ) (g h : Gen ε β) :
    (g.andThen h).map k = (g.map k).andThen (h.map k) := by
  rw [andThen, andThen, map, map]
  cases g.raised with
  | some e => rfl
  | none =>
    simp only [map, List.map_append]

theorem map_forEach (k : β → γ) (l : List α) (f : α → Gen ε β) :
    (forEach l f).map k = forEach l fun a => (f a).map k := by
  induction l with
  | nil => rfl
  | cons a l ih => rw [forEach, map_andThen, ih, forEach]

theorem map_bind (k : β → γ) (g : Gen ε α) (f : α → Gen ε β) :
    (g.bind f).map k = g.bind fun a => (f a).map k := by
  rw [bind, map_andThen, map_forEach]
  rfl

theorem forEach_map (l : List α) (h : α → β) (f : β → Gen ε γ) :
    forEach (l.map h) f = forEach l fun a => f (h a) := by
  induction l with
  | nil => rfl
  | cons a l ih => rw [List.map_cons, forEach, ih, forEach]

theorem bind_map (g : Gen ε α) (h : α → β) (f : β → Gen ε γ) :
    (g.map h).bind f = g.bind fun a => f (h a) := by
  rw [bind, map, forEach_map]
  rfl

end Gen

end NaviMisc.Lib.Generator
