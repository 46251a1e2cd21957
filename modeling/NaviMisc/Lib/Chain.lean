import Mathlib.Data.List.Nodup

/-!
Singly linked lists threaded through a table of successors, with a sentinel at
the end and one head for each list.
-/

namespace NaviMisc.Lib.Chain

inductive Cell (ρ α : Type*)
  | head (r : ρ)
  | next (a : α)
  deriving DecidableEq

structure Heap (ρ α : Type*) where
  head : ρ → α
  next : α → α

namespace Heap

variable {ρ α : Type*}

def load (h : Heap ρ α) : Cell ρ α → α
  | .head r => h.head r
  | .next a => h.next a

/-- Following the links from `v` passes the elements of the list and ends at the sentinel. -/
def Links (h : Heap ρ α) (nil v : α) : List α → Prop
  | [] => v = nil
  | a :: l => v = a ∧ a ≠ nil ∧ h.Links nil (h.next a) l

variable [DecidableEq ρ] [DecidableEq α]

def store (h : Heap ρ α) (c : Cell ρ α) (v : α) : Heap ρ α :=
  match c with
  | .head r => { h with head := Function.update h.head r v }
  | .next a => { h with next := Function.update h.next a v }

variable {h : Heap ρ α} {nil v b : α} {l l₁ l₂ : List α}

theorem load_store_self (h : Heap ρ α) (c : Cell ρ α) (v : α) : (h.store c v).load c = v := by
  cases c with
  | head r => exact Function.update_self ..
  | next a => exact Function.update_self ..

theorem load_store_of_ne {c c' : Cell ρ α} (hc : c' ≠ c) (v : α) :
    (h.store c v).load c' = h.load c' := by
  cases c with
  | head r =>
    cases c' with
    | head r' => exact Function.update_of_ne (fun hr => hc (congrArg Cell.head hr)) ..
    | next a => rfl
  | next a =>
    cases c' with
    | head r => rfl
    | next a' => exact Function.update_of_ne (fun ha => hc (congrArg Cell.next ha)) ..

omit [DecidableEq ρ] [DecidableEq α] in
theorem Links.next_mem (hl : h.Links nil v l) {a : α} (ha : a ∈ l) :
    h.next a = nil ∨ h.next a ∈ l := by
  induction l generalizing v with
  | nil => cases ha
  | cons x l ih =>
    rcases List.mem_cons.mp ha with rfl | ha
    · cases l with
      | nil => exact .inl hl.2.2
      | cons y l =>
        right
        rw [hl.2.2.1]
        exact List.mem_cons_of_mem _ (List.mem_cons_self ..)
    · exact (ih hl.2.2 ha).imp id (List.mem_cons_of_mem _)

theorem Links.store {c : Cell ρ α} (hl : h.Links nil v l) (hc : ∀ a ∈ l, c ≠ .next a) (x : α) :
    (h.store c x).Links nil v l := by
  induction l generalizing v with
  | nil => exact hl
  | cons a l ih =>
    have hnext : (h.store c x).next a = h.next a :=
      load_store_of_ne (Ne.symm (hc a (List.mem_cons_self ..))) x
    refine ⟨hl.1, hl.2.1, ?_⟩
    rw [hnext]
    exact ih hl.2.2 fun a' ha' => hc a' (List.mem_cons_of_mem _ ha')

def lastCell (c : Cell ρ α) : List α → Cell ρ α
  | [] => c
  | a :: l => lastCell (.next a) l

omit [DecidableEq ρ] [DecidableEq α] in
theorem lastCell_eq (c : Cell ρ α) (l : List α) :
    lastCell c l = c ∨ ∃ a ∈ l, lastCell c l = .next a := by
  induction l generalizing c with
  | nil => exact .inl rfl
  | cons a l ih =>
    right
    rcases ih (.next a) with h | ⟨b, hb, h⟩
    · exact ⟨a, List.mem_cons_self .., h⟩
    · exact ⟨b, List.mem_cons_of_mem _ hb, h⟩

theorem Links.unlink {c : Cell ρ α} (hl : h.Links nil (h.load c) (l₁ ++ b :: l₂))
    (hn : (l₁ ++ b :: l₂).Nodup) (hc : ∀ a ∈ l₁ ++ b :: l₂, c ≠ .next a) :
    let h' := h.store (lastCell c l₁) (h.next b)
    h'.Links nil (h'.load c) (l₁ ++ l₂) := by
  induction l₁ generalizing c with
  | nil =>
    intro h'
    have htail : h'.Links nil (h.next b) l₂ :=
      hl.2.2.store (fun a ha => hc a (List.mem_cons_of_mem _ ha)) _
    rwa [← load_store_self h c (h.next b)] at htail
  | cons a l₁ ih =>
    intro h'
    obtain ⟨ha, hnil, htail⟩ := hl
    obtain ⟨hnot, hn⟩ := List.nodup_cons.mp hn
    have hc' : ∀ x ∈ l₁ ++ b :: l₂, (Cell.next a : Cell ρ α) ≠ .next x := by
      rintro x hx ⟨⟩
      exact hnot hx
    have hload : h'.load c = h.load c := by
      apply load_store_of_ne
      rcases lastCell_eq (.next a : Cell ρ α) l₁ with hlast | ⟨x, hx, hlast⟩
      · rw [lastCell, hlast]
        exact hc a (List.mem_cons_self ..)
      · rw [lastCell, hlast]
        exact hc x (List.mem_cons_of_mem _ (List.mem_append_left _ hx))
    exact ⟨hload.trans ha, hnil, ih htail hn hc'⟩

theorem Links.push (hl : h.Links nil v l) (hb : b ∉ l) (hnil : b ≠ nil) :
    (h.store (.next b) v).Links nil b (b :: l) := by
  have hnext : (h.store (.next b) v).next b = v := load_store_self h (.next b) v
  refine ⟨rfl, hnil, ?_⟩
  rw [hnext]
  apply hl.store
  rintro a ha ⟨⟩
  exact hb ha

end Heap

end NaviMisc.Lib.Chain
