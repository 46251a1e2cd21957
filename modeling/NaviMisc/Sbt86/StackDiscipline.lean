import NaviMisc.Sbt86.Machine

/-!
Runs of the typed stack from `reset()`. The calls still on the stack are read
off the calls made, and every pop returns what the call on top had stored.
-/

namespace NaviMisc.Sbt86

inductive StackOp
  | pushw (word : BitVec 16)
  | pushf (reg : SBTRegs)
  | pushret
  | popw
  | popf (reg : SBTRegs)
  | popret
  | preSaveRet
  | postRestoreRet

inductive Output
  | none
  | word (word : BitVec 16)
  | regs (reg : SBTRegs)

namespace SBTStack

def Result.map {α β : Type} (f : α → β) (res : Result α) : Result β := (res.1, res.2.map f)

end SBTStack

namespace StackOp

def apply (s : SBTStack) : StackOp → SBTStack.Result Output
  | pushw word => (s.pushw word).map fun _ => .none
  | pushf reg => (s.pushf reg).map fun _ => .none
  | pushret => s.pushret.map fun _ => .none
  | popw => s.popw.map .word
  | popf reg => (s.popf reg).map .regs
  | popret => s.popret.map fun _ => .none
  | preSaveRet => s.preSaveRet.map fun _ => .none
  | postRestoreRet => s.postRestoreRet.map fun _ => .none

def NeedsTop : StackOp → Prop
  | pushw _ | pushf _ | pushret => False
  | popw | popf _ | popret | preSaveRet | postRestoreRet => True

/-- The calls that left the slots in use as they are, topmost first: a push adds one, a pop
removes one, and the two conversions replace the topmost. -/
def after (op : StackOp) (l : List StackOp) : List StackOp :=
  match op with
  | pushw _ | pushf _ | pushret => op :: l
  | popw | popf _ | popret => l.tail
  | preSaveRet | postRestoreRet => op :: l.tail

def outstanding (history : List StackOp) : List StackOp := history.foldr after []

def tag : StackOp → Tag
  | pushw _ | preSaveRet => .word
  | pushf _ => .flags
  | pushret | postRestoreRet => .retaddr
  | popw | popf _ | popret => .invalid

def Returns (op : StackOp) (out : Output) (l : List StackOp) : Prop :=
  match op, out with
  | popw, .word word => l.head? = some (pushw word) ∨
      (l.head? = some preSaveRet ∧ word = RET_VERIFICATION)
  | popf reg, .regs reg' => ∃ pushed, l.head? = some (pushf pushed) ∧
      reg' = { reg with uresult := pushed.uresult, sresult := pushed.sresult }
  | popret, .none => l.head? = some pushret ∨ l.head? = some postRestoreRet
  | popw, _ | popf _, _ | popret, _ => False
  | _, _ => True

/-- One call keeps `top` in range, stays inside the arrays, and returns what was pushed. -/
structure Disciplined (s : SBTStack) (l : List StackOp) (op : StackOp) : Prop where
  top_le : (op.apply s).1.top.toNat ≤ STACK_SIZE
  in_bounds : ∀ i, (op.apply s).2 ≠ .error (.outOfBounds i)
  returns : ∀ out, (op.apply s).2 = .ok out → op.Returns out l

end StackOp

inductive StackRun (s₀ : SBTStack) : List StackOp → SBTStack → Prop
  | reset : StackRun s₀ [] s₀.reset
  | call {history : List StackOp} {s s' : SBTStack} {out : Output} (op : StackOp) :
      StackRun s₀ history s → op.apply s = (s', .ok out) → StackRun s₀ (op :: history) s'

namespace SBTStack

structure Written (s : SBTStack) (i : Fin STACK_SIZE) (w : StackOp) : Prop where
  tag : s.tags i = w.tag
  word : ∀ word, w = .pushw word → s.words i = word.setWidth 32
  saved : w = .preSaveRet → s.words i = RET_VERIFICATION.setWidth 32
  flags : ∀ reg, w = .pushf reg → s.flags i = (reg.uresult, reg.sresult)

def Holds (s : SBTStack) : List StackOp → Prop
  | [] => True
  | w :: l => (∃ hi : l.length < STACK_SIZE, s.Written ⟨l.length, hi⟩ w) ∧ Holds s l

structure Rep (s : SBTStack) (l : List StackOp) : Prop where
  top : s.top = BitVec.ofNat 32 l.length
  holds : s.Holds l

variable {s s' : SBTStack} {l : List StackOp}

theorem Holds.length_le (h : s.Holds l) : l.length ≤ STACK_SIZE := by
  cases l with
  | nil => exact Nat.zero_le _
  | cons w l => exact h.1.1

theorem Holds.congr (h : s.Holds l)
    (hsame : ∀ i : Fin STACK_SIZE, i.val < l.length →
      s'.tags i = s.tags i ∧ s'.words i = s.words i ∧ s'.flags i = s.flags i) : s'.Holds l := by
  induction l with
  | nil => trivial
  | cons w l ih =>
    obtain ⟨⟨hi, hw⟩, hl⟩ := h
    obtain ⟨htag, hword, hflags⟩ := hsame ⟨l.length, hi⟩ (Nat.lt_succ_self _)
    refine ⟨⟨hi, ?_, ?_, ?_, ?_⟩, ih hl fun i hlt => hsame i (Nat.lt_succ_of_lt hlt)⟩
    · rw [htag, hw.tag]
    · rw [hword]
      exact hw.word
    · rw [hword]
      exact hw.saved
    · rw [hflags]
      exact hw.flags

theorem Rep.toNat_top (h : s.Rep l) : s.top.toNat = l.length := by
  have := h.holds.length_le
  rw [h.top, BitVec.toNat_ofNat]
  simp only [STACK_SIZE] at this
  omega

theorem rep_reset (s : SBTStack) : s.reset.Rep [] := ⟨rfl, trivial⟩

theorem slot_of_lt {i : BitVec 32} {k : ℕ} (hk : k < STACK_SIZE) (hi : i = BitVec.ofNat 32 k) :
    slot i = .ok ⟨k, hk⟩ := by
  have hn : i.toNat = k := by
    rw [hi, BitVec.toNat_ofNat]
    simp only [STACK_SIZE] at hk
    omega
  subst hn
  exact dif_pos hk

theorem sub_one_of_cons {w : StackOp} (h : s.Rep (w :: l)) : s.top - 1 = BitVec.ofNat 32 l.length := by
  rw [h.top, List.length_cons, BitVec.ofNat_add]
  exact BitVec.add_sub_cancel _ _

theorem slot_of_nil (h : s.Rep []) : slot (s.top - 1) = .error (.outOfBounds (-1)) := by
  rw [h.top]
  rfl

theorem push_ok (h : s.Rep l) (hi : l.length < STACK_SIZE) {w : StackOp}
    {fill : Fin STACK_SIZE → SBTStack → SBTStack}
    (hw : ∀ tags top, Written { fill ⟨l.length, hi⟩ s with tags := tags, top := top } ⟨l.length, hi⟩ w ↔
      tags ⟨l.length, hi⟩ = w.tag)
    (hframe : ∀ j, j ≠ ⟨l.length, hi⟩ → (fill ⟨l.length, hi⟩ s).words j = s.words j ∧
      (fill ⟨l.length, hi⟩ s).flags j = s.flags j) :
    ∃ s', s.push w.tag fill = (s', .ok ()) ∧ s'.Rep (w :: l) := by
  have htop : s.top.toNat < STACK_SIZE := by rwa [h.toNat_top]
  refine ⟨_, by rw [push, if_pos htop, slot_of_lt hi h.top], ?_, ⟨hi, ?_⟩, h.holds.congr ?_⟩
  · change s.top + 1 = _
    rw [h.top, List.length_cons, BitVec.ofNat_add]
    rfl
  · exact (hw _ _).mpr (Function.update_self ..)
  · intro j hj
    have hne : j ≠ ⟨l.length, hi⟩ := fun hj' => absurd (congrArg Fin.val hj') (Nat.ne_of_lt hj)
    exact ⟨Function.update_of_ne hne .., hframe j hne⟩

theorem push_full (h : s.Rep l) (hl : ¬l.length < STACK_SIZE) (tag : Tag)
    (fill : Fin STACK_SIZE → SBTStack → SBTStack) : s.push tag fill = (s, .error .overflow) := by
  rw [push, if_neg (by rwa [h.toNat_top])]

theorem pop_cons {α : Type} {w : StackOp} (h : s.Rep (w :: l)) (tag : Tag)
    (read : Fin STACK_SIZE → α) : ∃ i s', s'.Rep l ∧ s.Written i w ∧
      s.pop tag read = (s', if w.tag = tag then .ok (read i) else .error .tagMismatch) := by
  obtain ⟨⟨hi, hw⟩, hl⟩ := h.holds
  have htop := sub_one_of_cons h
  refine ⟨⟨l.length, hi⟩, { s with top := s.top - 1 }, ⟨htop, hl.congr fun _ _ => ⟨rfl, rfl, rfl⟩⟩, hw, ?_⟩
  simp only [pop, slot_of_lt hi htop, hw.tag]
  split <;> rfl

theorem pop_nil {α : Type} (h : s.Rep []) (tag : Tag) (read : Fin STACK_SIZE → α) :
    (s.pop tag read).2 = .error (.outOfBounds (-1)) := by
  simp only [pop, slot_of_nil h]

theorem Rep.replace {w w' : StackOp} (h : s.Rep (w :: l)) (htop : s'.top = s.top)
    (hi : l.length < STACK_SIZE) (hw : s'.Written ⟨l.length, hi⟩ w')
    (hframe : ∀ j, j ≠ ⟨l.length, hi⟩ →
      s'.tags j = s.tags j ∧ s'.words j = s.words j ∧ s'.flags j = s.flags j) : s'.Rep (w' :: l) := by
  refine ⟨htop.trans h.top, ⟨hi, hw⟩, h.holds.2.congr fun j hj => hframe j ?_⟩
  exact fun hj' => absurd (congrArg Fin.val hj') (Nat.ne_of_lt hj)

theorem preSaveRet_cons {w : StackOp} (h : s.Rep (w :: l)) :
    (∃ s', s.preSaveRet = (s', .ok ()) ∧ s'.Rep (.preSaveRet :: l)) ∨
      s.preSaveRet = (s, .error .tagMismatch) := by
  obtain ⟨⟨hi, hw⟩, hl⟩ := h.holds
  have hslot := slot_of_lt hi (sub_one_of_cons h)
  by_cases htag : s.tags ⟨l.length, hi⟩ = .retaddr
  · left
    refine ⟨_, by simp only [preSaveRet, hslot, if_pos htag]; rfl, ?_⟩
    refine Rep.replace h ?_ hi ?_ ?_
    · rfl
    · constructor
      · exact Function.update_self ..
      · rintro word ⟨⟩
      · exact fun _ => Function.update_self ..
      · rintro reg ⟨⟩
    · exact fun j hj => ⟨Function.update_of_ne hj .., Function.update_of_ne hj .., rfl⟩
  · right
    simp only [preSaveRet, hslot, if_neg htag]

theorem postRestoreRet_cons {w : StackOp} (h : s.Rep (w :: l)) :
    (∃ s', s.postRestoreRet = (s', .ok ()) ∧ s'.Rep (.postRestoreRet :: l)) ∨
      s.postRestoreRet = (s, .error .tagMismatch) ∨
      s.postRestoreRet = (s, .error .retaddrMismatch) := by
  obtain ⟨⟨hi, hw⟩, hl⟩ := h.holds
  have hslot := slot_of_lt hi (sub_one_of_cons h)
  by_cases htag : s.tags ⟨l.length, hi⟩ = .word
  · by_cases hword : s.words ⟨l.length, hi⟩ = RET_VERIFICATION.setWidth 32
    · left
      refine ⟨_, by simp only [postRestoreRet, hslot, if_pos htag, if_pos hword]; rfl, ?_⟩
      refine Rep.replace h ?_ hi ?_ ?_
      · rfl
      · constructor
        · exact Function.update_self ..
        · rintro word ⟨⟩
        · rintro ⟨⟩
        · rintro reg ⟨⟩
      · exact fun j hj => ⟨Function.update_of_ne hj .., rfl, rfl⟩
    · right
      right
      simp only [postRestoreRet, hslot, if_pos htag, if_neg hword]
  · right
    left
    simp only [postRestoreRet, hslot, if_neg htag]

end SBTStack

namespace StackOp

open SBTStack

variable {s : SBTStack} {l : List StackOp}

def Asserts (res : Result Output) : Prop :=
  (∃ l, res.1.Rep l) ∧ (res.2 = .error .overflow ∨ res.2 = .error .tagMismatch ∨
    res.2 = .error .retaddrMismatch)

def Passes (op : StackOp) (l : List StackOp) (res : Result Output) : Prop :=
  ∃ s' out, res = (s', .ok out) ∧ s'.Rep (op.after l) ∧ op.Returns out l

theorem push_step (h : s.Rep l) {op : StackOp} {fill : Fin STACK_SIZE → SBTStack → SBTStack}
    (hop : op.apply s = (s.push op.tag fill).map fun _ => .none) (hafter : op.after l = op :: l)
    (hreturns : op.Returns .none l)
    (hw : ∀ i tags top, Written { fill i s with tags := tags, top := top } i op ↔ tags i = op.tag)
    (hframe : ∀ i j, j ≠ i → (fill i s).words j = s.words j ∧ (fill i s).flags j = s.flags j) :
    op.Passes l (op.apply s) ∨ Asserts (op.apply s) := by
  rw [hop]
  by_cases hi : l.length < STACK_SIZE
  · obtain ⟨s', hs', hrep⟩ := push_ok h hi (hw _) (hframe _)
    exact .inl ⟨s', .none, by rw [hs']; rfl, hafter ▸ hrep, hreturns⟩
  · rw [push_full h hi]
    exact .inr ⟨⟨l, h⟩, .inl rfl⟩

theorem pop_step {α : Type} {w op : StackOp} (h : s.Rep (w :: l)) {tag : Tag}
    {read : Fin STACK_SIZE → α} {f : α → Output} (hop : op.apply s = (s.pop tag read).map f)
    (hafter : op.after (w :: l) = l)
    (hreturns : ∀ i, s.Written i w → w.tag = tag → op.Returns (f (read i)) (w :: l)) :
    op.Passes (w :: l) (op.apply s) ∨ Asserts (op.apply s) := by
  obtain ⟨i, s', hrep, hw, hpop⟩ := pop_cons h tag read
  rw [hop, hpop]
  by_cases htag : w.tag = tag
  · rw [if_pos htag]
    refine .inl ⟨s', f (read i), rfl, ?_, hreturns i hw htag⟩
    rw [hafter]
    exact hrep
  · rw [if_neg htag]
    exact .inr ⟨⟨l, hrep⟩, .inr (.inl rfl)⟩

theorem apply_of_top (h : s.Rep l) (op : StackOp) (hop : op.NeedsTop → l ≠ []) :
    op.Passes l (op.apply s) ∨ Asserts (op.apply s) := by
  cases op with
  | pushw word =>
    refine push_step h rfl rfl ?_ ?_ ?_
    · trivial
    · refine fun i tags top => ⟨fun hw => hw.tag, fun htag => ⟨htag, ?_, ?_, ?_⟩⟩
      · rintro _ ⟨⟩
        exact Function.update_self ..
      · rintro ⟨⟩
      · rintro _ ⟨⟩
    · exact fun i j hj => ⟨Function.update_of_ne hj .., rfl⟩
  | pushf reg =>
    refine push_step h rfl rfl ?_ ?_ ?_
    · trivial
    · refine fun i tags top => ⟨fun hw => hw.tag, fun htag => ⟨htag, ?_, ?_, ?_⟩⟩
      · rintro _ ⟨⟩
      · rintro ⟨⟩
      · rintro _ ⟨⟩
        exact Function.update_self ..
    · exact fun i j hj => ⟨rfl, Function.update_of_ne hj ..⟩
  | pushret =>
    refine push_step h rfl rfl ?_ ?_ ?_
    · trivial
    · refine fun i tags top => ⟨fun hw => hw.tag, fun htag => ⟨htag, ?_, ?_, ?_⟩⟩
      · rintro _ ⟨⟩
      · rintro ⟨⟩
      · rintro _ ⟨⟩
    · exact fun i j hj => ⟨rfl, rfl⟩
  | popw =>
    obtain ⟨w, l, rfl⟩ := List.exists_cons_of_ne_nil (hop trivial)
    apply pop_step h rfl rfl
    intro i hw htag
    cases w with
    | pushw word =>
      left
      rw [hw.word word rfl, BitVec.setWidth_setWidth_of_le _ (by decide), BitVec.setWidth_eq]
      rfl
    | preSaveRet =>
      right
      refine ⟨rfl, ?_⟩
      rw [hw.saved rfl]
      rfl
    | _ => cases htag
  | popf reg =>
    obtain ⟨w, l, rfl⟩ := List.exists_cons_of_ne_nil (hop trivial)
    apply pop_step h rfl rfl
    intro i hw htag
    cases w with
    | pushf pushed =>
      refine ⟨pushed, rfl, ?_⟩
      rw [hw.flags pushed rfl]
    | _ => cases htag
  | popret =>
    obtain ⟨w, l, rfl⟩ := List.exists_cons_of_ne_nil (hop trivial)
    apply pop_step h rfl rfl
    intro i hw htag
    cases w with
    | pushret => exact .inl rfl
    | postRestoreRet => exact .inr rfl
    | _ => cases htag
  | preSaveRet =>
    obtain ⟨w, l, rfl⟩ := List.exists_cons_of_ne_nil (hop trivial)
    rcases preSaveRet_cons h with ⟨s', hs', hrep⟩ | hs'
    · exact .inl ⟨s', .none, by rw [apply, hs']; rfl, hrep, trivial⟩
    · rw [apply, hs']
      exact .inr ⟨⟨_, h⟩, .inr (.inl rfl)⟩
  | postRestoreRet =>
    obtain ⟨w, l, rfl⟩ := List.exists_cons_of_ne_nil (hop trivial)
    rcases postRestoreRet_cons h with ⟨s', hs', hrep⟩ | hs' | hs'
    · exact .inl ⟨s', .none, by rw [apply, hs']; rfl, hrep, trivial⟩
    · rw [apply, hs']
      exact .inr ⟨⟨_, h⟩, .inr (.inl rfl)⟩
    · rw [apply, hs']
      exact .inr ⟨⟨_, h⟩, .inr (.inr rfl)⟩

theorem apply_of_empty (h : s.Rep []) (op : StackOp) (hop : op.NeedsTop) :
    (op.apply s).2 = .error (.outOfBounds (-1)) := by
  cases op with
  | pushw word => exact hop.elim
  | pushf reg => exact hop.elim
  | pushret => exact hop.elim
  | popw => rw [apply, Result.map, SBTStack.popw, pop_nil h]; rfl
  | popf reg => rw [apply, Result.map, SBTStack.popf, pop_nil h]; rfl
  | popret => rw [apply, Result.map, SBTStack.popret, pop_nil h]; rfl
  | preSaveRet => simp only [apply, Result.map, SBTStack.preSaveRet, slot_of_nil h]; rfl
  | postRestoreRet => simp only [apply, Result.map, SBTStack.postRestoreRet, slot_of_nil h]; rfl

theorem disciplined_iff (h : s.Rep l) (op : StackOp) :
    op.Disciplined s l ↔ (op.NeedsTop → l ≠ []) := by
  constructor
  · rintro hdisc hop rfl
    exact hdisc.in_bounds _ (apply_of_empty h op hop)
  · intro hop
    rcases apply_of_top h op hop with ⟨s', out, hs', hrep, hret⟩ | ⟨⟨l', hrep⟩, hfault⟩
    · constructor
      · rw [hs', hrep.toNat_top]
        exact hrep.holds.length_le
      · rw [hs']
        rintro i ⟨⟩
      · rw [hs']
        rintro out' ⟨⟩
        exact hret
    · constructor
      · rw [hrep.toNat_top]
        exact hrep.holds.length_le
      · intro i hi
        rcases hfault with h | h | h <;> rw [h] at hi <;> cases hi
      · intro out hout
        rcases hfault with h | h | h <;> rw [h] at hout <;> cases hout

end StackOp

theorem StackRun.rep {s₀ s : SBTStack} {history : List StackOp} (h : StackRun s₀ history s) :
    s.Rep (StackOp.outstanding history) := by
  induction h with
  | reset => exact s₀.rep_reset
  | @call history s s' out op _ hcall ih =>
    have hop : op.NeedsTop → StackOp.outstanding history ≠ [] := by
      intro hneeds hnil
      have hfault := StackOp.apply_of_empty (hnil ▸ ih) op hneeds
      rw [hcall] at hfault
      cases hfault
    rcases StackOp.apply_of_top ih op hop with ⟨s'', out', hs'', hrep, -⟩ | ⟨-, hfault⟩
    · rw [hcall] at hs''
      cases hs''
      exact hrep
    · rw [hcall] at hfault
      rcases hfault with h | h | h <;> cases h

def SBTStack.fresh : SBTStack := ⟨0, fun _ => .invalid, fun _ => 0, fun _ => (0, 0)⟩

end NaviMisc.Sbt86
