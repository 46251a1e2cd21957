import Mathlib.Data.BitVec
import Mathlib.Data.Set.BooleanAlgebra
import Mathlib.Order.CompletePartialOrder
import Mathlib.Tactic.Ring
import NaviMisc.Lib.SetTree

/-!
`AllocationTree` of `RioKarma/Filesystem.py`: the tree is made of list objects
that share a heap, and `allocate` edits it through getters and setters.
-/

namespace NaviMisc.RioKarma

open Lib.SetTree (BitTree)

inductive Data
  | bool (b : Bool)
  | list (ref : ℕ)
  deriving DecidableEq

inductive Slot
  | data
  | item (ref : ℕ) (i : Bool)
  deriving DecidableEq

/-- `lists ref i` is item `i` of the list object `ref`; the objects created so far are those below
`next`. -/
structure AllocationTree where
  mask : ℕ
  data : Data
  lists : ℕ → Bool → Data
  next : ℕ

namespace AllocationTree

def init (bits : ℕ) : AllocationTree where
  mask := 1 <<< (bits - 1)
  data := .bool false
  lists := fun _ _ => .bool false
  next := 0

def getNode (t : AllocationTree) : Slot → Data
  | .data => t.data
  | .item ref i => t.lists ref i

def setNode (t : AllocationTree) (s : Slot) (x : Data) : AllocationTree :=
  match s with
  | .data => { t with data := x }
  | .item ref i => { t with lists := Function.update t.lists ref (Function.update (t.lists ref) i x) }

def isSet (address mask : ℕ) : Bool := decide (address &&& mask ≠ 0)

def isAllocatedFrom (t : AllocationTree) (address : ℕ) : ℕ → Data → ℕ → Option Bool
  | _, .bool b, _ => some b
  | 0, .list _, _ => none
  | fuel + 1, .list ref, mask =>
    t.isAllocatedFrom address fuel (t.lists ref (isSet address mask)) (mask >>> 1)

/-- One round for each bit of the mask and one for the root; `none` stands for a loop that goes on. -/
def fuel (t : AllocationTree) : ℕ := t.mask.log2 + 2

def isAllocated (t : AllocationTree) (address : ℕ) : Option Bool :=
  t.isAllocatedFrom address t.fuel t.data t.mask

def findFirstFrom (t : AllocationTree) : ℕ → Data → ℕ → ℕ → Option (Option ℕ)
  | 0, _, _, _ => none
  | fuel + 1, .list ref, mask, address =>
    if t.lists ref false = .bool true then
      t.findFirstFrom fuel (t.lists ref true) (mask >>> 1) (address ||| mask)
    else
      t.findFirstFrom fuel (t.lists ref false) (mask >>> 1) address
  | _ + 1, .bool true, _, _ => some none
  | _ + 1, .bool false, _, address => some (some address)

def findFirst (t : AllocationTree) : Option (Option ℕ) :=
  t.findFirstFrom t.fuel t.data t.mask 0

def collapse (t : AllocationTree) (s : Slot) : AllocationTree :=
  match t.getNode s with
  | .bool _ => t
  | .list ref =>
    if t.lists ref false = .bool false ∧ t.lists ref true = .bool false then
      t.setNode s (.bool false)
    else if t.lists ref false = .bool true ∧ t.lists ref true = .bool true then
      t.setNode s (.bool true)
    else t

def split (t : AllocationTree) (s : Slot) : AllocationTree :=
  { t with lists := Function.update t.lists t.next fun _ => .bool false, next := t.next + 1 }.setNode
    s (.list t.next)

/-- The loop of `allocate`: `s` is the slot on top of the stack and `node` what it holds. -/
def allocateFrom (address : ℕ) :
    ℕ → AllocationTree → ℕ → Data → Slot → List Slot → Option AllocationTree
  | 0, _, _, _, _, _ => none
  | _ + 1, t, _, .bool true, _, _ => some t
  | fuel + 1, t, mask, .bool false, s, stack =>
    if mask = 0 then
      some ((s :: stack).foldl collapse (t.setNode s (.bool true)))
    else
      let i := isSet address mask
      allocateFrom address fuel (t.split s) (mask >>> 1) ((t.split s).lists t.next i)
        (.item t.next i) (s :: stack)
  | fuel + 1, t, mask, .list ref, s, stack =>
    let i := isSet address mask
    allocateFrom address fuel t (mask >>> 1) (t.lists ref i) (.item ref i) (s :: stack)

def allocate (t : AllocationTree) (address : ℕ) : Option AllocationTree :=
  allocateFrom address t.fuel t t.mask t.data .data []

def allocateAll (t : AllocationTree) (addresses : List ℕ) : Option AllocationTree :=
  addresses.foldlM allocate t

@[simp] theorem getNode_setNode (t : AllocationTree) (s : Slot) (x : Data) :
    (t.setNode s x).getNode s = x := by
  cases s with
  | data => rfl
  | item ref i => simp [setNode, getNode]

theorem getNode_setNode_of_ne (t : AllocationTree) {s s' : Slot} (h : s' ≠ s) (x : Data) :
    (t.setNode s x).getNode s' = t.getNode s' := by
  cases s with
  | data =>
    cases s' with
    | data => exact absurd rfl h
    | item ref i => rfl
  | item ref i =>
    cases s' with
    | data => rfl
    | item ref' i' =>
      by_cases hr : ref' = ref
      · subst hr
        have hi : i' ≠ i := fun hi => h (by rw [hi])
        simp [setNode, getNode, hi]
      · simp [setNode, getNode, hr]

@[simp] theorem next_setNode (t : AllocationTree) (s : Slot) (x : Data) :
    (t.setNode s x).next = t.next := by
  cases s <;> rfl

@[simp] theorem mask_setNode (t : AllocationTree) (s : Slot) (x : Data) :
    (t.setNode s x).mask = t.mask := by
  cases s <;> rfl

end AllocationTree

def Slot.Outside (next : ℕ) (refs : Set ℕ) : Slot → Prop
  | .data => True
  | .item ref _ => ref < next ∧ ref ∉ refs

/-- The slot value `d` leads to the tree, and `refs` are the list objects it is made of. -/
def Holds (m : ℕ → Bool → Data) : BitTree → Data → Set ℕ → Prop
  | .leaf b, d, refs => d = .bool b ∧ refs = ∅
  | .node l r, d, refs => ∃ ref f₁ f₂, d = .list ref ∧ refs = insert ref (f₁ ∪ f₂) ∧
      ref ∉ f₁ ∧ ref ∉ f₂ ∧ Disjoint f₁ f₂ ∧
      Holds m l (m ref false) f₁ ∧ Holds m r (m ref true) f₂

structure Owns (t : AllocationTree) (s : Slot) (refs : Set ℕ) (tree : BitTree) : Prop where
  holds : Holds t.lists tree (t.getNode s) refs
  lt : ∀ ref ∈ refs, ref < t.next
  outside : s.Outside t.next refs

structure Edits (t t' : AllocationTree) (s : Slot) (refs refs' : Set ℕ) : Prop where
  mask_eq : t'.mask = t.mask
  next_le : t.next ≤ t'.next
  refs_of : ∀ ref ∈ refs', ref ∈ refs ∨ t.next ≤ ref
  frame : ∀ s', s' ≠ s → s'.Outside t.next refs → t'.getNode s' = t.getNode s'

def branch (i : Bool) (c c' : BitTree) : BitTree := cond i (.node c' c) (.node c c')

section representation

variable {m m' : ℕ → Bool → Data} {tree : BitTree} {d : Data} {refs refs' refs'' : Set ℕ}
  {t t' t'' : AllocationTree} {s : Slot}

theorem Holds.frame (h : Holds m tree d refs) (hm : ∀ ref ∈ refs, m' ref = m ref) :
    Holds m' tree d refs := by
  induction tree generalizing d refs with
  | leaf b => exact h
  | node l r ihl ihr =>
    obtain ⟨ref, f₁, f₂, rfl, rfl, h₁, h₂, hdis, hl, hr⟩ := h
    refine ⟨ref, f₁, f₂, rfl, rfl, h₁, h₂, hdis, ?_, ?_⟩
    · rw [hm ref (Set.mem_insert ref _)]
      exact ihl hl fun x hx => hm x (by simp [hx])
    · rw [hm ref (Set.mem_insert ref _)]
      exact ihr hr fun x hx => hm x (by simp [hx])

theorem holds_branch (i : Bool) (c c' : BitTree) :
    Holds m (branch i c c') d refs ↔ ∃ ref f f', d = .list ref ∧ refs = insert ref (f ∪ f') ∧
      ref ∉ f ∧ ref ∉ f' ∧ Disjoint f f' ∧ Holds m c (m ref i) f ∧ Holds m c' (m ref !i) f' := by
  cases i with
  | false => rfl
  | true =>
    constructor
    · rintro ⟨ref, f', f, hd, hrefs, hf', hf, hdis, hl, hr⟩
      exact ⟨ref, f, f', hd, by rw [hrefs, Set.union_comm], hf, hf', hdis.symm, hr, hl⟩
    · rintro ⟨ref, f, f', hd, hrefs, hf, hf', hdis, hr, hl⟩
      exact ⟨ref, f', f, hd, by rw [hrefs, Set.union_comm], hf', hf, hdis.symm, hl, hr⟩

theorem Slot.Outside.mono {next next' : ℕ} (h : s.Outside next refs) (hn : next ≤ next')
    (hr : ∀ ref ∈ refs', ref ∈ refs ∨ next ≤ ref) : s.Outside next' refs' := by
  cases s with
  | data => trivial
  | item ref i =>
    refine ⟨h.1.trans_le hn, ?_⟩
    intro hmem
    rcases hr ref hmem with hold | hnew
    · exact h.2 hold
    · exact absurd h.1 (Nat.not_lt.mpr hnew)

theorem Slot.Outside.subset {next : ℕ} (h : s.Outside next refs) (hr : refs' ⊆ refs) :
    s.Outside next refs' :=
  h.mono le_rfl fun _ href => .inl (hr href)

theorem Slot.Outside.ne {next : ℕ} (h : s.Outside next refs) {ref : ℕ} (href : ref ∈ refs)
    (i : Bool) : s ≠ .item ref i := by
  rintro rfl
  exact h.2 href

theorem Edits.refl (t : AllocationTree) (s : Slot) (refs : Set ℕ) : Edits t t s refs refs :=
  ⟨rfl, le_rfl, fun _ => .inl, fun _ _ _ => rfl⟩

theorem Edits.trans (h : Edits t t' s refs refs') (h' : Edits t' t'' s refs' refs'') :
    Edits t t'' s refs refs'' where
  mask_eq := h'.mask_eq.trans h.mask_eq
  next_le := h.next_le.trans h'.next_le
  refs_of := by
    intro ref href
    rcases h'.refs_of ref href with hmem | hle
    · exact h.refs_of ref hmem
    · exact .inr (h.next_le.trans hle)
  frame := by
    intro s' hne hout
    rw [h'.frame s' hne (hout.mono h.next_le h.refs_of)]
    exact h.frame s' hne hout

theorem Edits.lists_eq (h : Edits t t' s refs refs') {ref : ℕ} (hs : ∀ i, Slot.item ref i ≠ s)
    (hlt : ref < t.next) (hout : ref ∉ refs) : t'.lists ref = t.lists ref := by
  funext i
  exact h.frame (.item ref i) (hs i) ⟨hlt, hout⟩

theorem owns_setNode (hout : s.Outside t.next refs) (b : Bool) :
    Owns (t.setNode s (.bool b)) s ∅ (.leaf b) ∧ Edits t (t.setNode s (.bool b)) s refs ∅ := by
  constructor
  · refine ⟨⟨t.getNode_setNode s _, rfl⟩, by simp, ?_⟩
    rw [t.next_setNode]
    exact hout.subset (Set.empty_subset _)
  · exact ⟨t.mask_setNode s _, (t.next_setNode s _).ge, by simp,
      fun s' hne _ => t.getNode_setNode_of_ne hne _⟩

theorem Holds.eq_bool_iff (h : Holds m tree d refs) (b : Bool) :
    d = .bool b ↔ tree = .leaf b := by
  cases tree with
  | leaf c =>
    obtain ⟨rfl, -⟩ := h
    simp
  | node l r =>
    obtain ⟨ref, f₁, f₂, rfl, -⟩ := h
    simp

theorem Owns.collapse {l r : BitTree} (h : Owns t s refs (.node l r)) :
    ∃ refs', Owns (t.collapse s) s refs' (l.join r) ∧ Edits t (t.collapse s) s refs refs' := by
  obtain ⟨ref, f₁, f₂, hd, -, -, -, -, hl, hr⟩ := h.holds
  have hleaf : ∀ b, (t.lists ref false = .bool b ∧ t.lists ref true = .bool b) ↔
      l = .leaf b ∧ r = .leaf b := fun b => and_congr (hl.eq_bool_iff b) (hr.eq_bool_iff b)
  rw [AllocationTree.collapse, hd]
  rcases BitTree.join_cases l r with ⟨b, rfl, rfl, hj⟩ | ⟨hne, hj⟩
  · rw [hj]
    have hset := owns_setNode h.outside b
    cases b with
    | false => simpa [hleaf] using ⟨∅, hset⟩
    | true => simpa [hleaf] using ⟨∅, hset⟩
  · rw [hj]
    simp only [hleaf, if_neg (hne _)]
    exact ⟨refs, h, Edits.refl t s refs⟩

theorem owns_split (hout : s.Outside t.next ∅) :
    Owns (t.split s) s {t.next} (.node (.leaf false) (.leaf false)) ∧
      Edits t (t.split s) s ∅ {t.next} := by
  have hnew : ∀ i, Slot.item t.next i ≠ s := by
    rintro i rfl
    exact absurd hout.1 (Nat.lt_irrefl _)
  have hfalse : ∀ i, (t.split s).lists t.next i = .bool false := by
    intro i
    refine (AllocationTree.getNode_setNode_of_ne _ (hnew i) _).trans ?_
    simp [AllocationTree.getNode]
  have hnext : (t.split s).next = t.next + 1 := AllocationTree.next_setNode ..
  constructor
  · refine ⟨⟨t.next, ∅, ∅, AllocationTree.getNode_setNode .., by simp, by simp, by simp, by simp,
      ⟨hfalse _, rfl⟩, hfalse _, rfl⟩, by simp [hnext], ?_⟩
    cases s with
    | data => trivial
    | item ref i =>
      rw [hnext]
      exact ⟨hout.1.trans (Nat.lt_succ_self _), by simpa using hout.1.ne⟩
  · refine ⟨AllocationTree.mask_setNode .., by simp [hnext], by simp, ?_⟩
    intro s' hne hs'
    refine (AllocationTree.getNode_setNode_of_ne _ hne _).trans ?_
    cases s' with
    | data => rfl
    | item ref i => simp [AllocationTree.getNode, hs'.1.ne]

theorem Owns.item {i : Bool} {c c' : BitTree} (h : Owns t s refs (branch i c c')) :
    ∃ ref f, t.getNode s = .list ref ∧ Owns t (.item ref i) f c ∧
      ∀ {t' f' c''}, Owns t' (.item ref i) f' c'' → Edits t t' (.item ref i) f f' →
        ∃ refs', Owns t' s refs' (branch i c'' c') ∧ Edits t t' s refs refs' := by
  obtain ⟨ref, f, g, hd, rfl, hf, hg, hdis, hc, hc'⟩ := (holds_branch i c c').mp h.holds
  have href : ref < t.next := h.lt ref (Set.mem_insert ref _)
  have hflt : ∀ x ∈ f, x < t.next := fun x hx => h.lt x (by simp [hx])
  have hglt : ∀ x ∈ g, x < t.next := fun x hx => h.lt x (by simp [hx])
  have hsub : f ⊆ insert ref (f ∪ g) := fun x hx => by simp [hx]
  refine ⟨ref, f, hd, ⟨hc, hflt, href, hf⟩, ?_⟩
  intro t' f' c'' ho he
  -- the sibling stands apart from all that the change of the child may touch
  have hs : t'.getNode s = .list ref := by
    rw [he.frame s (h.outside.ne (Set.mem_insert ref _) i) (h.outside.subset hsub), hd]
  have hsibling : t'.lists ref (!i) = t.lists ref (!i) := by
    apply he.frame (.item ref !i) (by simp) ⟨href, hf⟩
  have hholds : Holds t'.lists c' (t'.lists ref !i) g := by
    rw [hsibling]
    apply hc'.frame
    intro x hx
    have hne : x ≠ ref := fun hxr => hg (hxr ▸ hx)
    exact he.lists_eq (by simp [hne]) (hglt x hx) (Set.disjoint_right.mp hdis hx)
  have hapart : Disjoint f' g := by
    rw [Set.disjoint_left]
    intro x hx hxg
    rcases he.refs_of x hx with hxf | hle
    · exact Set.disjoint_left.mp hdis hxf hxg
    · exact absurd (hglt x hxg) (Nat.not_lt.mpr hle)
  have hrefs : ∀ x ∈ insert ref (f' ∪ g), x ∈ insert ref (f ∪ g) ∨ t.next ≤ x := by
    intro x hx
    rcases hx with rfl | hx | hx
    · exact .inl (Set.mem_insert x _)
    · exact (he.refs_of x hx).imp_left (hsub ·)
    · exact .inl (by simp [hx])
  refine ⟨insert ref (f' ∪ g), ⟨?_, ?_, h.outside.mono he.next_le hrefs⟩,
    ⟨he.mask_eq, he.next_le, hrefs, ?_⟩⟩
  · exact (holds_branch i c'' c').mpr
      ⟨ref, f', g, hs, rfl, ho.outside.2, hg, hapart, ho.holds, hholds⟩
  · rintro x (rfl | hx | hx)
    · exact ho.outside.1
    · exact ho.lt x hx
    · exact (hglt x hx).trans_le he.next_le
  · intro s' hne hout
    exact he.frame s' (hout.ne (Set.mem_insert ref _) i) (hout.subset hsub)

end representation

section address

variable {t : AllocationTree} {s : Slot} {refs : Set ℕ} {tree : BitTree} {d : Data} {k fuel : ℕ}

theorem shiftRight_two_pow_succ (k : ℕ) : 2 ^ (k + 1) >>> 1 = 2 ^ k := by
  rw [Nat.shiftRight_one, Nat.pow_succ, Nat.mul_div_cancel _ (Nat.zero_lt_succ 1)]

theorem isSet_two_pow (a k : ℕ) : AllocationTree.isSet a (2 ^ k) = a.testBit k := by
  rw [AllocationTree.isSet, Nat.and_two_pow]
  cases a.testBit k <;> simp

theorem insert_branch (a k : ℕ) (c c' : BitTree) :
    BitTree.insert (k + 1) a (branch (a.testBit k) c c') =
      cond (a.testBit k) (BitTree.join c' (BitTree.insert k a c)) (BitTree.join (BitTree.insert k a c) c') := by
  cases h : a.testBit k <;> simp [branch, BitTree.insert, h]

theorem mem_branch (a k : ℕ) (c c' : BitTree) :
    (branch (a.testBit k) c c').mem (k + 1) a = c.mem k a := by
  cases h : a.testBit k <;> simp [branch, BitTree.mem, h]

theorem exists_branch (i : Bool) (l r : BitTree) : ∃ c c', branch i c c' = .node l r ∧
    max c.height c'.height = max l.height r.height := by
  cases i with
  | false => exact ⟨l, r, rfl, rfl⟩
  | true => exact ⟨r, l, rfl, max_comm _ _⟩

theorem Owns.collapse_branch {i : Bool} {c c' : BitTree} (h : Owns t s refs (branch i c c')) :
    ∃ refs', Owns (t.collapse s) s refs' (cond i (BitTree.join c' c) (BitTree.join c c')) ∧
      Edits t (t.collapse s) s refs refs' := by
  cases i with
  | false => exact h.collapse
  | true => exact h.collapse

def Allocates (a k : ℕ) (t : AllocationTree) (s : Slot) (refs : Set ℕ) (tree : BitTree)
    (stack : List Slot) (result : Option AllocationTree) : Prop :=
  (tree.mem k a = true → result = some t) ∧
    (tree.mem k a = false → ∃ t' refs', result = some (stack.foldl AllocationTree.collapse t') ∧
      Owns t' s refs' (BitTree.insert k a tree) ∧ Edits t t' s refs refs')

theorem allocates_branch {a : ℕ} {c c' : BitTree} {stack : List Slot}
    (h : Owns t s refs (branch (a.testBit k) c c'))
    (ih : ∀ {s' f}, Owns t s' f c → ∀ stack', Allocates a k t s' f c stack'
      (AllocationTree.allocateFrom a fuel t (2 ^ k >>> 1) (t.getNode s') s' stack')) :
    ∃ ref, t.getNode s = .list ref ∧
      Allocates a (k + 1) t s refs (branch (a.testBit k) c c') stack
        (AllocationTree.allocateFrom a fuel t (2 ^ k >>> 1) (t.lists ref (a.testBit k))
          (.item ref (a.testBit k)) (s :: stack)) := by
  obtain ⟨ref, f, hd, hitem, hput⟩ := h.item
  obtain ⟨hold, hnew⟩ := ih hitem (s :: stack)
  refine ⟨ref, hd, ?_, ?_⟩
  · intro hmem
    rw [mem_branch] at hmem
    exact hold hmem
  · intro hmem
    rw [mem_branch] at hmem
    obtain ⟨t₁, f₁, hres, ho₁, he₁⟩ := hnew hmem
    obtain ⟨refs₁, ho₂, he₂⟩ := hput ho₁ he₁
    obtain ⟨refs₂, ho₃, he₃⟩ := ho₂.collapse_branch
    rw [insert_branch]
    exact ⟨t₁.collapse s, refs₂, hres, ho₃, he₂.trans he₃⟩

theorem allocateFrom_spec (a : ℕ) (hfuel : k < fuel) (h : Owns t s refs tree) (hk : tree.height ≤ k)
    (stack : List Slot) : Allocates a k t s refs tree stack
      (AllocationTree.allocateFrom a fuel t (2 ^ k >>> 1) (t.getNode s) s stack) := by
  induction k generalizing fuel t s refs tree stack with
  | zero =>
    obtain ⟨fuel, rfl⟩ := Nat.exists_eq_succ_of_ne_zero (Nat.ne_of_gt hfuel)
    cases tree with
    | node l r => simp [BitTree.height] at hk
    | leaf b =>
      obtain ⟨hd, rfl⟩ := h.holds
      rw [hd]
      cases b with
      | true => exact ⟨fun _ => rfl, fun hmem => Bool.noConfusion hmem⟩
      | false =>
        refine ⟨fun hmem => Bool.noConfusion hmem, fun _ => ?_⟩
        obtain ⟨ho, he⟩ := owns_setNode h.outside true
        refine ⟨_, _, ?_, ho, he⟩
        simp [AllocationTree.allocateFrom, AllocationTree.collapse]
  | succ k ih =>
    obtain ⟨fuel, rfl⟩ := Nat.exists_eq_succ_of_ne_zero (Nat.ne_of_gt (Nat.zero_lt_of_lt hfuel))
    have hfuel' : k < fuel := Nat.lt_of_succ_lt_succ hfuel
    rw [shiftRight_two_pow_succ]
    cases tree with
    | node l r =>
      obtain ⟨c, c', hbranch, hheight⟩ := exists_branch (a.testBit k) l r
      have hle : max c.height c'.height ≤ k := by
        rw [hheight]
        exact Nat.le_of_succ_le_succ hk
      rw [← hbranch] at h ⊢
      obtain ⟨ref, hd, hspec⟩ := allocates_branch h fun hc =>
        ih hfuel' hc ((le_max_left _ _).trans hle)
      rw [hd]
      simpa only [AllocationTree.allocateFrom, isSet_two_pow] using hspec
    | leaf b =>
      obtain ⟨hd, rfl⟩ := h.holds
      rw [hd]
      cases b with
      | true => exact ⟨fun _ => rfl, fun hmem => Bool.noConfusion hmem⟩
      | false =>
        obtain ⟨ho, he⟩ := owns_split h.outside
        have hbranch : ∀ i, branch i (.leaf false) (.leaf false) =
            .node (.leaf false) (.leaf false) := by
          intro i
          cases i <;> rfl
        rw [← hbranch (a.testBit k)] at ho
        obtain ⟨ref, hd', hspec⟩ := allocates_branch ho fun hc =>
          ih hfuel' hc (Nat.zero_le k)
        rw [AllocationTree.split, AllocationTree.getNode_setNode] at hd'
        cases hd'
        refine ⟨fun hmem => Bool.noConfusion hmem, fun _ => ?_⟩
        obtain ⟨t', refs', hres, ho', he'⟩ := hspec.2 (by rw [mem_branch]; rfl)
        refine ⟨t', refs', ?_, ?_, he.trans he'⟩
        · rw [← hres]
          simp [AllocationTree.allocateFrom, isSet_two_pow]
        · rw [insert_branch] at ho'
          exact ho'

theorem isAllocatedFrom_spec (a : ℕ) (h : Holds t.lists tree d refs) (hk : tree.height ≤ k)
    (hfuel : tree.height ≤ fuel) :
    t.isAllocatedFrom a fuel d (2 ^ k >>> 1) = some (tree.mem k a) := by
  induction tree generalizing k fuel d refs with
  | leaf b =>
    obtain ⟨rfl, -⟩ := h
    cases fuel <;> rfl
  | node l r ihl ihr =>
    obtain ⟨ref, f₁, f₂, rfl, -, -, -, -, hl, hr⟩ := h
    obtain ⟨k, rfl⟩ := Nat.exists_eq_succ_of_ne_zero (Nat.ne_of_gt (Nat.zero_lt_of_lt hk))
    obtain ⟨fuel, rfl⟩ := Nat.exists_eq_succ_of_ne_zero (Nat.ne_of_gt (Nat.zero_lt_of_lt hfuel))
    obtain ⟨hkl, hkr⟩ := Nat.max_le.mp (Nat.le_of_succ_le_succ hk)
    obtain ⟨hfl, hfr⟩ := Nat.max_le.mp (Nat.le_of_succ_le_succ hfuel)
    rw [AllocationTree.isAllocatedFrom, shiftRight_two_pow_succ, isSet_two_pow, BitTree.mem,
      Nat.succ_sub_one]
    cases a.testBit k with
    | false => exact ihl hl hkl hfl
    | true => exact ihr hr hkr hfr

theorem or_two_pow {k address : ℕ} (h : 2 ^ (k + 1) ∣ address) :
    address ||| 2 ^ k = address + 2 ^ k := by
  obtain ⟨q, rfl⟩ := h
  exact (Nat.two_pow_add_eq_or_of_lt (Nat.pow_lt_pow_succ Nat.one_lt_two) q).symm

theorem findFirstFrom_spec {address : ℕ} (h : Holds t.lists tree d refs) (hk : tree.height ≤ k)
    (hfuel : tree.height < fuel) (ha : 2 ^ k ∣ address) :
    t.findFirstFrom fuel d (2 ^ k >>> 1) address =
      some ((BitTree.first k tree).map (address + ·)) := by
  induction tree generalizing k fuel d refs address with
  | leaf b =>
    obtain ⟨rfl, -⟩ := h
    obtain ⟨fuel, rfl⟩ := Nat.exists_eq_succ_of_ne_zero (Nat.ne_of_gt hfuel)
    cases b <;> rfl
  | node l r ihl ihr =>
    obtain ⟨ref, f₁, f₂, rfl, -, -, -, -, hl, hr⟩ := h
    obtain ⟨k, rfl⟩ := Nat.exists_eq_succ_of_ne_zero (Nat.ne_of_gt (Nat.zero_lt_of_lt hk))
    obtain ⟨fuel, rfl⟩ := Nat.exists_eq_succ_of_ne_zero (Nat.ne_of_gt (Nat.zero_lt_of_lt hfuel))
    obtain ⟨hkl, hkr⟩ := Nat.max_le.mp (Nat.le_of_succ_le_succ hk)
    obtain ⟨hfl, hfr⟩ := Nat.max_lt.mp (Nat.lt_of_succ_lt_succ hfuel)
    have ha' : 2 ^ k ∣ address := (Nat.pow_dvd_pow 2 (Nat.le_succ k)).trans ha
    rw [AllocationTree.findFirstFrom, shiftRight_two_pow_succ, BitTree.first, Nat.succ_sub_one]
    simp only [hl.eq_bool_iff true]
    split
    · rw [ihr hr hkr hfr ((or_two_pow ha).symm ▸ Nat.dvd_add ha' dvd_rfl), or_two_pow ha,
        Option.map_map]
      congr 2
      funext x
      exact Nat.add_assoc address (2 ^ k) x
    · exact ihl hl hkl hfl ha'

end address

namespace AllocationTree

inductive NodeOf (t : AllocationTree) : ℕ → Prop
  | root {ref : ℕ} : t.data = .list ref → t.NodeOf ref
  | item {ref ref' : ℕ} {i : Bool} : t.NodeOf ref → t.lists ref i = .list ref' → t.NodeOf ref'

structure Represents (t : AllocationTree) (bits : ℕ) (tree : BitTree) : Prop where
  mask_eq : t.mask = 2 ^ bits >>> 1
  owns : ∃ refs, Owns t .data refs tree
  canonical : tree.Canonical
  height_le : tree.height ≤ bits

variable {t : AllocationTree} {bits : ℕ} {tree : BitTree}

theorem represents_init (hbits : 1 ≤ bits) : (init bits).Represents bits (.leaf false) where
  mask_eq := by
    obtain ⟨k, rfl⟩ := Nat.exists_eq_add_of_le' hbits
    rw [shiftRight_two_pow_succ, init, Nat.shiftLeft_eq, Nat.one_mul, Nat.add_sub_cancel]
  owns := ⟨∅, ⟨rfl, rfl⟩, by simp, trivial⟩
  canonical := trivial
  height_le := Nat.zero_le bits

theorem Represents.fuel_eq (h : t.Represents bits tree) (hbits : 1 ≤ bits) : t.fuel = bits + 1 := by
  obtain ⟨k, rfl⟩ := Nat.exists_eq_add_of_le' hbits
  rw [fuel, h.mask_eq, shiftRight_two_pow_succ, Nat.log2_two_pow]

theorem Represents.isAllocated_eq (h : t.Represents bits tree) (hbits : 1 ≤ bits) (a : ℕ) :
    t.isAllocated a = some (tree.mem bits a) := by
  obtain ⟨refs, howns⟩ := h.owns
  rw [isAllocated, h.mask_eq, h.fuel_eq hbits]
  exact isAllocatedFrom_spec a howns.holds h.height_le (h.height_le.trans (Nat.le_succ bits))

theorem Represents.findFirst_eq (h : t.Represents bits tree) (hbits : 1 ≤ bits) :
    t.findFirst = some (BitTree.first bits tree) := by
  obtain ⟨refs, howns⟩ := h.owns
  have hspec := findFirstFrom_spec howns.holds h.height_le (Nat.lt_succ_of_le h.height_le)
    (Nat.dvd_zero (2 ^ bits))
  rw [findFirst, h.mask_eq, h.fuel_eq hbits]
  simpa [getNode] using hspec

theorem Represents.allocate (h : t.Represents bits tree) (hbits : 1 ≤ bits) (a : ℕ) :
    ∃ t', t.allocate a = some t' ∧ t'.Represents bits (BitTree.insert bits a tree) := by
  obtain ⟨refs, howns⟩ := h.owns
  obtain ⟨hold, hnew⟩ := allocateFrom_spec a (Nat.lt_succ_self bits) howns h.height_le []
  rw [AllocationTree.allocate, h.mask_eq, h.fuel_eq hbits]
  have hcanonical := BitTree.canonical_insert (k := bits) a h.canonical
  have hheight := BitTree.height_insert a h.height_le
  cases hmem : tree.mem bits a with
  | true =>
    rw [BitTree.insert_eq_self h.canonical h.height_le hmem]
    exact ⟨t, hold hmem, h⟩
  | false =>
    obtain ⟨t', refs', hres, howns', hedits⟩ := hnew hmem
    exact ⟨t', hres, hedits.mask_eq.trans h.mask_eq, ⟨refs', howns'⟩, hcanonical, hheight⟩

theorem Represents.allocateAll (h : t.Represents bits tree) (hbits : 1 ≤ bits) (l : List ℕ) :
    ∃ t' tree', t.allocateAll l = some t' ∧ t'.Represents bits tree' ∧
      ∀ x, tree'.mem bits x = (tree.mem bits x || decide (∃ a ∈ l, x % 2 ^ bits = a % 2 ^ bits)) := by
  induction l generalizing t tree with
  | nil => exact ⟨t, tree, rfl, h, by simp⟩
  | cons a l ih =>
    obtain ⟨t₁, hstep, h₁⟩ := h.allocate hbits a
    obtain ⟨t₂, tree₂, hrun, h₂, hmem⟩ := ih h₁
    refine ⟨t₂, tree₂, ?_, h₂, ?_⟩
    · rw [AllocationTree.allocateAll, List.foldlM_cons, hstep]
      exact hrun
    · intro x
      rw [hmem, BitTree.mem_insert a x h.height_le, Bool.or_assoc]
      simp

theorem Represents.nodeOf (h : t.Represents bits tree) {ref : ℕ} (hr : t.NodeOf ref) (b : Bool) :
    ¬(t.lists ref false = .bool b ∧ t.lists ref true = .bool b) := by
  have hsub : ∃ sub refs, Holds t.lists sub (.list ref) refs ∧ sub.Canonical := by
    induction hr with
    | root hroot =>
      obtain ⟨refs, howns⟩ := h.owns
      exact ⟨tree, refs, hroot ▸ howns.holds, h.canonical⟩
    | @item ref ref' i _ hitem ih =>
      obtain ⟨sub, refs, hholds, hcanonical⟩ := ih
      cases sub with
      | leaf b => cases hholds.1
      | node l r =>
        obtain ⟨_, f₁, f₂, hd, -, -, -, -, hl, hr⟩ := hholds
        cases hd
        cases i with
        | false => exact ⟨l, f₁, hitem ▸ hl, hcanonical.1⟩
        | true => exact ⟨r, f₂, hitem ▸ hr, hcanonical.2.1⟩
  obtain ⟨sub, refs, hholds, hcanonical⟩ := hsub
  cases sub with
  | leaf b => cases hholds.1
  | node l r =>
    obtain ⟨_, f₁, f₂, hd, -, -, -, -, hl, hr⟩ := hholds
    cases hd
    rw [hl.eq_bool_iff, hr.eq_bool_iff]
    exact hcanonical.2.2 b

theorem exists_represents {addresses : List ℕ} (hbits : 1 ≤ bits)
    (h : ∀ a ∈ addresses, a < 2 ^ bits) :
    ∃ t tree, (init bits).allocateAll addresses = some t ∧ t.Represents bits tree ∧
      ∀ x < 2 ^ bits, tree.mem bits x = decide (x ∈ addresses) := by
  obtain ⟨t, tree, hrun, ht, hmem⟩ := (represents_init hbits).allocateAll hbits addresses
  refine ⟨t, tree, hrun, ht, ?_⟩
  intro x hx
  have hiff : (∃ a ∈ addresses, x % 2 ^ bits = a % 2 ^ bits) ↔ x ∈ addresses := by
    constructor
    · rintro ⟨a, ha, hxa⟩
      rw [Nat.mod_eq_of_lt hx, Nat.mod_eq_of_lt (h a ha)] at hxa
      exact hxa ▸ ha
    · exact fun hx => ⟨x, hx, rfl⟩
  rw [hmem, BitTree.mem, Bool.false_or]
  exact decide_eq_decide.mpr hiff

theorem first_eq_some_iff {addresses : List ℕ} (ht : t.Represents bits tree)
    (hset : ∀ x < 2 ^ bits, tree.mem bits x = decide (x ∈ addresses)) (a : ℕ) :
    BitTree.first bits tree = some a ↔ IsLeast {x | x < 2 ^ bits ∧ x ∉ addresses} a := by
  have hfree : {x | x < 2 ^ bits ∧ tree.mem bits x = false} =
      {x | x < 2 ^ bits ∧ x ∉ addresses} := by
    ext x
    simp only [Set.mem_ofPred_eq]
    exact and_congr_right fun hx => by rw [hset x hx, decide_eq_false_iff_not]
  rw [← hfree]
  exact BitTree.first_eq_some_iff ht.canonical ht.height_le a

/-- The tree is the set of the addresses allocated so far, and its shape is canonical. -/
theorem allocateAll_exact {addresses : List ℕ} (hbits : 1 ≤ bits)
    (h : ∀ a ∈ addresses, a < 2 ^ bits) :
    ∃ t, (init bits).allocateAll addresses = some t ∧
      (∀ x < 2 ^ bits, t.isAllocated x = some (decide (x ∈ addresses))) ∧
      (∃ r, t.findFirst = some r ∧
        (∀ a, r = some a ↔ IsLeast {x | x < 2 ^ bits ∧ x ∉ addresses} a) ∧
        (r = none ↔ ∀ x < 2 ^ bits, x ∈ addresses)) ∧
      ∀ ref, t.NodeOf ref → ∀ b, ¬(t.lists ref false = .bool b ∧ t.lists ref true = .bool b) := by
  obtain ⟨t, tree, hrun, ht, hset⟩ := exists_represents hbits h
  refine ⟨t, hrun, ?_, ⟨_, ht.findFirst_eq hbits, first_eq_some_iff ht hset, ?_⟩,
    fun ref hr b => ht.nodeOf hr b⟩
  · intro x hx
    rw [ht.isAllocated_eq hbits, hset x hx]
  · constructor
    · intro hnone x hx
      rw [(BitTree.first_eq_none ht.canonical).mp hnone] at hset
      exact of_decide_eq_true (hset x hx).symm
    · intro hall
      cases hfirst : BitTree.first bits tree with
      | none => rfl
      | some a =>
        obtain ⟨⟨hlt, hnot⟩, -⟩ := (first_eq_some_iff ht hset a).mp hfirst
        exact absurd (hall a hlt) hnot

theorem allocateAll_exact_two_bits :
    ∃ t, (init 2).allocateAll [0, 1, 3, 1] = some t ∧
      (∀ x < 2 ^ 2, t.isAllocated x = some (decide (x ∈ [0, 1, 3, 1]))) ∧
      (∃ r, t.findFirst = some r ∧
        (∀ a, r = some a ↔ IsLeast {x | x < 2 ^ 2 ∧ x ∉ [0, 1, 3, 1]} a) ∧
        (r = none ↔ ∀ x < 2 ^ 2, x ∈ [0, 1, 3, 1])) ∧
      ∀ ref, t.NodeOf ref → ∀ b, ¬(t.lists ref false = .bool b ∧ t.lists ref true = .bool b) :=
  allocateAll_exact (by simp) (by simp)

end AllocationTree

structure FileIdAllocator where
  tree : AllocationTree

namespace FileIdAllocator

def init : Option FileIdAllocator :=
  ((AllocationTree.init 16).allocateAll (List.range 0x11)).map .mk

def isAllocated (f : FileIdAllocator) (address : ℕ) : Option Bool :=
  f.tree.isAllocated (address >>> 4)

def allocate (f : FileIdAllocator) (address : ℕ) : Option FileIdAllocator :=
  (f.tree.allocate (address >>> 4)).map .mk

/-- With no free id left the shift of `None` raises, which is `none` here. -/
def findFirst (f : FileIdAllocator) : Option ℕ := do
  let first ← f.tree.findFirst
  return (← first) <<< 4

theorem foldlM_allocate (f : FileIdAllocator) (ids : List ℕ) :
    ids.foldlM allocate f = (f.tree.allocateAll (ids.map (· >>> 4))).map .mk := by
  induction ids generalizing f with
  | nil => rfl
  | cons id ids ih =>
    rw [List.foldlM_cons, allocate, List.map_cons, AllocationTree.allocateAll, List.foldlM_cons]
    cases f.tree.allocate (id >>> 4) with
    | none => rfl
    | some t => exact ih ⟨t⟩

theorem findFirst_eq_some_iff {ids : List ℕ} (h : ∀ id ∈ ids, id < 0x100000) :
    ∃ f, (init >>= fun f => ids.foldlM allocate f) = some f ∧ ∀ n, f.findFirst = some (n <<< 4) ↔
      IsLeast {x | x < 0x10000 ∧ 0x11 ≤ x ∧ ∀ id ∈ ids, id >>> 4 ≠ x} n := by
  have hlt : ∀ a ∈ List.range 0x11 ++ ids.map (· >>> 4), a < 2 ^ 16 := by
    intro a ha
    rcases List.mem_append.mp ha with ha | ha
    · exact (List.mem_range.mp ha).trans (by simp)
    · obtain ⟨id, hid, rfl⟩ := List.mem_map.mp ha
      have := h id hid
      rw [Nat.shiftRight_eq_div_pow]
      omega
  obtain ⟨t, tree, hrun, ht, hset⟩ := AllocationTree.exists_represents (by simp) hlt
  refine ⟨⟨t⟩, ?_, ?_⟩
  · rw [AllocationTree.allocateAll, List.foldlM_append] at hrun
    obtain ⟨t₀, hinit, hids⟩ := Option.bind_eq_some_iff.mp hrun
    rw [init, AllocationTree.allocateAll, hinit]
    refine (foldlM_allocate ⟨t₀⟩ ids).trans ?_
    rw [AllocationTree.allocateAll, hids]
    rfl
  · intro n
    have hfree : {x | x < 0x10000 ∧ 0x11 ≤ x ∧ ∀ id ∈ ids, id >>> 4 ≠ x} =
        {x | x < 2 ^ 16 ∧ x ∉ List.range 0x11 ++ ids.map (· >>> 4)} := by
      ext x
      simp
    rw [hfree, ← AllocationTree.first_eq_some_iff ht hset, findFirst, ht.findFirst_eq (by simp)]
    simp [Option.bind_eq_some_iff, Nat.shiftLeft_eq]

theorem findFirst_eq_some_iff_two : ∃ f, (init >>= fun f => [0x110, 0x130].foldlM allocate f) = some f ∧
    ∀ n, f.findFirst = some (n <<< 4) ↔
      IsLeast {x | x < 0x10000 ∧ 0x11 ≤ x ∧ ∀ id ∈ [0x110, 0x130], id >>> 4 ≠ x} n :=
  findFirst_eq_some_iff (by decide)

end FileIdAllocator

end NaviMisc.RioKarma
