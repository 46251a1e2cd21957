import NaviMisc.Lib.Bits

/-!
`MSpriteAllocator` of `mSprite.cpp`: hardware OBJs and matrices handed out from
bit maps in which a set bit means a free handle. A failing `sassert` stops the
program and is `none` here.
-/

namespace NaviMisc.RobotOdyssey.Sprite

def SPRITE_COUNT : ℕ := 128

def MATRIX_COUNT : ℕ := 32

def MSPRR_FRONT : ℕ := 0x00
def MSPRR_FRONT_BORDER : ℕ := 0x20
def MSPRR_UI : ℕ := 0x40
def MSPRR_BACK : ℕ := 0x60

structure OamState where
  oamMemory : ℤ
  oamRotationMemory : ℤ

structure MSpriteAllocator where
  oam : OamState
  matrixAlloc : BitVec 32
  objAlloc : Fin (SPRITE_COUNT / 32) → BitVec 32

theorem word_lt {id : ℕ} (h : id < SPRITE_COUNT) : id >>> 5 < SPRITE_COUNT / 32 := by
  rw [Nat.shiftRight_eq_div_pow]
  exact Nat.div_lt_of_lt_mul h

def ffs (m : BitVec 32) : ℕ :=
  match (List.range 32).find? fun i => m.getLsbD i with
  | some i => i + 1
  | none => 0

namespace MSpriteAllocator

def init (oam : OamState) : MSpriteAllocator where
  oam := oam
  matrixAlloc := 0xFFFFFFFF#32
  objAlloc := fun _ => 0xFFFFFFFF#32

def allocMatrix (a : MSpriteAllocator) : Option (ℤ × MSpriteAllocator) :=
  let i : ℤ := (ffs a.matrixAlloc : ℤ) - 1
  if i ≥ 0 then
    some (a.oam.oamRotationMemory + i,
      { a with matrixAlloc := a.matrixAlloc &&& ~~~(1#32 <<< i.toNat) })
  else none

def getMatrixIndex (a : MSpriteAllocator) (s : ℤ) : Option ℕ :=
  let i := s - a.oam.oamRotationMemory
  if i ≥ 0 ∧ i < MATRIX_COUNT then some i.toNat else none

def freeMatrix (a : MSpriteAllocator) (s : ℤ) : Option MSpriteAllocator := do
  let i ← a.getMatrixIndex s
  if a.matrixAlloc &&& (1#32 <<< i) = 0#32 then
    some { a with matrixAlloc := a.matrixAlloc ||| (1#32 <<< i) }
  else none

def allocOBJFrom (a : MSpriteAllocator) (id : ℕ) : Option (ℤ × MSpriteAllocator) :=
  if h : id < SPRITE_COUNT then
    let word : Fin (SPRITE_COUNT / 32) := ⟨id >>> 5, word_lt h⟩
    let bit := id &&& 31
    let mask := 1#32 <<< bit
    if a.objAlloc word &&& mask ≠ 0#32 then
      some (a.oam.oamMemory + id,
        { a with objAlloc := Function.update a.objAlloc word (a.objAlloc word &&& ~~~mask) })
    else allocOBJFrom a (id + 1)
  else none
termination_by SPRITE_COUNT - id

def allocOBJ (a : MSpriteAllocator) (range : ℕ) : Option (ℤ × MSpriteAllocator) :=
  a.allocOBJFrom range

def freeOBJ (a : MSpriteAllocator) (s : ℤ) : Option MSpriteAllocator :=
  let i := ((s - a.oam.oamMemory) % 2 ^ 32).toNat
  if h : i < SPRITE_COUNT then
    let word : Fin (SPRITE_COUNT / 32) := ⟨i >>> 5, word_lt h⟩
    let bit := i &&& 31
    if a.objAlloc word &&& (1#32 <<< bit) = 0#32 then
      some { a with
        objAlloc := Function.update a.objAlloc word (a.objAlloc word ||| (1#32 <<< bit)) }
    else none
  else none

end MSpriteAllocator

structure Owners where
  alloc : MSpriteAllocator
  objs : Set ℤ
  matrices : Set ℤ

inductive Call : Owners → Owners → Prop
  | allocOBJ {w : Owners} {range : ℕ} {s : ℤ} {a : MSpriteAllocator} :
      w.alloc.allocOBJ range = some (s, a) →
      Call w { w with alloc := a, objs := insert s w.objs }
  | freeOBJ {w : Owners} {s : ℤ} {a : MSpriteAllocator} :
      s ∈ w.objs → w.alloc.freeOBJ s = some a →
      Call w { w with alloc := a, objs := w.objs \ {s} }
  | allocMatrix {w : Owners} {s : ℤ} {a : MSpriteAllocator} :
      w.alloc.allocMatrix = some (s, a) →
      Call w { w with alloc := a, matrices := insert s w.matrices }
  | freeMatrix {w : Owners} {s : ℤ} {a : MSpriteAllocator} :
      s ∈ w.matrices → w.alloc.freeMatrix s = some a →
      Call w { w with alloc := a, matrices := w.matrices \ {s} }

inductive Reachable (oam : OamState) : Owners → Prop
  | init : Reachable oam ⟨.init oam, ∅, ∅⟩
  | call {w w' : Owners} : Reachable oam w → Call w w' → Reachable oam w'

namespace MSpriteAllocator

def objFree (a : MSpriteAllocator) (id : ℕ) : Prop :=
  ∃ h : id < SPRITE_COUNT, (a.objAlloc ⟨id >>> 5, word_lt h⟩).getLsbD (id &&& 31) = true

def matrixFree (a : MSpriteAllocator) (i : ℕ) : Prop := a.matrixAlloc.getLsbD i = true

variable {a a' : MSpriteAllocator} {s : ℤ}

theorem bit_lt (id : ℕ) : id &&& 31 < 32 :=
  Nat.lt_succ_of_le Nat.and_le_right

theorem eq_of_word_bit {id j : ℕ} (hw : id >>> 5 = j >>> 5) (hb : id &&& 31 = j &&& 31) :
    id = j := by
  have hmask : ∀ n : ℕ, n &&& 31 = n % 32 := fun n => Nat.and_two_pow_sub_one_eq_mod n 5
  rw [Nat.shiftRight_eq_div_pow, Nat.shiftRight_eq_div_pow] at hw
  rw [hmask, hmask] at hb
  omega

theorem objFree_update {id : ℕ} (h : id < SPRITE_COUNT) (u : BitVec 32)
    (hu : ∀ b, b ≠ id &&& 31 → u.getLsbD b = (a.objAlloc ⟨id >>> 5, word_lt h⟩).getLsbD b) (j : ℕ) :
    objFree { a with objAlloc := Function.update a.objAlloc ⟨id >>> 5, word_lt h⟩ u } j ↔
      (j = id ∧ u.getLsbD (id &&& 31) = true) ∨ (j ≠ id ∧ a.objFree j) := by
  by_cases hj : j < SPRITE_COUNT
  · by_cases hw : j >>> 5 = id >>> 5
    · have hword : (⟨j >>> 5, word_lt hj⟩ : Fin (SPRITE_COUNT / 32)) = ⟨id >>> 5, word_lt h⟩ :=
        Fin.ext hw
      by_cases hb : j &&& 31 = id &&& 31
      · obtain rfl := eq_of_word_bit hw hb
        simp [objFree, hj]
      · have hne : j ≠ id := fun hji => hb (by rw [hji])
        simp [objFree, hj, hword, hu _ hb, hne]
    · have hne : j ≠ id := fun hji => hw (by rw [hji])
      have hword : (⟨j >>> 5, word_lt hj⟩ : Fin (SPRITE_COUNT / 32)) ≠ ⟨id >>> 5, word_lt h⟩ :=
        fun he => hw (Fin.ext_iff.mp he)
      simp [objFree, hj, hword, hne]
  · have hne : j ≠ id := fun hji => hj (hji ▸ h)
    simp [objFree, hj, hne]

theorem objAlloc_and_mask {id : ℕ} (h : id < SPRITE_COUNT) :
    a.objAlloc ⟨id >>> 5, word_lt h⟩ &&& 1#32 <<< (id &&& 31) = 0#32 ↔ ¬a.objFree id := by
  rw [Lib.Bits.and_one_shiftLeft_eq_zero_iff _ (bit_lt id)]
  simp [objFree, h]

theorem allocOBJFrom_some {id : ℕ} (h : a.allocOBJFrom id = some (s, a')) :
    ∃ k, id ≤ k ∧ a.objFree k ∧ (∀ j, id ≤ j → j < k → ¬a.objFree j) ∧
      s = a.oam.oamMemory + k ∧ a'.oam = a.oam ∧ a'.matrixAlloc = a.matrixAlloc ∧
      ∀ j, a'.objFree j ↔ j ≠ k ∧ a.objFree j := by
  fun_induction allocOBJFrom a id with
  | case1 id hlt word bit mask hset =>
    cases h
    have hfree : a.objFree id := not_not.mp fun hnot => hset ((objAlloc_and_mask hlt).mpr hnot)
    refine ⟨id, le_rfl, hfree, ?_, rfl, rfl, rfl, ?_⟩
    · exact fun j hle hj => absurd hj (Nat.not_lt.mpr hle)
    · intro j
      have hbits : ∀ b, (a.objAlloc word &&& ~~~mask).getLsbD b =
          ((a.objAlloc word).getLsbD b && decide (b ≠ bit)) :=
        fun b => Lib.Bits.getLsbD_and_not_one_shiftLeft _ (bit_lt id)
      rw [objFree_update hlt _ fun b hb => by simp [hbits, bit, word, hb], hbits]
      simp [bit]
  | case2 id hlt word bit mask hclear ih =>
    obtain ⟨k, hk, hfree, hlow, hrest⟩ := ih h
    refine ⟨k, (Nat.le_succ id).trans hk, hfree, ?_, hrest⟩
    intro j hle hj
    rcases Nat.eq_or_lt_of_le hle with rfl | hlt'
    · exact (objAlloc_and_mask hlt).mp (not_not.mp hclear)
    · exact hlow j hlt' hj
  | case3 id hge => cases h

theorem allocOBJFrom_none {id : ℕ} (h : a.allocOBJFrom id = none) (j : ℕ) (hj : id ≤ j) :
    ¬a.objFree j := by
  fun_induction allocOBJFrom a id with
  | case1 id hlt word bit mask hset => cases h
  | case2 id hlt word bit mask hclear ih =>
    rcases Nat.eq_or_lt_of_le hj with rfl | hlt'
    · exact (objAlloc_and_mask hlt).mp (not_not.mp hclear)
    · exact ih h hlt'
  | case3 id hge => exact fun hfree => hge (hj.trans_lt hfree.1)

theorem freeOBJ_at {id : ℕ} (h : id < SPRITE_COUNT) (hheld : ¬a.objFree id) :
    ∃ a', a.freeOBJ (a.oam.oamMemory + id) = some a' ∧ a'.oam = a.oam ∧
      a'.matrixAlloc = a.matrixAlloc ∧ ∀ j, a'.objFree j ↔ j = id ∨ a.objFree j := by
  have hindex : ((a.oam.oamMemory + id - a.oam.oamMemory) % 2 ^ 32).toNat = id := by
    rw [SPRITE_COUNT] at h
    omega
  have hmask := (objAlloc_and_mask h).mpr hheld
  have hbits : ∀ b, (a.objAlloc ⟨id >>> 5, word_lt h⟩ ||| 1#32 <<< (id &&& 31)).getLsbD b =
      ((a.objAlloc ⟨id >>> 5, word_lt h⟩).getLsbD b || decide (b = id &&& 31)) :=
    fun b => Lib.Bits.getLsbD_or_one_shiftLeft _ (bit_lt id)
  have hfree : a.freeOBJ (a.oam.oamMemory + id) = some { a with
      objAlloc := Function.update a.objAlloc ⟨id >>> 5, word_lt h⟩
        (a.objAlloc ⟨id >>> 5, word_lt h⟩ ||| 1#32 <<< (id &&& 31)) } := by
    simp only [freeOBJ, hindex, h, hmask, ↓reduceDIte, ↓reduceIte]
  refine ⟨_, hfree, rfl, rfl, ?_⟩
  intro j
  rw [objFree_update h _ fun b hb => by simp [hbits, hb], hbits]
  by_cases hj : j = id <;> simp [hj]

theorem ffs_spec (m : BitVec 32) :
    (ffs m = 0 ∧ ∀ i < 32, m.getLsbD i = false) ∨ ∃ i < 32, ffs m = i + 1 ∧ m.getLsbD i = true := by
  cases hfind : (List.range 32).find? fun i => m.getLsbD i with
  | none =>
    left
    refine ⟨by rw [ffs, hfind], ?_⟩
    intro i hi
    simpa using List.find?_eq_none.mp hfind i (List.mem_range.mpr hi)
  | some i =>
    right
    have hlt : i < 32 := List.mem_range.mp (List.mem_of_find?_eq_some hfind)
    exact ⟨i, hlt, by rw [ffs, hfind], List.find?_some hfind⟩

theorem allocMatrix_some (h : a.allocMatrix = some (s, a')) :
    ∃ i < MATRIX_COUNT, a.matrixFree i ∧ s = a.oam.oamRotationMemory + i ∧ a'.oam = a.oam ∧
      a'.objAlloc = a.objAlloc ∧ ∀ j, a'.matrixFree j ↔ j ≠ i ∧ a.matrixFree j := by
  rcases ffs_spec a.matrixAlloc with ⟨hzero, -⟩ | ⟨i, hlt, hffs, hfree⟩
  · simp [allocMatrix, hzero] at h
  · have hi : ((i + 1 : ℕ) : ℤ) - 1 = i := by omega
    simp only [allocMatrix, hffs, hi, ge_iff_le, Int.natCast_nonneg, ↓reduceIte, Int.toNat_natCast,
      Option.some.injEq, Prod.mk.injEq] at h
    obtain ⟨rfl, rfl⟩ := h
    refine ⟨i, hlt, hfree, rfl, rfl, rfl, ?_⟩
    intro j
    simp only [matrixFree, Lib.Bits.getLsbD_and_not_one_shiftLeft _ hlt]
    simp [and_comm]

theorem allocMatrix_none (h : a.allocMatrix = none) (i : ℕ) : ¬a.matrixFree i := by
  rcases ffs_spec a.matrixAlloc with ⟨-, hclear⟩ | ⟨j, hlt, hffs, hfree⟩
  · by_cases hi : i < 32
    · simp [matrixFree, hclear i hi]
    · simp [matrixFree, BitVec.getLsbD_of_ge _ _ (Nat.le_of_not_lt hi)]
  · simp [allocMatrix, hffs] at h

theorem freeMatrix_at {i : ℕ} (h : i < MATRIX_COUNT) (hheld : ¬a.matrixFree i) :
    ∃ a', a.freeMatrix (a.oam.oamRotationMemory + i) = some a' ∧ a'.oam = a.oam ∧
      a'.objAlloc = a.objAlloc ∧ ∀ j, a'.matrixFree j ↔ j = i ∨ a.matrixFree j := by
  have hindex : a.getMatrixIndex (a.oam.oamRotationMemory + i) = some i := by
    have hdiff : a.oam.oamRotationMemory + i - a.oam.oamRotationMemory = i := by omega
    simp [getMatrixIndex, hdiff, h]
  have hlt : i < 32 := h
  have hmask : a.matrixAlloc &&& 1#32 <<< i = 0#32 := by
    rw [Lib.Bits.and_one_shiftLeft_eq_zero_iff _ hlt]
    simpa [matrixFree] using hheld
  have hfree : a.freeMatrix (a.oam.oamRotationMemory + i) =
      some { a with matrixAlloc := a.matrixAlloc ||| 1#32 <<< i } := by
    rw [freeMatrix, hindex]
    exact if_pos hmask
  refine ⟨_, hfree, rfl, rfl, ?_⟩
  intro j
  simp only [matrixFree, Lib.Bits.getLsbD_or_one_shiftLeft _ hlt]
  simp [or_comm]

end MSpriteAllocator

structure Owners.Exact (oam : OamState) (w : Owners) : Prop where
  oam_eq : w.alloc.oam = oam
  objs_at : ∀ s ∈ w.objs, ∃ id < SPRITE_COUNT, s = oam.oamMemory + (id : ℕ)
  matrices_at : ∀ s ∈ w.matrices, ∃ i < MATRIX_COUNT, s = oam.oamRotationMemory + (i : ℕ)
  objFree_iff : ∀ id < SPRITE_COUNT, w.alloc.objFree id ↔ oam.oamMemory + (id : ℕ) ∉ w.objs
  matrixFree_iff : ∀ i < MATRIX_COUNT,
    w.alloc.matrixFree i ↔ oam.oamRotationMemory + (i : ℕ) ∉ w.matrices

section ownership

variable {oam : OamState} {w w' : Owners}

theorem getLsbD_ones {i : ℕ} (hi : i < 32) : (0xFFFFFFFF#32).getLsbD i = true := by
  have hones : 0xFFFFFFFF#32 = BitVec.allOnes 32 := rfl
  rw [hones, BitVec.getLsbD_allOnes]
  exact decide_eq_true hi

theorem Owners.exact_init (oam : OamState) : Owners.Exact oam ⟨.init oam, ∅, ∅⟩ where
  oam_eq := rfl
  objs_at := by simp
  matrices_at := by simp
  objFree_iff := by
    intro id hid
    simp [MSpriteAllocator.objFree, MSpriteAllocator.init, hid,
      getLsbD_ones (MSpriteAllocator.bit_lt id)]
  matrixFree_iff := by
    intro i hi
    simp [MSpriteAllocator.matrixFree, MSpriteAllocator.init, getLsbD_ones hi]

theorem offset_inj (base : ℤ) (i j : ℕ) : base + (i : ℤ) = base + (j : ℤ) ↔ i = j := by
  omega

theorem Owners.Exact.call (h : w.Exact oam) (hc : Call w w') : w'.Exact oam := by
  obtain ⟨rfl, hobjs, hmatrices, hobj, hmatrix⟩ := h
  cases hc with
  | @allocOBJ range s a hcall =>
    obtain ⟨k, -, ⟨hk, -⟩, -, rfl, hoam, hmat, hfree⟩ := MSpriteAllocator.allocOBJFrom_some hcall
    refine ⟨hoam, ?_, hmatrices, ?_, ?_⟩
    · rintro s (rfl | hs)
      · exact ⟨k, hk, rfl⟩
      · exact hobjs s hs
    · intro id hid
      simp only [hfree, hobj id hid, Set.mem_insert_iff, offset_inj, not_or]
    · intro i hi
      rw [← hmatrix i hi, MSpriteAllocator.matrixFree, MSpriteAllocator.matrixFree, hmat]
  | @freeOBJ s a hs hcall =>
    obtain ⟨k, hk, rfl⟩ := hobjs s hs
    obtain ⟨a', hcall', hoam, hmat, hfree⟩ :=
      MSpriteAllocator.freeOBJ_at hk (fun hf => (hobj k hk).mp hf hs)
    obtain rfl : a' = a := Option.some.inj (hcall'.symm.trans hcall)
    refine ⟨hoam, fun s hs => hobjs s hs.1, hmatrices, ?_, ?_⟩
    · intro id hid
      simp only [hfree, hobj id hid, Set.mem_sdiff, Set.mem_singleton_iff, offset_inj, not_and_or,
        not_not]
      exact or_comm
    · intro i hi
      rw [← hmatrix i hi, MSpriteAllocator.matrixFree, MSpriteAllocator.matrixFree, hmat]
  | @allocMatrix s a hcall =>
    obtain ⟨k, hk, -, rfl, hoam, hobjAlloc, hfree⟩ := MSpriteAllocator.allocMatrix_some hcall
    refine ⟨hoam, hobjs, ?_, ?_, ?_⟩
    · rintro s (rfl | hs)
      · exact ⟨k, hk, rfl⟩
      · exact hmatrices s hs
    · intro id hid
      rw [← hobj id hid, MSpriteAllocator.objFree, MSpriteAllocator.objFree, hobjAlloc]
    · intro i hi
      simp only [hfree, hmatrix i hi, Set.mem_insert_iff, offset_inj, not_or]
  | @freeMatrix s a hs hcall =>
    obtain ⟨k, hk, rfl⟩ := hmatrices s hs
    obtain ⟨a', hcall', hoam, hobjAlloc, hfree⟩ :=
      MSpriteAllocator.freeMatrix_at hk (fun hf => (hmatrix k hk).mp hf hs)
    obtain rfl : a' = a := Option.some.inj (hcall'.symm.trans hcall)
    refine ⟨hoam, hobjs, fun s hs => hmatrices s hs.1, ?_, ?_⟩
    · intro id hid
      rw [← hobj id hid, MSpriteAllocator.objFree, MSpriteAllocator.objFree, hobjAlloc]
    · intro i hi
      simp only [hfree, hmatrix i hi, Set.mem_sdiff, Set.mem_singleton_iff, offset_inj, not_and_or,
        not_not]
      exact or_comm

theorem Reachable.exact (h : Reachable oam w) : w.Exact oam := by
  induction h with
  | init => exact Owners.exact_init oam
  | call _ hc ih => exact ih.call hc

/-- No handle is given out twice, an OBJ is the lowest free one of its range, the calls stop only
where nothing is free, and the bit maps mark exactly the handles not held. -/
structure Owners.Sound (oam : OamState) (w : Owners) : Prop where
  allocOBJ_some : ∀ range s a, w.alloc.allocOBJ range = some (s, a) → s ∉ w.objs ∧
    ∃ id : ℕ, s = oam.oamMemory + id ∧
      IsLeast {id | range ≤ id ∧ id < SPRITE_COUNT ∧ oam.oamMemory + id ∉ w.objs} id
  allocOBJ_none : ∀ range, w.alloc.allocOBJ range = none →
    ∀ id < SPRITE_COUNT, range ≤ id → oam.oamMemory + id ∈ w.objs
  allocMatrix_some : ∀ s a, w.alloc.allocMatrix = some (s, a) → s ∉ w.matrices ∧
    ∃ i < MATRIX_COUNT, s = oam.oamRotationMemory + (i : ℕ)
  allocMatrix_none : w.alloc.allocMatrix = none →
    ∀ i < MATRIX_COUNT, oam.oamRotationMemory + (i : ℕ) ∈ w.matrices
  freeOBJ_isSome : ∀ s ∈ w.objs, (w.alloc.freeOBJ s).isSome
  freeMatrix_isSome : ∀ s ∈ w.matrices, (w.alloc.freeMatrix s).isSome
  objFree_iff : ∀ id < SPRITE_COUNT, w.alloc.objFree id ↔ oam.oamMemory + (id : ℕ) ∉ w.objs
  matrixFree_iff : ∀ i < MATRIX_COUNT,
    w.alloc.matrixFree i ↔ oam.oamRotationMemory + (i : ℕ) ∉ w.matrices

theorem sound_of_reachable (h : Reachable oam w) : w.Sound oam := by
  obtain ⟨rfl, hobjs, hmatrices, hobj, hmatrix⟩ := h.exact
  refine ⟨?_, ?_, ?_, ?_, ?_, ?_, hobj, hmatrix⟩
  · intro range s a hcall
    obtain ⟨k, hle, hfree, hlow, rfl, -⟩ := MSpriteAllocator.allocOBJFrom_some hcall
    have hk : k < SPRITE_COUNT := hfree.1
    have hout := (hobj k hk).mp hfree
    refine ⟨hout, k, rfl, ⟨hle, hk, hout⟩, ?_⟩
    rintro j ⟨hj, hlt, hjout⟩
    by_contra hjk
    exact hlow j hj (Nat.lt_of_not_le hjk) ((hobj j hlt).mpr hjout)
  · intro range hcall id hid hle
    by_contra hout
    exact MSpriteAllocator.allocOBJFrom_none hcall id hle ((hobj id hid).mpr hout)
  · intro s a hcall
    obtain ⟨k, hk, hfree, rfl, -⟩ := MSpriteAllocator.allocMatrix_some hcall
    exact ⟨(hmatrix k hk).mp hfree, k, hk, rfl⟩
  · intro hcall i hi
    by_contra hout
    exact MSpriteAllocator.allocMatrix_none hcall i ((hmatrix i hi).mpr hout)
  · intro s hs
    obtain ⟨k, hk, rfl⟩ := hobjs s hs
    obtain ⟨a, hcall, -⟩ := MSpriteAllocator.freeOBJ_at hk (fun hf => (hobj k hk).mp hf hs)
    rw [hcall, Option.isSome_some]
  · intro s hs
    obtain ⟨k, hk, rfl⟩ := hmatrices s hs
    obtain ⟨a, hcall, -⟩ := MSpriteAllocator.freeMatrix_at hk (fun hf => (hmatrix k hk).mp hf hs)
    rw [hcall, Option.isSome_some]

theorem sound_of_reachable_ui_obj : ∃ a, Owners.Sound ⟨0, 0⟩ ⟨a, {64}, ∅⟩ := by
  have hcall : ∃ a, (MSpriteAllocator.init ⟨0, 0⟩).allocOBJ MSPRR_UI = some (64, a) := by
    rw [MSpriteAllocator.allocOBJ, MSpriteAllocator.allocOBJFrom]
    exact ⟨_, rfl⟩
  obtain ⟨a, hcall⟩ := hcall
  have hsound := sound_of_reachable (.call .init (.allocOBJ hcall))
  rw [insert_empty_eq] at hsound
  exact ⟨a, hsound⟩

end ownership

end NaviMisc.RobotOdyssey.Sprite
