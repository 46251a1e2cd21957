import NaviMisc.Therm.Packet

/-!
When `packet_cmp` orders packets by their contents.
-/

namespace NaviMisc.Therm

namespace RxPacket

variable {F : Type}

def Paired : List Bool → Prop
  | [] => True
  | [a] => a = false
  | a :: b :: bits => a = b ∧ Paired bits

instance decidablePaired : (bits : List Bool) → Decidable (Paired bits)
  | [] => isTrue trivial
  | [a] => inferInstanceAs (Decidable (a = false))
  | a :: b :: bits =>
    have := decidablePaired bits
    inferInstanceAs (Decidable (a = b ∧ Paired bits))

theorem compareBits_swap (as bs : List Bool) : compareBits bs as = -compareBits as bs := by
  induction as generalizing bs with
  | nil => cases bs <;> rfl
  | cons a as ih =>
    cases bs with
    | nil => rfl
    | cons b bs => cases a <;> cases b <;> simp [compareBits, ih]

theorem compareBits_cons_le {a b : Bool} {as bs : List Bool} :
    compareBits (a :: as) (b :: bs) ≤ 0 ↔ b ≤ a ∧ (a = b → compareBits as bs ≤ 0) := by
  cases a <;> cases b <;> simp [compareBits]

theorem compareBits_trans {as bs cs : List Bool} (hab : as.length = bs.length)
    (hbc : bs.length = cs.length) (h : compareBits as bs ≤ 0) (h' : compareBits bs cs ≤ 0) :
    compareBits as cs ≤ 0 := by
  induction as generalizing bs cs with
  | nil => simp [compareBits]
  | cons a as ih =>
    obtain ⟨b, bs, rfl⟩ := List.exists_cons_of_length_eq_add_one hab.symm
    obtain ⟨c, cs, rfl⟩ := List.exists_cons_of_length_eq_add_one hbc.symm
    rw [compareBits_cons_le] at h h' ⊢
    refine ⟨h'.1.trans h.1, fun hac => ?_⟩
    obtain rfl : b = a := le_antisymm h.1 (hac ▸ h'.1)
    exact ih (Nat.succ.inj hab) (Nat.succ.inj hbc) (h.2 rfl) (h'.2 hac)

section self

variable {p : RxPacket F} {c : ℕ}

theorem readBit_seek (hinside : p.bufferBits ≤ 8 * p.bufferBytes) (hc : c ≤ p.bufferBits) :
    (p.seek c).readBit = .ok (p.content.getD c false, p.seek (min (c + 1) p.bufferBits)) := by
  rcases Nat.lt_or_eq_of_le hc with hlt | rfl
  · rw [readBit_content hinside hlt, Nat.min_eq_left hlt]
  · rw [readBit_of_end le_rfl, Nat.min_eq_right (Nat.le_succ _), List.getD_eq_default]
    simp

theorem paired_drop (hc : c ≤ p.bufferBits) : Paired (p.content.drop c) ↔
    p.content.getD c false = p.content.getD (min (c + 1) p.bufferBits) false ∧
      Paired (p.content.drop (min (min (c + 1) p.bufferBits + 1) p.bufferBits)) := by
  have hend : p.content.getD p.bufferBits false = false := List.getD_eq_default _ _ (by simp)
  have hdrop : p.content.drop p.bufferBits = [] := List.drop_of_length_le (by simp)
  rcases Nat.lt_or_eq_of_le hc with hlt | rfl
  · rw [drop_content hlt]
    rcases Nat.lt_or_eq_of_le (Nat.succ_le_of_lt hlt) with hnext | hnext
    · rw [drop_content hnext, Nat.min_eq_left hnext.le, Nat.min_eq_left hnext]
      rfl
    · have hlast : p.content.drop (c + 1) = [] := by rw [← hdrop, ← hnext]
      rw [Nat.min_eq_right hnext.ge, Nat.min_eq_right (Nat.le_succ _), hend, hdrop, hlast]
      simp [Paired]
  · rw [Nat.min_eq_right (Nat.le_succ _), Nat.min_eq_right (Nat.le_succ _), hdrop]
    simp

theorem cmpLoop_self (hinside : p.bufferBits ≤ 8 * p.bufferBytes) (hc : c ≤ p.bufferBits) {n : ℕ}
    (hn : p.bufferBits ≤ c + n) :
    ∃ z c', cmpLoop readBit readBit n (p.seek c) = .ok (z, p.seek c') ∧
      (z = 0 ↔ Paired (p.content.drop c)) := by
  induction n generalizing c with
  | zero =>
    refine ⟨0, c, rfl, iff_of_true rfl ?_⟩
    rw [List.drop_of_length_le (by simpa using hn)]
    trivial
  | succ n ih =>
    rw [paired_drop hc, cmpLoop, readBit_seek hinside hc]
    change ∃ z c', ((p.seek (min (c + 1) p.bufferBits)).readBit >>= _) = _ ∧ _
    rw [readBit_seek hinside (Nat.min_le_right _ _)]
    obtain ⟨z, c', hrest, hz⟩ := ih (Nat.min_le_right (min (c + 1) p.bufferBits + 1) _) (by omega)
    rcases p.content.getD c false with - | - <;>
      rcases p.content.getD (min (c + 1) p.bufferBits) false with - | -
    · exact ⟨z, c', hrest, by simp [hz]⟩
    · exact ⟨1, _, rfl, by simp⟩
    · exact ⟨-1, _, rfl, by simp⟩
    · exact ⟨z, c', hrest, by simp [hz]⟩

theorem cmpSelf_content (hinside : p.bufferBits ≤ 8 * p.bufferBytes) :
    ∃ z, p.cmpSelf = .ok (z, p) ∧ (z = 0 ↔ Paired p.content) := by
  obtain ⟨z, c', hloop, hz⟩ := cmpLoop_self hinside (Nat.zero_le _) (n := p.bufferBits) (by omega)
  refine ⟨z, ?_, hz⟩
  rw [cmpSelf]
  change (cmpLoop readBit readBit p.bufferBits (p.seek 0) >>= _) = _
  rw [hloop]
  rfl

end self

end RxPacket

open RxPacket

variable {ι F : Type}

def put [DecidableEq ι] (packets : ι → RxPacket F) : Option ι → Option (RxPacket F) → ι → RxPacket F
  | some i, some p => Function.update packets i p
  | _, _ => packets

/-- `packet_cmp` of two pointers, `none` for `NULL`. Where they are to one packet, it has one
cursor. -/
def packetCmp [DecidableEq ι] (packets : ι → RxPacket F) (a b : Option ι) :
    Except Failure (ℤ × (ι → RxPacket F)) :=
  match a, b with
  | some i, some j =>
    if i = j then do
      let (retval, p) ← (packets i).cmpSelf
      .ok (retval, Function.update packets i p)
    else do
      let (retval, p, q) ← cmp (some (packets i)) (some (packets j))
      .ok (retval, put (put packets (some i) p) (some j) q)
  | a, b => do
    let (retval, p, q) ← cmp (a.map packets) (b.map packets)
    .ok (retval, put (put packets a p) b q)

def Stored (packets : ι → RxPacket F) : Prop :=
  ∀ i, (packets i).bufferBits ≤ 8 * (packets i).bufferBytes

/-- Two pointers are compared by their contents, both ways, and nothing moves. -/
def Compares [DecidableEq ι] (packets : ι → RxPacket F) (a b : Option ι) : Prop :=
  ∃ r r', packetCmp packets a b = .ok (r, packets) ∧ packetCmp packets b a = .ok (r', packets) ∧
    (r = 0 ↔ a.map (fun i => (packets i).content) = b.map fun i => (packets i).content) ∧
    r'.sign = -r.sign

structure Ordered [DecidableEq ι] (packets : ι → RxPacket F) (a b c : Option ι) : Prop where
  compares : Compares packets a b ∧ Compares packets b c ∧ Compares packets a c
  trans : ∀ r s t, packetCmp packets a b = .ok (r, packets) →
    packetCmp packets b c = .ok (s, packets) → packetCmp packets a c = .ok (t, packets) →
    r ≤ 0 → s ≤ 0 → t ≤ 0

def Comparable (packets : ι → RxPacket F) : Option ι → Option ι → Prop
  | some i, some j => (packets i).bufferBits = (packets j).bufferBits ∧
      (i = j → Paired (packets i).content)
  | _, _ => True

def rank (packets : ι → RxPacket F) : Option ι → Option ι → ℤ
  | some i, some j => compareBits (packets i).content (packets j).content
  | some _, none => -1
  | none, some _ => 1
  | none, none => 0

section order

variable {packets : ι → RxPacket F} {a b c : Option ι} {i j : ι}

theorem Comparable.symm (h : Comparable packets a b) : Comparable packets b a := by
  cases a with
  | none => cases b <;> trivial
  | some i =>
    cases b with
    | none => trivial
    | some j =>
      refine ⟨h.1.symm, ?_⟩
      rintro rfl
      exact h.2 rfl

theorem rank_eq_zero (h : Comparable packets a b) : rank packets a b = 0 ↔
    a.map (fun i => (packets i).content) = b.map fun i => (packets i).content := by
  cases a with
  | none => cases b <;> simp [rank]
  | some i =>
    cases b with
    | none => simp [rank]
    | some j =>
      rw [rank, compareBits_eq_zero (by simpa using h.1)]
      simp

theorem rank_swap (packets : ι → RxPacket F) (a b : Option ι) :
    rank packets b a = -rank packets a b := by
  cases a with
  | none => cases b <;> rfl
  | some i =>
    cases b with
    | none => rfl
    | some j => exact compareBits_swap _ _

theorem rank_trans (hab : Comparable packets a b) (hbc : Comparable packets b c)
    (h : rank packets a b ≤ 0) (h' : rank packets b c ≤ 0) : rank packets a c ≤ 0 := by
  cases a with
  | none =>
    -- Null is compared last, so what is not before it is null.
    obtain rfl : b = none := by
      cases b with
      | none => rfl
      | some j => exact absurd h (by simp [rank])
    exact h'
  | some i =>
    cases c with
    | none => simp [rank]
    | some k =>
      cases b with
      | none => simp [rank] at h'
      | some j => exact compareBits_trans (by simpa using hab.1) (by simpa using hbc.1) h h'

variable [DecidableEq ι]

theorem put_self (packets : ι → RxPacket F) (a : Option ι) :
    put packets a (a.map packets) = packets := by
  cases a with
  | none => rfl
  | some i => exact Function.update_eq_self _ _

theorem packetCmp_self (hstored : Stored packets) (i : ι) :
    ∃ z, packetCmp packets (some i) (some i) = .ok (z, packets) ∧
      (z = 0 ↔ Paired (packets i).content) := by
  obtain ⟨z, hself, hz⟩ := cmpSelf_content (hstored i)
  refine ⟨z, ?_, hz⟩
  rw [packetCmp, if_pos rfl, hself]
  change Except.ok (z, Function.update packets i (packets i)) = _
  rw [Function.update_eq_self]

theorem packetCmp_of_cmp (hij : i ≠ j) {z : ℤ} (hcmp : cmp (some (packets i)) (some (packets j)) =
    .ok (z, some (packets i), some (packets j))) :
    packetCmp packets (some i) (some j) = .ok (z, packets) := by
  rw [packetCmp, if_neg hij, hcmp]
  change Except.ok (z, Function.update (Function.update packets i (packets i)) j (packets j)) = _
  rw [Function.update_eq_self, Function.update_eq_self]

theorem packetCmp_comparable (hstored : Stored packets) (h : Comparable packets a b) :
    packetCmp packets a b = .ok (rank packets a b, packets) := by
  cases a with
  | none =>
    cases b with
    | none => rfl
    | some j => exact congrArg (fun p => Except.ok ((1 : ℤ), p)) (put_self packets (some j))
  | some i =>
    cases b with
    | none => exact congrArg (fun p => Except.ok ((-1 : ℤ), p)) (put_self packets (some i))
    | some j =>
      by_cases hij : i = j
      · subst hij
        obtain ⟨z, hself, hz⟩ := packetCmp_self hstored i
        rw [hself, hz.mpr (h.2 rfl), rank, (compareBits_eq_zero rfl).mpr rfl]
      · exact packetCmp_of_cmp hij (cmp_same_length (hstored i) (hstored j) h.1)

theorem not_compares (hij : i ≠ j) (hbits : (packets i).bufferBits ≠ (packets j).bufferBits) :
    ¬Compares packets (some i) (some j) := by
  rintro ⟨r, r', hr, hr', -, hsign⟩
  rw [packetCmp_of_cmp hij (cmp_other_length hbits)] at hr
  rw [packetCmp_of_cmp (Ne.symm hij) (cmp_other_length (Ne.symm hbits))] at hr'
  cases hr
  cases hr'
  exact absurd hsign (by decide)

theorem compares_iff (hstored : Stored packets) :
    Compares packets a b ↔ Comparable packets a b := by
  constructor
  · rintro ⟨r, r', hr, hr', hzero, hsign⟩
    cases a with
    | none => trivial
    | some i =>
      cases b with
      | none => trivial
      | some j =>
        by_cases hij : i = j
        · subst hij
          obtain ⟨z, hself, hz⟩ := packetCmp_self hstored i
          rw [hself] at hr
          cases hr
          exact ⟨rfl, fun _ => hz.mp (hzero.mpr rfl)⟩
        · refine ⟨?_, fun heq => absurd heq hij⟩
          by_contra hbits
          exact not_compares hij hbits ⟨r, r', hr, hr', hzero, hsign⟩
  · intro h
    refine ⟨_, _, packetCmp_comparable hstored h, packetCmp_comparable hstored h.symm,
      rank_eq_zero h, ?_⟩
    rw [rank_swap, Int.sign_neg]

end order

theorem packetCmp_ordered_iff [DecidableEq ι] (packets : ι → RxPacket F) (hstored : Stored packets)
    (a b c : Option ι) : Ordered packets a b c ↔
      Comparable packets a b ∧ Comparable packets b c ∧ Comparable packets a c := by
  rw [← compares_iff hstored, ← compares_iff hstored, ← compares_iff hstored]
  constructor
  · exact Ordered.compares
  · intro h
    refine ⟨h, ?_⟩
    have hab := (compares_iff hstored).mp h.1
    have hbc := (compares_iff hstored).mp h.2.1
    have hac := (compares_iff hstored).mp h.2.2
    rw [packetCmp_comparable hstored hab, packetCmp_comparable hstored hbc,
      packetCmp_comparable hstored hac]
    intro r s t hr hs ht hrle hsle
    cases hr
    cases hs
    cases ht
    exact rank_trans hab hbc hrle hsle

def shortAndLong : Bool → RxPacket Unit := fun long => ⟨1, if long then 2 else 1, (), [0], 0⟩

theorem packetCmp_ordered_short_long : Stored shortAndLong ∧
    (Ordered shortAndLong (some false) (some true) none ↔
      Comparable shortAndLong (some false) (some true) ∧ Comparable shortAndLong (some true) none ∧
        Comparable shortAndLong (some false) none) :=
  ⟨by unfold Stored; decide, packetCmp_ordered_iff _ (by unfold Stored; decide) _ _ _⟩

theorem packetCmp_unordered : ¬∀ packets : Bool → RxPacket Unit, Stored packets →
    ∀ a b c, Ordered packets a b c := by
  intro h
  have hordered := h shortAndLong (by unfold Stored; decide) (some false) (some true) none
  exact not_compares (by decide) (by decide) hordered.compares.1

end NaviMisc.Therm
