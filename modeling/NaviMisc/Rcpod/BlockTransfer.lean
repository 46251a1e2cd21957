import NaviMisc.Rcpod.Firmware

/-!
Blocks of memory that the rcpod host library (src/command.c) moves by requests of one, four and
eight bytes.
-/

namespace NaviMisc.Rcpod

open Lib.Pic Var

def setup (wVal wInd : BitVec 16) (carry : Bool) (s : Firmware) : Firmware :=
  { s with
    c := carry
    file := Function.update (Function.update (Function.update (Function.update s.file
      wValue (wVal.extractLsb' 0 8)) (wValue, 1) (wVal.extractLsb' 8 8))
      wIndex (wInd.extractLsb' 0 8)) (wIndex, 1) (wInd.extractLsb' 8 8) }

def endpoint (buffer : Byte) (j : ℕ) : BitVec 9 :=
  BitVec.ofBool true ++ (buffer + BitVec.ofNat 8 j)

def reply (bytes : ℕ) (s : Firmware) : List Byte :=
  (List.range bytes).map fun j => s.memory (endpoint (s.file BD0IAL) j)

section Host

variable (carry : ℕ → Bool)

def rcpod_Poke (carry : Bool) (address : ℕ) (data : Byte) (s : Firmware) : Firmware :=
  request_Poke (setup (data.setWidth 16) (BitVec.ofNat 16 address) carry s)

def rcpod_Poke4 (carry : Bool) (data0 data1 data2 data3 : Byte) (s : Firmware) : Firmware :=
  request_Poke4 (setup (data1 ++ data0) (data3 ++ data2) carry s)

def rcpod_Peek (carry : Bool) (address : ℕ) (s : Firmware) : Firmware × List Byte :=
  let s := request_Peek (setup 0 (BitVec.ofNat 16 address) carry s)
  (s, reply 1 s)

def rcpod_Peek8 (carry : Bool) (address : ℕ) (s : Firmware) : Firmware × List Byte :=
  let s := request_Peek8 (setup 0 (BitVec.ofNat 16 address) carry s)
  (s, reply 8 s)

/-- The loop of `rcpod_PokeBuffer`. The requests are numbered, each with its carry. -/
def pokeRest : ℕ → ℕ → List Byte → Firmware → Firmware
  | k, address, data0 :: data1 :: data2 :: data3 :: buffer, s =>
    pokeRest (k + 1) (address + 4) buffer (rcpod_Poke4 (carry k) data0 data1 data2 data3 s)
  | k, address, data :: buffer, s =>
    pokeRest (k + 1) (address + 1) buffer (rcpod_Poke (carry k) address data s)
  | _, _, [], s => s

def rcpod_PokeBuffer (address : ℕ) (buffer : List Byte) (s : Firmware) : Firmware :=
  match buffer with
  | [] => s
  | data :: buffer => pokeRest carry 1 (address + 1) buffer (rcpod_Poke (carry 0) address data s)

def peekRest : ℕ → ℕ → ℕ → Firmware → Firmware × List Byte
  | k, address, bytes + 8, s =>
    let s := rcpod_Peek8 (carry k) address s
    let rest := peekRest (k + 1) (address + 8) bytes s.1
    (rest.1, s.2 ++ rest.2)
  | k, address, bytes + 1, s =>
    let s := rcpod_Peek (carry k) address s
    let rest := peekRest (k + 1) (address + 1) bytes s.1
    (rest.1, s.2 ++ rest.2)
  | _, _, 0, s => (s, [])

def rcpod_PeekBuffer (address bytes : ℕ) (s : Firmware) : Firmware × List Byte :=
  peekRest carry 0 address bytes s

end Host

section Pointer

def advance (carry : Bool) (p : BitVec 9) : BitVec 9 :=
  BitVec.ofBool (p.msb ^^ carry) ++ (p.setWidth 8 + 1)

def walk (carry : Bool) (p : BitVec 9) : ℕ → List (BitVec 9)
  | 0 => []
  | n + 1 => p :: walk carry (advance carry p) n

def consecutive (p : BitVec 9) : ℕ → List (BitVec 9)
  | 0 => []
  | n + 1 => p :: consecutive (p + 1) n

@[simp] theorem length_walk (carry : Bool) (p : BitVec 9) (n : ℕ) :
    (walk carry p n).length = n := by
  induction n generalizing p with
  | zero => rfl
  | succ n ih => rw [walk, List.length_cons, ih]

@[simp] theorem length_consecutive (p : BitVec 9) (n : ℕ) : (consecutive p n).length = n := by
  induction n generalizing p with
  | zero => rfl
  | succ n ih => rw [consecutive, List.length_cons, ih]

theorem append_eq_iff {α : Type*} {l₁ l₂ t₁ t₂ : List α} (h : l₁.length = l₂.length) :
    l₁ ++ t₁ = l₂ ++ t₂ ↔ l₁ = l₂ ∧ t₁ = t₂ := by
  refine ⟨fun h' => List.append_inj h' h, ?_⟩
  rintro ⟨rfl, rfl⟩
  rfl

theorem consecutive_append (p : BitVec 9) (m n : ℕ) :
    consecutive p (m + n) = consecutive p m ++ consecutive (p + BitVec.ofNat 9 m) n := by
  induction m generalizing p with
  | zero => simp [consecutive]
  | succ m ih =>
    have hnext : p + 1 + BitVec.ofNat 9 m = p + BitVec.ofNat 9 (m + 1) := by
      rw [Nat.add_comm m 1, BitVec.ofNat_add, ← BitVec.add_assoc]
      rfl
    rw [Nat.succ_add, consecutive, consecutive, ih, List.cons_append, hnext]

theorem advance_false_iff : ∀ p : BitVec 9,
    advance false p = p + 1 ↔ p.toNat % 256 + 1 < 256 := by
  decide +kernel

theorem advance_true_never : ∀ p : BitVec 9,
    ¬(advance true p = p + 1 ∧ advance true (p + 1) = p + 1 + 1) := by
  decide +kernel

theorem walk_false_iff (p : BitVec 9) (n : ℕ) :
    walk false p (n + 1) = consecutive p (n + 1) ↔ p.toNat % 256 + n < 256 := by
  induction n generalizing p with
  | zero =>
    simp only [walk, consecutive, true_iff]
    omega
  | succ n ih =>
    have hstep : walk false p (n + 1 + 1) = consecutive p (n + 1 + 1) ↔
        advance false p = p + 1 ∧
          walk false (advance false p) (n + 1) = consecutive (p + 1) (n + 1) := by
      rw [walk, consecutive, List.cons_inj_right]
      refine ⟨fun h => ⟨?_, h⟩, And.right⟩
      rw [walk, consecutive] at h
      exact (List.cons.inj h).1
    rw [hstep, advance_false_iff]
    constructor
    · rintro ⟨hlt, h⟩
      rw [(advance_false_iff p).mpr hlt, ih, BitVec.toNat_add] at h
      change ((p.toNat + 1) % 512) % 256 + n < 256 at h
      omega
    · intro h
      have hlt : p.toNat % 256 + 1 < 256 := by omega
      refine ⟨hlt, ?_⟩
      rw [(advance_false_iff p).mpr hlt, ih, BitVec.toNat_add]
      change ((p.toNat + 1) % 512) % 256 + n < 256
      omega

theorem walk_iff (carry : Bool) (p : BitVec 9) (n : ℕ) :
    walk carry p (n + 3) = consecutive p (n + 3) ↔
      carry = false ∧ p.toNat % 256 + (n + 2) < 256 := by
  cases carry with
  | false => simpa using walk_false_iff p (n + 2)
  | true =>
    refine iff_of_false (fun h => ?_) (fun h => absurd h.1 (by decide))
    simp only [walk, consecutive, List.cons.injEq] at h
    obtain ⟨-, h1, h2, -⟩ := h
    exact advance_true_never p ⟨h1, h1 ▸ h2⟩

theorem walk_four_iff (carry : Bool) (p : BitVec 9) :
    walk carry (advance carry p) 4 = consecutive (p + 1) 4 ↔
      carry = false ∧ p.toNat % 256 + 4 < 256 := by
  rw [← walk_iff carry p 2]
  simp only [walk, consecutive, List.cons.injEq, true_and]

theorem advance_append (carry : Bool) (hi lo : Byte) :
    advance carry (BitVec.ofBool (hi.getLsbD 0) ++ lo) =
      BitVec.ofBool ((if carry then hi + 1 else hi).getLsbD 0) ++ (lo + 1) := by
  have hbit : ∀ hi : Byte, ∀ carry : Bool,
      (if carry then hi + 1 else hi).getLsbD 0 = (hi.getLsbD 0 ^^ carry) := by
    decide
  have hparts : ∀ b : Bool, ∀ lo : Byte, (BitVec.ofBool b ++ lo).msb = b ∧
      (BitVec.ofBool b ++ lo).setWidth 8 = lo := by
    decide
  rw [advance, (hparts _ lo).1, (hparts _ lo).2, hbit]

theorem ofNat_address (address : ℕ) :
    BitVec.ofBool (((BitVec.ofNat 16 address).extractLsb' 8 8).getLsbD 0) ++
      (BitVec.ofNat 16 address).extractLsb' 0 8 = BitVec.ofNat 9 address := by
  apply BitVec.eq_of_getLsbD_eq
  intro i hi
  rw [BitVec.getLsbD_append, BitVec.getLsbD_ofNat]
  split_ifs with h
  · rw [BitVec.getLsbD_extractLsb', BitVec.getLsbD_ofNat]
    simp [h, hi]
    omega
  · obtain rfl : i = 8 := by omega
    rw [BitVec.getLsbD_extractLsb', BitVec.getLsbD_ofNat]
    simp

end Pointer

section Writes

def writeAll (memory : BitVec 9 → Byte) : List (BitVec 9 × Byte) → BitVec 9 → Byte
  | [] => memory
  | (a, data) :: writes => writeAll (Function.update memory a data) writes

def stored (memory : BitVec 9 → Byte) (address : ℕ) (buffer : List Byte) (x : BitVec 9) : Byte :=
  if address ≤ x.toNat ∧ x.toNat < address + buffer.length then buffer.getD (x.toNat - address) 0
  else memory x

theorem writeAll_append (memory : BitVec 9 → Byte) (l l' : List (BitVec 9 × Byte)) :
    writeAll memory (l ++ l') = writeAll (writeAll memory l) l' := by
  induction l generalizing memory with
  | nil => rfl
  | cons w l ih => exact ih _

theorem writeAll_mem (memory : BitVec 9 → Byte) (l : List (BitVec 9 × Byte)) (x : BitVec 9) :
    writeAll memory l x = memory x ∨ (x, writeAll memory l x) ∈ l := by
  induction l generalizing memory with
  | nil => exact .inl rfl
  | cons w l ih =>
    obtain ⟨a, data⟩ := w
    rcases ih (Function.update memory a data) with h | h
    · by_cases hx : x = a
      · subst hx
        rw [Function.update_self] at h
        exact .inr (by rw [writeAll, h]; exact List.mem_cons_self)
      · rw [Function.update_of_ne hx] at h
        exact .inl h
    · exact .inr (List.mem_cons_of_mem _ h)

theorem writeAll_consecutive (memory : BitVec 9 → Byte) {address : ℕ} {buffer : List Byte}
    (h : address + buffer.length ≤ 512) :
    writeAll memory ((consecutive (BitVec.ofNat 9 address) buffer.length).zip buffer) =
      stored memory address buffer := by
  induction buffer generalizing memory address with
  | nil =>
    funext x
    simp only [stored, List.length_nil]
    rw [if_neg (by omega)]
    rfl
  | cons data buffer ih =>
    rw [List.length_cons] at h
    have hnext : BitVec.ofNat 9 address + 1 = BitVec.ofNat 9 (address + 1) := by
      rw [BitVec.ofNat_add]
      rfl
    rw [List.length_cons, consecutive, List.zip_cons_cons, writeAll, hnext,
      ih _ (by omega : address + 1 + buffer.length ≤ 512)]
    funext x
    have hx : x = BitVec.ofNat 9 address ↔ x.toNat = address := by
      rw [← BitVec.toNat_inj, BitVec.toNat_ofNat, Nat.mod_eq_of_lt (by omega)]
    simp only [stored, List.length_cons, Function.update_apply, hx]
    rcases Nat.lt_trichotomy x.toNat address with hlt | heq | hgt
    · rw [if_neg (by omega), if_neg (by omega), if_neg (by omega)]
    · rw [if_neg (by omega), if_pos heq, if_pos (by omega), heq, Nat.sub_self]
      rfl
    · rw [if_neg (by omega : x.toNat ≠ address)]
      have hsub : x.toNat - address = x.toNat - (address + 1) + 1 := by omega
      rw [hsub, List.getD_cons_succ]
      congr 1
      simp only [eq_iff_iff]
      omega

end Writes

section Pokes

variable (s : Firmware)

def pointer : BitVec 9 :=
  BitVec.ofBool ((s.file (last_poke_addr, 1)).getLsbD 0) ++ s.file last_poke_addr

def source : BitVec 9 := BitVec.ofBool ((s.file (wIndex, 1)).getLsbD 0) ++ s.file wIndex

theorem source_setup (wVal : BitVec 16) (address : ℕ) (carry : Bool) :
    source (setup wVal (BitVec.ofNat 16 address) carry s) = BitVec.ofNat 9 address := by
  rw [← ofNat_address]
  simp [source, setup]

theorem request_Poke_memory :
    (request_Poke s).memory = Function.update s.memory (source s) (s.file wValue) := by
  funext x
  simp [request_Poke, Cpu.indirect, source, Cpu.bit, Function.update_apply]

theorem request_Poke_pointer : pointer (request_Poke s) = source s := by
  simp [request_Poke, pointer, source]

theorem prepare_poke_indirect : (prepare_poke s).indirect = advance s.c (pointer s) := by
  rw [pointer, advance_append]
  simp [prepare_poke, Cpu.indirect, Cpu.bit]

theorem prepare_poke_pointer : pointer (prepare_poke s) = advance s.c (pointer s) := by
  rw [pointer, pointer, advance_append]
  simp [prepare_poke]

theorem prepare_poke_c : (prepare_poke s).c = s.c := by
  simp [prepare_poke]

theorem prepare_poke_memory : (prepare_poke s).memory = s.memory := by
  funext x
  simp [prepare_poke]

theorem prepare_poke_file {v : Var} (hv : v ≠ last_poke_addr) (n : ℕ) :
    (prepare_poke s).file (v, n) = s.file (v, n) := by
  simp [prepare_poke, hv]

def pokeNext (r : Address) : Firmware := prepare_poke s |>.movf r |>.movwfIndf

theorem request_Poke4_eq : request_Poke4 s =
    pokeNext (pokeNext (pokeNext (pokeNext s wValue) (wValue, 1)) wIndex) (wIndex, 1) := rfl

theorem pokeNext_memory {v : Var} (hv : v ≠ last_poke_addr) (n : ℕ) :
    (pokeNext s (v, n)).memory =
      Function.update s.memory (advance s.c (pointer s)) (s.file (v, n)) := by
  rw [← prepare_poke_indirect, ← prepare_poke_memory s, ← prepare_poke_file s hv]
  rfl

theorem pokeNext_pointer (r : Address) : pointer (pokeNext s r) = advance s.c (pointer s) :=
  prepare_poke_pointer s

theorem pokeNext_c (r : Address) : (pokeNext s r).c = s.c := prepare_poke_c s

theorem pokeNext_file (r : Address) {v : Var} (hv : v ≠ last_poke_addr) (n : ℕ) :
    (pokeNext s r).file (v, n) = s.file (v, n) := prepare_poke_file s hv n

theorem request_Poke4_memory : (request_Poke4 s).memory =
    writeAll s.memory ((walk s.c (advance s.c (pointer s)) 4).zip
      [s.file wValue, s.file (wValue, 1), s.file wIndex, s.file (wIndex, 1)]) := by
  have hValue : wValue ≠ last_poke_addr := by decide
  have hIndex : wIndex ≠ last_poke_addr := by decide
  rw [request_Poke4_eq]
  simp only [pokeNext_memory, pokeNext_pointer, pokeNext_c, pokeNext_file, hValue, hIndex, ne_eq,
    not_false_eq_true]
  rfl

theorem request_Poke4_pointer : pointer (request_Poke4 s) =
    advance s.c (advance s.c (advance s.c (advance s.c (pointer s)))) := by
  rw [request_Poke4_eq]
  simp only [pokeNext_pointer, pokeNext_c]

end Pokes

section PokeBuffer

variable (carry : ℕ → Bool)

def restAddresses : ℕ → BitVec 9 → ℕ → ℕ → List (BitVec 9)
  | k, p, address, n + 4 =>
    walk (carry k) (advance (carry k) p) 4 ++ restAddresses (k + 1) (advance (carry k)
      (advance (carry k) (advance (carry k) (advance (carry k) p)))) (address + 4) n
  | k, _, address, n + 1 =>
    BitVec.ofNat 9 address :: restAddresses (k + 1) (BitVec.ofNat 9 address) (address + 1) n
  | _, _, _, 0 => []

theorem restAddresses_single (k : ℕ) (p : BitVec 9) (address : ℕ) {n : ℕ} (h : n < 3) :
    restAddresses carry k p address (n + 1) =
      BitVec.ofNat 9 address ::
        restAddresses carry (k + 1) (BitVec.ofNat 9 address) (address + 1) n := by
  obtain rfl | rfl | rfl : n = 0 ∨ n = 1 ∨ n = 2 := by omega
  all_goals rfl

theorem pointer_setup (wVal wInd : BitVec 16) (c : Bool) (s : Firmware) :
    pointer (setup wVal wInd c s) = pointer s := by
  simp [pointer, setup]

theorem rcpod_Poke_memory (c : Bool) (address : ℕ) (data : Byte) (s : Firmware) :
    (rcpod_Poke c address data s).memory =
      Function.update s.memory (BitVec.ofNat 9 address) data := by
  have hlow : ∀ data : Byte, (data.setWidth 16).extractLsb' 0 8 = data := by decide
  have hdata : (setup (data.setWidth 16) (BitVec.ofNat 16 address) c s).file wValue = data := by
    simp [setup, hlow]
  rw [rcpod_Poke, request_Poke_memory, source_setup, hdata]
  rfl

theorem rcpod_Poke_pointer (c : Bool) (address : ℕ) (data : Byte) (s : Firmware) :
    pointer (rcpod_Poke c address data s) = BitVec.ofNat 9 address := by
  rw [rcpod_Poke, request_Poke_pointer, source_setup]

theorem rcpod_Poke4_memory (c : Bool) (data0 data1 data2 data3 : Byte) (s : Firmware) :
    (rcpod_Poke4 c data0 data1 data2 data3 s).memory =
      writeAll s.memory ((walk c (advance c (pointer s)) 4).zip [data0, data1, data2, data3]) := by
  have hlow : ∀ hi lo : Byte, (hi ++ lo : BitVec 16).extractLsb' 0 8 = lo :=
    fun _ _ => BitVec.extractLsb'_append_eq_right
  have hhigh : ∀ hi lo : Byte, (hi ++ lo : BitVec 16).extractLsb' 8 8 = hi :=
    fun _ _ => BitVec.extractLsb'_append_eq_left
  rw [rcpod_Poke4, request_Poke4_memory, pointer_setup]
  simp [setup, hlow, hhigh]

theorem rcpod_Poke4_pointer (c : Bool) (data0 data1 data2 data3 : Byte) (s : Firmware) :
    pointer (rcpod_Poke4 c data0 data1 data2 data3 s) =
      advance c (advance c (advance c (advance c (pointer s)))) := by
  rw [rcpod_Poke4, request_Poke4_pointer, pointer_setup]
  rfl

theorem pokeRest_memory (k address : ℕ) (buffer : List Byte) (s : Firmware) :
    (pokeRest carry k address buffer s).memory = writeAll s.memory
      ((restAddresses carry k (pointer s) address buffer.length).zip buffer) := by
  induction k, address, buffer, s using pokeRest.induct carry with
  | case1 k address data0 data1 data2 data3 buffer s ih =>
    have hzip : (restAddresses carry k (pointer s) address (buffer.length + 4)).zip
        ([data0, data1, data2, data3] ++ buffer) = _ :=
      List.zip_append (length_walk _ _ 4)
    rw [pokeRest, ih, rcpod_Poke4_memory, rcpod_Poke4_pointer, ← writeAll_append, ← hzip]
    rfl
  | case2 k address data buffer s hshort ih =>
    have hlength : buffer.length < 3 := by
      match buffer, hshort with
      | [], _ | [_], _ | [_, _], _ => simp
      | data1 :: data2 :: data3 :: rest, h => exact (h data1 data2 data3 rest rfl).elim
    rw [pokeRest, ih, rcpod_Poke_memory, rcpod_Poke_pointer, List.length_cons,
      restAddresses_single carry _ _ _ hlength]
    · rfl
    · exact hshort
  | case3 => rfl

theorem ofNat_succ (a : ℕ) : BitVec.ofNat 9 a + 1 = BitVec.ofNat 9 (a + 1) := by
  rw [BitVec.ofNat_add]
  rfl

theorem restAddresses_short (k : ℕ) (p : BitVec 9) (address : ℕ) {n : ℕ} (h : n < 4) :
    restAddresses carry k p address n = consecutive (BitVec.ofNat 9 address) n := by
  induction n generalizing k p address with
  | zero => rfl
  | succ n ih =>
    rw [restAddresses_single carry k p address (by omega), ih _ _ _ (by omega), consecutive,
      ofNat_succ]

theorem advance_ofNat {a : ℕ} (h : a % 256 + 1 < 256) :
    advance false (BitVec.ofNat 9 a) = BitVec.ofNat 9 (a + 1) := by
  rw [← ofNat_succ, advance_false_iff, BitVec.toNat_ofNat]
  omega

theorem restAddresses_iff (k a n : ℕ) :
    restAddresses carry k (BitVec.ofNat 9 a) (a + 1) n = consecutive (BitVec.ofNat 9 (a + 1)) n ↔
      ∀ j < n / 4, carry (k + j) = false ∧ (a + 4 * j) % 256 + 4 < 256 := by
  induction n using Nat.strongRecOn generalizing k a with
  | ind n ih =>
    rcases Nat.lt_or_ge n 4 with hn | hn
    · rw [restAddresses_short carry k _ _ hn, Nat.div_eq_of_lt hn]
      simp
    · obtain ⟨n, rfl⟩ := Nat.exists_eq_add_of_le' hn
      have hblock : walk (carry k) (advance (carry k) (BitVec.ofNat 9 a)) 4 =
          consecutive (BitVec.ofNat 9 (a + 1)) 4 ↔ carry k = false ∧ a % 256 + 4 < 256 := by
        rw [← ofNat_succ, walk_four_iff, BitVec.toNat_ofNat]
        exact and_congr_right fun _ => by omega
      have hnext : BitVec.ofNat 9 (a + 1) + BitVec.ofNat 9 4 = BitVec.ofNat 9 (a + 4 + 1) := by
        rw [← BitVec.ofNat_add]
      have hdiv : (n + 4) / 4 = n / 4 + 1 := by omega
      have htail : (∀ j < n / 4, carry (k + 1 + j) = false ∧ (a + 4 + 4 * j) % 256 + 4 < 256) ↔
          ∀ j < n / 4, carry (k + (j + 1)) = false ∧ (a + 4 * (j + 1)) % 256 + 4 < 256 := by
        refine forall₂_congr fun j _ => ?_
        rw [show k + 1 + j = k + (j + 1) by omega, show a + 4 + 4 * j = a + 4 * (j + 1) by omega]
      rw [restAddresses, Nat.add_comm n 4, consecutive_append, hnext,
        append_eq_iff (by simp), hblock, Nat.add_comm 4 n, hdiv,
        Nat.forall_lt_succ_left, ← htail, Nat.add_zero, Nat.mul_zero, Nat.add_zero]
      refine and_congr_right fun ⟨hc, hlt⟩ => ?_
      rw [hc, advance_ofNat (by omega), advance_ofNat (by omega), advance_ofNat (by omega),
        advance_ofNat (by omega)]
      exact ih n (by omega) (k + 1) (a + 4)

theorem length_restAddresses (k : ℕ) (p : BitVec 9) (address n : ℕ) :
    (restAddresses carry k p address n).length = n := by
  induction n using Nat.strongRecOn generalizing k p address with
  | ind n ih =>
    rcases Nat.lt_or_ge n 4 with hn | hn
    · rw [restAddresses_short carry k p address hn, length_consecutive]
    · obtain ⟨n, rfl⟩ := Nat.exists_eq_add_of_le' hn
      rw [restAddresses, List.length_append, length_walk, ih n (by omega), Nat.add_comm]

def pokeAddresses (address : ℕ) : ℕ → List (BitVec 9)
  | 0 => []
  | n + 1 =>
    BitVec.ofNat 9 address :: restAddresses carry 1 (BitVec.ofNat 9 address) (address + 1) n

theorem pokeBuffer_memory (address : ℕ) (buffer : List Byte) (s : Firmware) :
    (rcpod_PokeBuffer carry address buffer s).memory =
      writeAll s.memory ((pokeAddresses carry address buffer.length).zip buffer) := by
  cases buffer with
  | nil => rfl
  | cons data buffer =>
    rw [rcpod_PokeBuffer, pokeRest_memory, rcpod_Poke_memory, rcpod_Poke_pointer]
    rfl

theorem length_pokeAddresses (address n : ℕ) : (pokeAddresses carry address n).length = n := by
  cases n with
  | zero => rfl
  | succ n => rw [pokeAddresses, List.length_cons, length_restAddresses]

theorem getElem?_consecutive (a : ℕ) {n i : ℕ} (h : i < n) :
    (consecutive (BitVec.ofNat 9 a) n)[i]? = some (BitVec.ofNat 9 (a + i)) := by
  induction n generalizing a i with
  | zero => omega
  | succ n ih =>
    rw [consecutive, ofNat_succ]
    cases i with
    | zero => rfl
    | succ i =>
      rw [List.getElem?_cons_succ, ih (a + 1) (by omega)]
      congr 2
      omega

theorem consecutive_of_stored {addresses : List (BitVec 9)} {a n : ℕ} (h : a + n ≤ 512)
    (hlength : addresses.length = n)
    (hstored : ∀ memory buffer, buffer.length = n →
      writeAll memory (addresses.zip buffer) = stored memory a buffer) :
    addresses = consecutive (BitVec.ofNat 9 a) n := by
  apply List.ext_getElem?
  intro i
  rcases Nat.lt_or_ge i n with hi | hi
  · let buffer : List Byte := (List.range n).map fun j => if j = i then 1 else 0
    have hx : (BitVec.ofNat 9 (a + i)).toNat = a + i := by
      rw [BitVec.toNat_ofNat]
      omega
    have hone : writeAll (fun _ => 0) (addresses.zip buffer) (BitVec.ofNat 9 (a + i)) = 1 := by
      rw [hstored _ buffer (by simp [buffer]), stored, hx,
        if_pos ⟨by omega, by simpa [buffer] using hi⟩]
      simp [buffer, hi]
    rcases writeAll_mem (fun _ => 0) (addresses.zip buffer) (BitVec.ofNat 9 (a + i)) with hw | hw
    · exact absurd (hone.symm.trans hw) (by decide)
    · rw [hone] at hw
      obtain ⟨j, hj, hpair⟩ := List.mem_iff_getElem.mp hw
      rw [List.getElem_zip, Prod.mk.injEq] at hpair
      obtain ⟨haddress, hdata⟩ := hpair
      have hij : j = i := by
        by_contra hne
        simp [buffer, hne] at hdata
      subst hij
      rw [getElem?_consecutive a hi, ← haddress]
      exact List.getElem?_eq_getElem _
  · rw [List.getElem?_eq_none (by omega), List.getElem?_eq_none (by simpa using hi)]

def PokeExact (address n : ℕ) : Prop :=
  ∀ (s : Firmware) (buffer : List Byte), buffer.length = n →
    (rcpod_PokeBuffer carry address buffer s).memory = stored s.memory address buffer

theorem pokeExact_iff {address n : ℕ} (h : address + n ≤ 512) :
    PokeExact carry address n ↔
      ∀ j < (n - 1) / 4, carry (1 + j) = false ∧ (address + 4 * j) % 256 + 4 < 256 := by
  have haddresses : pokeAddresses carry address n = consecutive (BitVec.ofNat 9 address) n ↔
      ∀ j < (n - 1) / 4, carry (1 + j) = false ∧ (address + 4 * j) % 256 + 4 < 256 := by
    cases n with
    | zero => simp [pokeAddresses, consecutive]
    | succ n =>
      rw [pokeAddresses, consecutive, ofNat_succ, List.cons_inj_right, restAddresses_iff]
      rfl
  rw [← haddresses]
  constructor
  · intro hexact
    apply consecutive_of_stored h (length_pokeAddresses carry address n)
    intro memory buffer hbuffer
    have hs := hexact ⟨0, false, false, false, 0, fun _ => 0, memory, []⟩ buffer hbuffer
    rwa [pokeBuffer_memory, hbuffer] at hs
  · rintro hconsecutive s buffer rfl
    rw [pokeBuffer_memory, hconsecutive, writeAll_consecutive s.memory h]

end PokeBuffer

section Peeks

variable (s : Firmware)

theorem peek8Body_reads : (peek8Body s).reads = s.reads ++ [source s] := by
  simp [peek8Body, source, Cpu.indirect, Cpu.bit]

theorem peek8Body_memory : (peek8Body s).memory =
    Function.update s.memory (endpoint (s.file buffer_ptr) 0) (s.memory (source s)) := by
  funext x
  simp [peek8Body, source, endpoint, Cpu.indirect, Cpu.bit, Function.update_apply]

theorem peek8Body_source : source (peek8Body s) = advance s.c (source s) := by
  rw [source, source, advance_append]
  simp [peek8Body]

theorem peek8Body_c : (peek8Body s).c = s.c := by
  simp [peek8Body]

theorem peek8Body_count : (peek8Body s).file byte_count = s.file byte_count - 1 := by
  simp [peek8Body]

theorem peek8Body_counts {n : ℕ} (hcount : s.file byte_count = BitVec.ofNat 8 (n + 1)) :
    (peek8Body s).file byte_count = BitVec.ofNat 8 n := by
  rw [peek8Body_count, hcount, BitVec.ofNat_add]
  exact BitVec.add_sub_cancel _ _

theorem count_ne_zero {n : ℕ} (hn : n < 255) : BitVec.ofNat 8 (n + 1) ≠ 0 := by
  rw [ne_eq, ← BitVec.toNat_inj, BitVec.toNat_ofNat]
  change (n + 1) % 256 ≠ 0
  omega

theorem peek8Body_ptr : (peek8Body s).file buffer_ptr = s.file buffer_ptr + 1 := by
  simp [peek8Body]

theorem peek8Body_BD0IAL : (peek8Body s).file BD0IAL = s.file BD0IAL := by
  simp [peek8Body]

theorem endpoint_succ (buffer : Byte) (j : ℕ) :
    endpoint (buffer + 1) j = endpoint buffer (j + 1) := by
  rw [endpoint, endpoint, BitVec.add_assoc, Nat.add_comm j 1, BitVec.ofNat_add]
  rfl

theorem endpoint_injective (buffer : Byte) {i j : ℕ} (hi : i < 256) (hj : j < 256)
    (h : endpoint buffer i = endpoint buffer j) : i = j := by
  have hlow : ∀ x : Byte, (BitVec.ofBool true ++ x).setWidth 8 = x := by decide
  have hsum := congrArg (BitVec.setWidth 8) h
  rw [endpoint, endpoint, hlow, hlow, BitVec.add_right_inj, ← BitVec.toNat_inj,
    BitVec.toNat_ofNat, BitVec.toNat_ofNat] at hsum
  omega

structure Peeked (n : ℕ) (s t : Firmware) : Prop where
  reads : t.reads = s.reads ++ walk s.c (source s) n
  BD0IAL : t.file BD0IAL = s.file BD0IAL
  frame : ∀ x, (∀ j < n, x ≠ endpoint (s.file buffer_ptr) j) → t.memory x = s.memory x
  values : (∀ a ∈ walk s.c (source s) n, ∀ j < n, a ≠ endpoint (s.file buffer_ptr) j) →
    (List.range n).map (fun j => t.memory (endpoint (s.file buffer_ptr) j)) =
      (walk s.c (source s) n).map s.memory

theorem Peeked.refl : Peeked 0 s s := by
  refine ⟨by simp [walk], rfl, fun _ _ => rfl, fun _ => rfl⟩

theorem Peeked.body {n : ℕ} {t : Firmware} (h : Peeked n (peek8Body s) t) (hn : n < 255) :
    Peeked (n + 1) s t := by
  have hptr : ∀ j, endpoint ((peek8Body s).file buffer_ptr) j =
      endpoint (s.file buffer_ptr) (j + 1) := by
    intro j
    rw [peek8Body_ptr, endpoint_succ]
  have hkept : ∀ x, x ≠ endpoint (s.file buffer_ptr) 0 →
      (peek8Body s).memory x = s.memory x := by
    intro x hx
    rw [peek8Body_memory, Function.update_of_ne hx]
  obtain ⟨hreads, hBD0IAL, hframe, hvalues⟩ := h
  rw [peek8Body_reads, peek8Body_c, peek8Body_source] at hreads
  rw [peek8Body_c, peek8Body_source] at hvalues
  simp only [hptr] at hframe hvalues
  constructor
  · rw [hreads, walk, List.append_assoc]
    rfl
  · rw [hBD0IAL, peek8Body_BD0IAL]
  · intro x hx
    rw [hframe x fun j hj => hx (j + 1) (by omega), hkept x (hx 0 (by omega))]
  · intro havoid
    rw [walk] at havoid ⊢
    obtain ⟨-, hrest⟩ := List.forall_mem_cons.mp havoid
    have hzero : t.memory (endpoint (s.file buffer_ptr) 0) = s.memory (source s) := by
      rw [hframe, peek8Body_memory, Function.update_self]
      intro j hj heq
      exact absurd (endpoint_injective _ (by omega) (by omega) heq) (by omega)
    have hsame : (walk s.c (advance s.c (source s)) n).map (peek8Body s).memory =
        (walk s.c (advance s.c (source s)) n).map s.memory :=
      List.map_congr_left fun a ha => hkept a (hrest a ha 0 (by omega))
    rw [List.range_succ_eq_map, List.map_cons, List.map_map, List.map_cons, hzero, ← hsame,
      ← hvalues fun a ha j hj => hrest a ha (j + 1) (by omega)]
    rfl

theorem peek8Loop_spec (n fuel : ℕ) (hn : n < 255) (hfuel : n < fuel)
    (hcount : s.file byte_count = BitVec.ofNat 8 (n + 1)) :
    Peeked (n + 1) s (peek8Loop fuel s) := by
  induction n generalizing fuel s with
  | zero =>
    obtain ⟨fuel, rfl⟩ := Nat.exists_eq_succ_of_ne_zero (by omega : fuel ≠ 0)
    have hdone : (peek8Body s).file byte_count = 0 := peek8Body_counts s hcount
    rw [Nat.succ_eq_add_one, peek8Loop, if_pos hdone]
    exact (Peeked.refl _).body s hn
  | succ n ih =>
    obtain ⟨fuel, rfl⟩ := Nat.exists_eq_succ_of_ne_zero (by omega : fuel ≠ 0)
    have hnext : (peek8Body s).file byte_count = BitVec.ofNat 8 (n + 1) := peek8Body_counts s hcount
    rw [Nat.succ_eq_add_one, peek8Loop, hnext, if_neg (count_ne_zero (by omega))]
    exact (ih (peek8Body s) fuel (by omega) (by omega) hnext).body s hn

structure Replies (e : Byte) (addresses : List (BitVec 9)) (s : Firmware)
    (r : Firmware × List Byte) : Prop where
  reads : r.1.reads = s.reads ++ addresses
  BD0IAL : r.1.file BD0IAL = s.file BD0IAL
  frame : ∀ x, (∀ j < 8, x ≠ endpoint e j) → r.1.memory x = s.memory x
  values : (∀ a ∈ addresses, ∀ j < 8, a ≠ endpoint e j) → r.2 = addresses.map s.memory

theorem rcpod_Peek8_replies (carry : Bool) (address : ℕ) :
    Replies (s.file BD0IAL) (walk carry (BitVec.ofNat 9 address) 8) s
      (rcpod_Peek8 carry address s) := by
  let t := setup 0 (BitVec.ofNat 16 address) carry s
  let u := t |>.movf BD0IAL |>.movwf buffer_ptr |>.movlw 8 |>.movwf byte_count
  have hsource : source u = BitVec.ofNat 9 address := by
    rw [← source_setup s 0 address carry]
    simp [u, t, source]
  have hptr : u.file buffer_ptr = s.file BD0IAL := by
    simp [u, t, setup]
  have hcount : u.file byte_count = BitVec.ofNat 8 (7 + 1) := by
    simp [u]
  have hBD0IAL : u.file BD0IAL = s.file BD0IAL := by
    simp [u, t, setup]
  obtain ⟨hreads, hsame, hframe, hvalues⟩ := peek8Loop_spec u 7 256 (by omega) (by omega) hcount
  have hc : u.c = carry := rfl
  rw [hc, hsource] at hreads hvalues
  rw [hptr] at hframe hvalues
  refine ⟨hreads, hsame.trans hBD0IAL, hframe, fun havoid => ?_⟩
  refine Eq.trans ?_ (hvalues havoid)
  change reply 8 (peek8Loop 256 u) = _
  rw [reply, hsame, hBD0IAL]

theorem rcpod_Peek_replies (carry : Bool) (address : ℕ) :
    Replies (s.file BD0IAL) [BitVec.ofNat 9 address] s (rcpod_Peek carry address s) := by
  let t := setup 0 (BitVec.ofNat 16 address) carry s
  have hsource : source t = BitVec.ofNat 9 address := source_setup s 0 address carry
  have hBD0IAL : t.file BD0IAL = s.file BD0IAL := by
    simp [t, setup]
  have hmemory : (request_Peek t).memory =
      Function.update s.memory (endpoint (s.file BD0IAL) 0) (s.memory (source t)) := by
    funext x
    simp [request_Peek, Send_Byte_pkt, source, endpoint, Cpu.indirect, Cpu.bit,
      Function.update_apply, hBD0IAL]
    rfl
  have hfile : (request_Peek t).file BD0IAL = s.file BD0IAL := by
    rw [← hBD0IAL]
    simp [request_Peek, Send_Byte_pkt]
  refine ⟨?_, hfile, ?_, ?_⟩
  · rw [← hsource]
    change (request_Peek t).reads = _
    simp [request_Peek, Send_Byte_pkt, source, Cpu.indirect, Cpu.bit]
    rfl
  · intro x hx
    change (request_Peek t).memory x = _
    rw [hmemory, Function.update_of_ne (hx 0 (by omega))]
  · intro _
    change reply 1 (request_Peek t) = _
    simp [reply, hfile, hmemory, hsource]

theorem Replies.append {e : Byte} {as bs : List (BitVec 9)} {t u : Firmware} {xs ys : List Byte}
    (h : Replies e as s (t, xs)) (h' : Replies e bs t (u, ys)) :
    Replies e (as ++ bs) s (u, xs ++ ys) := by
  constructor
  · rw [h'.reads, h.reads, List.append_assoc]
  · exact h'.BD0IAL.trans h.BD0IAL
  · exact fun x hx => (h'.frame x hx).trans (h.frame x hx)
  · intro havoid
    obtain ⟨has, hbs⟩ := List.forall_mem_append.mp havoid
    have hsame : bs.map t.memory = bs.map s.memory :=
      List.map_congr_left fun b hb => h.frame b (hbs b hb)
    rw [List.map_append, ← hsame]
    exact congrArg₂ _ (h.values has) (h'.values hbs)

end Peeks

section PeekBuffer

variable (carry : ℕ → Bool)

def peekAddresses : ℕ → ℕ → ℕ → List (BitVec 9)
  | k, address, n + 8 =>
    walk (carry k) (BitVec.ofNat 9 address) 8 ++ peekAddresses (k + 1) (address + 8) n
  | k, address, n + 1 => [BitVec.ofNat 9 address] ++ peekAddresses (k + 1) (address + 1) n
  | _, _, 0 => []

theorem peekRest_replies (k address n : ℕ) (s : Firmware) :
    Replies (s.file BD0IAL) (peekAddresses carry k address n) s
      (peekRest carry k address n s) := by
  induction k, address, n, s using peekRest.induct carry with
  | case1 k address n s t ih =>
    have hfirst := rcpod_Peek8_replies s (carry k) address
    rw [peekRest, peekAddresses]
    rw [hfirst.BD0IAL] at ih
    exact hfirst.append s ih
  | case2 k address n s hshort t ih =>
    have hfirst := rcpod_Peek_replies s (carry k) address
    rw [peekRest, peekAddresses]
    · rw [hfirst.BD0IAL] at ih
      exact hfirst.append s ih
    · exact hshort
    · exact hshort
  | case3 k address s => exact ⟨by simp [peekAddresses, peekRest], rfl, fun _ _ => rfl, fun _ => rfl⟩

theorem peekAddresses_single (k address : ℕ) {n : ℕ} (h : n < 7) :
    peekAddresses carry k address (n + 1) =
      BitVec.ofNat 9 address :: peekAddresses carry (k + 1) (address + 1) n := by
  obtain rfl | rfl | rfl | rfl | rfl | rfl | rfl :
    n = 0 ∨ n = 1 ∨ n = 2 ∨ n = 3 ∨ n = 4 ∨ n = 5 ∨ n = 6 := by omega
  all_goals rfl

theorem peekAddresses_short (k address : ℕ) {n : ℕ} (h : n < 8) :
    peekAddresses carry k address n = consecutive (BitVec.ofNat 9 address) n := by
  induction n generalizing k address with
  | zero => rfl
  | succ n ih =>
    rw [peekAddresses_single carry k address (by omega), ih _ _ (by omega), consecutive,
      ofNat_succ]

theorem peekAddresses_iff (k a n : ℕ) :
    peekAddresses carry k a n = consecutive (BitVec.ofNat 9 a) n ↔
      ∀ j < n / 8, carry (k + j) = false ∧ (a + 8 * j) % 256 + 7 < 256 := by
  induction n using Nat.strongRecOn generalizing k a with
  | ind n ih =>
    rcases Nat.lt_or_ge n 8 with hn | hn
    · rw [peekAddresses_short carry k _ hn, Nat.div_eq_of_lt hn]
      simp
    · obtain ⟨n, rfl⟩ := Nat.exists_eq_add_of_le' hn
      have hblock : walk (carry k) (BitVec.ofNat 9 a) 8 = consecutive (BitVec.ofNat 9 a) 8 ↔
          carry k = false ∧ a % 256 + 7 < 256 := by
        rw [walk_iff (carry k) _ 5, BitVec.toNat_ofNat]
        exact and_congr_right fun _ => by omega
      have hnext : BitVec.ofNat 9 a + BitVec.ofNat 9 8 = BitVec.ofNat 9 (a + 8) := by
        rw [← BitVec.ofNat_add]
      have hdiv : (n + 8) / 8 = n / 8 + 1 := by omega
      have htail : (∀ j < n / 8, carry (k + 1 + j) = false ∧ (a + 8 + 8 * j) % 256 + 7 < 256) ↔
          ∀ j < n / 8, carry (k + (j + 1)) = false ∧ (a + 8 * (j + 1)) % 256 + 7 < 256 := by
        refine forall₂_congr fun j _ => ?_
        rw [show k + 1 + j = k + (j + 1) by omega, show a + 8 + 8 * j = a + 8 * (j + 1) by omega]
      rw [peekAddresses, Nat.add_comm n 8, consecutive_append, hnext, append_eq_iff (by simp),
        hblock, Nat.add_comm 8 n, hdiv, Nat.forall_lt_succ_left, ← htail, Nat.add_zero,
        Nat.mul_zero, Nat.add_zero]
      exact and_congr_right fun _ => ih n (by omega) (k + 1) (a + 8)

def PeekExact (e : Byte) (address n : ℕ) : Prop :=
  ∀ s : Firmware, s.file BD0IAL = e →
    (rcpod_PeekBuffer carry address n s).2 =
      (consecutive (BitVec.ofNat 9 address) n).map s.memory ∧
    ∃ reads, (rcpod_PeekBuffer carry address n s).1.reads = s.reads ++ reads ∧
      reads.Perm (consecutive (BitVec.ofNat 9 address) n)

theorem eq_of_map_eq {as bs : List (BitVec 9)}
    (h : ∀ memory : BitVec 9 → Byte, as.map memory = bs.map memory) : as = bs := by
  have hlength : as.length = bs.length := by
    simpa using congrArg List.length (h fun _ => 0)
  apply List.ext_getElem hlength
  intro i hi hi'
  have hget := congrArg (·[i]?) (h fun x => if x = bs[i] then 1 else 0)
  by_contra hne
  simp [hi, hi', hne] at hget

theorem peekExact_iff {e : Byte} {address n : ℕ}
    (hfree : ∀ a ∈ consecutive (BitVec.ofNat 9 address) n, ∀ j < 8, a ≠ endpoint e j) :
    PeekExact carry e address n ↔
      ∀ j < n / 8, carry j = false ∧ (address + 8 * j) % 256 + 7 < 256 := by
  have haddresses := peekAddresses_iff carry 0 address n
  simp only [Nat.zero_add] at haddresses
  rw [← haddresses]
  constructor
  · intro hexact
    apply eq_of_map_eq
    intro memory
    let s : Firmware := ⟨0, false, false, false, 0, fun _ => e, memory, []⟩
    have hreplies := peekRest_replies carry 0 address n s
    obtain ⟨hvalues, reads, hreads, hperm⟩ := hexact s rfl
    obtain rfl : reads = peekAddresses carry 0 address n :=
      List.append_cancel_left (hreads.symm.trans hreplies.reads)
    exact (hreplies.values fun a ha => hfree a (hperm.subset ha)).symm.trans hvalues
  · rintro hconsecutive s rfl
    have hreplies := peekRest_replies carry 0 address n s
    rw [hconsecutive] at hreplies
    exact ⟨hreplies.values hfree, _, hreplies.reads, List.Perm.refl _⟩

end PeekBuffer

/-- The carry is only looked at, and never made, by the requests of more bytes than one. -/
theorem block_transfers_iff {e : Byte} {address n : ℕ} (h : address + n ≤ 512)
    (hfree : ∀ a ∈ consecutive (BitVec.ofNat 9 address) n, ∀ j < 8, a ≠ endpoint e j)
    (carry : ℕ → Bool) :
    (PokeExact carry address n ↔
      ∀ j < (n - 1) / 4, carry (1 + j) = false ∧ (address + 4 * j) % 256 + 4 < 256) ∧
    (PeekExact carry e address n ↔
      ∀ j < n / 8, carry j = false ∧ (address + 8 * j) % 256 + 7 < 256) :=
  ⟨pokeExact_iff carry h, peekExact_iff carry hfree⟩

theorem block_transfers_page :
    PokeExact (fun _ => false) 0x40 9 ∧ PeekExact (fun _ => false) 0x80 0x40 9 := by
  obtain ⟨hpoke, hpeek⟩ := @block_transfers_iff 0x80 0x40 9 (by decide) (by decide +kernel)
    fun _ => false
  exact ⟨hpoke.mpr (by decide), hpeek.mpr (by decide)⟩

/-- Four bytes over the end of a bank, and eight bytes behind code that left the carry set. -/
theorem block_transfers_fail :
    ¬PokeExact (fun _ => false) 0xFE 5 ∧ ¬PeekExact (fun _ => true) 0x80 0x40 8 := by
  constructor
  · rw [pokeExact_iff _ (by decide)]
    decide
  · rw [peekExact_iff _ (by decide +kernel)]
    decide

end NaviMisc.Rcpod
