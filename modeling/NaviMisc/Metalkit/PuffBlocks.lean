import NaviMisc.Metalkit.PuffTokens

/-!
The blocks of metalkit/lib/puff.c against the format: the lengths of the codes before a dynamic
block, and the bytes of a stored one.
-/

namespace NaviMisc.Metalkit.Puff

open Lib.ByteOrder (Byte bytes)
open Lib.PrefixCode (Codeword left)
open Deflate

variable {dest : Option (List Byte)} {source o : List Byte} {l : List Bool} {s : State}

section CodeLengths

theorem idxOf_order {m i : ℕ} (hi : order[m]? = some i) : order.idxOf i = m := by
  have hnodup : order.Nodup := by decide
  obtain ⟨hlt, rfl⟩ := List.getElem?_eq_some_iff.mp hi
  exact hnodup.idxOf_getElem m hlt

theorem idxOf_order_ne {m i j : ℕ} (hi : order[m]? = some i) (hj : j < 19) (hij : i ≠ j) :
    order.idxOf j ≠ m := by
  have hall : ∀ j < 19, j ∈ order := by decide
  rintro rfl
  rw [List.getElem?_eq_getElem (List.idxOf_lt_length_of_mem (hall j hj)),
    List.getElem_idxOf] at hi
  exact hij (Option.some.inj hi).symm

theorem permuted_append {vs : List ℕ} {i : ℕ} (hi : order[vs.length]? = some i) (v : ℕ) :
    permuted (vs ++ [v]) = (permuted vs).set i v := by
  apply List.ext_getElem
  · rw [permuted, permuted, List.length_set, List.length_map, List.length_map]
  · intro j hj _
    rw [permuted, List.length_map, List.length_range] at hj
    rw [List.getElem_set]
    simp only [permuted, List.getElem_map, List.getElem_range]
    split_ifs with hij
    · rw [← hij, idxOf_order hi, List.getD_append_right _ _ _ _ (Nat.le_refl _), Nat.sub_self]
      rfl
    · have hne := idxOf_order_ne hi hj hij
      by_cases hlt : order.idxOf j < vs.length
      · rw [List.getD_append _ _ _ _ hlt]
      · rw [List.getD_eq_default _ _ (by rw [List.length_append, List.length_singleton]; omega),
          List.getD_eq_default _ _ (by omega)]

theorem permuted_set_zero {vs : List ℕ} {m i : ℕ} (hm : vs.length ≤ m)
    (hi : order[m]? = some i) : (permuted vs).set i 0 = permuted vs := by
  apply List.ext_getElem
  · rw [List.length_set]
  · intro j _ _
    rw [List.getElem_set]
    split_ifs with hij
    · simp only [permuted, List.getElem_map, List.getElem_range]
      rw [← hij, idxOf_order hi, List.getD_eq_default _ _ hm]
    · rfl

theorem shorts_set (lengths : List ℕ) (i v : ℕ) :
    (shorts lengths).set i (v : ℤ) = shorts (lengths.set i v) := List.map_set.symm

theorem Reading.foldlM_codeLength_outcome {bad : Prop} {ncode m : ℕ} {suffix vs : List ℕ}
    (hsuffix : order.drop m = suffix) (hm : m ≤ 19) (hvs : vs.length = min m ncode)
    (h : Reading dest source o l s) :
    Outcome dest bad (fun lengths s' => ∃ vs' l', lengths = shorts (permuted (vs ++ vs')) ∧
      (vs ++ vs').length = min 19 ncode ∧ (∀ v ∈ vs', v < 2 ^ 3) ∧
      l = vs'.flatMap (lowBits · 3) ++ l' ∧ Reading dest source o l' s')
      ((suffix.zipIdx m).foldlM (codeLength ncode) (shorts (permuted vs), s)) := by
  induction suffix generalizing m vs l s with
  | nil =>
    have hlen : 19 ≤ m := List.drop_eq_nil_iff.mp hsuffix
    refine .ok ⟨[], l, by rw [List.append_nil], ?_, nofun, rfl, h⟩
    rw [List.append_nil, hvs, Nat.le_antisymm hm hlen]
  | cons i suffix ih =>
    have hi : order[m]? = some i := by rw [← List.head?_drop, hsuffix, List.head?_cons]
    have hlt : m < 19 := (List.getElem?_eq_some_iff.mp hi).1
    have hdrop : order.drop (m + 1) = suffix := by
      rw [← List.drop_drop, hsuffix, List.drop_one, List.tail_cons]
    rw [List.zipIdx_cons, List.foldlM_cons, codeLength]
    by_cases hlt' : m < ncode
    · rw [if_pos hlt', bind_assoc]
      refine (h.bits_outcome 3).bind ?_
      rintro v s₁ ⟨hv, l₁, rfl, h₁⟩
      have hvs' : vs.length = m := by omega
      have hset : (shorts (permuted vs)).set i (v : ℤ) = shorts (permuted (vs ++ [v])) := by
        rw [shorts_set, permuted_append (by rw [hvs']; exact hi)]
      simp only [pure_bind, hset]
      refine (ih hdrop hlt (by rw [List.length_append, List.length_singleton]; omega) h₁).mono
        id ?_
      rintro lengths s' ⟨vs', l', rfl, hlen, hall, rfl, h'⟩
      refine ⟨v :: vs', l', by rw [List.append_assoc]; rfl, ?_, ?_, ?_, h'⟩
      · rw [List.append_assoc] at hlen
        exact hlen
      · intro v' hv'
        obtain rfl | hmem := List.mem_cons.mp hv'
        · exact hv
        · exact hall v' hmem
      · rw [List.flatMap_cons, List.append_assoc]
    · rw [if_neg hlt', pure_bind]
      have hset : (shorts (permuted vs)).set i 0 = shorts (permuted vs) := by
        have hzero := shorts_set (permuted vs) i 0
        rw [permuted_set_zero (by omega) hi] at hzero
        exact hzero
      rw [hset]
      exact ih hdrop hlt (by omega) h

theorem Reading.foldlM_codeLength_eq {ncode m : ℕ} {suffix vs vs' : List ℕ}
    (hsuffix : order.drop m = suffix) (hm : m ≤ 19) (hvs : vs.length = min m ncode)
    (hlen : (vs ++ vs').length = min 19 ncode) (hall : ∀ v ∈ vs', v < 2 ^ 3)
    (h : Reading dest source o (vs'.flatMap (lowBits · 3) ++ l) s) :
    ∃ s', (suffix.zipIdx m).foldlM (codeLength ncode) (shorts (permuted vs), s) =
      .ok (shorts (permuted (vs ++ vs')), s') ∧ Reading dest source o l s' := by
  induction suffix generalizing m vs vs' s with
  | nil =>
    have hend : 19 ≤ m := List.drop_eq_nil_iff.mp hsuffix
    rw [List.length_append] at hlen
    have hnil : vs' = [] := List.length_eq_zero_iff.mp (by omega)
    subst hnil
    exact ⟨s, by rw [List.append_nil]; rfl, h⟩
  | cons i suffix ih =>
    have hi : order[m]? = some i := by rw [← List.head?_drop, hsuffix, List.head?_cons]
    have hlt : m < 19 := (List.getElem?_eq_some_iff.mp hi).1
    have hdrop : order.drop (m + 1) = suffix := by
      rw [← List.drop_drop, hsuffix, List.drop_one, List.tail_cons]
    rw [List.zipIdx_cons, List.foldlM_cons, codeLength]
    by_cases hlt' : m < ncode
    · cases vs' with
      | nil =>
        rw [List.append_nil] at hlen
        omega
      | cons v vs' =>
        have hvs' : vs.length = m := by omega
        have hset : (shorts (permuted vs)).set i (v : ℤ) = shorts (permuted (vs ++ [v])) := by
          rw [shorts_set, permuted_append (by rw [hvs']; exact hi)]
        have happend : vs ++ v :: vs' = vs ++ [v] ++ vs' := by rw [List.append_assoc]; rfl
        rw [List.flatMap_cons, List.append_assoc] at h
        obtain ⟨s₁, hbits, h₁⟩ := h.bits_eq (hall v List.mem_cons_self)
        rw [if_pos hlt', hbits, ok_bind, pure_bind, hset, happend]
        rw [happend] at hlen
        exact ih hdrop hlt (by rw [List.length_append, List.length_singleton]; omega) hlen
          (fun v' hv' => hall v' (List.mem_cons_of_mem _ hv')) h₁
    · have hset : (shorts (permuted vs)).set i 0 = shorts (permuted vs) := by
        have hzero := shorts_set (permuted vs) i 0
        rw [permuted_set_zero (by omega) hi] at hzero
        exact hzero
      rw [if_neg hlt', pure_bind, hset]
      exact ih hdrop hlt (by omega) hlen hall h

theorem Reading.codeLengths_outcome {bad : Prop} {ncode : ℕ} (hncode : ncode ≤ 19)
    (h : Reading dest source o l s) :
    Outcome dest bad (fun lengths s' => ∃ vs l', lengths = shorts (permuted vs) ∧
      vs.length = ncode ∧ (∀ v ∈ vs, v < 2 ^ 3) ∧ l = vs.flatMap (lowBits · 3) ++ l' ∧
      Reading dest source o l' s') (codeLengths ncode s) := by
  have hfold := @Reading.foldlM_codeLength_outcome dest source o l s bad ncode 0 order []
    List.drop_zero (Nat.zero_le _) (Nat.zero_min _).symm h
  refine Outcome.mono hfold id ?_
  rintro lengths s' ⟨vs, l', hlengths, hlen, hrest⟩
  rw [List.nil_append] at hlengths hlen
  exact ⟨vs, l', hlengths, hlen.trans (Nat.min_eq_right hncode), hrest⟩

theorem Reading.codeLengths_eq {vs : List ℕ} (hlen : vs.length ≤ 19) (hall : ∀ v ∈ vs, v < 2 ^ 3)
    (h : Reading dest source o (vs.flatMap (lowBits · 3) ++ l) s) :
    ∃ s', codeLengths vs.length s = .ok (shorts (permuted vs), s') ∧
      Reading dest source o l s' :=
  @Reading.foldlM_codeLength_eq dest source o l s vs.length 0 order [] vs List.drop_zero
    (Nat.zero_le _) (Nat.zero_min _).symm (Nat.min_eq_right hlen).symm hall h

end CodeLengths

section Lengths

variable {lengths ls : List ℕ} {table : Huffman}

theorem getLast?_shorts (ls : List ℕ) :
    (shorts ls).getLast? = ls.getLast?.map (Nat.cast : ℕ → ℤ) := List.getLast?_map

theorem Reading.lengthRun_outcome {bad : Prop} (h : Reading dest source o l s) {symbol : ℕ}
    (hsymbol : symbol < 19) :
    Outcome dest bad (fun r s' =>
      (∃ (a times : ℕ) (w l' : List Bool), r = .ok ((a : ℤ), times) ∧ Run ls symbol a times w ∧
        l = w ++ l' ∧ Reading dest source o l' s') ∨
      ∃ err, r = .error err ∧ err ≠ 0 ∧ Bounded dest source s')
      (lengthRun (shorts ls) symbol s) := by
  rw [lengthRun]
  by_cases hlt : symbol < 16
  · rw [if_pos (by omega)]
    exact .ok (.inl ⟨symbol, 1, [], l, rfl, .length hlt, rfl, h⟩)
  · rw [if_neg (by omega)]
    by_cases hlast : symbol = 16
    · subst hlast
      rw [if_pos (by decide), getLast?_shorts]
      cases ha : ls.getLast? with
      | none => exact .ok (.inr ⟨-5, rfl, by decide, h.bounded⟩)
      | some a =>
        refine (h.bits_outcome 2).bind ?_
        rintro x s₁ ⟨hx, l₁, rfl, h₁⟩
        exact .ok (.inl ⟨a, 3 + x, _, l₁, rfl, .last ha hx, rfl, h₁⟩)
    · rw [if_neg (by omega)]
      by_cases hzeros : symbol = 17
      · subst hzeros
        rw [if_pos (by decide)]
        refine (h.bits_outcome 3).bind ?_
        rintro x s₁ ⟨hx, l₁, rfl, h₁⟩
        exact .ok (.inl ⟨0, 3 + x, _, l₁, rfl, .zeros hx, rfl, h₁⟩)
      · have hmore : symbol = 18 := by omega
        subst hmore
        rw [if_neg (by omega)]
        refine (h.bits_outcome 7).bind ?_
        rintro x s₁ ⟨hx, l₁, rfl, h₁⟩
        exact .ok (.inl ⟨0, 11 + x, _, l₁, rfl, .moreZeros hx, rfl, h₁⟩)

theorem Reading.lengthRun_eq {symbol a times : ℕ} {w : List Bool} (hrun : Run ls symbol a times w)
    (h : Reading dest source o (w ++ l) s) :
    ∃ s', lengthRun (shorts ls) symbol s = .ok (.ok ((a : ℤ), times), s') ∧
      Reading dest source o l s' := by
  rw [lengthRun]
  cases hrun with
  | length hlt =>
    rw [if_pos (by omega)]
    exact ⟨s, rfl, h⟩
  | last ha hx =>
    obtain ⟨s₁, hbits, h₁⟩ := h.bits_eq hx
    rw [if_neg (by decide), if_pos (by decide), getLast?_shorts, ha]
    simp only [Option.map_some, hbits, ok_bind]
    exact ⟨s₁, rfl, h₁⟩
  | zeros hx =>
    obtain ⟨s₁, hbits, h₁⟩ := h.bits_eq hx
    rw [if_neg (by decide), if_neg (by decide), if_pos (by decide), hbits]
    exact ⟨s₁, rfl, h₁⟩
  | moreZeros hx =>
    obtain ⟨s₁, hbits, h₁⟩ := h.bits_eq hx
    rw [if_neg (by decide), if_neg (by decide), if_neg (by decide), hbits]
    exact ⟨s₁, rfl, h₁⟩

theorem times_pos_of_run {symbol a times : ℕ} {w : List Bool} (h : Run ls symbol a times w) :
    0 < times := by
  cases h <;> omega

theorem shorts_append_replicate (ls : List ℕ) (times a : ℕ) :
    shorts ls ++ List.replicate times (a : ℤ) = shorts (ls ++ List.replicate times a) := by
  rw [shorts, shorts, List.map_append, List.map_replicate]

theorem Reading.readLengths_outcome {bad : Prop} (ht : Table lengths table)
    (hlengths : lengths.length = 19) (hleft : left lengths.count MAXBITS = 0) {n fuel : ℕ}
    (hle : ls.length ≤ n) (hfuel : n < ls.length + fuel) (h : Reading dest source o l s) :
    Outcome dest bad (fun r s' =>
      (∃ ls' l', r = .ok (shorts ls') ∧ Lengths lengths n ls l ls' l' ∧
        Reading dest source o l' s') ∨
      ∃ err, r = .error err ∧ err ≠ 0 ∧ Bounded dest source s')
      (readLengths table n fuel (shorts ls) s) := by
  induction fuel generalizing ls l s with
  | zero => omega
  | succ fuel ih =>
    rw [readLengths, length_shorts]
    by_cases hlt : ls.length < n
    · rw [if_pos hlt]
      refine (h.decode_outcome ht).bind ?_
      rintro symbol s₁ (⟨k, w, l₁, rfl, hw, rfl, h₁⟩ | ⟨-, -, -, hne⟩)
      · have hsymbol : k < 19 := (symbol_lt hw).trans_eq hlengths
        refine (h₁.lengthRun_outcome hsymbol).bind ?_
        rintro r s₂ (⟨a, times, w', l₂, rfl, hrun, rfl, h₂⟩ | ⟨err, rfl, herr, hbounded⟩)
        · by_cases hmany : n < ls.length + times
          · simp only [if_pos hmany]
            exact .ok (.inr ⟨-6, rfl, by decide, h₂.bounded⟩)
          · have hpos := times_pos_of_run hrun
            simp only [if_neg hmany, shorts_append_replicate]
            refine (ih ?_ ?_ h₂).mono id ?_
            · rw [List.length_append, List.length_replicate]
              omega
            · rw [List.length_append, List.length_replicate]
              omega
            · rintro r s' (⟨ls', l', rfl, hrest, h'⟩ | herr)
              · exact .inl ⟨ls', l', rfl, .run hlt hw hrun (Nat.le_of_not_lt hmany) hrest, h'⟩
              · exact .inr herr
        · exact .ok (.inr ⟨err, rfl, herr, hbounded⟩)
      · exact absurd hleft hne
    · rw [if_neg hlt]
      exact .ok (.inl ⟨ls, l, rfl, .done (by omega), h⟩)

theorem Reading.readLengths_eq (hfit : Fitting lengths) (ht : Table lengths table) {n fuel : ℕ}
    (hfuel : n < ls.length + fuel) {ls' : List ℕ} {l' : List Bool}
    (hread : Lengths lengths n ls l ls' l') (h : Reading dest source o l s) :
    ∃ s', readLengths table n fuel (shorts ls) s = .ok (.ok (shorts ls'), s') ∧
      Reading dest source o l' s' := by
  induction hread generalizing s fuel with
  | done hlen =>
    obtain ⟨fuel, rfl⟩ : ∃ k, fuel = k + 1 := ⟨fuel - 1, by omega⟩
    exact ⟨s, by rw [readLengths, length_shorts, if_neg (by omega)], h⟩
  | run hlt hw hrun hle _ ih =>
    obtain ⟨fuel, rfl⟩ : ∃ k, fuel = k + 1 := ⟨fuel - 1, by omega⟩
    have hpos := times_pos_of_run hrun
    obtain ⟨s₁, hdecode, h₁⟩ := h.decode_eq hfit ht hw
    obtain ⟨s₂, hrun', h₂⟩ := h₁.lengthRun_eq hrun
    obtain ⟨s₃, hrest, h₃⟩ := @ih s₂ fuel
      (by rw [List.length_append, List.length_replicate]; omega) h₂
    refine ⟨s₃, ?_, h₃⟩
    rw [readLengths, length_shorts, if_pos hlt, hdecode, ok_bind]
    simp only [hrun', ok_bind, if_neg hle.not_gt, shorts_append_replicate, hrest]

theorem readLengths_replicate {bad : Prop} (ht : Table lengths table) (hnone : ∀ a ∈ lengths, a = 0)
    {n m fuel : ℕ} (hle : m ≤ n) (hfuel : n < m + fuel) (hs : s.Sound)
    (hbounded : Bounded dest source s) :
    Outcome dest bad (fun r _ => r = .ok (List.replicate n (-9)))
      (readLengths table n fuel (List.replicate m (-9)) s) := by
  induction fuel generalizing m s with
  | zero => omega
  | succ fuel ih =>
    rw [readLengths, List.length_replicate]
    by_cases hlt : m < n
    · rw [if_pos hlt]
      obtain ⟨k, w, l₁, s₁, -, ⟨j, hj, -⟩, -⟩ | ⟨s₁, hdecode, hsame, hs₁, -⟩ | hdecode :=
        decode_spec ht hs
      · exact absurd (hnone _ (List.mem_of_getElem? hj)) (Nat.succ_ne_zero j)
      · have hrun : lengthRun (List.replicate m (-9)) (-9) s₁ = .ok (.ok (-9, 1), s₁) := rfl
        have happend : List.replicate m (-9 : ℤ) ++ List.replicate 1 (-9) =
            List.replicate (m + 1) (-9) := List.replicate_append_replicate
        rw [hdecode, ok_bind]
        simp only [hrun, ok_bind, if_neg (Nat.not_lt.mpr hlt), happend]
        exact ih hlt (by omega) hs₁ (hbounded.same hsame hs₁)
      · rw [hdecode]
        exact .longjmp hbounded.length_eq
    · have hm : m = n := by omega
      rw [if_neg hlt, hm]
      exact .ok rfl

theorem readLengths_noCode {bad : Prop} (ht : Table lengths table) (hnone : ∀ a ∈ lengths, a = 0)
    {n : ℕ} (hs : s.Sound) (hbounded : Bounded dest source s) :
    Outcome dest bad (fun r _ => r = .ok (List.replicate n (-9)))
      (readLengths table n (n + 1) [] s) :=
  @readLengths_replicate dest source s lengths table bad ht hnone n 0 (n + 1) (Nat.zero_le _)
    (by omega) hs hbounded

theorem facts_of_lengths {n : ℕ} {ls' : List ℕ} {l' : List Bool}
    (h : Lengths lengths n ls l ls' l') (hls : ∀ a ∈ ls, a ≤ MAXBITS) :
    ls'.length = n ∧ l'.length ≤ l.length ∧ ∀ a ∈ ls', a ≤ MAXBITS := by
  induction h with
  | done hlen => exact ⟨hlen, Nat.le_refl _, hls⟩
  | @run ls ls' w w' l l' symbol a times _ _ hrun _ _ ih =>
    have ha : a ≤ MAXBITS := by
      cases hrun with
      | length hlt => exact Nat.le_of_lt_succ hlt
      | last hlast _ => exact hls a (List.mem_of_getLast? hlast)
      | zeros _ => exact Nat.zero_le _
      | moreZeros _ => exact Nat.zero_le _
    obtain ⟨hlen, hle, hall⟩ := ih fun b hb => by
      obtain hb | hb := List.mem_append.mp hb
      · exact hls b hb
      · rw [List.eq_of_mem_replicate hb]
        exact ha
    refine ⟨hlen, ?_, hall⟩
    rw [List.length_append, List.length_append]
    omega

end Lengths

section Dynamic

variable {lengths : List ℕ}

theorem fuel_pos (hs : s.Sound) : s.pending.length < s.fuel := by
  have hlen := State.length_pending hs.incnt_le
  have hcnt := hs.bitcnt_lt
  rw [State.fuel]
  omega

theorem Reading.length_lt_fuel (h : Reading dest source o l s) : l.length < s.fuel := by
  have hlt := fuel_pos h.sound
  rwa [h.pending_eq] at hlt

theorem fitting_of_usable (h : Usable lengths) (hle : ∀ a ∈ lengths, a ≤ MAXBITS) :
    Fitting lengths := ⟨hle, h.1⟩

theorem construct_usable (h : Huffman) (hle : ∀ a ∈ lengths, a ≤ MAXBITS)
    (hcap : lengths.length ≤ h.capacity) :
    ∃ err h', construct h (shorts lengths) = .ok (err, h') ∧
      (refused err h' lengths.length = true ↔ ¬ Usable lengths) ∧
      (Usable lengths → Table lengths h') ∧ h'.capacity = h.capacity := by
  obtain ⟨err, h', hconstruct, hcount, hneg, hzero, htable, hcap'⟩ := construct_spec h hle hcap
  have hcountle : lengths.count 0 ≤ lengths.length := List.count_le_length
  refine ⟨err, h', hconstruct, ?_, fun husable => htable ?_, hcap'⟩
  · have hcount' : h'.count 0 = lengths.count 0 := congrFun hcount 0
    rw [refused, decide_eq_true_iff, hcount', Usable]
    by_cases hnone : lengths.count 0 = lengths.length
    · have herr : err = 0 := hzero.mpr (.inl hnone)
      omega
    · simp only [hnone, false_or] at hzero
      omega
  · have hleft := husable.1
    omega

theorem permuted_le {vs : List ℕ} (hall : ∀ v ∈ vs, v < 2 ^ 3) :
    ∀ a ∈ permuted vs, a ≤ MAXBITS := by
  intro a ha
  obtain ⟨i, -, rfl⟩ := List.mem_map.mp ha
  by_cases hi : order.idxOf i < vs.length
  · rw [List.getD_eq_getElem _ _ hi]
    exact (hall _ (List.getElem_mem hi)).le.trans (by decide)
  · rw [List.getD_eq_default _ _ (Nat.le_of_not_lt hi)]
    exact Nat.zero_le _

@[simp] theorem length_permuted (vs : List ℕ) : (permuted vs).length = 19 := by
  rw [permuted, List.length_map, List.length_range]

theorem construct_replicate (h : Huffman) {n : ℕ} (hn : 0 < n) :
    construct h (List.replicate n (-9)) = .error .fault := by
  obtain ⟨n, rfl⟩ := Nat.exists_eq_add_one_of_ne_zero hn.ne'
  rw [construct, List.replicate_succ, List.foldlM_cons, countLength, if_neg (by decide)]
  rfl

theorem shorts_take (ls : List ℕ) (n : ℕ) : (shorts ls).take n = shorts (ls.take n) :=
  List.map_take.symm

theorem shorts_drop (ls : List ℕ) (n : ℕ) : (shorts ls).drop n = shorts (ls.drop n) :=
  List.map_drop.symm

section DynamicCodes

variable {ls : List ℕ} {lencode : Huffman} {nlen ndist : ℕ}

theorem construct_both (hlen : ls.length = nlen + ndist) (hall : ∀ a ∈ ls, a ≤ MAXBITS)
    (hcap : nlen ≤ lencode.capacity) (hdist : ndist ≤ MAXDCODES) :
    ∃ err h₁ err' h₂, construct lencode (shorts (ls.take nlen)) = .ok (err, h₁) ∧
      construct ⟨fun _ => 0, fun _ => 0, MAXDCODES⟩ (shorts (ls.drop nlen)) = .ok (err', h₂) ∧
      (refused err h₁ nlen = true ↔ ¬ Usable (ls.take nlen)) ∧
      (refused err' h₂ ndist = true ↔ ¬ Usable (ls.drop nlen)) ∧
      (Usable (ls.take nlen) → Fitting (ls.take nlen) ∧ Table (ls.take nlen) h₁) ∧
      (Usable (ls.drop nlen) → Fitting (ls.drop nlen) ∧ Table (ls.drop nlen) h₂) := by
  have htake : (ls.take nlen).length = nlen := by
    rw [List.length_take]
    omega
  have hdrop : (ls.drop nlen).length = ndist := by
    rw [List.length_drop]
    omega
  have hle : ∀ a ∈ ls.take nlen, a ≤ MAXBITS := fun a ha => hall a (List.mem_of_mem_take ha)
  have hle' : ∀ a ∈ ls.drop nlen, a ≤ MAXBITS := fun a ha => hall a (List.mem_of_mem_drop ha)
  obtain ⟨err, h₁, hconstruct, hrefused, htable, -⟩ := construct_usable lencode hle
    (by rwa [htake])
  obtain ⟨err', h₂, hconstruct', hrefused', htable', -⟩ := construct_usable
    ⟨fun _ => 0, fun _ => 0, MAXDCODES⟩ hle' (by rwa [hdrop])
  rw [htake] at hrefused
  rw [hdrop] at hrefused'
  exact ⟨err, h₁, err', h₂, hconstruct, hconstruct', hrefused, hrefused',
    fun husable => ⟨fitting_of_usable husable hle, htable husable⟩,
    fun husable => ⟨fitting_of_usable husable hle', htable' husable⟩⟩

theorem Reading.dynamicCodes_outcome {bad : Prop} (hsmall : Small dest source)
    (hlen : ls.length = nlen + ndist) (hall : ∀ a ∈ ls, a ≤ MAXBITS)
    (hcap : nlen ≤ lencode.capacity) (hdist : ndist ≤ MAXDCODES) (h : Reading dest source o l s) :
    Outcome dest bad (Ended dest source fun o' l' => Usable (ls.take nlen) ∧
      Usable (ls.drop nlen) ∧ Tokens (ls.take nlen) (ls.drop nlen) o l o' l')
      (dynamicCodes lencode nlen ndist (shorts ls) s) := by
  obtain ⟨err, h₁, err', h₂, hconstruct, hconstruct', hrefused, hrefused', htable, htable'⟩ :=
    construct_both hlen hall hcap hdist
  rw [dynamicCodes, shorts_take, shorts_drop, hconstruct, ok_bind]
  by_cases husable : Usable (ls.take nlen)
  · simp only [if_neg fun hr => hrefused.mp hr husable, hconstruct', ok_bind]
    by_cases husable' : Usable (ls.drop nlen)
    · rw [if_neg fun hr => hrefused'.mp hr husable']
      have hdrop : (ls.drop nlen).length ≤ MAXDCODES := by
        rw [List.length_drop]
        omega
      refine (h.codes_outcome (htable husable).2 (htable' husable').2 hdrop hsmall
        h.length_lt_fuel).mono id ?_
      rintro err s' (⟨rfl, o', l', htokens, h'⟩ | herr)
      · exact .inl ⟨rfl, o', l', ⟨husable, husable', htokens⟩, h'⟩
      · exact .inr herr
    · rw [if_pos (hrefused'.mpr husable')]
      exact .ok (.inr ⟨by decide, h.bounded⟩)
  · simp only [if_pos (hrefused.mpr husable)]
    exact .ok (.inr ⟨by decide, h.bounded⟩)

theorem Reading.dynamicCodes_eq (hsmall : Small dest source) (hlen : ls.length = nlen + ndist)
    (hall : ∀ a ∈ ls, a ≤ MAXBITS) (hcap : nlen ≤ lencode.capacity) (hdist : ndist ≤ MAXDCODES)
    (husable : Usable (ls.take nlen)) (husable' : Usable (ls.drop nlen)) {o' : List Byte}
    {l' : List Bool} (htokens : Tokens (ls.take nlen) (ls.drop nlen) o l o' l')
    (hfits : Fits dest o'.length) (h : Reading dest source o l s) :
    ∃ s', dynamicCodes lencode nlen ndist (shorts ls) s = .ok (0, s') ∧
      Reading dest source o' l' s' := by
  obtain ⟨err, h₁, err', h₂, hconstruct, hconstruct', hrefused, hrefused', htable, htable'⟩ :=
    construct_both hlen hall hcap hdist
  obtain ⟨hfit, ht⟩ := htable husable
  obtain ⟨hfit', ht'⟩ := htable' husable'
  obtain ⟨s', hcodes, h'⟩ := h.codes_eq hfit ht hfit' ht' hsmall h.length_lt_fuel htokens hfits
  refine ⟨s', ?_, h'⟩
  rw [dynamicCodes, shorts_take, shorts_drop, hconstruct, ok_bind]
  simp only [if_neg fun hr => hrefused.mp hr husable, hconstruct', ok_bind]
  rw [if_neg fun hr => hrefused'.mp hr husable', hcodes]

end DynamicCodes

theorem Reading.dynamic_outcome (hsmall : Small dest source) (h : Reading dest source o l s) :
    Outcome dest (NoCode l) (Ended dest source (Block o 2 l)) (dynamic s) := by
  rw [dynamic]
  refine (h.bits_outcome 5).bind ?_
  rintro x s₁ ⟨hx, l₁, rfl, h₁⟩
  refine (h₁.bits_outcome 5).bind ?_
  rintro y s₂ ⟨hy, l₂, rfl, h₂⟩
  refine (h₂.bits_outcome 4).bind ?_
  rintro z s₃ ⟨hz, l₃, rfl, h₃⟩
  by_cases hmany : MAXLCODES < x + 257 ∨ MAXDCODES < y + 1
  · simp only [if_pos hmany]
    exact .ok (.inr ⟨by decide, h₃.bounded⟩)
  simp only [if_neg hmany]
  refine (h₃.codeLengths_outcome (by omega)).bind ?_
  rintro lengths s₄ ⟨vs, l₄, rfl, hlen, hall, rfl, h₄⟩
  have hheader : Header (x + 257) (y + 1) (permuted vs) _ l₄ :=
    .mk hx hy hz (by omega) (by omega) hlen hall
  obtain ⟨err, lencode, hconstruct, hcount, hneg, hzero, htable, hcap⟩ :=
    construct_spec ⟨fun _ => 0, fun _ => 0, MAXLCODES⟩ (permuted_le hall)
      ((length_permuted vs).trans_le (by decide))
  simp only [hconstruct, ok_bind]
  by_cases herr : err = 0
  · have hnlen : x + 257 ≤ lencode.capacity := by
      rw [hcap]
      exact Nat.le_of_not_lt fun hlt => hmany (.inl hlt)
    rw [if_neg (not_not.mpr herr)]
    obtain hnone | hleft := hzero.mp herr
    · have hnone' : ∀ a ∈ permuted vs, a = 0 :=
        fun a ha => (List.count_eq_length.mp hnone a ha).symm
      refine (readLengths_noCode (htable (by omega)) hnone' h₄.sound h₄.bounded).bind ?_
      rintro r s₅ rfl
      have htake : (List.replicate (x + 257 + (y + 1)) (-9 : ℤ)).take (x + 257) =
          List.replicate (x + 257) (-9) := by
        rw [List.take_replicate]
        congr 1
        omega
      simp only [dynamicCodes, htake, construct_replicate _ (Nat.succ_pos _), error_bind]
      exact .fault ⟨_, _, _, _, hheader, hnone'⟩
    · rw [show ([] : List ℤ) = shorts [] from rfl]
      refine (h₄.readLengths_outcome (htable (by omega)) (length_permuted vs) hleft
        (Nat.zero_le _) (by rw [List.length_nil]; omega)).bind ?_
      rintro r s₅ (⟨ls, l₅, rfl, hls, h₅⟩ | ⟨e, rfl, he, hbounded⟩)
      · obtain ⟨hlen', -, hle⟩ := facts_of_lengths hls nofun
        refine (h₅.dynamicCodes_outcome hsmall hlen' hle hnlen (by omega)).mono id ?_
        rintro e s' (⟨rfl, o', l', ⟨husable, husable', htokens⟩, h'⟩ | he)
        · exact .inl ⟨rfl, o', l', .dynamic hheader hleft hls husable husable' htokens, h'⟩
        · exact .inr he
      · exact .ok (.inr ⟨he, hbounded⟩)
  · simp only [if_pos herr]
    exact .ok (.inr ⟨by decide, h₄.bounded⟩)

theorem Reading.dynamic_eq (hsmall : Small dest source) {nlen ndist : ℕ} {codes ls : List ℕ}
    {o' : List Byte} {l₁ l₂ l' : List Bool} (hheader : Header nlen ndist codes l l₁)
    (hleft : left codes.count MAXBITS = 0) (hls : Lengths codes (nlen + ndist) [] l₁ ls l₂)
    (husable : Usable (ls.take nlen)) (husable' : Usable (ls.drop nlen))
    (htokens : Tokens (ls.take nlen) (ls.drop nlen) o l₂ o' l') (hfits : Fits dest o'.length)
    (h : Reading dest source o l s) :
    ∃ s', dynamic s = .ok (0, s') ∧ Reading dest source o' l' s' := by
  obtain @⟨x, y, z, vs, l, hx, hy, hz, hnlen, hndist, hlen, hall⟩ := hheader
  obtain ⟨s₁, hbits₁, h₁⟩ := h.bits_eq hx
  obtain ⟨s₂, hbits₂, h₂⟩ := h₁.bits_eq hy
  obtain ⟨s₃, hbits₃, h₃⟩ := h₂.bits_eq hz
  obtain ⟨s₄, hcodes, h₄⟩ := h₃.codeLengths_eq (by omega) hall
  obtain ⟨err, lencode, hconstruct, -, -, hzero, htable, hcap⟩ :=
    construct_spec ⟨fun _ => 0, fun _ => 0, MAXLCODES⟩ (permuted_le hall)
      ((length_permuted vs).trans_le (by decide))
  have herr : err = 0 := hzero.mpr (.inr hleft)
  obtain ⟨hlen', -, hle⟩ := facts_of_lengths hls nofun
  have hfuel : x + 257 + (y + 1) < ([] : List ℕ).length + (x + 257 + (y + 1) + 1) := by
    rw [List.length_nil]
    omega
  obtain ⟨s₅, hread, h₅⟩ :=
    h₄.readLengths_eq ⟨permuted_le hall, hleft.ge⟩ (htable herr.ge) hfuel hls
  obtain ⟨s₆, hdynamic, h₆⟩ := h₅.dynamicCodes_eq hsmall hlen' hle (hnlen.trans_eq hcap.symm)
    hndist husable husable' htokens hfits
  have hfew : ¬ (MAXLCODES < x + 257 ∨ MAXDCODES < y + 1) := by omega
  refine ⟨s₆, ?_, h₆⟩
  rw [dynamic, hbits₁, ok_bind]
  simp only [hbits₂, hbits₃, ok_bind, if_neg hfew]
  rw [← hlen, hcodes, ok_bind]
  simp only [hconstruct, ok_bind, herr, ne_eq, not_true_eq_false, if_false]
  rw [show ([] : List ℤ) = shorts [] from rfl, hread, ok_bind]
  exact hdynamic

theorem fixedLengths_eq : fixedLengths = shorts fixedLencodes := by
  simp only [fixedLengths, shorts, fixedLencodes, List.map_append, List.map_replicate]
  rfl

theorem fixed_fitting : Fitting fixedLencodes := by
  refine ⟨?_, ?_⟩
  · intro a ha
    simp only [fixedLencodes, List.mem_append, List.mem_replicate] at ha
    rw [MAXBITS]
    omega
  · simp [left, MAXBITS, fixedLencodes, List.count_replicate, -List.reduceReplicate]

theorem fixed_fitting' : Fitting (List.replicate MAXDCODES 5) := by
  refine ⟨?_, ?_⟩
  · intro a ha
    rw [List.eq_of_mem_replicate ha]
    decide
  · simp [left, MAXBITS, MAXDCODES]

theorem length_fixedLencodes : fixedLencodes.length = FIXLCODES := by
  simp only [fixedLencodes, List.length_append, List.length_replicate]
  rfl

theorem exists_fixed : ∃ lencode distcode, Table fixedLencodes lencode ∧
    Table (List.replicate MAXDCODES 5) distcode ∧
    ∀ s, fixed s = codes lencode distcode s.fuel s := by
  obtain ⟨err, lencode, hconstruct, -, hneg, -, htable, -⟩ :=
    construct_spec ⟨fun _ => 0, fun _ => 0, FIXLCODES⟩ fixed_fitting.le
      length_fixedLencodes.le
  obtain ⟨err', distcode, hconstruct', -, hneg', -, htable', -⟩ :=
    construct_spec ⟨fun _ => 0, fun _ => 0, MAXDCODES⟩ fixed_fitting'.le
      (by rw [List.length_replicate])
  have hleft := fixed_fitting.left_nonneg
  have hleft' := fixed_fitting'.left_nonneg
  refine ⟨lencode, distcode, htable (by omega), htable' (by omega), fun s => ?_⟩
  have hshorts : List.replicate MAXDCODES (5 : ℤ) = shorts (List.replicate MAXDCODES 5) := by
    rw [shorts, List.map_replicate]
    rfl
  rw [fixed, fixedLengths_eq, hconstruct, ok_bind]
  simp only [hshorts, hconstruct', ok_bind]

theorem Reading.fixed_outcome {bad : Prop} (hsmall : Small dest source)
    (h : Reading dest source o l s) :
    Outcome dest bad (Ended dest source (Block o 1 l)) (fixed s) := by
  obtain ⟨lencode, distcode, ht, ht', hfixed⟩ := exists_fixed
  rw [hfixed]
  refine (h.codes_outcome ht ht' (by rw [List.length_replicate]) hsmall h.length_lt_fuel).mono
    id ?_
  rintro err s' (⟨rfl, o', l', htokens, h'⟩ | herr)
  · exact .inl ⟨rfl, o', l', .fixed htokens, h'⟩
  · exact .inr herr

theorem Reading.fixed_eq (hsmall : Small dest source) {o' : List Byte} {l' : List Bool}
    (htokens : Tokens fixedLencodes (List.replicate MAXDCODES 5) o l o' l')
    (hfits : Fits dest o'.length) (h : Reading dest source o l s) :
    ∃ s', fixed s = .ok (0, s') ∧ Reading dest source o' l' s' := by
  obtain ⟨lencode, distcode, ht, ht', hfixed⟩ := exists_fixed
  rw [hfixed]
  exact h.codes_eq fixed_fitting ht fixed_fitting' ht' hsmall h.length_lt_fuel htokens hfits

end Dynamic

end NaviMisc.Metalkit.Puff
