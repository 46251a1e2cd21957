import NaviMisc.LaserProp.EncoderSimulation
import NaviMisc.Lib.Lists

/-!
The laser enable flags of the samples: they are those of the instructions that the samples were
added to, which may be older than the flag of the encoder.
-/

namespace NaviMisc.LaserProp

open NaviMisc.Lib NaviMisc.Lib.Outcome

def flagsOf (words : List Word) : List ℕ :=
  words.flatMap fun word => List.replicate (unpack word).scnt (unpack word).le

theorem flagsOf_append (words words' : List Word) :
    flagsOf (words ++ words') = flagsOf words ++ flagsOf words' :=
  List.flatMap_append

theorem flagsOf_concat (words : List Word) (word : Word) :
    flagsOf (words ++ [word]) =
      flagsOf words ++ List.replicate (unpack word).scnt (unpack word).le := by
  rw [flagsOf_append, flagsOf, flagsOf, List.flatMap_singleton]

theorem countSamples_concat (words : List Word) (word : Word) :
    countSamples (words ++ [word]) = countSamples words + (unpack word).scnt := by
  rw [countSamples, countSamples, List.foldl_append]
  rfl

theorem length_flagsOf (words : List Word) : (flagsOf words).length = countSamples words := by
  induction words using List.reverseRecOn with
  | nil => rfl
  | append_singleton words word ih =>
    rw [flagsOf_concat, List.length_append, List.length_replicate, ih, countSamples_concat]

theorem samples_flags (le : ℕ) (m : Machine) (l : List ℕ) :
    (l.foldl (Machine.sample 1 le) m).points.map Point.le =
      m.points.map Point.le ++ List.replicate l.length le := by
  induction l generalizing m with
  | nil => exact (List.append_nil _).symm
  | cons i l ih =>
    have hmod : i % 1 = 0 := Nat.mod_one i
    rw [List.foldl_cons, ih, List.length_cons, List.replicate_succ, Machine.sample, if_pos hmod,
      List.map_append, List.append_assoc]
    rfl

theorem interpret_flags {words : List Word} {m : Machine} (h : interpret words 1 = .ok m) :
    m.points.map Point.le = flagsOf words := by
  induction words using List.reverseRecOn generalizing m with
  | nil =>
    cases h
    rfl
  | append_singleton words word ih =>
    obtain ⟨m₀, h₀, hexec⟩ := interpret_concat_ok h
    rw [Machine.exec] at hexec
    obtain ⟨regs, -, hexec⟩ := Lists.bind_eq_ok hexec
    cases hexec
    rw [samples_flags, List.length_range, flagsOf_concat]
    rw [← ih h₀]

namespace Encoder

/-- Samples that are added now carry the flag that was set last: the instruction they are added to
has it, or it has no room for them. -/
def Settled (e : Encoder) : Prop :=
  ∀ word, e.inst.getLast? = some word →
    (unpack word).le = e.le.toNat ∨ (unpack word).scnt = SCNT_MASK

structure Emits (n : ℕ) (e e' : Encoder) : Prop where
  le : e'.le = e.le
  flags : flagsOf e'.inst = flagsOf e.inst ++ List.replicate n e.le.toNat

variable {e e' e'' : Encoder} {n n' : ℕ}

theorem Emits.refl (e : Encoder) : Emits 0 e e := ⟨rfl, (List.append_nil _).symm⟩

theorem Emits.trans (h : Emits n e e') (h' : Emits n' e' e'') : Emits (n + n') e e'' := by
  refine ⟨h'.le.trans h.le, ?_⟩
  rw [h'.flags, h.flags, h.le, List.append_assoc, List.replicate_append_replicate]

theorem unpack_more (last : Word) {scnt : ℕ} (h : scnt ≤ SCNT_MASK) :
    (unpack (pack { unpack last with scnt := scnt, offset := 0 })).scnt = scnt ∧
      (unpack (pack { unpack last with scnt := scnt, offset := 0 })).le = (unpack last).le := by
  have hrange : ({ unpack last with scnt := scnt, offset := 0 } : Fields).InRange :=
    { inRange_unpack last with scnt := h }
  rw [unpack_pack hrange rfl]
  exact ⟨rfl, rfl⟩

theorem unpack_nopWord_le (le : Bool) : (unpack (nopWord le)).le = le.toNat := by
  cases le with
  | false => decide
  | true => decide

theorem flagsOf_concat_pack (init : List Word) (last : Word) {scnt : ℕ} (h : scnt ≤ SCNT_MASK) :
    flagsOf (init ++ [pack { unpack last with scnt := scnt, offset := 0 }]) =
      flagsOf init ++ List.replicate scnt (unpack last).le := by
  rw [flagsOf_concat, (unpack_more last h).1, (unpack_more last h).2]

theorem fill_flags (le : Bool) (inst : List Word) (n : ℕ) {init : List Word} {last : Word}
    (hinst : inst = init ++ [last]) :
    ∃ inst' last', fill le inst n = .ok (inst' ++ [last']) ∧
      flagsOf (inst' ++ [last']) =
        flagsOf init ++ List.replicate (min SCNT_MASK ((unpack last).scnt + n)) (unpack last).le ++
          List.replicate ((unpack last).scnt + n - SCNT_MASK) le.toNat ∧
      ((unpack last').le = le.toNat ∨
        (unpack last').le = (unpack last).le ∧ (unpack last').scnt = (unpack last).scnt + n) := by
  have hmax : (unpack last).scnt ≤ SCNT_MASK := (inRange_unpack last).scnt
  induction inst, n using fill.induct le generalizing init last with
  | case1 inst =>
    refine ⟨init, last, ?_, ?_, Or.inr ⟨rfl, rfl⟩⟩
    · rw [fill, if_pos rfl, hinst]
    · rw [Nat.add_zero, min_eq_right hmax, Nat.sub_eq_zero_of_le hmax, List.replicate_zero,
        List.append_nil, flagsOf_concat]
  | case2 n hn =>
    exact absurd hinst.symm (List.append_ne_nil_of_right_ne_nil _ (List.cons_ne_nil _ []))
  | case3 =>
    rename_i inst n hn hne f scnt rest inst₁ hrest ih
    subst hinst
    simp only [f, scnt, rest, inst₁, List.getLast_concat, List.dropLast_concat] at hrest ih
    obtain ⟨-, -, hscnt⟩ := unpack_nopWord le
    obtain ⟨inst', last', hfill, hflags, hlast⟩ := ih rfl (by rw [hscnt]; exact Nat.zero_le _)
    refine ⟨inst', last', ?_, ?_, Or.inl ?_⟩
    · rw [fill_concat_of_pos le init last hn hrest, hfill]
    · have hfull : min SCNT_MASK ((unpack last).scnt + n) = SCNT_MASK := by omega
      rw [hflags, hfull, flagsOf_concat_pack init last le_rfl, hscnt, unpack_nopWord_le, Nat.zero_add,
        List.append_assoc _ (List.replicate _ le.toNat), List.replicate_append_replicate]
      have hsum (r : ℕ) : min SCNT_MASK r + (r - SCNT_MASK) = r := by omega
      rw [hsum]
    · rw [unpack_nopWord_le] at hlast
      exact hlast.elim id And.left
  | case4 =>
    rename_i inst n hn hne f scnt rest hrest
    subst hinst
    simp only [f, scnt, rest, List.getLast_concat] at hrest
    have hfit : (unpack last).scnt + n ≤ SCNT_MASK := by omega
    refine ⟨init, _, fill_concat_of_not_pos le init last hn hrest, ?_, Or.inr ?_⟩
    · rw [flagsOf_concat_pack init last (min_le_left ..), Nat.sub_eq_zero_of_le hfit,
        List.replicate_zero, List.append_nil]
    · have hmore := unpack_more last (min_le_left SCNT_MASK ((unpack last).scnt + n))
      rw [min_eq_right hfit] at hmore ⊢
      exact ⟨hmore.2, hmore.1⟩

theorem simulate_keeps (h : simulate n e = .ok e') : e'.inst = e.inst ∧ e'.le = e.le := by
  induction n generalizing e with
  | zero =>
    cases h
    exact ⟨rfl, rfl⟩
  | succ n ih =>
    rw [simulate] at h
    obtain ⟨ds, -, h⟩ := Lists.bind_eq_ok h
    obtain ⟨dds, -, h⟩ := Lists.bind_eq_ok h
    obtain ⟨s, -, h⟩ := Lists.bind_eq_ok h
    obtain ⟨hinst, hle⟩ := ih h
    exact ⟨hinst, hle⟩

theorem emit_of_ok (h : emit n e = .ok e') :
    e'.le = e.le ∧ fill e.le e.inst n = .ok e'.inst := by
  obtain ⟨e₁, he₁, h⟩ := Lists.bind_eq_ok h
  obtain ⟨inst, hfill, h⟩ := Lists.bind_eq_ok h
  obtain ⟨hinst, hle⟩ := simulate_keeps he₁
  cases h
  rw [hinst, hle] at hfill
  exact ⟨hle, hfill⟩

theorem emit_flags {init : List Word} {last : Word} (hinst : e.inst = init ++ [last])
    (h : emit n e = .ok e') :
    flagsOf e'.inst = flagsOf init ++
        List.replicate (min SCNT_MASK ((unpack last).scnt + n)) (unpack last).le ++
          List.replicate ((unpack last).scnt + n - SCNT_MASK) e.le.toNat ∧
      ∃ last', e'.inst.getLast? = some last' ∧ ((unpack last').le = e.le.toNat ∨
        (unpack last').le = (unpack last).le ∧ (unpack last').scnt = (unpack last).scnt + n) := by
  obtain ⟨-, hfill⟩ := emit_of_ok h
  obtain ⟨inst', last', hfill', hflags, hlast⟩ := fill_flags e.le e.inst n hinst
  rw [hfill', Except.ok.injEq] at hfill
  rw [← hfill]
  exact ⟨hflags, last', List.getLast?_concat, hlast⟩

theorem emit_emits (hs : e.Settled) (h : emit n e = .ok e') : Emits n e e' ∧ e'.Settled := by
  have hle := (emit_of_ok h).1
  rcases List.eq_nil_or_concat' e.inst with hnil | ⟨init, last, hinst⟩
  · obtain ⟨-, hfill⟩ := emit_of_ok h
    by_cases hn : n = 0
    · rw [hnil, hn, fill, if_pos rfl, Except.ok.injEq] at hfill
      rw [hn]
      refine ⟨⟨hle, by rw [← hfill, hnil]; rfl⟩, fun word hword => ?_⟩
      rw [← hfill] at hword
      cases hword
    · rw [hnil, fill, if_neg hn] at hfill
      cases hfill
  obtain ⟨hflags, last', hlast', hlast⟩ := emit_flags hinst h
  have hmax : (unpack last).scnt ≤ SCNT_MASK := (inRange_unpack last).scnt
  have hmax' : (unpack last').scnt ≤ SCNT_MASK := (inRange_unpack last').scnt
  constructor
  · refine ⟨hle, ?_⟩
    rw [hflags, hinst, flagsOf_concat, List.append_assoc, List.append_assoc]
    congr 1
    rcases hs last (by rw [hinst, List.getLast?_concat]) with hsame | hfull
    · have hsum : min SCNT_MASK ((unpack last).scnt + n) + ((unpack last).scnt + n - SCNT_MASK) =
          (unpack last).scnt + n := by omega
      rw [hsame, List.replicate_append_replicate, List.replicate_append_replicate, hsum]
    · rw [hfull, min_eq_left (Nat.le_add_right ..), Nat.add_sub_cancel_left]
  · intro word hword
    rw [hlast', Option.some.injEq] at hword
    subst hword
    rw [hle]
    rcases hlast with hsame | ⟨hsame, hscnt⟩
    · exact Or.inl hsame
    · rcases hs last (by rw [hinst, List.getLast?_concat]) with hlast | hfull
      · exact Or.inl (hsame.trans hlast)
      · exact Or.inr (by omega)

theorem le_set (e : Encoder) (v : Option (ℚ × ℚ)) (r : Register) : (e.set v r).le = e.le := by
  cases r with
  | s => rfl
  | ds => rfl
  | dds => rfl

theorem setReg_cases {r : Register} {x y : ℚ} (h : setReg r x y e = .ok e') :
    differs (e.get r) x y = .ok false ∧ e' = e ∨
      differs (e.get r) x y = .ok true ∧ Emits 0 e e' ∧ e'.Settled := by
  obtain ⟨b, hb, h⟩ := Lists.bind_eq_ok h
  cases b with
  | false =>
    cases h
    exact Or.inl ⟨hb, rfl⟩
  | true =>
    obtain ⟨i, hi, h⟩ := Lists.bind_eq_ok h
    cases h
    obtain ⟨-, hscnt, hle⟩ := (packFloat_yields r e.le y x).of_ok hi
    have hinst := inst_set e (some (unpackFloat i)) r
    have hset := le_set e (some (unpackFloat i)) r
    refine Or.inr ⟨hb, ⟨hset, ?_⟩, ?_⟩
    · rw [hinst, flagsOf_concat, hscnt]
      rfl
    · intro word hword
      rw [hinst, List.getLast?_concat, Option.some.injEq] at hword
      rw [← hword, hle, hset]
      exact Or.inl rfl

theorem setReg_emits {r : Register} {x y : ℚ} (h : setReg r x y e = .ok e') :
    Emits 0 e e' ∧ (e.Settled → e'.Settled) := by
  rcases setReg_cases h with ⟨-, rfl⟩ | ⟨-, hemits, hsettled⟩
  · exact ⟨.refl e', id⟩
  · exact ⟨hemits, fun _ => hsettled⟩

theorem get_of_setReg {r r' : Register} {x y : ℚ} (h : setReg r x y e = .ok e') (hr : r' ≠ r) :
    e'.get r' = e.get r' := by
  obtain ⟨b, -, h⟩ := Lists.bind_eq_ok h
  cases b with
  | false =>
    cases h
    rfl
  | true =>
    obtain ⟨i, -, h⟩ := Lists.bind_eq_ok h
    cases h
    exact (get_set e (some (unpackFloat i)) r r').trans (if_neg hr)

theorem emit_zero (h : emit 0 e = .ok e') : Emits 0 e e' := by
  obtain ⟨hle, hfill⟩ := emit_of_ok h
  rw [fill, if_pos rfl, Except.ok.injEq] at hfill
  refine ⟨hle, ?_⟩
  rw [← hfill]
  exact (List.append_nil _).symm

theorem nop_emits (h : nop n e = .ok e') : Emits n e e' ∧ e'.Settled := by
  have hsettled : ({ e with inst := e.inst ++ [nopWord e.le] } : Encoder).Settled := by
    intro word hword
    rw [List.getLast?_concat, Option.some.injEq] at hword
    rw [← hword, unpack_nopWord_le]
    exact Or.inl rfl
  obtain ⟨hemits, hsettled'⟩ := emit_emits hsettled h
  refine ⟨⟨hemits.le, ?_⟩, hsettled'⟩
  rw [hemits.flags, flagsOf_concat, (unpack_nopWord e.le).2.2, List.replicate_zero, List.append_nil]

theorem hold_emits (h : hold n e = .ok e') : Emits n e e' ∧ (e.Settled ∨ n ≠ 0 → e'.Settled) := by
  rw [hold] at h
  split_ifs at h with hn
  · cases h
    rw [hn]
    exact ⟨.refl e, fun hor => hor.resolve_right fun hne => hne rfl⟩
  · obtain ⟨e₁, h₁, h⟩ := Lists.bind_eq_ok h
    obtain ⟨e₂, h₂, h⟩ := Lists.bind_eq_ok h
    obtain ⟨hemits, hsettled⟩ := nop_emits h
    have hregs := (setReg_emits h₁).1.trans (setReg_emits h₂).1
    refine ⟨?_, fun _ => hsettled⟩
    have hall := hregs.trans hemits
    rwa [Nat.zero_add] at hall

theorem moveTo_zero {x y : ℚ} (h : moveTo x y 0 e = .ok e') : Emits 0 e e' := by
  obtain ⟨e₁, h₁, h⟩ := Lists.bind_eq_ok h
  obtain ⟨e₂, h₂, h⟩ := Lists.bind_eq_ok h
  obtain ⟨e₃, h₃, h⟩ := Lists.bind_eq_ok h
  exact ((setReg_emits h₁).1.trans (setReg_emits h₂).1).trans
    ((setReg_emits h₃).1.trans (emit_zero h))

theorem emit_pending (hs : ¬e.Settled) (hn : n ≠ 0) (h : emit n e = .ok e') :
    ∃ flag l, flag ≠ e.le.toNat ∧ flagsOf e'.inst = flagsOf e.inst ++ flag :: l := by
  simp only [Settled, not_forall, not_or] at hs
  obtain ⟨last, hlast, hle, hscnt⟩ := hs
  obtain ⟨init, hinst⟩ := List.getLast?_eq_some_iff.mp hlast
  obtain ⟨hflags, -⟩ := emit_flags hinst h
  have hmax : (unpack last).scnt ≤ SCNT_MASK := (inRange_unpack last).scnt
  obtain ⟨k, hk⟩ : ∃ k, min SCNT_MASK ((unpack last).scnt + n) = (unpack last).scnt + (k + 1) :=
    ⟨min SCNT_MASK ((unpack last).scnt + n) - (unpack last).scnt - 1, by omega⟩
  refine ⟨(unpack last).le, List.replicate k (unpack last).le ++
    List.replicate ((unpack last).scnt + n - SCNT_MASK) e.le.toNat, hle, ?_⟩
  rw [hflags, hinst, flagsOf_concat, hk, ← List.replicate_append_replicate, List.replicate_succ]
  simp only [List.append_assoc, List.cons_append]

def Writes (e : Encoder) (dds ds : ℚ × ℚ) : Prop :=
  differs e.dds dds.1 dds.2 = .ok true ∨ differs e.ds ds.1 ds.2 = .ok true

section stroke

variable {e₁ e₂ : Encoder} {dds ds : ℚ × ℚ} (h₁ : setDDS dds.1 dds.2 e = .ok e₁)
  (h₂ : setDS ds.1 ds.2 e₁ = .ok e₂) (h : emit n e₂ = .ok e')
include h₁ h₂ h

theorem stroke_emits (hclean : e.Settled ∨ e.Writes dds ds) : Emits n e e' := by
  obtain ⟨hemits₁, hkeeps₁⟩ := setReg_emits h₁
  obtain ⟨hemits₂, hkeeps₂⟩ := setReg_emits h₂
  have hds : e₁.ds = e.ds := get_of_setReg h₁ (by decide : Register.ds ≠ .dds)
  have hsettled : e₂.Settled := by
    rcases hclean with hs | hdds | hds'
    · exact hkeeps₂ (hkeeps₁ hs)
    · rcases setReg_cases h₁ with ⟨hno, -⟩ | ⟨-, -, hs⟩
      · cases hno.symm.trans hdds
      · exact hkeeps₂ hs
    · rcases setReg_cases h₂ with ⟨hno, -⟩ | ⟨-, -, hs⟩
      · rw [← hds] at hds'
        cases hno.symm.trans hds'
      · exact hs
  have hall := (hemits₁.trans hemits₂).trans (emit_emits hsettled h).1
  rwa [Nat.zero_add] at hall

theorem stroke_pending (hs : ¬e.Settled) (hwrites : ¬e.Writes dds ds) (hn : n ≠ 0) :
    ∃ flag l, flag ≠ e.le.toNat ∧ flagsOf e'.inst = flagsOf e.inst ++ flag :: l := by
  rcases setReg_cases h₁ with ⟨-, rfl⟩ | ⟨hdds, -⟩
  · rcases setReg_cases h₂ with ⟨-, rfl⟩ | ⟨hds, -⟩
    · exact emit_pending hs hn h
    · exact absurd (Or.inr hds) hwrites
  · exact absurd (Or.inl hdds) hwrites

end stroke

theorem setReg_of_not_differs {r : Register} {x y : ℚ} (h : differs (e.get r) x y = .ok false) :
    setReg r x y e = .ok e := by
  rw [setReg, h]
  rfl

theorem emit_one {init : List Word} {last : Word} (hsim : simulate 1 e = .ok e')
    (hinst : e.inst = init ++ [last]) (h : (unpack last).scnt + 1 ≤ SCNT_MASK) :
    emit 1 e = .ok { e' with
      inst := init ++ [pack { unpack last with scnt := (unpack last).scnt + 1, offset := 0 }] } := by
  have hrest : ¬ (unpack last).scnt + 1 - SCNT_MASK > 0 := by omega
  have hfill := fill_concat_of_not_pos e'.le init last one_ne_zero hrest
  rw [min_eq_right h, ← hinst, ← (simulate_keeps hsim).1] at hfill
  rw [emit, hsim]
  change (fill e'.le e'.inst 1 >>= _) = _
  rw [hfill]
  rfl

def homeWords (scnt : ℕ) : List Word :=
  [pack { reg := REG_DDS }, pack { reg := REG_DS }, pack { reg := REG_S, scnt := scnt }]

theorem moveTo_home :
    moveTo 0 0 1 {} =
      .ok { inst := homeWords 1, s := some (0, 0), ds := some (0, 0), dds := some (0, 0) } := by
  let e : Encoder :=
    { inst := homeWords 0, s := some (0, 0), ds := some (0, 0), dds := some (0, 0) }
  have hmove : moveTo 0 0 1 {} = e.emit 1 := by with_unfolding_all rfl
  have hsim : e.simulate 1 = .ok e := by with_unfolding_all rfl
  have hinst : e.inst = (homeWords 0).dropLast ++ [pack { reg := REG_S }] := rfl
  rw [hmove, emit_one hsim hinst (by decide)]
  with_unfolding_all rfl

end Encoder

end NaviMisc.LaserProp
