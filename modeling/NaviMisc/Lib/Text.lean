import Mathlib.Data.List.DropRight

/-!
Texts over any alphabet: replacing every occurrence of a text, cutting off the
ends, and splitting into lines.
-/

namespace NaviMisc.Lib.Text

variable {α : Type*}

section replace

variable [DecidableEq α] {old new l : List α} {a : α}

/-- `skip` elements of the last match are still to be passed over. -/
def replaceFrom (old new : List α) : ℕ → List α → List α
  | _, [] => []
  | skip + 1, _ :: l => replaceFrom old new skip l
  | 0, a :: l =>
    if old <+: a :: l then new ++ replaceFrom old new (old.length - 1) l
    else a :: replaceFrom old new 0 l

def replace (old new l : List α) : List α := replaceFrom old new 0 l

theorem replaceFrom_eq (old new : List α) (skip : ℕ) (l : List α) :
    replaceFrom old new skip l = replace old new (l.drop skip) := by
  induction l generalizing skip with
  | nil =>
    rw [List.drop_nil]
    cases skip <;> rfl
  | cons a l ih =>
    cases skip with
    | zero => rfl
    | succ skip => exact ih skip

theorem replace_cons (h : ¬old <+: a :: l) : replace old new (a :: l) = a :: replace old new l :=
  if_neg h

theorem replace_match (h : old ≠ []) (new l : List α) :
    replace old new (old ++ l) = new ++ replace old new l := by
  obtain ⟨a, rest, rfl⟩ := List.exists_cons_of_ne_nil h
  have hstep : replace (a :: rest) new (a :: rest ++ l) =
      new ++ replaceFrom (a :: rest) new rest.length (rest ++ l) :=
    if_pos (List.prefix_append _ _)
  rw [hstep, replaceFrom_eq, List.drop_left]

theorem prefix_of_prefix_replace (hold : old ≠ []) (hnew : new ≠ []) (ha : a ∉ new)
    (h : [a] <+: replace old new l) : [a] <+: l := by
  cases l with
  | nil => exact h
  | cons b l =>
    by_cases hb : old <+: b :: l
    · obtain ⟨rest, hrest⟩ := hb
      obtain ⟨c, new', rfl⟩ := List.exists_cons_of_ne_nil hnew
      rw [← hrest, replace_match hold, List.cons_append, List.cons_prefix_cons] at h
      rw [h.1] at ha
      exact absurd List.mem_cons_self ha
    · rw [replace_cons hb, List.cons_prefix_cons] at h
      rw [h.1]
      exact List.prefix_append [b] l

theorem replace_rec (hold : old ≠ []) {P : List α → Prop} (nil : P [])
    (cons : ∀ a l, ¬old <+: a :: l → P l → P (a :: l)) (found : ∀ l, P l → P (old ++ l))
    (l : List α) : P l := by
  induction hn : l.length using Nat.strong_induction_on generalizing l with
  | _ n ih =>
    subst hn
    by_cases h : old <+: l
    · obtain ⟨rest, rfl⟩ := h
      apply found
      apply ih rest.length _ rest rfl
      rw [List.length_append]
      exact Nat.lt_add_of_pos_left (List.length_pos_iff.mpr hold)
    · cases l with
      | nil => exact nil
      | cons a l => exact cons a l h (ih l.length (Nat.lt_succ_self _) l rfl)

theorem replace_ne_nil (hold : old ≠ []) (hnew : new ≠ []) (hl : l ≠ []) :
    replace old new l ≠ [] := by
  induction l using replace_rec hold with
  | nil => exact absurd rfl hl
  | cons a l h _ =>
    rw [replace_cons h]
    exact List.cons_ne_nil a _
  | found l _ =>
    rw [replace_match hold]
    exact List.append_ne_nil_of_left_ne_nil hnew _

theorem replace_singleton (a : α) (new l : List α) :
    replace [a] new l = l.flatMap fun b => if b = a then new else [b] := by
  induction l with
  | nil => rfl
  | cons b l ih =>
    rw [List.flatMap_cons]
    by_cases h : b = a
    · subst h
      rw [if_pos rfl, ← ih]
      exact replace_match (List.cons_ne_nil b []) new l
    · rw [if_neg h, ← ih, replace_cons]
      · rfl
      · rw [List.cons_prefix_cons]
        exact fun hpre => h hpre.1.symm

end replace

section strip

variable {p : α → Bool} {l : List α} {a : α}

def rstrip (p : α → Bool) (l : List α) : List α := l.rdropWhile p

def strip (p : α → Bool) (l : List α) : List α := rstrip p (l.dropWhile p)

theorem strip_infix (p : α → Bool) (l : List α) : strip p l <:+: l :=
  (List.rdropWhile_prefix p _).isInfix.trans (List.dropWhile_suffix p).isInfix

theorem strip_cons (h : ¬p a) (l : List α) : strip p (a :: l) = rstrip p (a :: l) := by
  rw [strip, List.dropWhile_cons_of_neg h]

theorem rstrip_eq_self : rstrip p l = l ↔ ∀ h : l ≠ [], ¬p (l.getLast h) :=
  List.rdropWhile_eq_self_iff

theorem rstrip_of_forall (h : ∀ a ∈ l, ¬p a) : rstrip p l = l :=
  rstrip_eq_self.mpr fun hl => h _ (List.getLast_mem hl)

theorem rstrip_rstrip (p : α → Bool) (l : List α) : rstrip p (rstrip p l) = rstrip p l :=
  List.rdropWhile_idempotent p l

theorem rstrip_append_cons (h : ¬p a) (l r : List α) :
    rstrip p (l ++ a :: r) = l ++ a :: rstrip p r := by
  induction r using List.reverseRecOn with
  | nil => exact List.rdropWhile_concat_neg p l a h
  | append_singleton r x ih =>
    have hassoc : l ++ a :: (r ++ [x]) = (l ++ a :: r) ++ [x] := by simp
    rw [hassoc]
    by_cases hx : p x
    · rw [rstrip, List.rdropWhile_concat_pos p _ x hx, rstrip, List.rdropWhile_concat_pos p _ x hx]
      exact ih
    · rw [rstrip, List.rdropWhile_concat_neg p _ x hx, rstrip, List.rdropWhile_concat_neg p _ x hx]
      exact hassoc.symm

theorem rstrip_append_of_forall {l r : List α} (h : ∀ a ∈ r, p a) :
    rstrip p (l ++ r) = rstrip p l := by
  have hreverse : ∀ a ∈ r.reverse, p a := fun a ha => h a (List.mem_reverse.mp ha)
  rw [rstrip, List.rdropWhile, List.reverse_append, List.dropWhile_append_of_pos hreverse]
  rfl

theorem strip_of_forall (h : ∀ a ∈ l, ¬p a) : strip p l = l := by
  cases l with
  | nil => rfl
  | cons a l => rw [strip_cons (h a List.mem_cons_self), rstrip_of_forall h]

/-- What is stripped off stands around a text that does not begin or end with it. -/
theorem strip_between {lead core trail : List α} (hlead : ∀ a ∈ lead, p a)
    (htrail : ∀ a ∈ trail, p a) (hhead : ∀ a, core.head? = some a → ¬p a)
    (hlast : ∀ a, core.getLast? = some a → ¬p a) : strip p (lead ++ core ++ trail) = core := by
  rw [strip, List.append_assoc, List.dropWhile_append_of_pos hlead]
  cases core with
  | nil =>
    rw [List.nil_append, List.dropWhile_eq_nil_iff.mpr htrail]
    rfl
  | cons a rest =>
    rw [List.cons_append, List.dropWhile_cons_of_neg (hhead a rfl), ← List.cons_append,
      rstrip_append_of_forall htrail, rstrip_eq_self]
    intro h
    exact hlast _ (List.getLast?_eq_some_getLast h)

end strip

section find

variable {pat : List (α → Bool)} {p : α → Bool} {a : α} {l : List α}

def startsWith : List (α → Bool) → List α → Bool
  | [], _ => true
  | _ :: _, [] => false
  | p :: pat, a :: l => p a && startsWith pat l

/-- The places of the leftmost matches after `skip` elements, none of which reaches into the next. -/
def finditerFrom (pat : List (α → Bool)) : ℕ → ℕ → List α → List ℕ
  | 0, i, [] => if startsWith pat [] then [i] else []
  | _ + 1, _, [] => []
  | skip + 1, i, _ :: l => finditerFrom pat skip (i + 1) l
  | 0, i, a :: l =>
    if startsWith pat (a :: l) then i :: finditerFrom pat (pat.length - 1) (i + 1) l
    else finditerFrom pat 0 (i + 1) l

def finditer (pat : List (α → Bool)) (l : List α) : List ℕ := finditerFrom pat 0 0 l

theorem startsWith_iff : startsWith pat l ↔
    ∀ (k : ℕ) p, pat[k]? = some p → ∃ a, l[k]? = some a ∧ p a := by
  induction pat generalizing l with
  | nil => simp [startsWith]
  | cons p pat ih =>
    cases l with
    | nil => simpa [startsWith] using ⟨0, p, rfl⟩
    | cons a l =>
      rw [startsWith, Bool.and_eq_true, ih]
      constructor
      · rintro ⟨ha, hl⟩ (_ | k) q hq
        · obtain rfl : p = q := by simpa using hq
          exact ⟨a, rfl, ha⟩
        · exact hl k q hq
      · intro h
        refine ⟨?_, fun k => h (k + 1)⟩
        simpa using h 0 p rfl

theorem startsWith_of_mem {skip i j : ℕ} (h : j ∈ finditerFrom pat skip i l) :
    ∃ k ≤ l.length, j = i + k ∧ startsWith pat (l.drop k) := by
  induction l generalizing skip i with
  | nil =>
    cases skip with
    | zero =>
      rw [finditerFrom] at h
      split_ifs at h with hpat
      · exact ⟨0, le_rfl, by simpa using h, hpat⟩
      · simp at h
    | succ skip => simp [finditerFrom] at h
  | cons a l ih =>
    have hnext : ∀ {skip}, j ∈ finditerFrom pat skip (i + 1) l →
        ∃ k ≤ (a :: l).length, j = i + k ∧ startsWith pat ((a :: l).drop k) := by
      intro skip h
      obtain ⟨k, hk, rfl, hpat⟩ := ih h
      exact ⟨k + 1, Nat.succ_le_succ hk, by omega, hpat⟩
    cases skip with
    | zero =>
      rw [finditerFrom] at h
      split_ifs at h with hpat
      · rcases List.mem_cons.mp h with rfl | h
        · exact ⟨0, Nat.zero_le _, rfl, hpat⟩
        · exact hnext h
      · exact hnext h
    | succ skip => exact hnext h

theorem mem_of_unique {skip i k : ℕ} (hskip : skip ≤ k) (hk : k ≤ l.length)
    (hpat : startsWith pat (l.drop k))
    (hunique : ∀ k' ≤ l.length, startsWith pat (l.drop k') → k' = k) :
    i + k ∈ finditerFrom pat skip i l := by
  induction l generalizing skip i k with
  | nil =>
    obtain rfl : k = 0 := by simpa using hk
    obtain rfl : skip = 0 := by simpa using hskip
    have hpat : startsWith pat ([] : List α) := by simpa using hpat
    simp [finditerFrom, hpat]
  | cons a l ih =>
    have hnext : ∀ {skip}, skip + 1 ≤ k → i + k ∈ finditerFrom pat skip (i + 1) l := by
      intro skip hskip
      obtain ⟨k, rfl⟩ : ∃ k', k = k' + 1 := ⟨k - 1, by omega⟩
      rw [show i + (k + 1) = i + 1 + k by omega]
      apply ih (Nat.le_of_succ_le_succ hskip) (Nat.le_of_succ_le_succ hk) hpat
      intro k' hk' hpat'
      exact Nat.succ_injective (hunique (k' + 1) (Nat.succ_le_succ hk') hpat')
    cases skip with
    | zero =>
      rw [finditerFrom]
      split_ifs with h
      · obtain rfl := hunique 0 (Nat.zero_le _) h
        exact List.mem_cons_self
      · rcases Nat.eq_zero_or_pos k with rfl | hpos
        · exact absurd hpat h
        · exact hnext hpos
    | succ skip => exact hnext hskip

theorem mem_finditer_of_unique {i : ℕ} (hi : i ≤ l.length) (hpat : startsWith pat (l.drop i))
    (hunique : ∀ j ≤ l.length, startsWith pat (l.drop j) → j = i) : i ∈ finditer pat l := by
  simpa [finditer] using mem_of_unique (i := 0) (Nat.zero_le _) hi hpat hunique

theorem of_mem_finditer {i : ℕ} (h : i ∈ finditer pat l) :
    i ≤ l.length ∧ startsWith pat (l.drop i) := by
  obtain ⟨k, hk, rfl, hpat⟩ := startsWith_of_mem h
  simpa using And.intro hk hpat

end find

section split

variable [DecidableEq α] {a : α} {l l' : List α}

theorem splitOn_append (a : α) (l l' : List α) : ∃ init last, l.splitOn a = init ++ [last] ∧
    a ∉ last ∧ (l ++ l').splitOn a = init ++ (last ++ l').splitOn a := by
  induction l with
  | nil => exact ⟨[], [], List.splitOn_nil a, List.not_mem_nil, rfl⟩
  | cons b l ih =>
    obtain ⟨init, last, hsplit, hlast, happend⟩ := ih
    by_cases hb : b = a
    · refine ⟨[] :: init, last, ?_, hlast, ?_⟩
      · rw [List.splitOn_cons_eq_if_modifyHead, if_pos (beq_iff_eq.mpr hb), hsplit, List.cons_append]
      · rw [List.cons_append, List.splitOn_cons_eq_if_modifyHead, if_pos (beq_iff_eq.mpr hb), happend,
          List.cons_append]
    · rw [List.cons_append, List.splitOn_cons_eq_if_modifyHead, List.splitOn_cons_eq_if_modifyHead,
        if_neg (by simpa using hb), if_neg (by simpa using hb), hsplit, happend]
      cases init with
      | nil =>
        refine ⟨[], b :: last, rfl, ?_, ?_⟩
        · rw [List.mem_cons, not_or]
          exact ⟨Ne.symm hb, hlast⟩
        · rw [List.nil_append, List.nil_append, List.cons_append, List.splitOn_cons_eq_if_modifyHead,
            if_neg (by simpa using hb)]
      | cons first init => exact ⟨(b :: first) :: init, last, rfl, hlast, rfl⟩

theorem splitOn_rec (a : α) {P : List α → Prop} (last : ∀ l, a ∉ l → P l)
    (cut : ∀ l l', a ∉ l → P l' → P (l ++ a :: l')) (l : List α) : P l := by
  suffices h : ∀ l, ∀ head, a ∉ head → P (head ++ l) from h l [] List.not_mem_nil
  intro l
  induction l with
  | nil =>
    intro head hhead
    rw [List.append_nil]
    exact last head hhead
  | cons b l ih =>
    intro head hhead
    by_cases hb : b = a
    · rw [hb]
      exact cut head l hhead (ih [] List.not_mem_nil)
    · rw [List.append_cons]
      apply ih
      rw [List.mem_append, List.mem_singleton, not_or]
      exact ⟨hhead, Ne.symm hb⟩

theorem not_mem_of_mem_splitOn (h : l' ∈ l.splitOn a) : a ∉ l' := by
  induction l using splitOn_rec a with
  | last l hl =>
    rw [List.splitOn_eq_singleton hl, List.mem_singleton] at h
    exact h ▸ hl
  | cut head l hhead ih =>
    rw [List.splitOn_append_cons_self_of_not_mem hhead] at h
    rcases List.mem_cons.mp h with rfl | h
    · exact hhead
    · exact ih h

def unlines (a : α) (lines : List (List α)) : List α := lines.flatMap fun line => line ++ [a]

theorem splitOn_unlines {lines : List (List α)} (h : ∀ line ∈ lines, a ∉ line) :
    (unlines a lines).splitOn a = lines ++ [[]] := by
  induction lines with
  | nil => exact List.splitOn_nil a
  | cons line lines ih =>
    have hcons : unlines a (line :: lines) = line ++ a :: unlines a lines := by
      rw [unlines, List.flatMap_cons, List.append_assoc]
      rfl
    rw [hcons, List.splitOn_append_cons_self_of_not_mem (h line List.mem_cons_self),
      ih fun l hl => h l (List.mem_cons_of_mem line hl), List.cons_append]

end split

theorem mem_of_mem_intercalate {a : α} {sep : List α} {ls : List (List α)}
    (h : a ∈ sep.intercalate ls) :
    a ∈ sep ∨ ∃ l ∈ ls, a ∈ l := by
  induction ls with
  | nil => simp at h
  | cons l ls ih =>
    by_cases hls : ls = []
    · subst hls
      simpa using Or.inr h
    · rw [List.intercalate_cons_of_ne_nil hls, List.append_assoc, List.mem_append,
        List.mem_append] at h
      rcases h with h | h | h
      · exact .inr ⟨l, List.mem_cons_self, h⟩
      · exact .inl h
      · exact (ih h).imp_right fun ⟨l', hl', ha⟩ => ⟨l', List.mem_cons_of_mem l hl', ha⟩

end NaviMisc.Lib.Text
