import Mathlib.Data.List.Nodup
import Mathlib.Data.List.Pairwise

/-!
Tables of rows with columns that may be null, one of them the primary key.
-/

namespace NaviMisc.Lib.Table

variable {κ τ : Type}

abbrev Row (κ τ : Type) := κ → Option τ

def Row.null : Row κ τ := fun _ => none

def Keyed (primaryKey : κ) (table : List (Row κ τ)) : Prop :=
  table.Pairwise fun row row' => row primaryKey ≠ row' primaryKey

variable {primaryKey : κ} {value : τ} {items : List (κ × τ)} {table : List (Row κ τ)}

theorem Keyed.eq (h : Keyed primaryKey table) {row row' : Row κ τ} (hrow : row ∈ table)
    (hrow' : row' ∈ table) (heq : row primaryKey = row' primaryKey) : row = row' := by
  by_contra hne
  have : Std.Symm fun row row' : Row κ τ => row primaryKey ≠ row' primaryKey := ⟨fun _ _ => Ne.symm⟩
  exact h.forall hrow hrow' hne heq

section select

variable [DecidableEq τ]

def delete (column : κ) (value : τ) (table : List (Row κ τ)) : List (Row κ τ) :=
  table.filter fun row => row column ≠ some value

/-- The rows that meet all constraints: null equals nothing. -/
def select (constraints : List (κ × τ)) (table : List (Row κ τ)) : List (Row κ τ) :=
  table.filter fun row => ∀ c ∈ constraints, row c.1 = some c.2

theorem mem_select {constraints : List (κ × τ)} {row : Row κ τ} :
    row ∈ select constraints table ↔ row ∈ table ∧ ∀ c ∈ constraints, row c.1 = some c.2 := by
  rw [select, List.mem_filter, decide_eq_true_iff]

theorem Keyed.select (h : Keyed primaryKey table) (constraints : List (κ × τ)) :
    Keyed primaryKey (select constraints table) :=
  h.filter _

theorem Keyed.select_eq (h : Keyed primaryKey table) {row : Row κ τ} (hrow : row ∈ table)
    (hvalue : row primaryKey = some value) : Table.select [(primaryKey, value)] table = [row] := by
  have hmem : ∀ row' ∈ Table.select [(primaryKey, value)] table, row' = row := by
    intro row' hrow'
    obtain ⟨hrow', hvalue'⟩ := mem_select.mp hrow'
    apply h.eq hrow' hrow
    rw [hvalue, hvalue' _ List.mem_cons_self]
  have hself : row ∈ Table.select [(primaryKey, value)] table := by
    refine mem_select.mpr ⟨hrow, ?_⟩
    intro c hc
    rw [List.mem_singleton.mp hc]
    exact hvalue
  have hkeyed := h.select [(primaryKey, value)]
  generalize Table.select [(primaryKey, value)] table = selected at hmem hself hkeyed
  match selected with
  | [] => cases hself
  | [row'] => rw [hmem row' List.mem_cons_self]
  | row' :: row'' :: _ =>
    have hne := List.rel_of_pairwise_cons hkeyed List.mem_cons_self
    rw [hmem row' List.mem_cons_self, hmem row'' (List.mem_cons_of_mem _ List.mem_cons_self)] at hne
    exact absurd rfl hne

theorem select_eq_nil (h : ∀ row ∈ table, row primaryKey ≠ some value) :
    select [(primaryKey, value)] table = [] := by
  rw [select, List.filter_eq_nil_iff]
  intro row hrow hselected
  exact h row hrow (of_decide_eq_true hselected (primaryKey, value) List.mem_cons_self)

theorem delete_eq_self (h : ∀ row ∈ table, row primaryKey ≠ some value) :
    delete primaryKey value table = table := by
  rw [delete, List.filter_eq_self]
  intro row hrow
  exact decide_eq_true (h row hrow)

end select

section upsert

variable [DecidableEq κ]

def Row.set (row : Row κ τ) (items : List (κ × τ)) : Row κ τ :=
  fun column => (items.lookup column).or (row column)

theorem Row.set_of_some {row : Row κ τ} {column : κ} (h : items.lookup column = some value) :
    row.set items column = some value := by
  rw [Row.set, h]
  rfl

theorem Row.set_of_none {row : Row κ τ} {column : κ} (h : items.lookup column = none) :
    row.set items column = row column := by
  rw [Row.set, h]
  rfl

variable [DecidableEq τ]

/-- `none` where the primary key is taken already. -/
def insert (primaryKey : κ) (items : List (κ × τ)) (table : List (Row κ τ)) :
    Option (List (Row κ τ)) :=
  if ∃ row ∈ table, row primaryKey ≠ none ∧ row primaryKey = items.lookup primaryKey then none
  else some (table ++ [Row.null.set items])

def update (items : List (κ × τ)) (column : κ) (value : τ) (table : List (Row κ τ)) :
    List (Row κ τ) :=
  table.map fun row => if row column = some value then row.set items else row

def upsert (primaryKey : κ) (value : τ) (items : List (κ × τ)) (table : List (Row κ τ)) :
    List (Row κ τ) :=
  (insert primaryKey items table).getD (update items primaryKey value table)

variable (hvalue : items.lookup primaryKey = some value)
include hvalue

theorem upsert_of_mem {row : Row κ τ} (hrow : row ∈ table) (hkey : row primaryKey = some value) :
    upsert primaryKey value items table = update items primaryKey value table := by
  rw [upsert, insert, if_pos ⟨row, hrow, by simp [hkey], hkey.trans hvalue.symm⟩]
  rfl

theorem upsert_of_not_mem (h : ∀ row ∈ table, row primaryKey ≠ some value) :
    upsert primaryKey value items table = table ++ [Row.null.set items] := by
  rw [upsert, insert, if_neg]
  · rfl
  · rintro ⟨row, hrow, -, hkey⟩
    exact h row hrow (hkey.trans hvalue)

theorem mem_upsert {row : Row κ τ} : row ∈ upsert primaryKey value items table ↔
    (row ∈ table ∧ row primaryKey ≠ some value) ∨
      (∃ old ∈ table, old primaryKey = some value ∧ row = old.set items) ∨
      ((∀ old ∈ table, old primaryKey ≠ some value) ∧ row = Row.null.set items) := by
  by_cases hold : ∃ old ∈ table, old primaryKey = some value
  · obtain ⟨old, hold, hkey⟩ := hold
    rw [upsert_of_mem hvalue hold hkey, update, List.mem_map]
    constructor
    · rintro ⟨row', hrow', rfl⟩
      split
      · rename_i hkey'
        exact .inr (.inl ⟨row', hrow', hkey', rfl⟩)
      · rename_i hkey'
        exact .inl ⟨hrow', hkey'⟩
    · rintro (⟨hrow, hne⟩ | ⟨old', hold', hkey', rfl⟩ | ⟨hnone, -⟩)
      · exact ⟨row, hrow, if_neg hne⟩
      · exact ⟨old', hold', if_pos hkey'⟩
      · exact absurd hkey (hnone old hold)
  · have hnone : ∀ old ∈ table, old primaryKey ≠ some value :=
      fun old hmem hkey => hold ⟨old, hmem, hkey⟩
    rw [upsert_of_not_mem hvalue hnone, List.mem_append, List.mem_singleton]
    constructor
    · rintro (hrow | rfl)
      · exact .inl ⟨hrow, hnone row hrow⟩
      · exact .inr (.inr ⟨hnone, rfl⟩)
    · rintro (⟨hrow, -⟩ | ⟨old, hmem, hkey, -⟩ | ⟨-, rfl⟩)
      · exact .inl hrow
      · exact absurd hkey (hnone old hmem)
      · exact .inr rfl

theorem Keyed.upsert (h : Keyed primaryKey table) :
    Keyed primaryKey (upsert primaryKey value items table) := by
  by_cases hold : ∃ old ∈ table, old primaryKey = some value
  · obtain ⟨old, hold, hkey⟩ := hold
    rw [upsert_of_mem hvalue hold hkey, update, Keyed, List.pairwise_map]
    have hsame : ∀ row : Row κ τ,
        (if row primaryKey = some value then row.set items else row) primaryKey = row primaryKey := by
      intro row
      split
      · rename_i hrow
        rw [Row.set_of_some hvalue, hrow]
      · rfl
    simp only [hsame]
    exact h
  · have hnone : ∀ old ∈ table, old primaryKey ≠ some value :=
      fun old hmem hkey => hold ⟨old, hmem, hkey⟩
    rw [upsert_of_not_mem hvalue hnone, Keyed, List.pairwise_append]
    refine ⟨h, List.pairwise_singleton _ _, ?_⟩
    intro row hrow row' hrow'
    rw [List.mem_singleton.mp hrow']
    rw [Row.set_of_some hvalue]
    exact hnone row hrow

end upsert

end NaviMisc.Lib.Table

/-!
A table with one entry for each key, in the order in which its entries are enumerated.
-/

namespace NaviMisc.Lib

structure Hashtable (κ α : Type*) where
  entries : List (κ × α)
  nodup : (entries.map Prod.fst).Nodup

namespace Hashtable

variable {κ α β : Type*}

def empty : Hashtable κ α := ⟨[], List.nodup_nil⟩

@[ext] theorem ext {h h' : Hashtable κ α} (he : h.entries = h'.entries) : h = h' := by
  cases h
  cases h'
  simp_all

variable [DecidableEq κ] (h : Hashtable κ α) {k : κ} {a : α}

/-- A key that is there already is an error. -/
def Add (k : κ) (a : α) : Option (Hashtable κ α) :=
  if hk : k ∈ h.entries.map Prod.fst then none
  else
    some ⟨h.entries ++ [(k, a)], by
      rw [List.map_append, List.map_singleton, ← List.concat_eq_append]
      exact h.nodup.concat hk⟩

def get (k : κ) : Option α := (h.entries.find? fun e => e.1 = k).map Prod.snd

def Remove (k : κ) : Hashtable κ α :=
  ⟨h.entries.filter fun e => e.1 ≠ k, h.nodup.sublist (List.filter_sublist.map Prod.fst)⟩

def modify (k : κ) (f : α → α) : Hashtable κ α :=
  ⟨h.entries.map fun e => if e.1 = k then (e.1, f e.2) else e, by
    have hkeys : (fun e : κ × α => Prod.fst (if e.1 = k then (e.1, f e.2) else e)) = Prod.fst := by
      funext e
      split_ifs <;> rfl
    rw [List.map_map, Function.comp_def, hkeys]
    exact h.nodup⟩

variable {h}

theorem mem_remove {e : κ × α} : e ∈ (h.Remove k).entries ↔ e ∈ h.entries ∧ e.1 ≠ k := by
  simp [Remove]

theorem mem_modify {f : α → α} {e : κ × α} :
    e ∈ (h.modify k f).entries ↔
      ∃ a, (e.1, a) ∈ h.entries ∧ e.2 = if e.1 = k then f a else a := by
  obtain ⟨key, b⟩ := e
  simp only [modify, List.mem_map, Prod.exists]
  constructor
  · rintro ⟨key', a, hmem, heq⟩
    split_ifs at heq with hk <;> cases heq
    · exact ⟨a, hmem, (if_pos hk).symm⟩
    · exact ⟨b, hmem, (if_neg hk).symm⟩
  · rintro ⟨a, hmem, hb⟩
    refine ⟨key, a, hmem, ?_⟩
    split_ifs at hb ⊢ <;> rw [hb]

theorem entries_of_add {h' : Hashtable κ α} (ha : h.Add k a = some h') :
    h'.entries = h.entries ++ [(k, a)] := by
  unfold Add at ha
  split_ifs at ha
  cases ha
  rfl

theorem exists_add (hk : k ∉ h.entries.map Prod.fst) :
    ∃ h', h.Add k a = some h' ∧ h'.entries = h.entries ++ [(k, a)] :=
  ⟨_, dif_neg hk, rfl⟩

theorem get_eq_some (ha : (k, a) ∈ h.entries) : h.get k = some a := by
  obtain ⟨before, after, he⟩ := List.append_of_mem ha
  have hnodup := h.nodup
  rw [he, List.map_append, List.nodup_append] at hnodup
  have hbefore : ∀ e ∈ before, e.1 ≠ k := by
    intro e hmem heq
    apply hnodup.2.2 e.1 (List.mem_map_of_mem hmem) k _ heq
    simp
  rw [get, he, List.find?_append, List.find?_eq_none.mpr (by simpa using hbefore)]
  simp

theorem mem_of_get (ha : h.get k = some a) : (k, a) ∈ h.entries := by
  obtain ⟨e, he, rfl⟩ := Option.map_eq_some_iff.mp ha
  have hk := List.find?_some he
  rw [decide_eq_true_eq] at hk
  exact hk ▸ List.mem_of_find?_eq_some he

end Hashtable

end NaviMisc.Lib
