import NaviMisc.Spreadfs.Directory

/-!
Paths and handles determine each other over all restarts.
-/

namespace NaviMisc.Spreadfs

open NaviMisc.Lib NaviMisc.Lib.Runs

variable {dbPath : Str} {links : Links} {path handle : Str} {m m' : SpreadMapper}

section Keys

def escapeChar (c : Char) : Str :=
  if c = ',' then [',', ','] else if c = '/' then [',', '_'] else [c]

theorem escape_eq (name : Str) : escape name = name.flatMap escapeChar := by
  rw [escape, Text.replace_singleton, Text.replace_singleton, List.flatMap_assoc]
  congr 1
  funext c
  by_cases hcomma : c = ','
  · subst hcomma
    rfl
  · by_cases hslash : c = '/'
    · subst hslash
      rfl
    · simp [escapeChar, hcomma, hslash]

theorem slash_not_mem_escape (name : Str) : '/' ∉ escape name := by
  rw [escape_eq, List.mem_flatMap]
  rintro ⟨c, -, hc⟩
  unfold escapeChar at hc
  split_ifs at hc with hcomma hslash
  · simp at hc
  · simp at hc
  · exact hslash (List.mem_singleton.mp hc).symm

theorem escapeChar_append_inj {c d : Char} {l m : Str}
    (h : escapeChar c ++ l = escapeChar d ++ m) : c = d ∧ l = m := by
  unfold escapeChar at h
  split_ifs at h <;> grind

theorem escape_injective : Function.Injective escape := by
  intro a b h
  rw [escape_eq, escape_eq] at h
  induction a generalizing b with
  | nil =>
    cases b with
    | nil => rfl
    | cons d b =>
      rw [List.flatMap_nil, List.flatMap_cons, eq_comm, List.append_eq_nil_iff] at h
      have hd := h.1
      unfold escapeChar at hd
      split_ifs at hd
  | cons c a ih =>
    cases b with
    | nil =>
      rw [List.flatMap_nil, List.flatMap_cons, List.append_eq_nil_iff] at h
      have hc := h.1
      unfold escapeChar at hc
      split_ifs at hc
    | cons d b =>
      rw [List.flatMap_cons, List.flatMap_cons] at h
      obtain ⟨rfl, hrest⟩ := escapeChar_append_inj h
      rw [ih hrest]

def dbPrefix (dbPath : Str) : Str :=
  if dbPath = [] ∨ ['/'] <:+ dbPath then dbPath else dbPath ++ ['/']

theorem join_type (type : KeyType) : join dbPath type.name = dbPrefix dbPath ++ type.name := by
  have htype : ¬['/'] <+: type.name := by cases type <;> decide
  rw [join, if_neg htype, dbPrefix]
  split_ifs
  · rfl
  · simp

theorem makeDbKey_eq (type : KeyType) (name : Str) :
    makeDbKey dbPath type name = dbPrefix dbPath ++ (type.name ++ '/' :: escape name) := by
  have hname : ¬['/'] <+: escape name := fun h =>
    slash_not_mem_escape name (h.subset List.mem_cons_self)
  have hdir : ¬(dbPrefix dbPath ++ type.name = [] ∨ ['/'] <:+ dbPrefix dbPath ++ type.name) := by
    rintro (hnil | ⟨t, ht⟩)
    · cases type <;> simp [KeyType.name] at hnil
    · have hlast := congrArg List.getLast? ht
      cases type <;> simp [KeyType.name] at hlast
  rw [makeDbKey, join_type, join, if_neg hname, if_neg hdir, List.append_assoc]

theorem makeDbKey_inj {type type' : KeyType} {name name' : Str}
    (h : makeDbKey dbPath type name = makeDbKey dbPath type' name') : type = type' ∧ name = name' := by
  rw [makeDbKey_eq, makeDbKey_eq] at h
  have hkey := List.append_cancel_left h
  cases type <;> cases type' <;> simp [KeyType.name] at hkey
  · exact ⟨rfl, escape_injective hkey⟩
  · exact ⟨rfl, escape_injective hkey⟩

end Keys

section NewHandle

variable (dbPath links)

def Unused (handle : Str) : Prop := links (makeDbKey dbPath .DB_HANDLE handle) = none

instance (handle : Str) : Decidable (Unused dbPath links handle) :=
  inferInstanceAs (Decidable (_ = none))

def Room : Prop := ∃ id < 2 ^ 31, Unused dbPath links (Ctr.fmt id)

variable {dbPath links}

theorem newHandle_unused {fuel lastId id : ℕ}
    (h : newHandle dbPath links fuel lastId = some (id, handle)) : Unused dbPath links handle := by
  induction fuel generalizing lastId with
  | zero => cases h
  | succ fuel ih =>
    rw [newHandle] at h
    split_ifs at h with hused
    · exact ih h
    · obtain ⟨rfl, rfl⟩ := Prod.mk.inj (Option.some.inj h)
      exact Option.not_isSome_iff_eq_none.mp hused

theorem newHandle_isSome {k fuel lastId : ℕ} (hk : k < fuel)
    (h : Unused dbPath links (Ctr.fmt ((lastId + 1 + k) % 2 ^ 31))) :
    (newHandle dbPath links fuel lastId).isSome = true := by
  induction k generalizing fuel lastId with
  | zero =>
    obtain ⟨fuel, rfl⟩ := Nat.exists_eq_succ_of_ne_zero (Nat.ne_of_gt hk)
    rw [Nat.add_zero] at h
    rw [newHandle]
    rw [h]
    rfl
  | succ k ih =>
    obtain ⟨fuel, rfl⟩ := Nat.exists_eq_succ_of_ne_zero (Nat.ne_of_gt (Nat.zero_lt_of_lt hk))
    rw [newHandle]
    split_ifs
    · apply ih (by omega)
      have hnext : ((lastId + 1) % 2 ^ 31 + 1 + k) % 2 ^ 31 = (lastId + 1 + (k + 1)) % 2 ^ 31 := by
        omega
      rwa [hnext]
    · rfl

theorem newHandle_terminates (h : Room dbPath links) (lastId : ℕ) :
    (newHandle dbPath links (2 ^ 31) lastId).isSome = true := by
  obtain ⟨id, hid, hunused⟩ := h
  have hk : (id + 2 ^ 31 - (lastId + 1) % 2 ^ 31) % 2 ^ 31 < 2 ^ 31 := Nat.mod_lt _ (by decide)
  apply newHandle_isSome hk
  have hreach : (lastId + 1 + (id + 2 ^ 31 - (lastId + 1) % 2 ^ 31) % 2 ^ 31) % 2 ^ 31 = id := by
    omega
  rwa [hreach]

end NewHandle

structure Consistent (dbPath : Str) (links : Links) : Prop where
  path : ∀ path handle, links (makeDbKey dbPath .DB_PATH path) = some handle →
    links (makeDbKey dbPath .DB_HANDLE handle) = some path
  root : links (makeDbKey dbPath .DB_PATH ['/']) = some (Ctr.fmt 1)

def Keeps (dbPath : Str) (links links' : Links) : Prop :=
  ∀ path handle, links (makeDbKey dbPath .DB_PATH path) = some handle →
    links' (makeDbKey dbPath .DB_PATH path) = some handle

section AddHandle

variable {path' : Str}

theorem links_addHandle_handle :
    (addHandle dbPath m path handle).links (makeDbKey dbPath .DB_HANDLE handle) = some path :=
  Function.update_self _ _ _

theorem links_addHandle_handle_of_ne {handle' : Str} (h : handle' ≠ handle) :
    (addHandle dbPath m path handle).links (makeDbKey dbPath .DB_HANDLE handle') =
      m.links (makeDbKey dbPath .DB_HANDLE handle') := by
  have hself : makeDbKey dbPath .DB_HANDLE handle' ≠ makeDbKey dbPath .DB_HANDLE handle :=
    fun heq => h (makeDbKey_inj heq).2
  have hpath : makeDbKey dbPath .DB_HANDLE handle' ≠ makeDbKey dbPath .DB_PATH path := fun heq => by
    cases (makeDbKey_inj heq).1
  exact (Function.update_of_ne hself _ _).trans (Function.update_of_ne hpath _ _)

theorem links_addHandle_path :
    (addHandle dbPath m path handle).links (makeDbKey dbPath .DB_PATH path) = some handle := by
  have hne : makeDbKey dbPath .DB_PATH path ≠ makeDbKey dbPath .DB_HANDLE handle := fun heq => by
    cases (makeDbKey_inj heq).1
  exact (Function.update_of_ne hne _ _).trans (Function.update_self _ _ _)

theorem links_addHandle_path_of_ne (h : path' ≠ path) :
    (addHandle dbPath m path handle).links (makeDbKey dbPath .DB_PATH path') =
      m.links (makeDbKey dbPath .DB_PATH path') := by
  have hhandle : makeDbKey dbPath .DB_PATH path' ≠ makeDbKey dbPath .DB_HANDLE handle := fun heq => by
    cases (makeDbKey_inj heq).1
  have hpath : makeDbKey dbPath .DB_PATH path' ≠ makeDbKey dbPath .DB_PATH path :=
    fun heq => h (makeDbKey_inj heq).2
  exact (Function.update_of_ne hhandle _ _).trans (Function.update_of_ne hpath _ _)

theorem keeps_addHandle (h : m.links (makeDbKey dbPath .DB_PATH path) = none) :
    Keeps dbPath m.links (addHandle dbPath m path handle).links := by
  intro path' handle' hp
  have hne : path' ≠ path := by
    rintro rfl
    rw [h] at hp
    cases hp
  rw [links_addHandle_path_of_ne hne, hp]

theorem Consistent.addHandle (h : Consistent dbPath m.links)
    (hpath : m.links (makeDbKey dbPath .DB_PATH path) = none)
    (hhandle : Unused dbPath m.links handle) :
    Consistent dbPath (addHandle dbPath m path handle).links where
  path path' handle' hp := by
    by_cases hne : path' = path
    · subst hne
      rw [links_addHandle_path] at hp
      cases hp
      exact links_addHandle_handle
    · rw [links_addHandle_path_of_ne hne] at hp
      have hused := h.path path' handle' hp
      have hne' : handle' ≠ handle := by
        rintro rfl
        rw [hhandle] at hused
        cases hused
      rw [links_addHandle_handle_of_ne hne', hused]
  root := keeps_addHandle hpath _ _ h.root

end AddHandle

theorem getHandleFromPath_spec (h : Consistent dbPath m.links)
    (hroom : (m.links (makeDbKey dbPath .DB_PATH path)).isSome = true ∨ Room dbPath m.links) :
    ∃ m' handle, getHandleFromPath dbPath m path = some (m', handle) ∧
      Consistent dbPath m'.links ∧ Keeps dbPath m.links m'.links ∧
        m'.links (makeDbKey dbPath .DB_PATH path) = some handle := by
  unfold getHandleFromPath
  cases hpath : m.links (makeDbKey dbPath .DB_PATH path) with
  | some handle => exact ⟨m, handle, rfl, h, fun _ _ hp => hp, hpath⟩
  | none =>
    have hroot : path ≠ ['/'] := by
      rintro rfl
      rw [h.root] at hpath
      cases hpath
    have hfree : Room dbPath m.links := by
      rcases hroom with hsome | hfree
      · rw [hpath] at hsome
        cases hsome
      · exact hfree
    obtain ⟨⟨lastId, handle⟩, hnew⟩ := Option.isSome_iff_exists.mp
      (newHandle_terminates hfree m.lastId)
    refine ⟨addHandle dbPath { m with lastId := lastId } path handle, handle, ?_, ?_, ?_, ?_⟩
    · simp only [if_neg hroot, hnew, Option.bind_eq_bind, Option.bind_some]
    · exact Consistent.addHandle (m := { m with lastId := lastId }) h hpath (newHandle_unused hnew)
    · exact keeps_addHandle (m := { m with lastId := lastId }) hpath
    · exact links_addHandle_path

theorem start_empty (dbPath : Str) (lastId : ℕ) : ∃ m, start dbPath (fun _ => none) lastId =
    some (m, Ctr.fmt 1) ∧ Consistent dbPath m.links := by
  refine ⟨addHandle dbPath ⟨fun _ => none, lastId⟩ ['/'] (Ctr.fmt 1), rfl, ?_, links_addHandle_path⟩
  intro path handle hp
  by_cases hroot : path = ['/']
  · subst hroot
    rw [links_addHandle_path] at hp
    cases hp
    exact links_addHandle_handle
  · rw [links_addHandle_path_of_ne hroot] at hp
    cases hp

inductive Op
  | restart (lastId : ℕ)
  | get (path : Str)

structure Session where
  mapper : SpreadMapper
  answers : List (Str × Option Str)

def Session.answer (s : Session) (path : Str) : Option (SpreadMapper × Str) → Session
  | some (m, handle) => ⟨m, s.answers ++ [(path, some handle)]⟩
  | none => { s with answers := s.answers ++ [(path, none)] }

def Session.step (dbPath : Str) (s : Session) : Op → Session
  | .restart lastId => s.answer ['/'] (start dbPath s.mapper.links lastId)
  | .get path => s.answer path (getHandleFromPath dbPath s.mapper path)

def Session.first (dbPath : Str) (lastId : ℕ) : Session :=
  Session.step dbPath ⟨⟨fun _ => none, 0⟩, []⟩ (.restart lastId)

structure Session.Recorded (dbPath : Str) (s : Session) : Prop where
  consistent : Consistent dbPath s.mapper.links
  answers : ∀ a ∈ s.answers, ∃ handle, a.2 = some handle ∧
    s.mapper.links (makeDbKey dbPath .DB_PATH a.1) = some handle

theorem Session.Recorded.answer {s : Session} (h : s.Recorded dbPath)
    (hm : Consistent dbPath m.links) (hkeeps : Keeps dbPath s.mapper.links m.links)
    (hpath : m.links (makeDbKey dbPath .DB_PATH path) = some handle) :
    (s.answer path (some (m, handle))).Recorded dbPath where
  consistent := hm
  answers a ha := by
    rcases List.mem_append.mp ha with ha | ha
    · obtain ⟨handle', hanswer, hlink⟩ := h.answers a ha
      exact ⟨handle', hanswer, hkeeps _ _ hlink⟩
    · rw [List.mem_singleton] at ha
      subst ha
      exact ⟨handle, rfl, hpath⟩

theorem Session.Recorded.step {s : Session} (h : s.Recorded dbPath) (op : Op)
    (hroom : Room dbPath s.mapper.links) : (s.step dbPath op).Recorded dbPath := by
  cases op with
  | restart lastId =>
    have hsome : (s.mapper.links (makeDbKey dbPath .DB_PATH ['/'])).isSome = true := by
      rw [h.consistent.root]
      rfl
    obtain ⟨m', handle, hcall, hm, hkeeps, hpath⟩ :=
      getHandleFromPath_spec (m := ⟨s.mapper.links, lastId⟩) h.consistent (Or.inl hsome)
    rw [Session.step, start, hcall]
    exact h.answer hm hkeeps hpath
  | get path =>
    obtain ⟨m', handle, hcall, hm, hkeeps, hpath⟩ :=
      @getHandleFromPath_spec dbPath path s.mapper h.consistent (Or.inr hroom)
    rw [Session.step, hcall]
    exact h.answer hm hkeeps hpath

theorem recorded_first (dbPath : Str) (lastId : ℕ) :
    (Session.first dbPath lastId).Recorded dbPath := by
  obtain ⟨m, hstart, hm⟩ := start_empty dbPath lastId
  rw [Session.first, Session.step, hstart]
  refine ⟨hm, fun a ha => ?_⟩
  rw [Session.answer, List.nil_append, List.mem_singleton] at ha
  subst ha
  exact ⟨Ctr.fmt 1, rfl, hm.root⟩

theorem handles_bijective (dbPath : Str) (lastId : ℕ) (ops : List Op)
    (hroom : Meets (Session.step dbPath) (fun s _ => Room dbPath s.mapper.links)
      (Session.first dbPath lastId) ops) :
    Always (Session.step dbPath) (fun s =>
      (∀ a ∈ s.answers, ∃ handle, a.2 = some handle ∧
        getPathFromHandle dbPath s.mapper handle = some a.1) ∧
      (∀ a ∈ s.answers, ∀ b ∈ s.answers, a.1 = b.1 ↔ a.2 = b.2) ∧
      ∀ a ∈ s.answers, a.1 = ['/'] → a.2 = some (Ctr.fmt 1))
      (Session.first dbPath lastId) ops := by
  have hrun : Always (Session.step dbPath) (Session.Recorded dbPath)
      (Session.first dbPath lastId) ops :=
    hroom.always (fun _ op h hfree => h.step op hfree) (recorded_first dbPath lastId)
  apply hrun.mono
  intro s h
  refine ⟨fun a ha => ?_, fun a ha b hb => ?_, fun a ha hroot => ?_⟩
  · obtain ⟨handle, hanswer, hlink⟩ := h.answers a ha
    exact ⟨handle, hanswer, h.consistent.path _ _ hlink⟩
  · obtain ⟨handle, hanswer, hlink⟩ := h.answers a ha
    obtain ⟨handle', hanswer', hlink'⟩ := h.answers b hb
    rw [hanswer, hanswer', Option.some.injEq]
    constructor
    · intro hpath
      rw [hpath, hlink'] at hlink
      exact (Option.some.inj hlink).symm
    · rintro rfl
      exact Option.some.inj ((h.consistent.path _ _ hlink).symm.trans (h.consistent.path _ _ hlink'))
  · obtain ⟨handle, hanswer, hlink⟩ := h.answers a ha
    rw [hroot, h.consistent.root] at hlink
    rw [hanswer, hlink]

theorem handles_bijective_one :
    Always (Session.step ['d', 'b']) (fun s =>
      (∀ a ∈ s.answers, ∃ handle, a.2 = some handle ∧
        getPathFromHandle ['d', 'b'] s.mapper handle = some a.1) ∧
      (∀ a ∈ s.answers, ∀ b ∈ s.answers, a.1 = b.1 ↔ a.2 = b.2) ∧
      ∀ a ∈ s.answers, a.1 = ['/'] → a.2 = some (Ctr.fmt 1))
      (Session.first ['d', 'b'] 6) [.get ['/', 'a', ',', 'b']] :=
  handles_bijective ['d', 'b'] 6 [.get ['/', 'a', ',', 'b']] ⟨⟨0, by decide, by decide⟩, trivial⟩

end NaviMisc.Spreadfs
