import NaviMisc.Spreadfs.Directory

/-!
A cached listing follows the copies of the directory, where no event is misread.
-/

namespace NaviMisc.Spreadfs

open NaviMisc.Lib.Runs SpreadDirectory

section Names

variable {name p filename : Str}

theorem lastComponent_of_not_mem (h : '/' ∉ name) : lastComponent name = name := by
  have hall : ∀ x ∈ name.reverse, decide (x ≠ '/') = true := by
    intro x hx
    rw [List.mem_reverse] at hx
    exact decide_eq_true fun heq => h (heq ▸ hx)
  rw [lastComponent, List.takeWhile_eq_self_iff.mpr hall, List.reverse_reverse]

theorem lastComponent_append (p : Str) (h : '/' ∉ name) :
    lastComponent (p ++ '/' :: name) = name := by
  have hall : ∀ x ∈ name.reverse, decide (x ≠ '/') = true := by
    intro x hx
    rw [List.mem_reverse] at hx
    exact decide_eq_true fun heq => h (heq ▸ hx)
  rw [lastComponent, List.reverse_append, List.reverse_cons, List.append_assoc,
    List.takeWhile_append_of_pos hall]
  simp

theorem afterSlash_eq (h : '/' ∉ afterSlash filename) :
    afterSlash filename = lastComponent filename := by
  unfold afterSlash at h ⊢
  split_ifs at h ⊢ with hslash
  · have hne : filename.dropWhile (· ≠ '/') ≠ [] := by
      rw [Ne, List.dropWhile_eq_nil_iff]
      intro hall
      simpa using hall '/' hslash
    have hhead : (filename.dropWhile (· ≠ '/')).head hne = '/' := by
      simpa using List.head_dropWhile_not (· ≠ '/') hne
    have hdrop : filename.dropWhile (· ≠ '/') = '/' :: (filename.dropWhile (· ≠ '/')).tail := by
      have h := List.cons_head_tail hne
      rw [hhead] at h
      exact h.symm
    have hsplit : lastComponent filename =
        lastComponent (filename.takeWhile (· ≠ '/') ++ filename.dropWhile (· ≠ '/')) := by
      rw [List.takeWhile_append_dropWhile]
    rw [hsplit, hdrop, lastComponent_append _ h, List.tail_cons]
  · rw [lastComponent_of_not_mem hslash]

end Names

section Dict

variable {dict : List (Str × Str)} {key value : Str}

def Has (dict : List (Str × Str)) (key : Str) : Prop := ∃ value, (key, value) ∈ dict

theorem has_dictSet {key' : Str} :
    Has (dictSet dict key value) key' ↔ key' = key ∨ Has dict key' := by
  unfold Has dictSet
  by_cases h : key' = key
  · subst h
    simp
  · simp [h]

theorem has_dictDel {key' : Str} : Has (dictDel dict key) key' ↔ key' ≠ key ∧ Has dict key' := by
  unfold Has dictDel
  by_cases h : key' = key
  · subst h
    simp
  · simp [h]

end Dict

variable {Disk : Type} {c : Copies Disk} {s : SpreadDirectory Disk}

def pending (events : List FamEvent) (name : Str) : List FamEvent :=
  events.filter fun e => lastComponent e.filename = name

/-- A file that is there is listed or will be, and one that is not there will be gone from the
listing: the last event of it is that it was deleted. -/
structure Follows (c : Copies Disk) (s : SpreadDirectory Disk) : Prop where
  names : ∀ disk, ∀ name ∈ s.names disk, '/' ∉ name
  codes : ∀ e ∈ s.events, e.code = .created ∨ e.code = .deleted
  handles : ∀ dict ∈ s.dirCache, ∀ e ∈ dict, e.2 = childHandle c e.1
  listed : ∀ dict ∈ s.dirCache, ∀ name, s.Present c name →
    Has dict name ∨ ∃ e ∈ pending s.events name, e.code = .created
  gone : ∀ dict ∈ s.dirCache, ∀ name, ¬s.Present c name → Has dict name →
    pending s.events name ≠ []
  last : ∀ name, ¬s.Present c name → ∀ e ∈ (pending s.events name).getLast?, e.code = .deleted
  unmonitored : s.monitored = false → s.events = [] ∧ s.dirCache = none
  uncached : s.dirCache = none → s.monitored = false

theorem pending_append (events : List FamEvent) (e : FamEvent) (name : Str) :
    pending (events ++ [e]) name =
      pending events name ++ if lastComponent e.filename = name then [e] else [] := by
  by_cases h : lastComponent e.filename = name <;> simp [pending, h]

theorem pending_cons (events : List FamEvent) (e : FamEvent) (name : Str) :
    pending (e :: events) name =
      (if lastComponent e.filename = name then [e] else []) ++ pending events name := by
  by_cases h : lastComponent e.filename = name <;> simp [pending, h]

theorem found_iff {name : Str} (h : '/' ∉ name) : s.found c name = true ↔ s.Present c name := by
  simp [found, h, Present]

theorem lastComponent_report {name : Str} (h : '/' ∉ name) (disk : Disk) (absolute : Bool) :
    lastComponent (if absolute then c.copyPath disk ++ '/' :: name else name) = name := by
  cases absolute with
  | false => exact lastComponent_of_not_mem h
  | true => exact lastComponent_append _ h

theorem present_congr {s' : SpreadDirectory Disk} {name : Str}
    (h : ∀ disk, name ∈ s'.names disk ↔ name ∈ s.names disk) :
    s'.Present c name ↔ s.Present c name :=
  exists_congr fun disk => and_congr_right fun _ => h disk

theorem has_foldl (names : List Str) (dict : List (Str × Str)) (name : Str) :
    Has (names.foldl (fun dict name => dictSet dict name (childHandle c name)) dict) name ↔
      name ∈ names ∨ Has dict name := by
  induction names generalizing dict with
  | nil => simp
  | cons name' names ih => rw [List.foldl_cons, ih, has_dictSet, List.mem_cons, ← or_assoc,
      or_comm (a := name ∈ names)]

theorem handles_dictSet {dict : List (Str × Str)} (h : ∀ e ∈ dict, e.2 = childHandle c e.1)
    (name : Str) : ∀ e ∈ dictSet dict name (childHandle c name), e.2 = childHandle c e.1 := by
  intro e he
  rcases List.mem_cons.mp he with rfl | he
  · rfl
  · exact h e (List.mem_of_mem_filter he)

theorem handles_foldl (names : List Str) {dict : List (Str × Str)}
    (h : ∀ e ∈ dict, e.2 = childHandle c e.1) :
    ∀ e ∈ names.foldl (fun dict name => dictSet dict name (childHandle c name)) dict,
      e.2 = childHandle c e.1 := by
  induction names generalizing dict with
  | nil => exact h
  | cons name names ih => exact ih (handles_dictSet h name)

theorem get_dir_some {dict : List (Str × Str)} (h : s.dirCache = some dict) :
    s.get_dir c = ({ s with monitored := true }, dict) := by
  unfold get_dir
  split <;> simp_all

theorem get_dir_none (h : s.dirCache = none) :
    s.get_dir c =
      ({ s with
          monitored := true
          dirCache := some ((s.listdir c).foldl
            (fun dict name => dictSet dict name (childHandle c name)) []) },
        (s.listdir c).foldl (fun dict name => dictSet dict name (childHandle c name)) []) := by
  unfold get_dir
  split <;> simp_all

theorem mem_listdir {name : Str} : name ∈ s.listdir c ↔ s.Present c name := List.mem_flatMap

namespace Follows

variable (h : Follows c s)
include h

theorem change {names : Disk → List Str} {code : Code} {disk : Disk} {name : Str} {absolute : Bool}
    (hname : '/' ∉ name) (hnames : ∀ disk, ∀ name ∈ names disk, '/' ∉ name)
    (hother : ∀ name', name' ≠ name →
      (Present c { s with names := names } name' ↔ s.Present c name'))
    (hcode : code = .created ∧ Present c { s with names := names } name ∨
      code = .deleted ∧ (Present c { s with names := names } name → s.Present c name)) :
    Follows c { s with names := names, events := s.report c code disk name absolute } := by
  have hlast := lastComponent_report (c := c) hname disk absolute
  rcases Bool.eq_false_or_eq_true s.monitored with hmon | hmon
  rotate_left
  · obtain ⟨hevents, hcache⟩ := h.unmonitored hmon
    have hreport : s.report c code disk name absolute = [] := by simp [report, hmon, hevents]
    rw [hreport]
    refine ⟨hnames, by simp, by simp [hcache], by simp [hcache], by simp [hcache],
      by simp [pending], fun _ => ⟨rfl, hcache⟩, h.uncached⟩
  · have hreport : s.report c code disk name absolute = s.events ++
        [⟨code, if absolute then c.copyPath disk ++ '/' :: name else name⟩] := by
      simp [report, hmon]
    rw [hreport]
    refine ⟨hnames, ?_, h.handles, ?_, ?_, ?_, by simp [hmon], h.uncached⟩
    · intro e he
      rw [List.mem_append, List.mem_singleton] at he
      rcases he with he | rfl
      · exact h.codes e he
      · exact hcode.imp And.left And.left
    · intro dict hdict name' hpres
      change Present c { s with names := names } name' at hpres
      dsimp only
      rw [pending_append, hlast]
      by_cases heq : name' = name
      · subst heq
        rcases hcode with ⟨rfl, -⟩ | ⟨rfl, hback⟩
        · rw [if_pos rfl]
          exact .inr ⟨_, List.mem_append_right _ (List.mem_singleton_self _), rfl⟩
        · rcases h.listed dict hdict name' (hback hpres) with hhas | ⟨e, he, hcreated⟩
          · exact .inl hhas
          · exact .inr ⟨e, List.mem_append_left _ he, hcreated⟩
      · rw [if_neg (Ne.symm heq), List.append_nil]
        exact h.listed dict hdict name' ((hother name' heq).mp hpres)
    · intro dict hdict name' hpres hhas
      change ¬Present c { s with names := names } name' at hpres
      dsimp only
      rw [pending_append, hlast]
      by_cases heq : name' = name
      · simp [heq]
      · rw [if_neg (Ne.symm heq), List.append_nil]
        exact h.gone dict hdict name' (mt (hother name' heq).mpr hpres) hhas
    · intro name' hpres
      change ¬Present c { s with names := names } name' at hpres
      dsimp only
      rw [pending_append, hlast]
      by_cases heq : name' = name
      · subst heq
        rcases hcode with ⟨rfl, hpres'⟩ | ⟨rfl, -⟩
        · exact absurd hpres' hpres
        · simp
      · rw [if_neg (Ne.symm heq), List.append_nil]
        exact h.last name' (mt (hother name' heq).mpr hpres)

theorem tail {event : FamEvent} {events : List FamEvent} {dict : List (Str × Str)}
    (hevents : s.events = event :: events) (hhandles : ∀ e ∈ dict, e.2 = childHandle c e.1)
    (hlisted : ∀ name, s.Present c name →
      Has dict name ∨ ∃ e ∈ pending events name, e.code = .created)
    (hgone : ∀ name, ¬s.Present c name → Has dict name → pending events name ≠ []) :
    Follows c { s with events := events, dirCache := some dict } := by
  refine ⟨h.names, ?_, ?_, ?_, ?_, ?_, ?_, by simp⟩
  · intro e he
    exact h.codes e (hevents ▸ List.mem_cons_of_mem _ he)
  · rintro dict ⟨rfl⟩
    exact hhandles
  · rintro dict ⟨rfl⟩
    exact hlisted
  · rintro dict ⟨rfl⟩
    exact hgone
  · intro name hpres e he
    apply h.last name hpres
    rw [Option.mem_def] at he ⊢
    rw [hevents, pending_cons, List.getLast?_append, he, Option.some_or]
  · intro hmonitored
    obtain ⟨hnil, -⟩ := h.unmonitored hmonitored
    rw [hevents] at hnil
    cases hnil

section Deliver

variable {event : FamEvent} {events : List FamEvent} (hevents : s.events = event :: events)
include hevents

theorem listed_tail {dict : List (Str × Str)} (hdict : s.dirCache = some dict) {name : Str}
    (hpres : s.Present c name)
    (hne : lastComponent event.filename ≠ name ∨ event.code = .deleted) :
    Has dict name ∨ ∃ e ∈ pending events name, e.code = .created := by
  apply (h.listed dict hdict name hpres).imp_right
  rintro ⟨e, he, hcreated⟩
  rw [hevents, pending_cons, List.mem_append] at he
  rcases he with he | he
  · split_ifs at he with hlast
    · rw [List.mem_singleton.mp he] at hcreated
      rcases hne with hne | hdeleted
      · exact absurd hlast hne
      · rw [hdeleted] at hcreated
        cases hcreated
    · cases he
  · exact ⟨e, he, hcreated⟩

theorem gone_tail {dict : List (Str × Str)} (hdict : s.dirCache = some dict) {name : Str}
    (hpres : ¬s.Present c name) (hhas : Has dict name)
    (hne : lastComponent event.filename ≠ name) : pending events name ≠ [] := by
  have h := h.gone dict hdict name hpres hhas
  rwa [hevents, pending_cons, if_neg hne] at h

theorem gone_created {name : Str} (hpres : ¬s.Present c name) (hcode : event.code = .created)
    (hname : lastComponent event.filename = name) : pending events name ≠ [] := by
  intro hnil
  have hdeleted := h.last name hpres event
    (by rw [hevents, pending_cons, hnil, if_pos hname]; rfl)
  rw [hcode] at hdeleted
  cases hdeleted

end Deliver

theorem get_dir (hevents : s.events = []) (name handle : Str) :
    (name, handle) ∈ (s.get_dir c).2 ↔ s.Present c name ∧ handle = childHandle c name := by
  have hmem : ∀ dict : List (Str × Str), (∀ e ∈ dict, e.2 = childHandle c e.1) →
      ((name, handle) ∈ dict ↔ Has dict name ∧ handle = childHandle c name) := by
    intro dict hdict
    constructor
    · exact fun hin => ⟨⟨handle, hin⟩, hdict _ hin⟩
    · rintro ⟨⟨handle', hin⟩, rfl⟩
      exact hdict _ hin ▸ hin
  cases hcache : s.dirCache with
  | some dict =>
    rw [get_dir_some hcache, hmem dict (h.handles dict hcache)]
    apply and_congr_left'
    constructor
    · intro hhas
      by_contra hpres
      exact h.gone dict hcache name hpres hhas (by simp [pending, hevents])
    · intro hpres
      apply (h.listed dict hcache name hpres).resolve_right
      simp [pending, hevents]
  | none =>
    rw [get_dir_none hcache, hmem _ (handles_foldl _ (by simp)), has_foldl, mem_listdir]
    simp [Has]

variable [DecidableEq Disk]

theorem create {disk : Disk} {name : Str} (absolute : Bool) (hdisk : disk ∈ c.disks)
    (hname : '/' ∉ name) :
    Follows c { s with
      names := Function.update s.names disk (name :: s.names disk)
      events := s.report c .created disk name absolute } := by
  apply h.change hname
  · intro disk' name' hmem
    by_cases heq : disk' = disk
    · subst heq
      rw [Function.update_self, List.mem_cons] at hmem
      rcases hmem with rfl | hmem
      · exact hname
      · exact h.names disk' name' hmem
    · rw [Function.update_of_ne heq] at hmem
      exact h.names disk' name' hmem
  · intro name' hne
    apply present_congr
    intro disk'
    by_cases heq : disk' = disk
    · subst heq
      simp [hne]
    · simp [Function.update_of_ne heq]
  · exact .inl ⟨rfl, disk, hdisk, by simp⟩

theorem delete {disk : Disk} {name : Str} (absolute : Bool) (hname : name ∈ s.names disk) :
    Follows c { s with
      names := Function.update s.names disk ((s.names disk).filter (· ≠ name))
      events := s.report c .deleted disk name absolute } := by
  have hsub : ∀ disk' name', name' ∈ Function.update s.names disk
      ((s.names disk).filter (· ≠ name)) disk' → name' ∈ s.names disk' := by
    intro disk' name' hmem
    by_cases heq : disk' = disk
    · subst heq
      rw [Function.update_self] at hmem
      exact List.mem_of_mem_filter hmem
    · rwa [Function.update_of_ne heq] at hmem
  apply h.change (h.names disk name hname)
  · exact fun disk' name' hmem => h.names disk' name' (hsub disk' name' hmem)
  · intro name' hne
    apply present_congr
    intro disk'
    by_cases heq : disk' = disk
    · subst heq
      simp [hne]
    · simp [Function.update_of_ne heq]
  · exact .inr ⟨rfl, fun ⟨disk', hdisk, hmem⟩ => ⟨disk', hdisk, hsub disk' name hmem⟩⟩

theorem deliver (hq : s.Delivers .deliver) : Follows c (s.step c .deliver) := by
  cases hevents : s.events with
  | nil =>
    have hstep : s.step c .deliver = s := by simp [step, hevents]
    rwa [hstep]
  | cons event events =>
    have hstep : s.step c .deliver = { s with events := events }.onMonitorEvent c event := by
      simp [step, hevents]
    obtain ⟨hslash, hempty⟩ := hq event (by simp [hevents])
    rw [hstep]
    unfold onMonitorEvent
    have hname := afterSlash_eq hslash
    rw [hname] at hslash ⊢
    dsimp only
    have hfound : found c { s with events := events } (lastComponent event.filename) = true ↔
        s.Present c (lastComponent event.filename) := found_iff hslash
    cases hcache : s.dirCache with
    | none =>
      obtain ⟨hnil, -⟩ := h.unmonitored (h.uncached hcache)
      rw [hevents] at hnil
      cases hnil
    | some dict =>
      have hhandles := h.handles dict hcache
      have hcodes := h.codes event (by simp [hevents])
      cases dict with
      | nil =>
        have hdeleted : event.code = .deleted :=
          hcodes.resolve_left fun hcode => hempty hcode hcache
        apply h.tail hevents hhandles
        · intro name hpres
          exact h.listed_tail hevents hcache hpres (.inr hdeleted)
        · rintro name - ⟨value, hmem⟩
          cases hmem
      | cons e dict =>
        rcases hcodes with hcode | hcode
        · rw [if_neg (by simp [hcode]), hcode]
          apply h.tail hevents
          · exact handles_dictSet hhandles _
          · intro name hpres
            rw [has_dictSet, or_assoc, or_iff_not_imp_left]
            intro hne
            exact h.listed_tail hevents hcache hpres (.inl (Ne.symm hne))
          · intro name hpres hhas
            rcases has_dictSet.mp hhas with rfl | hhas
            · exact h.gone_created hevents hpres hcode rfl
            · by_cases heq : lastComponent event.filename = name
              · exact h.gone_created hevents hpres hcode heq
              · exact h.gone_tail hevents hcache hpres hhas heq
        · by_cases hpresent : s.Present c (lastComponent event.filename)
          -- The file is still on another disk, and the event only reports that it changed.
          · rw [if_pos ⟨hcode, hfound.mpr hpresent⟩]
            apply h.tail hevents hhandles
            · intro name hpres
              exact h.listed_tail hevents hcache hpres (.inr hcode)
            · intro name hpres hhas
              apply h.gone_tail hevents hcache hpres hhas
              rintro rfl
              exact hpres hpresent
          · rw [if_neg fun hfind => hpresent (hfound.mp hfind.2), hcode]
            apply h.tail hevents
            · intro e' he'
              exact hhandles e' (List.mem_of_mem_filter he')
            · intro name hpres
              rw [has_dictDel]
              apply (h.listed_tail hevents hcache hpres (.inr hcode)).imp_left
              rintro hhas
              refine ⟨?_, hhas⟩
              rintro rfl
              exact hpresent hpres
            · intro name hpres hhas
              obtain ⟨hne, hhas⟩ := has_dictDel.mp hhas
              exact h.gone_tail hevents hcache hpres hhas (Ne.symm hne)

theorem getDir : Follows c (s.step c .getDir) := by
  unfold SpreadDirectory.step
  dsimp only
  cases hcache : s.dirCache with
  | some dict =>
    rw [get_dir_some hcache]
    exact ⟨h.names, h.codes, h.handles, h.listed, h.gone, h.last, by simp, by simp [hcache]⟩
  | none =>
    rw [get_dir_none hcache]
    refine ⟨h.names, h.codes, ?_, ?_, ?_, h.last, by simp, by simp⟩
    · rintro dict ⟨rfl⟩
      exact handles_foldl _ (by simp)
    · rintro dict ⟨rfl⟩ name hpres
      exact .inl ((has_foldl _ _ _).mpr (.inl (mem_listdir.mpr hpres)))
    · rintro dict ⟨rfl⟩ name hpres hhas
      rcases (has_foldl _ _ _).mp hhas with hmem | ⟨value, hmem⟩
      · exact absurd (mem_listdir.mp hmem) hpres
      · cases hmem

theorem step (a : Action Disk) (hq : s.Delivers a) : Follows c (s.step c a) := by
  cases a with
  | create disk name absolute =>
    by_cases hnew : disk ∈ c.disks ∧ name ≠ [] ∧ '/' ∉ name ∧ name ∉ s.names disk
    · rw [SpreadDirectory.step, if_pos hnew]
      exact h.create absolute hnew.1 hnew.2.2.1
    · rwa [SpreadDirectory.step, if_neg hnew]
  | delete disk name absolute =>
    by_cases hold : disk ∈ c.disks ∧ name ∈ s.names disk
    · rw [SpreadDirectory.step, if_pos hold]
      exact h.delete absolute hold.2
    · rwa [SpreadDirectory.step, if_neg hold]
  | deliver => exact h.deliver hq
  | getDir => exact h.getDir

end Follows

theorem follows_fresh (h : Fresh s) : Follows c s := by
  refine ⟨h.names, ?_, ?_, ?_, ?_, ?_, fun _ => ⟨h.events, h.dirCache⟩, fun _ => h.monitored⟩ <;>
    simp [h.events, h.dirCache, pending]

variable [DecidableEq Disk]

variable (c) in
theorem listing_follows (hs : Fresh s) {actions : List (Action Disk)}
    (hl : Meets (SpreadDirectory.step c) Delivers s actions) :
    Always (SpreadDirectory.step c) (fun s => s.events = [] → ∀ name handle,
      (name, handle) ∈ (s.get_dir c).2 ↔ s.Present c name ∧ handle = childHandle c name)
      s actions := by
  have hfollows := hl.always (P := Follows c) (fun s a h hq => h.step a hq) (follows_fresh hs)
  exact hfollows.mono fun s h hevents name handle => h.get_dir hevents name handle

def copies : Copies Bool where
  disks := [false, true]
  copyPath disk := if disk then "/mnt/b/d".toList else "/mnt/a/d".toList
  path := "/d".toList
  elsewhere _ := false
  fileHandle path := path

def copiesWith (names : List Str) : SpreadDirectory Bool :=
  ⟨fun disk => if disk then [] else names, [], false, none⟩

theorem listing_follows_copies :
    Meets (SpreadDirectory.step copies) Delivers (copiesWith [['y']])
      [.getDir, .create true ['y'] false, .delete false ['y'] false, .deliver, .deliver] ∧
    Always (SpreadDirectory.step copies) (fun s => s.events = [] → ∀ name handle,
      (name, handle) ∈ (s.get_dir copies).2 ↔
        s.Present copies name ∧ handle = childHandle copies name) (copiesWith [['y']])
      [.getDir, .create true ['y'] false, .delete false ['y'] false, .deliver, .deliver] :=
  have hmeets : Meets (SpreadDirectory.step copies) Delivers (copiesWith [['y']])
      [.getDir, .create true ['y'] false, .delete false ['y'] false, .deliver, .deliver] := by
    decide
  ⟨hmeets, listing_follows copies ⟨by decide, rfl, rfl, rfl⟩ hmeets⟩

/-- A file that is created while the listing is empty stays unlisted, and one that is reported with
its path is listed under another name. -/
theorem listing_misses :
    (let s := [Action.getDir, .create false ['x'] false, .deliver].foldl
        (SpreadDirectory.step copies) (copiesWith []);
      s.events = [] ∧ s.Present copies ['x'] ∧ (s.get_dir copies).2 = []) ∧
    (let s := [Action.getDir, .create false ['x'] true, .deliver].foldl
        (SpreadDirectory.step copies) (copiesWith [['y']]);
      s.events = [] ∧ s.Present copies ['x'] ∧
        (s.get_dir copies).2.map Prod.fst = ["mnt/a/d/x".toList, ['y']]) := by
  refine ⟨⟨by decide, ⟨false, by decide⟩, by decide⟩, by decide, ⟨false, by decide⟩, by decide⟩

end NaviMisc.Spreadfs
