import NaviMisc.Spreadfs.Directory

/-!
Which paths a disk set finds: when they are all below its mounts, and when none is missing.
-/

namespace NaviMisc.Spreadfs

open NaviMisc.Lib.PosixPath

section Join

variable {slashes : ℕ} {comp mount path : Str} {comps comps' : List Str}

theorem join_text (hslashes : slashes ≠ 0) (h : ∀ comp ∈ comps, Name comp) (hcomp : Name comp) :
    join (text slashes comps) comp = text slashes (comps ++ [comp]) := by
  have hrelative : ¬['/'] <+: comp := by
    rintro ⟨rest, rfl⟩
    exact hcomp.noSlash (by simp)
  rw [join, if_neg hrelative]
  rcases List.eq_nil_or_concat comps with rfl | ⟨init, last, rfl⟩
  · have hsuffix : ['/'] <:+ text slashes [] := by
      obtain ⟨n, rfl⟩ := Nat.exists_eq_succ_of_ne_zero hslashes
      rw [text_nil, List.replicate_succ']
      exact List.suffix_append _ _
    rw [if_pos (.inr hsuffix), text_nil, List.nil_append, text_singleton]
  · rw [List.concat_eq_append] at *
    rw [if_neg (not_or.mpr ⟨text_ne_nil hslashes, not_slash_suffix_text (h last (by simp)) slashes⟩),
      text_append_singleton (by simp : init ++ [last] ≠ [])]

theorem foldl_join_text (hslashes : slashes ≠ 0) (h : ∀ comp ∈ comps, Name comp)
    (h' : ∀ comp ∈ comps', Name comp) :
    comps'.foldl join (text slashes comps) = text slashes (comps ++ comps') := by
  induction comps' generalizing comps with
  | nil => rw [List.append_nil, List.foldl_nil]
  | cons comp comps' ih =>
    rw [List.forall_mem_cons] at h'
    rw [List.foldl_cons, join_text hslashes h h'.1, ih _ h'.2, List.append_assoc,
      List.singleton_append]
    rw [List.forall_mem_append, List.forall_mem_singleton]
    exact ⟨h, h'.1⟩

theorem components_join (hne : mount ≠ []) (h : ¬['/'] <+: path) :
    components (join mount path) = components mount ++ components path := by
  rw [join, if_neg h]
  split_ifs with hsuffix
  · obtain ⟨mount, rfl⟩ := hsuffix.resolve_left hne
    rw [List.append_assoc, List.singleton_append, components_append_cons, components_append_cons,
      components_nil, List.append_nil]
  · exact components_append_cons mount path

theorem absolute_join (h : ['/'] <+: mount) (path : Str) : ['/'] <+: join mount path := by
  unfold join
  split_ifs with habsolute
  · exact habsolute
  · exact h.trans (List.prefix_append _ _)
  · exact h.trans (List.prefix_append _ _)

theorem initialSlashes_join (hslashes : slashes = 1 ∨ slashes = 2) (h : ∀ comp ∈ comps, Name comp)
    (hpath : ¬['/'] <+: path) : initialSlashes (join (text slashes comps) path) = slashes := by
  rw [join, if_neg hpath]
  by_cases hcomps : comps = []
  · subst hcomps
    rw [text_nil]
    split_ifs with hsuffix
    · exact initialSlashes_replicate hslashes hpath
    · rcases hslashes with rfl | rfl <;> simp at hsuffix
  · split_ifs with hsuffix
    · exact initialSlashes_text_append hslashes h hcomps _
    · exact initialSlashes_text_append hslashes h hcomps _

theorem abspath_join (h : Normal mount) (cwd path : Str) :
    abspath cwd (join mount path) = text (leadsTo mount path).1 (leadsTo mount path).2 := by
  rw [abspath, if_pos (absolute_join h.absolute path), normpath_eq (absolute_join h.absolute path),
    leadsTo]
  split_ifs with hpath
  · rw [join, if_pos hpath]
  · have hmount : mount ≠ [] := by
      rintro rfl
      simpa using h.absolute
    have hslashes : initialSlashes (join mount path) = initialSlashes mount := by
      conv_lhs => rw [h.eq_text]
      exact initialSlashes_join h.one_or_two h.names hpath
    rw [hslashes, components_join hmount hpath, walk_append, ← h.components_eq_walk]

theorem leadsTo_slashes (h : Normal mount) (path : Str) :
    (leadsTo mount path).1 = 1 ∨ (leadsTo mount path).1 = 2 := by
  unfold leadsTo
  split_ifs with hpath
  · exact initialSlashes_cases hpath
  · exact h.one_or_two

theorem leadsTo_names (h : Normal mount) (path : Str) :
    ∀ comp ∈ (leadsTo mount path).2, Name comp := by
  unfold leadsTo
  split_ifs with hpath
  · exact walk_names (by simp) fun comp hmem => mem_components hmem
  · exact walk_names h.names fun comp hmem => mem_components hmem

end Join

section DiskSet

variable {cwd : Str} {criteria : Str → Bool} {mounts : List Str} {path p : Str}

theorem mem_findIter (hmounts : ∀ mount ∈ mounts, Normal mount) :
    p ∈ findIter cwd criteria mounts path ↔ ∃ mount ∈ mounts,
      p = text (leadsTo mount (relative path)).1 (leadsTo mount (relative path)).2 ∧
      mount <+: p ∧ criteria p = true := by
  rw [findIter, List.mem_filterMap]
  apply exists_congr
  intro mount
  apply and_congr_right
  intro hmem
  rw [abspath_join (hmounts mount hmem)]
  dsimp only
  constructor
  · intro h
    split_ifs at h with hfound
    cases h
    exact ⟨rfl, hfound⟩
  · rintro ⟨rfl, hfound⟩
    exact if_pos hfound

theorem text_beside {mount : Str} (h : Normal mount) {init rest : List Str} {last more : Str}
    (hcomps : components mount = init ++ [last])
    (hnames : ∀ comp ∈ init ++ (last ++ more) :: rest, Name comp) :
    rest.foldl join (mount ++ more) =
      text (initialSlashes mount) (init ++ (last ++ more) :: rest) := by
  rw [List.append_cons, List.forall_mem_append] at hnames
  have hmount : mount ++ more = text (initialSlashes mount) (init ++ [last ++ more]) := by
    rw [text_append_last, ← hcomps, ← h.eq_text]
  rw [hmount, foldl_join_text h.slashes_ne_zero hnames.1 hnames.2, ← List.append_cons]

theorem confined_iff (hmounts : ∀ mount ∈ mounts, Normal mount) :
    Confined cwd criteria mounts path ↔ StaysInside criteria mounts path := by
  constructor
  · intro h mount hmem init last more rest hcomps hmore hleads hcriteria
    have hmount := hmounts mount hmem
    have hnames := leadsTo_names hmount (relative path)
    rw [hleads] at hnames
    have hbeside := (beside_iff hmount.one_or_two hmount.one_or_two hmount.names hnames).mpr
      ⟨rfl, init, last, more, rest, hcomps, hmore, rfl⟩
    rw [← hmount.eq_text] at hbeside
    rw [text_beside hmount hcomps hnames] at hcriteria ⊢
    exact h _ ((mem_findIter hmounts).mpr ⟨mount, hmem, by rw [hleads], hbeside.1, hcriteria⟩)
  · intro h p hp
    obtain ⟨mount, hmem, rfl, hpre, hcriteria⟩ := (mem_findIter hmounts).mp hp
    have hmount := hmounts mount hmem
    have hnames := leadsTo_names hmount (relative path)
    by_cases hwithin :
      Within mount (text (leadsTo mount (relative path)).1 (leadsTo mount (relative path)).2)
    · exact ⟨mount, hmem, hwithin⟩
    have hbeside := beside_iff hmount.one_or_two (leadsTo_slashes hmount (relative path))
      hmount.names hnames
    rw [← hmount.eq_text] at hbeside
    obtain ⟨hslashes, init, last, more, rest, hcomps, hmore, hleads⟩ :=
      hbeside.mp ⟨hpre, hwithin⟩
    rw [hslashes, hleads, ← text_beside hmount hcomps (hleads ▸ hnames)] at hcriteria ⊢
    exact h mount hmem init last more rest hcomps hmore (Prod.ext hslashes hleads) hcriteria

theorem cons_relative (h : ['/'] <+: path) : path = '/' :: relative path := by
  obtain ⟨rest, rfl⟩ := h
  simp [relative]

theorem names_of_not_mem (hdots : ['.', '.'] ∉ components path) :
    ∀ comp ∈ components path, Name comp := by
  intro comp hmem
  apply mem_components hmem
  rintro rfl
  exact hdots hmem

theorem copyOn_eq {mount : Str} (h : Normal mount) (hdots : ['.', '.'] ∉ components path) :
    copyOn mount path = text (initialSlashes mount) (components mount ++ components path) := by
  rw [copyOn]
  conv_lhs => rw [h.eq_text]
  exact foldl_join_text h.slashes_ne_zero h.names (names_of_not_mem hdots)

theorem findsCopies_iff (hmounts : ∀ mount ∈ mounts, Normal mount) (hpath : ['/'] <+: path) :
    FindsCopies cwd criteria mounts path ↔ SingleSlash criteria mounts path := by
  have hcomps : components (relative path) = components path := by
    conv_rhs => rw [cons_relative hpath, components_cons_slash]
  constructor
  · intro h hslash hdots mount hmem hcriteria
    have hmount := hmounts mount hmem
    obtain ⟨mount', -, heq, -⟩ := (mem_findIter hmounts).mp (h hdots mount hmem hcriteria)
    rw [copyOn_eq hmount hdots, leadsTo, if_pos hslash, hcomps, walk_of_not_mem hdots,
      List.nil_append] at heq
    have hnames : ∀ comp ∈ components mount ++ components path, Name comp := by
      rw [List.forall_mem_append]
      exact ⟨hmount.names, names_of_not_mem hdots⟩
    obtain ⟨hslashes, hnil⟩ := text_inj hmount.one_or_two (initialSlashes_cases hslash) hnames
      (names_of_not_mem hdots) heq
    rw [List.append_left_eq_self] at hnil
    rw [hmount.eq_text, hnil, text_nil, hslashes]
  · intro h hdots mount hmem hcriteria
    have hmount := hmounts mount hmem
    rw [mem_findIter hmounts, copyOn_eq hmount hdots] at *
    refine ⟨mount, hmem, ?_, ?_, hcriteria⟩
    · rw [leadsTo, hcomps]
      split_ifs with hslash
      · have hroot := h hslash hdots mount hmem (by rwa [copyOn_eq hmount hdots])
        have hnil : components mount = [] := by rw [hroot, components_replicate]
        have hslashes : initialSlashes mount = initialSlashes (relative path) := by
          have heq := initialSlashes_replicate (initialSlashes_cases hslash) (by simp : ¬['/'] <+: [])
          rwa [List.append_nil, ← hroot] at heq
        rw [hnil, hslashes, walk_of_not_mem hdots]
      · rw [walk_of_not_mem hdots]
    · conv_lhs => rw [hmount.eq_text]
      exact text_prefix _ _ _

theorem absolute_getChild (names : List Str) (hpath : ['/'] <+: path) :
    ['/'] <+: names.foldl getChild path := by
  induction names generalizing path with
  | nil => exact hpath
  | cons name names ih => exact ih (absolute_join hpath name)

/-- For every path that is looked up from the root. -/
theorem findIter_inside (cwd : Str) (criteria : Str → Bool)
    (hmounts : ∀ mount ∈ mounts, Normal mount) (names : List Str) :
    Confined cwd criteria mounts (names.foldl getChild ['/']) ∧
        FindsCopies cwd criteria mounts (names.foldl getChild ['/']) ↔
      StaysInside criteria mounts (names.foldl getChild ['/']) ∧
        SingleSlash criteria mounts (names.foldl getChild ['/']) :=
  and_congr (confined_iff hmounts)
    (findsCopies_iff hmounts (absolute_getChild names List.prefix_rfl))

theorem findIter_inside_mnt :
    (∀ mount ∈ ["/mnt/a".toList, "/mnt/b".toList], Normal mount) ∧
    (Confined [] (fun _ => true) ["/mnt/a".toList, "/mnt/b".toList]
          ([['d'], ['x']].foldl getChild ['/']) ∧
        FindsCopies [] (fun _ => true) ["/mnt/a".toList, "/mnt/b".toList]
          ([['d'], ['x']].foldl getChild ['/']) ↔
      StaysInside (fun _ => true) ["/mnt/a".toList, "/mnt/b".toList]
          ([['d'], ['x']].foldl getChild ['/']) ∧
        SingleSlash (fun _ => true) ["/mnt/a".toList, "/mnt/b".toList]
          ([['d'], ['x']].foldl getChild ['/'])) :=
  have hmounts : ∀ mount ∈ ["/mnt/a".toList, "/mnt/b".toList], Normal mount := by
    rw [List.forall_mem_cons, List.forall_mem_singleton]
    exact ⟨⟨by decide, by decide⟩, by decide, by decide⟩
  ⟨hmounts, findIter_inside [] (fun _ => true) hmounts [['d'], ['x']]⟩

/-- A sibling of the mount is found, and a name that is given with two slashes is not. -/
theorem findIter_outside :
    Normal "/mnt/a".toList ∧
    (let path := ["../ab/x".toList].foldl getChild ['/'];
      ¬Confined [] (fun _ => true) ["/mnt/a".toList] path) ∧
    (let path := ["//etc".toList].foldl getChild ['/'];
      ¬FindsCopies [] (fun p => p = "/mnt/a/etc".toList) ["/mnt/a".toList] path) := by
  refine ⟨⟨by decide, by decide⟩, by decide, ?_⟩
  intro path h
  have hfound := h (by decide) "/mnt/a".toList (by decide) (by decide)
  revert hfound
  decide

end DiskSet

end NaviMisc.Spreadfs
