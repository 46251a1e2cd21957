import NaviMisc.Lib.Text

/-!
Paths with slashes, and what is left of them once `.` and `..` are resolved without a look at the
file system.
-/

namespace NaviMisc.Lib.PosixPath

abbrev Path := List Char

/-- Two slashes at the beginning, but not three, are kept. -/
def initialSlashes (path : Path) : ℕ :=
  if ['/'] <+: path then if ['/', '/'] <+: path ∧ ¬['/', '/', '/'] <+: path then 2 else 1 else 0

def normStep (slashes : ℕ) (comps : List Path) (comp : Path) : List Path :=
  if comp = [] ∨ comp = ['.'] then comps
  else if comp ≠ ['.', '.'] ∨ slashes = 0 ∧ comps = [] ∨ comps.getLast? = some ['.', '.'] then
    comps ++ [comp]
  else comps.dropLast

def text (slashes : ℕ) (comps : List Path) : Path :=
  List.replicate slashes '/' ++ ['/'].intercalate comps

def normpath (path : Path) : Path :=
  if path = [] then ['.']
  else
    let norm := text (initialSlashes path)
      ((path.splitOn '/').foldl (normStep (initialSlashes path)) [])
    if norm = [] then ['.'] else norm

def components (path : Path) : List Path :=
  (path.splitOn '/').filter fun comp => comp ≠ [] ∧ comp ≠ ['.']

/-- Where one comes to from a place, up one directory for each `..`. -/
def walk (place comps : List Path) : List Path :=
  comps.foldl (fun place comp => if comp = ['.', '.'] then place.dropLast else place ++ [comp]) place

structure Name (comp : Path) : Prop where
  ne_nil : comp ≠ []
  ne_dot : comp ≠ ['.']
  ne_dots : comp ≠ ['.', '.']
  noSlash : '/' ∉ comp

variable {slashes : ℕ} {path path' comp : Path} {place comps comps' : List Path}

section Components

theorem components_append_cons (path path' : Path) :
    components (path ++ '/' :: path') = components path ++ components path' := by
  rw [components, List.splitOn_append_cons_self, List.filter_append]
  rfl

theorem components_of_name (h : Name comp) : components comp = [comp] := by
  simp [components, List.splitOn_eq_singleton h.noSlash, h.ne_nil, h.ne_dot]

theorem components_nil : components [] = [] := by simp [components]

theorem components_cons_slash (path : Path) : components ('/' :: path) = components path := by
  rw [← List.nil_append ('/' :: path), components_append_cons, components_nil, List.nil_append]

theorem mem_components (h : comp ∈ components path) : comp ≠ ['.', '.'] → Name comp := by
  rw [components, List.mem_filter, decide_eq_true_iff] at h
  exact fun hdots => ⟨h.2.1, h.2.2, hdots, Text.not_mem_of_mem_splitOn h.1⟩

end Components

section Walk

theorem walk_append (place comps comps' : List Path) :
    walk place (comps ++ comps') = walk (walk place comps) comps' := List.foldl_append

theorem walk_of_not_mem (h : ['.', '.'] ∉ comps) (place : List Path) :
    walk place comps = place ++ comps := by
  induction comps generalizing place with
  | nil => exact (List.append_nil place).symm
  | cons comp comps ih =>
    rw [List.mem_cons, not_or] at h
    rw [walk, List.foldl_cons, if_neg (Ne.symm h.1), ← walk, ih h.2, List.append_assoc,
      List.singleton_append]

theorem walk_names (hplace : ∀ comp ∈ place, Name comp)
    (hcomps : ∀ comp ∈ comps, comp ≠ ['.', '.'] → Name comp) :
    ∀ comp ∈ walk place comps, Name comp := by
  induction comps generalizing place with
  | nil => exact hplace
  | cons comp comps ih =>
    rw [List.forall_mem_cons] at hcomps
    rw [walk, List.foldl_cons, ← walk]
    apply ih _ hcomps.2
    split_ifs with hdots
    · exact fun comp' hmem => hplace comp' (List.dropLast_subset _ hmem)
    · intro comp' hmem
      rcases List.mem_append.mp hmem with hmem | hmem
      · exact hplace comp' hmem
      · rw [List.mem_singleton.mp hmem]
        exact hcomps.1 hdots

theorem foldl_normStep (hslashes : slashes ≠ 0) (hplace : ['.', '.'] ∉ place) :
    comps.foldl (normStep slashes) place =
      walk place (comps.filter fun comp => comp ≠ [] ∧ comp ≠ ['.']) := by
  induction comps generalizing place with
  | nil => rfl
  | cons comp comps ih =>
    rw [List.foldl_cons]
    by_cases hskip : comp = [] ∨ comp = ['.']
    · have hfilter : ¬decide (comp ≠ [] ∧ comp ≠ ['.']) = true := by
        rwa [decide_eq_true_iff, ← not_or, not_not]
      rw [normStep, if_pos hskip, List.filter_cons, if_neg hfilter, ih hplace]
    · have hfilter : decide (comp ≠ [] ∧ comp ≠ ['.']) = true := by
        rwa [decide_eq_true_iff, ← not_or]
      rw [List.filter_cons, if_pos hfilter, walk, List.foldl_cons, ← walk, normStep, if_neg hskip]
      by_cases hdots : comp = ['.', '.']
      · have hlast : place.getLast? ≠ some ['.', '.'] :=
          fun h => hplace (List.mem_of_getLast? h)
        rw [if_pos hdots, if_neg (by simp [hdots, hslashes, hlast])]
        exact ih fun hmem => hplace (List.dropLast_subset _ hmem)
      · rw [if_neg hdots, if_pos (.inl hdots)]
        apply ih
        rw [List.mem_append, List.mem_singleton, not_or]
        exact ⟨hplace, Ne.symm hdots⟩

end Walk

section Text

theorem intercalate_append_singleton (sep : Path) (h : comps ≠ []) (comp : Path) :
    sep.intercalate (comps ++ [comp]) = sep.intercalate comps ++ sep ++ comp := by
  induction comps with
  | nil => exact absurd rfl h
  | cons first comps ih =>
    by_cases hcomps : comps = []
    · subst hcomps
      simp
    · rw [List.cons_append, List.intercalate_cons_of_ne_nil (by simp), ih hcomps,
        List.intercalate_cons_of_ne_nil hcomps]
      simp

theorem text_nil (slashes : ℕ) : text slashes [] = List.replicate slashes '/' := by simp [text]

theorem text_singleton (slashes : ℕ) (comp : Path) :
    text slashes [comp] = List.replicate slashes '/' ++ comp := by
  rw [text, List.intercalate_singleton]

theorem text_append_singleton (h : comps ≠ []) (slashes : ℕ) (comp : Path) :
    text slashes (comps ++ [comp]) = text slashes comps ++ '/' :: comp := by
  rw [text, text, intercalate_append_singleton _ h]
  simp

theorem components_replicate (slashes : ℕ) : components (List.replicate slashes '/') = [] := by
  induction slashes with
  | zero => exact components_nil
  | succ slashes ih => rw [List.replicate_succ, components_cons_slash, ih]

theorem components_text (hslashes : slashes ≠ 0) (h : ∀ comp ∈ comps, Name comp) :
    components (text slashes comps) = comps := by
  induction comps using List.reverseRecOn with
  | nil => rw [text_nil, components_replicate]
  | append_singleton comps comp ih =>
    rw [List.forall_mem_append, List.forall_mem_singleton] at h
    by_cases hcomps : comps = []
    · obtain ⟨slashes, rfl⟩ := Nat.exists_eq_succ_of_ne_zero hslashes
      rw [hcomps, List.nil_append, text_singleton, List.replicate_succ', List.append_assoc,
        List.singleton_append, components_append_cons, components_replicate,
        components_of_name h.2, List.nil_append]
    · rw [text_append_singleton hcomps, components_append_cons, ih h.1, components_of_name h.2]

theorem relative_intercalate (h : ∀ comp ∈ comps, Name comp) :
    ¬['/'] <+: ['/'].intercalate comps := by
  cases comps with
  | nil => simp
  | cons comp comps =>
    obtain ⟨c, comp, rfl⟩ := List.exists_cons_of_ne_nil (h comp List.mem_cons_self).ne_nil
    rw [List.intercalate_cons_cons_left, List.singleton_prefix_cons_iff]
    rintro rfl
    exact (h _ List.mem_cons_self).noSlash List.mem_cons_self

theorem initialSlashes_cases (h : ['/'] <+: path) :
    initialSlashes path = 1 ∨ initialSlashes path = 2 := by
  rw [initialSlashes, if_pos h]
  split_ifs <;> simp

theorem initialSlashes_replicate (hslashes : slashes = 1 ∨ slashes = 2) (h : ¬['/'] <+: path) :
    initialSlashes (List.replicate slashes '/' ++ path) = slashes := by
  rcases hslashes with rfl | rfl <;>
    simp [initialSlashes, List.replicate_succ, List.cons_prefix_cons, h]

theorem initialSlashes_text (hslashes : slashes = 1 ∨ slashes = 2)
    (h : ∀ comp ∈ comps, Name comp) : initialSlashes (text slashes comps) = slashes :=
  initialSlashes_replicate hslashes (relative_intercalate h)

theorem relative_append (h : ¬['/'] <+: path) (hne : path ≠ []) (path' : Path) :
    ¬['/'] <+: path ++ path' := by
  obtain ⟨c, path, rfl⟩ := List.exists_cons_of_ne_nil hne
  rwa [List.cons_append, List.singleton_prefix_cons_iff] at *

theorem initialSlashes_text_append (hslashes : slashes = 1 ∨ slashes = 2)
    (h : ∀ comp ∈ comps, Name comp) (hne : comps ≠ []) (path : Path) :
    initialSlashes (text slashes comps ++ path) = slashes := by
  rw [text, List.append_assoc]
  apply initialSlashes_replicate hslashes
  apply relative_append (relative_intercalate h)
  obtain ⟨comp, comps, rfl⟩ := List.exists_cons_of_ne_nil hne
  obtain ⟨c, comp, rfl⟩ := List.exists_cons_of_ne_nil (h comp List.mem_cons_self).ne_nil
  rw [List.intercalate_cons_cons_left]
  exact List.cons_ne_nil _ _

theorem text_ne_nil (hslashes : slashes ≠ 0) : text slashes comps ≠ [] := by
  simp [text, hslashes]

theorem normpath_eq (h : ['/'] <+: path) :
    normpath path = text (initialSlashes path) (walk [] (components path)) := by
  have hslashes : initialSlashes path ≠ 0 := by
    rcases initialSlashes_cases h with h | h <;> simp [h]
  have hpath : path ≠ [] := by
    rintro rfl
    simp at h
  rw [normpath, if_neg hpath, foldl_normStep hslashes List.not_mem_nil]
  exact if_neg (text_ne_nil hslashes)

end Text

section Within

def Within (dir path : Path) : Prop :=
  path = dir ∨ (if ['/'] <:+ dir then dir else dir ++ ['/']) <+: path

instance (dir path : Path) : Decidable (Within dir path) :=
  inferInstanceAs (Decidable (path = dir ∨ _))

theorem Name.append {more : Path} (h : Name comp) (hmore : '/' ∉ more) : Name (comp ++ more) := by
  obtain ⟨c, comp, rfl⟩ := List.exists_cons_of_ne_nil h.ne_nil
  refine ⟨by simp, ?_, ?_, ?_⟩
  · intro heq
    simp only [List.cons_append, List.cons.injEq, List.append_eq_nil_iff] at heq
    exact h.ne_dot (by rw [heq.1, heq.2.1])
  · intro heq
    cases comp with
    | nil =>
      simp only [List.cons_append, List.cons.injEq] at heq
      exact h.ne_dot (by rw [heq.1])
    | cons c' comp =>
      simp only [List.cons_append, List.cons.injEq, List.append_eq_nil_iff] at heq
      exact h.ne_dots (by rw [heq.1, heq.2.1, heq.2.2.1])
  · rw [List.mem_append, not_or]
    exact ⟨h.noSlash, hmore⟩

theorem text_append_last {init : List Path} (slashes : ℕ) (last more : Path) :
    text slashes (init ++ [last ++ more]) = text slashes (init ++ [last]) ++ more := by
  by_cases h : init = []
  · simp [h, text_singleton]
  · simp [text_append_singleton h]

theorem text_append (h : comps ≠ []) (slashes : ℕ) (comps' : List Path) :
    text slashes (comps ++ comps') = text slashes comps ++ comps'.flatMap ('/' :: ·) := by
  induction comps' using List.reverseRecOn with
  | nil => simp
  | append_singleton comps' comp ih =>
    rw [← List.append_assoc, text_append_singleton (by simp [h]), ih]
    simp

theorem text_prefix (slashes : ℕ) (comps comps' : List Path) :
    text slashes comps <+: text slashes (comps ++ comps') := by
  by_cases h : comps = []
  · rw [h, text_nil]
    exact List.prefix_append _ _
  · rw [text_append h]
    exact List.prefix_append _ _

theorem text_inj {slashes' : ℕ} (hslashes : slashes = 1 ∨ slashes = 2)
    (hslashes' : slashes' = 1 ∨ slashes' = 2) (h : ∀ comp ∈ comps, Name comp)
    (h' : ∀ comp ∈ comps', Name comp) (heq : text slashes comps = text slashes' comps') :
    slashes = slashes' ∧ comps = comps' := by
  have hne : ∀ {n : ℕ}, n = 1 ∨ n = 2 → n ≠ 0 := by
    rintro n (rfl | rfl) <;> decide
  constructor
  · rw [← initialSlashes_text hslashes h, heq, initialSlashes_text hslashes' h']
  · rw [← components_text (hne hslashes) h, heq, components_text (hne hslashes') h']

theorem not_slash_suffix_text {init : List Path} {last : Path} (h : Name last) (slashes : ℕ) :
    ¬['/'] <:+ text slashes (init ++ [last]) := by
  intro hsuffix
  have hlast : last <:+ text slashes (init ++ [last]) := by
    have heq := @text_append_last init slashes [] last
    rw [List.nil_append] at heq
    rw [heq]
    exact List.suffix_append _ _
  have hmem := List.suffix_of_suffix_length_le hsuffix hlast
    (List.length_pos_iff.mpr h.ne_nil)
  exact h.noSlash (hmem.mem List.mem_cons_self)

theorem components_append_relative (path more : Path) (h : ¬['/'] <+: more) :
    ∃ more' rest, more = more' ++ rest ∧ '/' ∉ more' ∧ (more ≠ [] → more' ≠ []) ∧
      components (path ++ more) = components (path ++ more') ++ components rest := by
  have hsplit := List.takeWhile_append_dropWhile (p := (· ≠ '/')) (l := more)
  refine ⟨more.takeWhile (· ≠ '/'), more.dropWhile (· ≠ '/'), hsplit.symm, ?_, ?_, ?_⟩
  · intro hmem
    simpa using List.mem_takeWhile_imp hmem
  · intro hne
    obtain ⟨c, more, rfl⟩ := List.exists_cons_of_ne_nil hne
    rw [List.singleton_prefix_cons_iff] at h
    simp [Ne.symm h]
  · conv_lhs => rw [← hsplit, ← List.append_assoc]
    cases hdrop : more.dropWhile (· ≠ '/') with
    | nil => simp [components_nil]
    | cons c rest =>
      have hne : more.dropWhile (· ≠ '/') ≠ [] := by
        rw [hdrop]
        exact List.cons_ne_nil c rest
      have hhead : (more.dropWhile (· ≠ '/')).head hne = c := by simp only [hdrop, List.head_cons]
      have hc : c = '/' := by
        have h := List.head_dropWhile_not (· ≠ '/') hne
        rw [hhead] at h
        simpa using h
      rw [hc, components_append_cons, components_cons_slash]

/-- A path continues the text of a directory that it does not lie in exactly if it leads beside the
directory, to a name that continues the one of the directory. -/
theorem beside_iff {slashes' : ℕ} (hslashes : slashes = 1 ∨ slashes = 2)
    (hslashes' : slashes' = 1 ∨ slashes' = 2) (h : ∀ comp ∈ comps, Name comp)
    (h' : ∀ comp ∈ comps', Name comp) :
    text slashes comps <+: text slashes' comps' ∧
        ¬Within (text slashes comps) (text slashes' comps') ↔
      slashes' = slashes ∧ ∃ init last more rest, comps = init ++ [last] ∧ more ≠ [] ∧
        comps' = init ++ (last ++ more) :: rest := by
  have hne : ∀ {n : ℕ}, n = 1 ∨ n = 2 → n ≠ 0 := by
    rintro n (rfl | rfl) <;> decide
  constructor
  · rintro ⟨⟨more, hmore⟩, hwithin⟩
    rw [Within, not_or, ← hmore] at hwithin
    obtain ⟨hself, hbelow⟩ := hwithin
    split_ifs at hbelow with hsuffix
    · exact absurd (List.prefix_append _ _) hbelow
    rw [List.prefix_append_right_inj] at hbelow
    rcases List.eq_nil_or_concat comps with rfl | ⟨init, last, rfl⟩
    · exfalso
      apply hsuffix
      obtain ⟨n, rfl⟩ := Nat.exists_eq_succ_of_ne_zero (hne hslashes)
      rw [text_nil, List.replicate_succ']
      exact List.suffix_append _ _
    rw [List.concat_eq_append] at *
    obtain ⟨more', rest, rfl, hslash, hmore', hcomps⟩ :=
      components_append_relative (text slashes (init ++ [last])) more hbelow
    have hlast : Name (last ++ more') := (h last (by simp)).append hslash
    have hinit : ∀ comp ∈ init ++ [last ++ more'], Name comp := by
      rw [List.forall_mem_append, List.forall_mem_singleton]
      exact ⟨fun comp hmem => h comp (List.mem_append_left _ hmem), hlast⟩
    rw [hmore, components_text (hne hslashes') h', ← text_append_last,
      components_text (hne hslashes) hinit] at hcomps
    refine ⟨?_, init, last, more', components rest, rfl, ?_, by simpa using hcomps⟩
    · rw [← initialSlashes_text hslashes' h', ← hmore]
      exact initialSlashes_text_append hslashes h (by simp) _
    · apply hmore'
      rintro hnil
      rw [hnil, List.append_nil] at hself
      exact hself rfl
  · rintro ⟨rfl, init, last, more, rest, rfl, hmore, rfl⟩
    have hlast : Name last := h last (by simp)
    have hrelative : ¬['/'] <+: more := by
      rintro ⟨more', rfl⟩
      exact (h' _ (List.mem_append_right _ List.mem_cons_self)).noSlash (by simp)
    have hsplit : text slashes' (init ++ (last ++ more) :: rest) =
        text slashes' (init ++ [last]) ++ (more ++ rest.flatMap ('/' :: ·)) := by
      rw [List.append_cons, text_append (by simp), text_append_last, List.append_assoc]
    rw [hsplit, Within, not_or, if_neg (not_slash_suffix_text hlast slashes'),
      List.prefix_append_right_inj]
    refine ⟨List.prefix_append _ _, ?_, relative_append hrelative hmore _⟩
    intro heq
    have hnil := List.append_cancel_left (heq.trans (List.append_nil _).symm)
    exact List.append_ne_nil_of_left_ne_nil hmore _ hnil

end Within

structure Normal (path : Path) : Prop where
  absolute : ['/'] <+: path
  normpath : normpath path = path

namespace Normal

variable (h : Normal path)
include h

theorem one_or_two : initialSlashes path = 1 ∨ initialSlashes path = 2 :=
  initialSlashes_cases h.absolute

theorem slashes_ne_zero : initialSlashes path ≠ 0 := by
  rcases h.one_or_two with h | h <;> simp [h]

theorem eq_text_walk : path = text (initialSlashes path) (walk [] (components path)) :=
  h.normpath.symm.trans (normpath_eq h.absolute)

theorem components_eq_walk : components path = walk [] (components path) := by
  conv_lhs => rw [h.eq_text_walk]
  exact components_text h.slashes_ne_zero
    (walk_names (by simp) fun comp hmem => mem_components hmem)

theorem names : ∀ comp ∈ components path, Name comp := by
  rw [h.components_eq_walk]
  exact walk_names (by simp) fun comp hmem => mem_components hmem

theorem eq_text : path = text (initialSlashes path) (components path) := by
  conv_lhs => rw [h.eq_text_walk]
  rw [← h.components_eq_walk]

end Normal

end NaviMisc.Lib.PosixPath
