import NaviMisc.Motion.AmcPasses

/-!
Where the values of a motion file are stored: the second pass moves on a column for each blank, the
first one only counts values.
-/

namespace NaviMisc.Motion.AmcFile

variable {F : Type} {strtod : Line → F} {items : List Item} {frames : List (List BoneLine)}
  {bones : List (Line × ℕ)}

structure Cell where
  array : ℕ
  row : ℕ
  col : ℕ
  value : Line

def boneCells (row array col : ℕ) (values : List (ℕ × Line)) : List Cell :=
  (values.zipIdx col).map fun v => ⟨array, row, v.2, v.1.2⟩

def frameCells (row array : ℕ) (frame : List BoneLine) : List Cell :=
  (frame.zipIdx array).flatMap fun b => boneCells row b.2 0 b.1.values

def cells (row : ℕ) (frames : List (List BoneLine)) : List Cell :=
  (frames.zipIdx row).flatMap fun frame => frameCells frame.2 0 frame.1

def StoresAt (strtod : Line → F) (data : List (Option FloatArray)) (store : Store F) (c : Cell) :
    Prop :=
  store.array = c.array ∧ store.value = strtod c.value ∧
    ∃ a, data[c.array]? = some (some a) ∧ c.row < a.rows ∧ c.col < a.cols ∧
      store.offset = c.row * a.stride0 + c.col * a.stride1

/-- Arrays of `float`, row by row; the strides are of type `int`. -/
structure Contiguous (fromDims : ℤ → ℤ → Option FloatArray) : Prop where
  dims : ∀ r c a, fromDims r c = some a → (a.rows : ℤ) = r ∧ (a.cols : ℤ) = c
  stride1 : ∀ r c a, fromDims r c = some a → a.stride1 = 4
  stride0 : ∀ r c a, fromDims r c = some a → 0 < a.cols → a.stride0 = 4 * a.cols ∧ a.stride0 < 2 ^ 31

/-! Stores in the order of the cells. -/

section meets

variable {σ τ : Type} {R : σ → τ → Prop}

def Matches (R : σ → τ → Prop) (x : Option (List σ)) (l : List τ) : Prop :=
  ∃ s, x = some s ∧ List.Forall₂ R s l

theorem matches_nil : Matches R (some []) [] := ⟨[], rfl, .nil⟩

theorem forall₂_append_iff {s s' : List σ} {l l' : List τ} (h : s.length = l.length) :
    List.Forall₂ R (s ++ s') (l ++ l') ↔ List.Forall₂ R s l ∧ List.Forall₂ R s' l' := by
  induction s generalizing l with
  | nil =>
    rw [List.length_nil] at h
    rw [List.eq_nil_of_length_eq_zero h.symm]
    simp
  | cons a s ih =>
    cases l with
    | nil => cases h
    | cons b l =>
      rw [List.cons_append, List.cons_append, List.forall₂_cons, List.forall₂_cons,
        ih (Nat.succ.inj h), and_assoc]

theorem matches_append_iff {x y : Option (List σ)} {l l' : List τ}
    (h : ∀ s, x = some s → s.length = l.length) :
    Matches R (do let s ← x; let s' ← y; return s ++ s') (l ++ l') ↔
      Matches R x l ∧ Matches R y l' := by
  cases x with
  | none =>
    apply iff_of_false
    · rintro ⟨s, hs, -⟩
      cases hs
    · rintro ⟨⟨s, hs, -⟩, -⟩
      cases hs
  | some s =>
    cases y with
    | none =>
      apply iff_of_false
      · rintro ⟨s, hs, -⟩
        cases hs
      · rintro ⟨-, s, hs, -⟩
        cases hs
    | some s' =>
      simp only [Matches, Option.some.injEq, exists_eq_left', Option.bind_eq_bind, Option.bind_some,
        Option.pure_def]
      exact forall₂_append_iff (h s rfl)

theorem Matches.exists_of_mem {x : Option (List σ)} {l : List τ} (h : Matches R x l) {t : τ}
    (ht : t ∈ l) : ∃ s, R s t := by
  obtain ⟨s, -, hforall⟩ := h
  induction hforall with
  | nil => cases ht
  | cons hab _ ih =>
    rcases List.mem_cons.mp ht with rfl | ht
    · exact ⟨_, hab⟩
    · exact ih ht

end meets

section values

variable {data : List (Option FloatArray)} {row array : ℕ} {pao : Option FloatArray}

theorem putValues_replicate {dof : ℕ} (h : dof < 2 ^ 32) (n : ℕ) (tokens : List Line) :
    putValues strtod row array pao dof (List.replicate n [] ++ tokens) =
      putValues strtod row array pao ((dof + n) % 2 ^ 32) tokens := by
  induction n generalizing dof with
  | zero => rw [Nat.add_zero, Nat.mod_eq_of_lt h]; rfl
  | succ n ih =>
    have hmod : ((dof + 1) % 2 ^ 32 + n) % 2 ^ 32 = (dof + (n + 1)) % 2 ^ 32 := by omega
    rw [List.replicate_succ, List.cons_append, putValues.eq_def]
    simp only [if_true]
    rw [ih (Nat.mod_lt _ (Nat.two_pow_pos 32)), hmod]

theorem putValues_values {dof : ℕ} (h : dof < 2 ^ 32) {v : ℕ × Line} (hv : v.2 ≠ [])
    (values : List (ℕ × Line)) :
    putValues strtod row array pao dof
        ((v :: values).flatMap fun v => List.replicate v.1 [] ++ [v.2]) =
      match pao with
      | none => none
      | some a =>
        (putValues strtod row array pao (((dof + v.1) % 2 ^ 32 + 1) % 2 ^ 32)
          (values.flatMap fun v => List.replicate v.1 [] ++ [v.2])).map
          (⟨array, (row * a.stride0 + (dof + v.1) % 2 ^ 32 * a.stride1 % 2 ^ 32) % 2 ^ 64,
            strtod v.2⟩ :: ·) := by
  rw [List.flatMap_cons, List.append_assoc, putValues_replicate h, List.singleton_append,
    putValues.eq_def]
  cases pao with
  | none => exact if_neg hv
  | some a => exact if_neg hv

theorem length_putValues {values : List (ℕ × Line)} (hvalues : ∀ v ∈ values, v.2 ≠ []) {dof : ℕ}
    (h : dof < 2 ^ 32) {stores : List (Store F)}
    (hstores : putValues strtod row array pao dof
      (values.flatMap fun v => List.replicate v.1 [] ++ [v.2]) = some stores) :
    stores.length = values.length := by
  induction values generalizing dof stores with
  | nil =>
    cases hstores
    rfl
  | cons v values ih =>
    rw [List.forall_mem_cons] at hvalues
    rw [putValues_values h hvalues.1] at hstores
    cases pao with
    | none => cases hstores
    | some a =>
      obtain ⟨rest, hrest, rfl⟩ := Option.map_eq_some_iff.mp hstores
      rw [List.length_cons, List.length_cons, ih hvalues.2 (Nat.mod_lt _ (Nat.two_pow_pos 32)) hrest]

theorem matches_putValues_iff {a : FloatArray} (ha : data[array]? = some (some a))
    (hstride1 : a.stride1 = 4) (hstride0 : a.stride0 = 4 * a.cols ∧ a.stride0 < 2 ^ 31)
    (hrow : row < a.rows) (hrows : a.rows < 2 ^ 31) {values : List (ℕ × Line)}
    (hvalues : ∀ v ∈ values, v.2 ≠ []) {dof col : ℕ} (h : dof < 2 ^ 32)
    (hcol : col + values.length ≤ a.cols) (hdof : dof * 4 % 2 ^ 32 = col * 4) :
    Matches (StoresAt strtod data)
        (putValues strtod row array (some a) dof
          (values.flatMap fun v => List.replicate v.1 [] ++ [v.2]))
        (boneCells row array col values) ↔ ∀ v ∈ values, 2 ^ 30 ∣ v.1 := by
  induction values generalizing dof col with
  | nil => exact iff_of_true matches_nil (by simp)
  | cons v values ih =>
    rw [List.forall_mem_cons] at hvalues
    rw [List.length_cons] at hcol
    have hlt : col < a.cols := by omega
    have hproduct : row * a.stride0 < 2 ^ 62 := by
      have hle := Nat.mul_lt_mul'' (hrow.trans hrows) hstride0.2
      omega
    have hstore : (row * a.stride0 + (dof + v.1) % 2 ^ 32 * a.stride1 % 2 ^ 32) % 2 ^ 64 =
        row * a.stride0 + col * a.stride1 ↔ 2 ^ 30 ∣ v.1 := by
      rw [hstride1]
      generalize row * a.stride0 = start at hproduct
      omega
    have hcells : boneCells row array col (v :: values) =
        ⟨array, row, col, v.2⟩ :: boneCells row array (col + 1) values := rfl
    have hrest (hdvd : 2 ^ 30 ∣ v.1) : Matches (StoresAt strtod data)
        (putValues strtod row array (some a) (((dof + v.1) % 2 ^ 32 + 1) % 2 ^ 32)
          (values.flatMap fun v => List.replicate v.1 [] ++ [v.2]))
        (boneCells row array (col + 1) values) ↔ ∀ v ∈ values, 2 ^ 30 ∣ v.1 :=
      ih hvalues.2 (Nat.mod_lt _ (Nat.two_pow_pos 32)) (by omega) (by omega)
    rw [putValues_values h hvalues.1, hcells, List.forall_mem_cons]
    constructor
    · rintro ⟨stores, hstores, hforall⟩
      obtain ⟨rest, hput, rfl⟩ := Option.map_eq_some_iff.mp hstores
      obtain ⟨⟨-, -, a', ha', -, -, hoffset⟩, hforall⟩ := List.forall₂_cons.mp hforall
      cases ha.symm.trans ha'
      have hdvd := hstore.mp hoffset
      exact ⟨hdvd, (hrest hdvd).mp ⟨rest, hput, hforall⟩⟩
    · rintro ⟨hdvd, hall⟩
      obtain ⟨rest, hput, hforall⟩ := (hrest hdvd).mpr hall
      refine ⟨_, congrArg (Option.map _) hput, List.Forall₂.cons ?_ hforall⟩
      exact ⟨rfl, rfl, a, ha, hrow, hlt, hstore.mpr hdvd⟩

theorem length_boneCells (row array col : ℕ) (values : List (ℕ × Line)) :
    (boneCells row array col values).length = values.length := by
  rw [boneCells, List.length_map, List.length_zipIdx]

theorem exists_array {x : Option (List (Store F))} {values : List (ℕ × Line)}
    (h : Matches (StoresAt strtod data) x (boneCells row array 0 values)) (hne : values ≠ []) :
    ∃ a, data[array]? = some (some a) ∧ row < a.rows ∧ values.length ≤ a.cols := by
  have hlast : values.getLast hne ∈ values := List.getLast_mem hne
  obtain ⟨init, v, rfl⟩ := (List.eq_nil_or_concat values).resolve_left hne
  have hmem : (⟨array, row, init.length, v.2⟩ : Cell) ∈ boneCells row array 0 (init.concat v) := by
    rw [boneCells, List.concat_eq_append, List.zipIdx_append, List.map_append, List.mem_append]
    right
    rw [Nat.zero_add]
    exact List.mem_cons_self
  obtain ⟨store, -, -, a, ha, hrow, hcol, -⟩ := h.exists_of_mem hmem
  refine ⟨a, ha, hrow, ?_⟩
  rw [List.length_concat]
  exact hcol

theorem matches_boneStores_iff {frame : List BoneLine} (hframe : ∀ b ∈ frame, b.Valid) (i : ℕ) :
    Matches (StoresAt strtod data) (boneStores strtod data row i frame) (frameCells row' i frame) ↔
      ∀ b ∈ frame.zipIdx i, Matches (StoresAt strtod data)
        (putValues strtod row b.2 (data[b.2]?).join 0 b.1.tokens)
        (boneCells row' b.2 0 b.1.values) := by
  induction frame generalizing i with
  | nil => exact iff_of_true matches_nil (by simp)
  | cons b frame ih =>
    rw [List.forall_mem_cons] at hframe
    have hcells : frameCells row' i (b :: frame) =
        boneCells row' i 0 b.values ++ frameCells row' (i + 1) frame := rfl
    rw [boneStores, hcells, matches_append_iff, ih hframe.2, List.zipIdx_cons, List.forall_mem_cons]
    intro stores hstores
    rw [length_boneCells]
    exact length_putValues (fun v hv => (hframe.1.values v hv).1) (Nat.two_pow_pos 32) hstores

theorem length_boneStores {frame : List BoneLine} (hframe : ∀ b ∈ frame, b.Valid) {i : ℕ}
    {stores : List (Store F)} (hstores : boneStores strtod data row i frame = some stores) :
    stores.length = (frameCells row' i frame).length := by
  induction frame generalizing i stores with
  | nil =>
    cases hstores
    rfl
  | cons b frame ih =>
    rw [List.forall_mem_cons] at hframe
    obtain ⟨first, hfirst, hbind⟩ := Option.bind_eq_some_iff.mp hstores
    obtain ⟨rest, hrest, heq⟩ := Option.bind_eq_some_iff.mp hbind
    cases heq
    have hcells : frameCells row' i (b :: frame) =
        boneCells row' i 0 b.values ++ frameCells row' (i + 1) frame := rfl
    rw [hcells, List.length_append, List.length_append, length_boneCells, ih hframe.2 hrest,
      length_putValues (fun v hv => (hframe.1.values v hv).1) (Nat.two_pow_pos 32) hfirst]

theorem matches_frameStores_iff (hframes : ∀ frame ∈ frames, ∀ b ∈ frame, b.Valid) (row : ℕ) :
    Matches (StoresAt strtod data) (frameStores strtod data row frames) (cells row frames) ↔
      ∀ frame ∈ frames.zipIdx row, ∀ b ∈ frame.1.zipIdx 0, Matches (StoresAt strtod data)
        (putValues strtod (rowOf (frame.2 + 1)) b.2 (data[b.2]?).join 0 b.1.tokens)
        (boneCells frame.2 b.2 0 b.1.values) := by
  induction frames generalizing row with
  | nil => exact iff_of_true matches_nil (by simp)
  | cons frame frames ih =>
    rw [List.forall_mem_cons] at hframes
    have hcells : cells row (frame :: frames) = frameCells row 0 frame ++ cells (row + 1) frames := rfl
    rw [frameStores, hcells, matches_append_iff (fun _ => length_boneStores hframes.1),
      ih hframes.2, List.zipIdx_cons, List.forall_mem_cons, matches_boneStores_iff hframes.1]

end values

/-! The whole text. -/

theorem inr_mem_script {n : ℕ} {frame : List BoneLine} (hframe : frame ∈ frames) {b : BoneLine}
    (hb : b ∈ frame) : .inr b ∈ script n frames := by
  induction frames generalizing n with
  | nil => cases hframe
  | cons f frames ih =>
    rw [script, List.mem_cons, List.mem_append]
    right
    rcases List.mem_cons.mp hframe with rfl | hframe
    · exact .inl (List.mem_map_of_mem hb)
    · exact .inr (ih hframe)

theorem Document.valid_bone (h : Document items frames bones) {frame : List BoneLine}
    (hframe : frame ∈ frames) {b : BoneLine} (hb : b ∈ frame) : b.Valid := by
  have hmem : .inr b ∈ items.filterMap Item.event := h.events ▸ inr_mem_script hframe hb
  obtain ⟨item, hitem, hevent⟩ := List.mem_filterMap.mp hmem
  have hvalid := h.valid item hitem
  cases item with
  | bone line =>
    cases hevent
    exact hvalid
  | _ => cases hevent

theorem Document.length_frame (h : Document items frames bones) {frame : List BoneLine}
    (hframe : frame ∈ frames) : frame.length = bones.length := by
  rw [← h.bones frame hframe, List.length_map]

def arraysOf (fromDims : ℤ → ℤ → Option FloatArray) (frames : List (List BoneLine))
    (bones : List (Line × ℕ)) : List (Option FloatArray) :=
  bones.map fun b => fromDims (toInt (min frames.length (2 ^ 64 - 1))) (toInt b.2)

theorem toInt_mod (n : ℕ) : toInt (n % 2 ^ 32) = toInt n := by
  rw [toInt, toInt]
  congr 1
  exact BitVec.eq_of_toNat_eq (by simp)

theorem toInt_lt (n : ℕ) : toInt n < 2 ^ 31 := BitVec.toInt_lt

theorem toInt_of_lt {n : ℕ} (h : n < 2 ^ 31) : toInt n = n := by
  have hlt : n % 2 ^ 32 = n := Nat.mod_eq_of_lt (by omega)
  rw [toInt, BitVec.toInt_eq_toNat_of_lt, BitVec.toNat_ofNat, hlt]
  rw [BitVec.toNat_ofNat, hlt]
  omega

def Counts.arrays (fromDims : ℤ → ℤ → Option FloatArray) (c : Counts) : List (Option FloatArray) :=
  c.dofs.map fun dof => fromDims (toInt c.current_frame) (toInt dof)

theorem fromFile_script (h : Document items frames bones) (fromDims : ℤ → ℤ → Option FloatArray)
    (garbage : ℕ) {c : Counts} (hc : (script 1 frames).foldl scanEvent ⟨garbage, [], []⟩ = c) :
    (fromFile strtod fromDims garbage (items.map Item.render)).map
        (fun amc => (amc.bones, amc.stores)) =
      ((script 1 frames).foldlM (fillEvent strtod (c.arrays fromDims))
        ⟨c.current_frame, (c.arrays fromDims).length, none, []⟩).map
        fun fill => (c.bones.zip (c.arrays fromDims), fill.stores) := by
  have hcounts := counts_scan h.valid ⟨[], [], garbage, [], []⟩
  rw [h.events] at hcounts
  change _ = (script 1 frames).foldl scanEvent ⟨garbage, [], []⟩ at hcounts
  rw [hc] at hcounts
  rw [fromFile, ← h.events, ← fill_items _ _ h.valid, ← hcounts]
  generalize (items.map Item.render).foldl scanLine ⟨[], [], garbage, [], []⟩ = scan
  change (Option.bind ((items.map Item.render).foldlM (fillLine strtod (scan.counts.arrays fromDims))
    ⟨scan.current_frame, (scan.counts.arrays fromDims).length, none, []⟩) _).map _ =
    ((items.map Item.render).foldlM (fillLine strtod (scan.counts.arrays fromDims))
      ⟨scan.current_frame, (scan.counts.arrays fromDims).length, none, []⟩).map _
  generalize (items.map Item.render).foldlM (fillLine strtod (scan.counts.arrays fromDims))
    ⟨scan.current_frame, (scan.counts.arrays fromDims).length, none, []⟩ = fill
  cases fill <;> rfl

theorem fromFile_eq (h : Document items frames bones) (fromDims : ℤ → ℤ → Option FloatArray)
    (garbage : ℕ) (hframes : frames ≠ []) (hbones : bones ≠ []) :
    (fromFile strtod fromDims garbage (items.map Item.render)).map
        (fun amc => (amc.bones, amc.stores)) =
      (frameStores strtod (arraysOf fromDims frames bones) 0 frames).map fun stores =>
        ((bones.map Prod.fst).zip (arraysOf fromDims frames bones), stores) := by
  have hcounts := scan_script hframes h.bones garbage
  have harrays : (bones.map fun b => b.2 % 2 ^ 32).map
      (fun dof => fromDims (toInt (min frames.length (2 ^ 64 - 1))) (toInt dof)) =
      arraysOf fromDims frames bones := by
    rw [List.map_map, arraysOf]
    apply List.map_congr_left
    intro b _
    rw [Function.comp_apply, toInt_mod]
  have hne : arraysOf fromDims frames bones ≠ [] := mt List.map_eq_nil_iff.mp hbones
  have hlength : ∀ frame ∈ frames, frame.length = (arraysOf fromDims frames bones).length := by
    intro frame hframe
    rw [h.length_frame hframe, arraysOf, List.length_map]
  rw [fromFile_script h fromDims garbage hcounts, Counts.arrays, harrays]
  have hfill := fill_script strtod _ hne hlength 0
    ⟨min frames.length (2 ^ 64 - 1), (arraysOf fromDims frames bones).length, none, []⟩
  have hstores := congrArg (Option.map fun stores =>
    ((bones.map Prod.fst).zip (arraysOf fromDims frames bones), stores)) hfill
  rw [Option.map_map, Option.map_map] at hstores
  exact hstores

theorem fromFile_of_nil (h : Document items [] bones) (fromDims : ℤ → ℤ → Option FloatArray)
    (garbage : ℕ) :
    (fromFile strtod fromDims garbage (items.map Item.render)).map
        (fun amc => (amc.bones, amc.stores)) = some ([], []) :=
  fromFile_script h fromDims garbage rfl

theorem fromFile_no_bones (h : Document items frames []) (fromDims : ℤ → ℤ → Option FloatArray)
    (garbage : ℕ) (hframes : frames ≠ []) :
    fromFile strtod fromDims garbage (items.map Item.render) = none := by
  have hscript : (fromFile strtod fromDims garbage (items.map Item.render)).map
      (fun amc => (amc.bones, amc.stores)) = _ :=
    fromFile_script h fromDims garbage (scan_script hframes h.bones garbage)
  obtain ⟨frame, frames, rfl⟩ := List.exists_cons_of_ne_nil hframes
  exact Option.map_eq_none_iff.mp hscript

def PassesAgree (strtod : Line → F) (fromDims : ℤ → ℤ → Option FloatArray) (garbage : ℕ)
    (items : List Item) (frames : List (List BoneLine)) (bones : List (Line × ℕ)) : Prop :=
  ∃ amc, fromFile strtod fromDims garbage (items.map Item.render) = some amc ∧
    (frames ≠ [] → amc.bones.map Prod.fst = bones.map Prod.fst) ∧
    List.Forall₂ (StoresAt strtod (amc.bones.map Prod.snd)) amc.stores (cells 0 frames)

/-- Both numbers are of type `int`, and there is an array for them. -/
def Allocates (fromDims : ℤ → ℤ → Option FloatArray) (rows cols : ℕ) : Prop :=
  rows < 2 ^ 31 ∧ cols < 2 ^ 31 ∧ (fromDims rows cols).isSome

structure Tame (fromDims : ℤ → ℤ → Option FloatArray) (frames : List (List BoneLine))
    (bones : List (Line × ℕ)) : Prop where
  listed : frames ≠ [] → bones ≠ []
  blanks : ∀ frame ∈ frames, ∀ b ∈ frame, ∀ v ∈ b.values, 2 ^ 30 ∣ v.1
  arrays : frames ≠ [] → ∀ b ∈ bones, b.2 ≠ 0 → Allocates fromDims frames.length b.2

theorem passesAgree_iff_matches (h : Document items frames bones)
    (fromDims : ℤ → ℤ → Option FloatArray) (garbage : ℕ) (hframes : frames ≠ []) (hbones : bones ≠ []) :
    PassesAgree strtod fromDims garbage items frames bones ↔
      Matches (StoresAt strtod (arraysOf fromDims frames bones))
        (frameStores strtod (arraysOf fromDims frames bones) 0 frames) (cells 0 frames) := by
  have hlength : (bones.map Prod.fst).length = (arraysOf fromDims frames bones).length := by
    rw [List.length_map, arraysOf, List.length_map]
  have hfile : (fromFile strtod fromDims garbage (items.map Item.render)).map
      (fun amc => (amc.bones, amc.stores)) = _ := fromFile_eq h fromDims garbage hframes hbones
  constructor
  · rintro ⟨amc, hamc, -, hforall⟩
    rw [hamc, Option.map_some] at hfile
    obtain ⟨stores, hstores, heq⟩ := Option.map_eq_some_iff.mp hfile.symm
    obtain ⟨hbones, rfl⟩ := Prod.mk.inj heq
    rw [← hbones, List.map_snd_zip hlength.ge] at hforall
    exact ⟨amc.stores, hstores, hforall⟩
  · rintro ⟨stores, hstores, hforall⟩
    rw [hstores, Option.map_some] at hfile
    obtain ⟨amc, hamc, heq⟩ := Option.map_eq_some_iff.mp hfile
    obtain ⟨hbones, rfl⟩ := Prod.mk.inj heq
    refine ⟨amc, hamc, fun _ => ?_, ?_⟩
    · rw [hbones, List.map_fst_zip hlength.le]
    · rw [hbones, List.map_snd_zip hlength.ge]
      exact hforall

theorem arraysOf_get {fromDims : ℤ → ℤ → Option FloatArray} {j : ℕ} {b : Line × ℕ}
    (h : bones[j]? = some b) : (arraysOf fromDims frames bones)[j]? =
      some (fromDims (toInt (min frames.length (2 ^ 64 - 1))) (toInt b.2)) := by
  rw [arraysOf, List.getElem?_map, h, Option.map_some]

theorem Document.shape (h : Document items frames bones) {frame : List BoneLine}
    (hframe : frame ∈ frames) (j : ℕ) :
    bones[j]? = frame[j]?.map fun b => (b.name, b.values.length) := by
  rw [← h.bones frame hframe, List.getElem?_map]

theorem Document.mem_bones (h : Document items frames bones) {frame : List BoneLine}
    (hframe : frame ∈ frames) {b : BoneLine} (hb : b ∈ frame) :
    (b.name, b.values.length) ∈ bones := by
  rw [← h.bones frame hframe]
  exact List.mem_map_of_mem hb

section bone

variable {fromDims : ℤ → ℤ → Option FloatArray} {row j : ℕ} {frame : List BoneLine} {b : BoneLine}

theorem matches_bone_iff (h : Document items frames bones) (hdims : Contiguous fromDims)
    (hframe : frames[row]? = some frame) (hb : frame[j]? = some b) (hvalues : b.values ≠ [])
    (hallocates : Allocates fromDims frames.length b.values.length) :
    Matches (StoresAt strtod (arraysOf fromDims frames bones))
        (putValues strtod (rowOf (row + 1)) j ((arraysOf fromDims frames bones)[j]?).join 0 b.tokens)
        (boneCells row j 0 b.values) ↔ ∀ v ∈ b.values, 2 ^ 30 ∣ v.1 := by
  obtain ⟨hrows, hcols, hsome⟩ := hallocates
  obtain ⟨a, ha⟩ := Option.isSome_iff_exists.mp hsome
  have hmem := List.mem_of_getElem? hframe
  have hrow : row < frames.length := (List.getElem?_eq_some_iff.mp hframe).1
  have hget : (arraysOf fromDims frames bones)[j]? = some (some a) := by
    have hbone := h.shape hmem j
    rw [hb, Option.map_some] at hbone
    have hmin : min frames.length (2 ^ 64 - 1) = frames.length := by omega
    rw [arraysOf_get hbone, hmin, toInt_of_lt hrows, toInt_of_lt hcols, ha]
  have hsize := hdims.dims _ _ a ha
  have hlength : 0 < b.values.length := List.length_pos_iff.mpr hvalues
  have hvalid := h.valid_bone hmem (List.mem_of_getElem? hb)
  rw [hget, Option.join_some, rowOf_succ (by omega)]
  exact matches_putValues_iff hget (hdims.stride1 _ _ a ha) (hdims.stride0 _ _ a ha (by omega))
    (by omega) (by omega) (fun v hv => (hvalid.values v hv).1) (Nat.two_pow_pos 32) (by omega) rfl

theorem allocates_of_matches (h : Document items frames bones) (hdims : Contiguous fromDims)
    (hframe : frames[row]? = some frame) (hrow : row + 1 = frames.length) (hb : frame[j]? = some b)
    (hvalues : b.values ≠ [])
    (hmatches : Matches (StoresAt strtod (arraysOf fromDims frames bones))
      (putValues strtod (rowOf (row + 1)) j ((arraysOf fromDims frames bones)[j]?).join 0 b.tokens)
      (boneCells row j 0 b.values)) : Allocates fromDims frames.length b.values.length := by
  obtain ⟨a, hget, hrows, hcols⟩ := exists_array hmatches hvalues
  have hbone := h.shape (List.mem_of_getElem? hframe) j
  rw [hb, Option.map_some] at hbone
  rw [arraysOf_get hbone] at hget
  have ha : fromDims _ (toInt b.values.length) = some a := Option.some.inj hget
  have hsize := hdims.dims _ _ a ha
  have hrows' := toInt_lt (min frames.length (2 ^ 64 - 1))
  have hcols' := toInt_lt b.values.length
  have hlt : frames.length < 2 ^ 31 := by omega
  have hlt' : b.values.length < 2 ^ 31 := by omega
  have hmin : min frames.length (2 ^ 64 - 1) = frames.length := by omega
  rw [hmin, toInt_of_lt hlt, toInt_of_lt hlt'] at ha
  exact ⟨hlt, hlt', Option.isSome_iff_exists.mpr ⟨a, ha⟩⟩

theorem allocates_of_forall_matches (h : Document items frames bones)
    (hdims : Contiguous fromDims) (hframes : frames ≠ [])
    (hmatches : ∀ row frame j b, frames[row]? = some frame → frame[j]? = some b →
      Matches (StoresAt strtod (arraysOf fromDims frames bones))
        (putValues strtod (rowOf (row + 1)) j ((arraysOf fromDims frames bones)[j]?).join 0 b.tokens)
        (boneCells row j 0 b.values)) :
    ∀ b ∈ bones, b.2 ≠ 0 → Allocates fromDims frames.length b.2 := by
  intro bone hbone hne
  obtain ⟨j, hj⟩ := List.mem_iff_getElem?.mp hbone
  have hpos := List.length_pos_iff.mpr hframes
  have hlast : frames[frames.length - 1]? = some (frames.getLast hframes) :=
    (List.getLast?_eq_getElem? ▸ List.getLast?_eq_some_getLast hframes)
  rw [h.shape (List.getLast_mem hframes) j] at hj
  obtain ⟨b, hb, rfl⟩ := Option.map_eq_some_iff.mp hj
  exact allocates_of_matches h hdims hlast (by omega) hb (mt List.length_eq_zero_iff.mpr hne)
    (hmatches _ _ _ _ hlast hb)

end bone

theorem tame_nil (fromDims : ℤ → ℤ → Option FloatArray) (bones : List (Line × ℕ)) :
    Tame fromDims [] bones where
  listed := fun hne => absurd rfl hne
  blanks := fun _ hframe => absurd hframe List.not_mem_nil
  arrays := fun hne => absurd rfl hne

theorem passesAgree_nil (h : Document items [] bones) (fromDims : ℤ → ℤ → Option FloatArray)
    (garbage : ℕ) : PassesAgree strtod fromDims garbage items [] bones := by
  obtain ⟨amc, hamc, heq⟩ := Option.map_eq_some_iff.mp (fromFile_of_nil h fromDims garbage)
  obtain ⟨-, hstores⟩ := Prod.mk.inj heq
  refine ⟨amc, hamc, fun hne => absurd rfl hne, ?_⟩
  rw [hstores]
  exact .nil

/-- Rows of `float` as far as their size is an `int`. -/
def numeric (rows cols : ℤ) : Option FloatArray :=
  if 0 ≤ rows ∧ 0 ≤ cols ∧ 4 * cols < 2 ^ 31 then
    some ⟨rows.toNat, cols.toNat, 4 * cols.toNat, 4⟩
  else none

theorem contiguous_numeric : Contiguous numeric := by
  have hcases : ∀ r c a, numeric r c = some a → 0 ≤ r ∧ 0 ≤ c ∧ 4 * c < 2 ^ 31 ∧
      a = ⟨r.toNat, c.toNat, 4 * c.toNat, 4⟩ := by
    intro r c a h
    rw [numeric] at h
    split_ifs at h with hsize
    exact ⟨hsize.1, hsize.2.1, hsize.2.2, (Option.some.inj h).symm⟩
  constructor
  · intro r c a h
    obtain ⟨hr, hc, -, rfl⟩ := hcases r c a h
    exact ⟨Int.toNat_of_nonneg hr, Int.toNat_of_nonneg hc⟩
  · intro r c a h
    obtain ⟨-, -, -, rfl⟩ := hcases r c a h
    rfl
  · intro r c a h _
    obtain ⟨-, hc, hsize, rfl⟩ := hcases r c a h
    refine ⟨rfl, ?_⟩
    change 4 * c.toNat < 2 ^ 31
    omega

def pose (blanks : ℕ) : BoneLine := ⟨[], ['r', 'o', 'o', 't'], [(0, ['1']), (blanks, ['2'])], []⟩

def motion (blanks : ℕ) : List Item := [.format ['D'], .number [] ['1'] [], .bone (pose blanks)]

theorem document_motion (blanks : ℕ) :
    Document (motion blanks) [[pose blanks]] [(['r', 'o', 'o', 't'], 2)] where
  valid := by
    have hname : ['r', 'o', 'o', 't'] ≠ [] ∧ ∀ c ∈ ['r', 'o', 'o', 't'], ¬isSpace c := by
      simp [isSpace]
    have hone : ['1'] ≠ [] ∧ ∀ c ∈ ['1'], ¬isSpace c := by simp [isSpace]
    have htwo : ['2'] ≠ [] ∧ ∀ c ∈ ['2'], ¬isSpace c := by simp [isSpace]
    have hpose : (pose blanks).Valid := by
      refine ⟨by simp [pose], by simp [pose], hname, by simp [pose], ?_, ?_⟩
      · intro hvalues
        cases hvalues
      · intro v hv
        rcases List.mem_cons.mp hv with rfl | hv
        · exact hone
        · rw [List.mem_singleton.mp hv]
          exact htwo
    intro item hitem
    simp only [motion, List.mem_cons, List.not_mem_nil, or_false] at hitem
    rcases hitem with rfl | rfl | rfl
    · trivial
    · exact ⟨by simp, ⟨by simp, by simp⟩, by simp⟩
    · exact hpose
  events := rfl
  bones := by
    rw [List.forall_mem_singleton]
    rfl

/-- Numeric is given by how it allocates arrays. -/
theorem passesAgree_iff (h : Document items frames bones)
    {fromDims : ℤ → ℤ → Option FloatArray} (hdims : Contiguous fromDims) (garbage : ℕ) :
    PassesAgree strtod fromDims garbage items frames bones ↔ Tame fromDims frames bones := by
  by_cases hframes : frames = []
  · subst hframes
    exact iff_of_true (passesAgree_nil h fromDims garbage) (tame_nil fromDims bones)
  by_cases hbones : bones = []
  · subst hbones
    apply iff_of_false
    · rintro ⟨amc, hamc, -⟩
      rw [fromFile_no_bones h fromDims garbage hframes] at hamc
      cases hamc
    · exact fun htame => htame.listed hframes rfl
  rw [passesAgree_iff_matches h fromDims garbage hframes hbones,
    matches_frameStores_iff fun frame hframe b hb => h.valid_bone hframe hb]
  constructor
  · intro hall
    have hmatches : ∀ row frame j b, frames[row]? = some frame → frame[j]? = some b →
        Matches (StoresAt strtod (arraysOf fromDims frames bones))
          (putValues strtod (rowOf (row + 1)) j ((arraysOf fromDims frames bones)[j]?).join 0 b.tokens)
          (boneCells row j 0 b.values) := by
      intro row frame j b hframe hb
      exact hall (frame, row) (List.mk_mem_zipIdx_iff_getElem?.mpr hframe) (b, j)
        (List.mk_mem_zipIdx_iff_getElem?.mpr hb)
    have harrays := allocates_of_forall_matches h hdims hframes hmatches
    refine ⟨fun _ => hbones, ?_, fun _ => harrays⟩
    intro frame hframe b hb v hv
    obtain ⟨row, hrow⟩ := List.mem_iff_getElem?.mp hframe
    obtain ⟨j, hj⟩ := List.mem_iff_getElem?.mp hb
    have hvalues := List.ne_nil_of_mem hv
    exact (matches_bone_iff h hdims hrow hj hvalues (harrays _ (h.mem_bones hframe hb)
      (mt List.length_eq_zero_iff.mp hvalues))).mp (hmatches _ _ _ _ hrow hj) v hv
  · rintro htame ⟨frame, row⟩ hrow ⟨b, j⟩ hj
    rw [List.mk_mem_zipIdx_iff_getElem?] at hrow hj
    have hframe := List.mem_of_getElem? hrow
    have hb := List.mem_of_getElem? hj
    by_cases hvalues : b.values = []
    · rw [BoneLine.tokens, hvalues]
      exact matches_nil
    · exact (matches_bone_iff h hdims hrow hj hvalues (htame.arrays hframes _
        (h.mem_bones hframe hb) (mt List.length_eq_zero_iff.mp hvalues))).mpr
        (htame.blanks frame hframe b hb)

theorem passesAgree_iff_pose : Document (motion 0) [[pose 0]] [(['r', 'o', 'o', 't'], 2)] ∧
    Contiguous numeric ∧
    (PassesAgree id numeric 0 (motion 0) [[pose 0]] [(['r', 'o', 'o', 't'], 2)] ↔
      Tame numeric [[pose 0]] [(['r', 'o', 'o', 't'], 2)]) :=
  ⟨document_motion 0, contiguous_numeric, passesAgree_iff (document_motion 0) contiguous_numeric 0⟩

/-- After two blanks the second value is stored behind the end of the array. -/
theorem two_blanks : Document (motion 1) [[pose 1]] [(['r', 'o', 'o', 't'], 2)] ∧
    Contiguous numeric ∧
    (fromFile id numeric 0 ((motion 1).map Item.render)).map (·.stores.map Store.offset) =
      some [0, 8] ∧
    ¬PassesAgree id numeric 0 (motion 1) [[pose 1]] [(['r', 'o', 'o', 't'], 2)] := by
  have hdocument := document_motion 1
  refine ⟨hdocument, contiguous_numeric, by decide, ?_⟩
  rw [passesAgree_iff_matches hdocument numeric 0 (by simp) (by simp),
    matches_frameStores_iff fun frame hframe b hb => hdocument.valid_bone hframe hb]
  intro hall
  have hbone := hall ([pose 1], 0) List.mem_cons_self (pose 1, 0) List.mem_cons_self
  have hallocates : Allocates numeric 1 2 := ⟨by decide, by decide, by decide⟩
  have hframe : [[pose 1]][0]? = some [pose 1] := rfl
  have hpose : [pose 1][0]? = some (pose 1) := rfl
  have hdvd : 2 ^ 30 ∣ 1 := (matches_bone_iff hdocument contiguous_numeric hframe hpose
    (by simp [pose]) hallocates).mp hbone (1, ['2']) (by simp [pose])
  omega

end NaviMisc.Motion.AmcFile
