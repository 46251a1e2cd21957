import NaviMisc.Motion.AmcFile

/-!
The two passes over the text of a motion file: what the first one counts and what the second one
stores.
-/

namespace NaviMisc.Motion.AmcFile

variable {items : List Item} {frames : List (List BoneLine)} {bones : List (Line × ℕ)}

/-! The first pass. -/

structure Counts where
  current_frame : ℕ
  bones : List Line
  dofs : List ℕ

def Scan.counts (s : Scan) : Counts := ⟨s.current_frame, s.bones, s.dofs⟩

def scanEvent (s : Counts) : ℕ ⊕ BoneLine → Counts
  | .inl n => { s with current_frame := min n (2 ^ 64 - 1) }
  | .inr b =>
    if s.current_frame = 1 then
      { s with bones := s.bones ++ [b.name], dofs := s.dofs ++ [b.values.length % 2 ^ 32] }
    else s

theorem counts_scanLine {item : Item} (h : item.Valid) (s : Scan) :
    (scanLine s item.render).counts = (item.event.map (scanEvent s.counts)).getD s.counts := by
  cases item with
  | comment text => rfl
  | format text => rfl
  | blank text =>
    obtain ⟨hcomment, hformat⟩ := head_of_blank h
    rw [scanLine, Item.render, if_neg hcomment, if_neg hformat, strstrip_blank h]
    rfl
  | number lead digits trail =>
    have hstrip := strstrip_number h
    obtain ⟨hlead, ⟨hne, hdigits⟩, -⟩ := h
    obtain ⟨hcomment, hformat⟩ := head_append hlead (head_of_digits hne hdigits trail)
    rw [← List.append_assoc] at hcomment hformat
    simp only [scanLine, Item.render, if_neg hcomment, if_neg hformat, hstrip, if_neg hne, hdigits,
      if_true]
    rfl
  | bone b =>
    obtain ⟨hcomment, hformat⟩ := h.head_render
    simp only [scanLine, Item.render, if_neg hcomment, if_neg hformat, h.strstrip_render,
      if_neg h.core_ne_nil, if_neg h.core_not_digits, h.tokensOf_core, List.headD_cons,
      List.tail_cons, h.countP_tokens, Item.event, Option.map_some, Option.getD_some, scanEvent,
      Scan.counts]
    split_ifs <;> rfl

theorem counts_scan (h : ∀ item ∈ items, item.Valid) (s : Scan) :
    ((items.map Item.render).foldl scanLine s).counts =
      (items.filterMap Item.event).foldl scanEvent s.counts := by
  induction items generalizing s with
  | nil => rfl
  | cons item items ih =>
    rw [List.forall_mem_cons] at h
    rw [List.map_cons, List.foldl_cons, ih h.2, counts_scanLine h.1, List.filterMap_cons]
    cases item.event <;> rfl

theorem scan_bones_of_ne {s : Counts} (h : s.current_frame ≠ 1) (frame : List BoneLine) :
    (frame.map Sum.inr).foldl scanEvent s = s := by
  induction frame with
  | nil => rfl
  | cons b frame ih =>
    rw [List.map_cons, List.foldl_cons, scanEvent, if_neg h]
    exact ih

theorem scan_bones {s : Counts} (h : s.current_frame = 1) (frame : List BoneLine) :
    (frame.map Sum.inr).foldl scanEvent s = ⟨1, s.bones ++ frame.map BoneLine.name,
      s.dofs ++ frame.map fun b => b.values.length % 2 ^ 32⟩ := by
  induction frame generalizing s with
  | nil =>
    rw [List.map_nil, List.map_nil, List.map_nil, List.append_nil, List.append_nil, ← h]
    rfl
  | cons b frame ih =>
    have hrest := ih (s := ⟨s.current_frame, s.bones ++ [b.name],
      s.dofs ++ [b.values.length % 2 ^ 32]⟩) h
    rw [List.map_cons, List.foldl_cons, scanEvent, if_pos h, hrest]
    simp

theorem scan_later {n : ℕ} (hn : 2 ≤ n) {s : Counts} (hs : s.current_frame = min (n - 1) (2 ^ 64 - 1)) :
    (script n frames).foldl scanEvent s =
      { s with current_frame := min (n - 1 + frames.length) (2 ^ 64 - 1) } := by
  induction frames generalizing n s with
  | nil =>
    rw [List.length_nil, Nat.add_zero, ← hs]
    rfl
  | cons frame frames ih =>
    have hne : min n (2 ^ 64 - 1) ≠ 1 := by omega
    rw [script, List.foldl_cons, scanEvent, List.foldl_append, scan_bones_of_ne hne]
    refine (ih (Nat.le_succ_of_le hn) rfl).trans ?_
    rw [List.length_cons]
    congr 2
    omega

theorem scan_script (hframes : frames ≠ [])
    (hbones : ∀ frame ∈ frames, frame.map (fun b => (b.name, b.values.length)) = bones) (garbage : ℕ) :
    (script 1 frames).foldl scanEvent ⟨garbage, [], []⟩ =
      ⟨min frames.length (2 ^ 64 - 1), bones.map Prod.fst, bones.map fun b => b.2 % 2 ^ 32⟩ := by
  obtain ⟨frame, frames, rfl⟩ := List.exists_cons_of_ne_nil hframes
  have hframe := hbones frame List.mem_cons_self
  rw [script, List.foldl_cons, scanEvent, List.foldl_append, scan_bones rfl, scan_later le_rfl rfl,
    List.length_cons, ← hframe, List.map_map, List.map_map]
  congr 2
  omega

/-! The second pass. -/

section fill

variable {F : Type} (strtod : Line → F) (data : List (Option FloatArray))

def rowOf (n : ℕ) : ℕ := (min n (2 ^ 64 - 1) + (2 ^ 64 - 1)) % 2 ^ 64

theorem rowOf_succ {row : ℕ} (h : row + 1 < 2 ^ 64) : rowOf (row + 1) = row := by
  rw [rowOf]
  omega

def fillEvent (s : Fill F) : ℕ ⊕ BoneLine → Option (Fill F)
  | .inl n =>
    match data with
    | [] => none
    | _ :: _ => some { s with current_frame := rowOf n, i := 0, pao := some 0 }
  | .inr b => do
    let stores ← putValues strtod s.current_frame (s.pao.getD 0) (s.pao.bind (data[·]?)).join 0
      b.tokens
    let i := s.i + 1
    return { s with
      i := i
      pao := if i < data.length then some i else s.pao
      stores := s.stores ++ stores }

theorem fillLine_render {item : Item} (h : item.Valid) (s : Fill F) :
    fillLine strtod data s item.render =
      match item.event with
      | some e => fillEvent strtod data s e
      | none => some s := by
  cases item with
  | comment text => rfl
  | format text => rfl
  | blank text =>
    rw [fillLine, Item.render, if_neg (not_or.mpr (head_of_blank h)), strstrip_blank h]
    rfl
  | number lead digits trail =>
    have hstrip := strstrip_number h
    obtain ⟨hlead, ⟨hne, hdigits⟩, -⟩ := h
    have hhead := head_append hlead (head_of_digits hne hdigits trail)
    rw [← List.append_assoc] at hhead
    simp only [fillLine, Item.render, if_neg (not_or.mpr hhead), hstrip, if_neg hne, hdigits,
      if_true]
    rfl
  | bone b =>
    simp only [fillLine, Item.render, if_neg (not_or.mpr h.head_render), h.strstrip_render,
      if_neg h.core_ne_nil, if_neg h.core_not_digits, h.tokensOf_core, List.tail_cons]
    rfl

theorem fill_items (h : ∀ item ∈ items, item.Valid) (s : Fill F) :
    (items.map Item.render).foldlM (fillLine strtod data) s =
      (items.filterMap Item.event).foldlM (fillEvent strtod data) s := by
  induction items generalizing s with
  | nil => rfl
  | cons item items ih =>
    rw [List.forall_mem_cons] at h
    rw [List.map_cons, List.foldlM_cons, fillLine_render strtod data h.1, List.filterMap_cons]
    cases item.event with
    | none => exact ih h.2 s
    | some e =>
      rw [List.foldlM_cons]
      congr 1
      funext s'
      exact ih h.2 s'

def boneStores (row : ℕ) : ℕ → List BoneLine → Option (List (Store F))
  | _, [] => some []
  | array, b :: bs => do
    let stores ← putValues strtod row array (data[array]?).join 0 b.tokens
    let rest ← boneStores row (array + 1) bs
    return stores ++ rest

def atBone (row i : ℕ) (stores : List (Store F)) : Fill F :=
  ⟨row, i, some (min i (data.length - 1)), stores⟩

theorem fill_bones {frame : List BoneLine} {i : ℕ} (h : i + frame.length = data.length) (row : ℕ)
    (stores : List (Store F)) :
    (frame.map Sum.inr).foldlM (fillEvent strtod data) (atBone data row i stores) =
      (boneStores strtod data row i frame).map fun new =>
        atBone data row data.length (stores ++ new) := by
  induction frame generalizing i stores with
  | nil =>
    rw [List.length_nil, Nat.add_zero] at h
    simp [boneStores, h]
  | cons b frame ih =>
    rw [List.length_cons] at h
    have hmin : min i (data.length - 1) = i := by omega
    have hstep : fillEvent strtod data (atBone data row i stores) (.inr b) =
        (putValues strtod row i (data[i]?).join 0 b.tokens).map fun new =>
          atBone data row (i + 1) (stores ++ new) := by
      have hpao : (if i + 1 < data.length then some (i + 1) else some i) =
          some (min (i + 1) (data.length - 1)) := by
        split_ifs <;> congr 1 <;> omega
      simp only [fillEvent, atBone, hmin, ← hpao, Option.getD_some, Option.bind_some]
      cases putValues strtod row i (data[i]?).join 0 b.tokens <;> rfl
    rw [List.map_cons, List.foldlM_cons, hstep, boneStores]
    cases putValues strtod row i (data[i]?).join 0 b.tokens with
    | none => rfl
    | some new =>
      refine (ih (by omega) (stores ++ new)).trans ?_
      cases boneStores strtod data row (i + 1) frame with
      | none => rfl
      | some rest => simp

def frameStores : ℕ → List (List BoneLine) → Option (List (Store F))
  | _, [] => some []
  | row, frame :: frames => do
    let stores ← boneStores strtod data (rowOf (row + 1)) 0 frame
    let rest ← frameStores (row + 1) frames
    return stores ++ rest

theorem fill_script (hdata : data ≠ []) (hframes : ∀ frame ∈ frames, frame.length = data.length)
    (row : ℕ) (s : Fill F) :
    ((script (row + 1) frames).foldlM (fillEvent strtod data) s).map Fill.stores =
      (frameStores strtod data row frames).map (s.stores ++ ·) := by
  induction frames generalizing row s with
  | nil => simp [script, frameStores]
  | cons frame frames ih =>
    rw [List.forall_mem_cons] at hframes
    have hnumber : fillEvent strtod data s (.inl (row + 1)) =
        some (atBone data (rowOf (row + 1)) 0 s.stores) := by
      obtain ⟨a, data, rfl⟩ := List.exists_cons_of_ne_nil hdata
      rfl
    rw [script, List.foldlM_cons, hnumber, Option.bind_eq_bind, Option.bind_some,
      List.foldlM_append, fill_bones strtod data (by rw [Nat.zero_add, hframes.1]), frameStores]
    cases boneStores strtod data (rowOf (row + 1)) 0 frame with
    | none => rfl
    | some new =>
      have hrest := ih hframes.2 (row + 1) (atBone data (rowOf (row + 1)) data.length (s.stores ++ new))
      simp only [Option.map_some, Option.bind_eq_bind, Option.bind_some, hrest]
      cases frameStores strtod data (row + 1) frames with
      | none => simp
      | some rest => simp [atBone]

end fill

end NaviMisc.Motion.AmcFile
