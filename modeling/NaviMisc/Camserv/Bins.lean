import Mathlib.Algebra.Order.Ring.Int
import NaviMisc.Camserv.Client

/-!
The counts of the picture bins: how many users each of them has, and that it is there as long as it
has one.
-/

namespace NaviMisc.Camserv

open NaviMisc.Lib.ByteOrder

variable {m m' : Manager} {users : ℤ → ℕ} {bin : Picture_Bin} {id : ℤ}

structure Counted (m : Manager) (users : ℤ → ℕ) : Prop where
  counts : ∀ bin ∈ m.binList, bin.nClients = users bin.picture_id
  held : ∀ id, users id ≠ 0 → ∃ bin ∈ m.binList, bin.picture_id = id
  sorted : (m.binList.map Picture_Bin.picture_id).Pairwise (· > ·)
  ids : ∀ bin ∈ m.binList, 0 ≤ bin.picture_id ∧ bin.picture_id < m.current_picture_id
  current : 0 ≤ m.current_picture_id

theorem find_of_mem {bins : List Picture_Bin}
    (h : (bins.map Picture_Bin.picture_id).Pairwise (· > ·)) (hbin : bin ∈ bins) :
    bins.find? (·.picture_id = bin.picture_id) = some bin := by
  induction bins with
  | nil => cases hbin
  | cons first bins ih =>
    rw [List.map_cons, List.pairwise_cons] at h
    rcases List.mem_cons.mp hbin with rfl | hbin
    · simp
    · have hne := (h.1 _ (List.mem_map_of_mem hbin)).ne'
      rw [List.find?_cons_of_neg (by simpa using hne), ih h.2 hbin]

theorem counted_start : Counted manager_start fun _ => 0 :=
  ⟨by simp [manager_start], by simp, by simp [manager_start], by simp [manager_start],
    by simp [manager_start]⟩

namespace Counted

variable (h : Counted m users)
include h

theorem current_unused : users m.current_picture_id = 0 := by
  by_contra hne
  obtain ⟨bin, hbin, hid⟩ := h.held _ hne
  have hlt := (h.ids bin hbin).2
  rw [hid] at hlt
  exact lt_irrefl _ hlt

theorem picture_of_mem (hbin : bin ∈ m.binList) :
    m.picture bin.picture_id = some (bin.picture_data, bin.picture_size) := by
  rw [Manager.picture, find_of_mem h.sorted hbin, Option.map_some]

theorem new_picture (picture_data : List Byte) (pic_size : ℕ) :
    Counted (manager_new_picture m picture_data pic_size) users := by
  refine ⟨?_, ?_, ?_, ?_, ?_⟩
  · intro bin hbin
    rcases List.mem_cons.mp hbin with rfl | hbin
    · simp [h.current_unused]
    · exact h.counts bin (List.mem_of_mem_filter hbin)
  · intro id hid
    obtain ⟨bin, hbin, rfl⟩ := h.held id hid
    refine ⟨bin, List.mem_cons_of_mem _ (List.mem_filter.mpr ⟨hbin, ?_⟩), rfl⟩
    rw [decide_eq_true_iff, h.counts bin hbin]
    exact_mod_cast hid
  · refine List.pairwise_cons.mpr ⟨?_, h.sorted.sublist (List.filter_sublist.map _)⟩
    intro id hid
    obtain ⟨bin, hbin, rfl⟩ := List.mem_map.mp hid
    exact (h.ids bin (List.mem_of_mem_filter hbin)).2
  · intro bin hbin
    rcases List.mem_cons.mp hbin with rfl | hbin
    · exact ⟨h.current, Int.lt_succ _⟩
    · have hid := h.ids bin (List.mem_of_mem_filter hbin)
      exact ⟨hid.1, hid.2.trans (Int.lt_succ _)⟩
  · exact h.current.trans (Int.lt_succ _).le

theorem used_of_mem {picture_data : List Byte} {pic_size : ℕ}
    (hbin : bin ∈ (manager_new_picture m picture_data pic_size).binList) :
    bin.picture_id = m.current_picture_id ∨ users bin.picture_id ≠ 0 := by
  rcases List.mem_cons.mp hbin with rfl | hbin
  · exact .inl rfl
  · obtain ⟨hbin, hused⟩ := List.mem_filter.mp hbin
    rw [decide_eq_true_iff, h.counts bin hbin] at hused
    exact .inr (by exact_mod_cast hused)

theorem picture_new_picture (hid : users id ≠ 0) (picture_data : List Byte) (pic_size : ℕ) :
    (manager_new_picture m picture_data pic_size).picture id = m.picture id := by
  obtain ⟨bin, hbin, rfl⟩ := h.held id hid
  rw [h.picture_of_mem hbin]
  apply (h.new_picture picture_data pic_size).picture_of_mem
  apply List.mem_cons_of_mem
  rw [List.mem_filter, decide_eq_true_iff, h.counts bin hbin]
  exact ⟨hbin, by exact_mod_cast hid⟩

theorem recount {users' : ℤ → ℕ} {f : Picture_Bin → Picture_Bin}
    (hf : ∀ bin, (f bin).picture_id = bin.picture_id)
    (hcounts : ∀ bin ∈ m.binList, (f bin).nClients = users' bin.picture_id)
    (hheld : ∀ id, users' id ≠ 0 → ∃ bin ∈ m.binList, bin.picture_id = id) :
    Counted { m with binList := m.binList.map f } users' := by
  refine ⟨?_, ?_, ?_, ?_, h.current⟩
  · intro bin hbin
    obtain ⟨bin, hmem, rfl⟩ := List.mem_map.mp hbin
    rw [hf]
    exact hcounts bin hmem
  · intro id hid
    obtain ⟨bin, hbin, rfl⟩ := hheld id hid
    exact ⟨f bin, List.mem_map_of_mem hbin, hf bin⟩
  · have hids : (m.binList.map f).map Picture_Bin.picture_id =
        m.binList.map Picture_Bin.picture_id := by
      rw [List.map_map]
      exact List.map_congr_left fun bin _ => hf bin
    rw [hids]
    exact h.sorted
  · intro bin hbin
    obtain ⟨bin, hmem, rfl⟩ := List.mem_map.mp hbin
    rw [hf]
    exact h.ids bin hmem

theorem new_client_eq (hnew : manager_new_client m = some (bin, m')) :
    bin ∈ m.binList ∧ m' = { m with
      binList := m.binList.map fun bin' =>
        if bin'.picture_id = bin.picture_id then { bin' with nClients := bin'.nClients + 1 }
        else bin' } := by
  have hsorted := h.sorted
  unfold manager_new_client at hnew
  split at hnew
  next => cases hnew
  next first bins hbins =>
    cases hnew
    rw [hbins, List.map_cons, List.pairwise_cons] at hsorted
    refine ⟨hbins ▸ List.mem_cons_self, ?_⟩
    rw [hbins, List.map_cons, if_pos rfl, List.map_congr_left (g := id), List.map_id]
    intro bin hbin
    exact if_neg (hsorted.1 _ (List.mem_map_of_mem hbin)).ne

theorem new_client (hnew : manager_new_client m = some (bin, m')) :
    Counted m' (Function.update users bin.picture_id (users bin.picture_id + 1)) := by
  obtain ⟨hbin, rfl⟩ := h.new_client_eq hnew
  apply h.recount
  · intro bin'
    split_ifs <;> rfl
  · intro bin' hbin'
    rw [Function.update_apply]
    split_ifs with hid
    · rw [← hid]
      simp [h.counts bin' hbin']
    · exact h.counts bin' hbin'
  · intro id hid
    rw [Function.update_apply] at hid
    split_ifs at hid with heq
    · exact ⟨bin, hbin, heq.symm⟩
    · exact h.held id hid

theorem dest_client (hid : users id ≠ 0) :
    Counted (manager_dest_client m id) (Function.update users id (users id - 1)) := by
  apply h.recount
  · intro bin
    split_ifs <;> rfl
  · intro bin hbin
    rw [Function.update_apply]
    split_ifs with heq
    · subst heq
      simp only [h.counts bin hbin]
      omega
    · exact h.counts bin hbin
  · intro id' hid'
    rw [Function.update_apply] at hid'
    split_ifs at hid' with heq
    · exact heq ▸ h.held id hid
    · exact h.held id' hid'

end Counted

theorem picture_recount (m : Manager) {f : Picture_Bin → Picture_Bin}
    (hid : ∀ bin, (f bin).picture_id = bin.picture_id)
    (hdata : ∀ bin, (f bin).picture_data = bin.picture_data)
    (hsize : ∀ bin, (f bin).picture_size = bin.picture_size) (id : ℤ) :
    Manager.picture { m with binList := m.binList.map f } id = m.picture id := by
  simp only [Manager.picture, List.find?_map, Option.map_map]
  have hp : (fun bin : Picture_Bin => decide (bin.picture_id = id)) ∘ f =
      fun bin => decide (bin.picture_id = id) := by
    funext bin
    simp only [Function.comp_apply, hid]
  have hdatas : (fun bin : Picture_Bin => (bin.picture_data, bin.picture_size)) ∘ f =
      fun bin => (bin.picture_data, bin.picture_size) := by
    funext bin
    simp only [Function.comp_apply, hdata, hsize]
  rw [hp, hdatas]

def Manager.pictures (m : Manager) : List (List Byte × ℕ) :=
  m.binList.map fun bin => (bin.picture_data, bin.picture_size)

theorem mem_pictures_of_picture {p : List Byte × ℕ} (hp : m.picture id = some p) :
    p ∈ m.pictures := by
  obtain ⟨bin, hbin, rfl⟩ := Option.map_eq_some_iff.mp hp
  exact List.mem_map_of_mem (List.mem_of_find?_eq_some hbin)

theorem pictures_recount (m : Manager) {f : Picture_Bin → Picture_Bin}
    (hdata : ∀ bin, (f bin).picture_data = bin.picture_data)
    (hsize : ∀ bin, (f bin).picture_size = bin.picture_size) :
    Manager.pictures { m with binList := m.binList.map f } = m.pictures := by
  simp only [Manager.pictures, List.map_map]
  apply List.map_congr_left
  intro bin _
  rw [Function.comp_apply, hdata, hsize]

theorem pictures_dest_client (m : Manager) (id : ℤ) :
    (manager_dest_client m id).pictures = m.pictures := by
  apply pictures_recount <;> intro bin <;> split_ifs <;> rfl

theorem mem_pictures_new_picture {p : List Byte × ℕ} {picture_data : List Byte} {pic_size : ℕ}
    (hp : p ∈ (manager_new_picture m picture_data pic_size).pictures) :
    p = (picture_data, pic_size) ∨ p ∈ m.pictures := by
  obtain ⟨bin, hbin, rfl⟩ := List.mem_map.mp hp
  rcases List.mem_cons.mp hbin with rfl | hbin
  · exact .inl rfl
  · exact .inr (List.mem_map_of_mem (List.mem_of_mem_filter hbin))

theorem picture_dest_client (m : Manager) (id id' : ℤ) :
    (manager_dest_client m id).picture id' = m.picture id' := by
  apply picture_recount <;> intro bin <;> split_ifs <;> rfl

theorem picture_new_client (h : Counted m users) (hnew : manager_new_client m = some (bin, m'))
    (id : ℤ) : m'.picture id = m.picture id := by
  obtain ⟨-, rfl⟩ := h.new_client_eq hnew
  apply picture_recount <;> intro bin' <;> split_ifs <;> rfl

theorem pictures_new_client (h : Counted m users) (hnew : manager_new_client m = some (bin, m')) :
    m'.pictures = m.pictures := by
  obtain ⟨-, rfl⟩ := h.new_client_eq hnew
  apply pictures_recount <;> intro bin' <;> split_ifs <;> rfl

section NewPicture

variable {cinfo cinfo' : ClientInfo} (h : Counted m users)
include h

theorem new_picture_none (hnew : new_picture m cinfo = (none, m', cinfo')) :
    cinfo' = { cinfo with management_data := none } ∧ Counted m' users ∧
      (∀ id, m'.picture id = m.picture id) ∧ m'.pictures = m.pictures := by
  unfold new_picture at hnew
  split at hnew
  next =>
    cases hnew
    exact ⟨rfl, h, fun _ => rfl, rfl⟩
  next bin manager hclient =>
    split_ifs at hnew with hid
    · cases hnew
      have hcounted := @Counted.dest_client _ _ bin.picture_id (h.new_client hclient) (by simp)
      simp only [Function.update_self, Function.update_idem, Nat.add_sub_cancel,
        Function.update_eq_self] at hcounted
      refine ⟨rfl, hcounted, ?_, ?_⟩
      · intro id
        rw [picture_dest_client, picture_new_client h hclient]
      · rw [pictures_dest_client, pictures_new_client h hclient]
    · cases hnew

theorem new_picture_some (hnew : new_picture m cinfo = (some bin, m', cinfo')) :
    cinfo' = { cinfo with management_data := some bin.picture_id } ∧
      bin.picture_id ≠ cinfo.last_picture_id ∧ m.binList.head? = some bin ∧
      Counted m' (Function.update users bin.picture_id (users bin.picture_id + 1)) ∧
      (∀ id, m'.picture id = m.picture id) ∧ m'.pictures = m.pictures ∧
      m.picture bin.picture_id = some (bin.picture_data, bin.picture_size) := by
  unfold new_picture at hnew
  split at hnew
  next => cases hnew
  next bin' manager hclient =>
    split_ifs at hnew with hid
    · cases hnew
    · cases hnew
      have hhead : m.binList.head? = some bin := by
        unfold manager_new_client at hclient
        split at hclient
        next => cases hclient
        next first bins hbins =>
          cases hclient
          rw [hbins]
          rfl
      exact ⟨rfl, hid, hhead, h.new_client hclient, picture_new_client h hclient,
        pictures_new_client h hclient, h.picture_of_mem (h.new_client_eq hclient).1⟩

end NewPicture

def sharing (others : ℤ → ℕ) (management_data : Option ℤ) : ℤ → ℕ :=
  fun id => others id + if management_data = some id then 1 else 0

section Sharing

variable {others : ℤ → ℕ} {cinfo cinfo' : ClientInfo} {found : Option Picture_Bin}

@[simp]
theorem sharing_none : sharing others none = others := by
  funext id
  simp [sharing]

theorem sharing_some (id : ℤ) : sharing others (some id) = Function.update others id (others id + 1) := by
  funext id'
  rw [sharing, Function.update_apply]
  by_cases hid : id' = id
  · simp [hid]
  · simp [hid, Ne.symm hid]

theorem Counted.dest_sharing {management_data : Option ℤ}
    (h : Counted m (sharing others management_data)) :
    Counted (management_data.elim m (manager_dest_client m)) others := by
  cases management_data with
  | none => simpa using h
  | some id =>
    rw [sharing_some] at h
    have hdest := h.dest_client (show Function.update others id (others id + 1) id ≠ 0 by simp)
    rwa [Function.update_self, Function.update_idem, Nat.add_sub_cancel,
      Function.update_eq_self] at hdest

theorem new_picture_sharing (h : Counted m others)
    (hnew : new_picture m cinfo = (found, m', cinfo')) :
    Counted m' (sharing others cinfo'.management_data) := by
  cases found with
  | none =>
    obtain ⟨rfl, hcounted, -⟩ := new_picture_none h hnew
    simpa using hcounted
  | some bin =>
    obtain ⟨rfl, -, -, hcounted, -⟩ := new_picture_some h hnew
    rwa [sharing_some]

end Sharing

def holders {α : Type*} (clients : ℕ → Option α) (data : α → Option ℤ) (connected : List ℕ) :
    ℤ → ℕ :=
  fun picture => connected.countP fun id => (clients id).any fun client => data client = some picture

section Holders

theorem countP_of_mem {q : ℕ → Bool} {l : List ℕ} {id : ℕ} (hid : id ∈ l) :
    l.countP q = (l.erase id).countP q + (q id).toNat := by
  rw [(List.perm_cons_erase hid).countP_eq, List.countP_cons]
  cases q id <;> rfl

variable {α : Type*} {clients : ℕ → Option α} {l : List ℕ} {id : ℕ} {client : α}
  {data : α → Option ℤ}

theorem countP_erase_update (hnodup : l.Nodup) (client : Option α) (p : α → Bool) :
    ((l.erase id).countP fun id' => (Function.update clients id client id').any p) =
      (l.erase id).countP fun id' => (clients id').any p := by
  apply List.countP_congr
  intro id' hid'
  rw [Function.update_of_ne (hnodup.mem_erase_iff.mp hid').1]

theorem countP_update_of_not_mem (hid : id ∉ l) (client : Option α) (p : α → Bool) :
    (l.countP fun id' => (Function.update clients id client id').any p) =
      l.countP fun id' => (clients id').any p := by
  apply List.countP_congr
  intro id' hid'
  rw [Function.update_of_ne (ne_of_mem_of_not_mem hid' hid)]

theorem others_holders (hnodup : l.Nodup) (hlisted : id ∈ l) (hid : clients id = some client) :
    ∃ others, holders clients data l = sharing others (data client) ∧
      (∀ client', holders (Function.update clients id (some client')) data l =
        sharing others (data client')) ∧
      holders (Function.update clients id none) data (l.erase id) = others := by
  have htoNat : ∀ picture client', (decide (data client' = some picture)).toNat =
      if data client' = some picture then 1 else 0 := by
    intro picture client'
    by_cases hdata : data client' = some picture <;> simp [hdata]
  refine ⟨holders clients data (l.erase id), ?_, fun client' => ?_, ?_⟩
  · funext picture
    rw [holders, countP_of_mem hlisted, hid, sharing, Option.any_some, htoNat, holders]
  · funext picture
    rw [holders, countP_of_mem hlisted, countP_erase_update hnodup, Function.update_self, sharing,
      Option.any_some, htoNat, holders]
  · funext picture
    rw [holders, countP_erase_update hnodup, holders]

theorem holders_append (hid : id ∉ l) (hdata : data client = none) :
    holders (Function.update clients id (some client)) data (l ++ [id]) = holders clients data l := by
  funext picture
  rw [holders, List.countP_append, countP_update_of_not_mem hid, List.countP_singleton,
    Function.update_self, Option.any_some, hdata]
  simp [holders]

end Holders

/-- The bins count the users exactly. They are there as long as they have one, and only those and
the newest are left after a new picture. -/
structure BinsExact (m : Manager) (users : ℤ → ℕ) : Prop where
  counts : ∀ bin ∈ m.binList, bin.nClients = users bin.picture_id
  held : ∀ id, users id ≠ 0 → ∃ bin ∈ m.binList, bin.picture_id = id
  renewed : ∀ picture_data pic_size,
    ∀ bin ∈ (manager_new_picture m picture_data pic_size).binList,
      bin.picture_id = m.current_picture_id ∨ users bin.picture_id ≠ 0

theorem Counted.exact (h : Counted m users) : BinsExact m users :=
  ⟨h.counts, h.held, fun _ _ _ hbin => h.used_of_mem hbin⟩

end NaviMisc.Camserv
