import Mathlib.Data.List.InsertIdx
import Mathlib.Data.List.Nodup

/-!
Sets of sockets for select (sockset.c).
-/

namespace NaviMisc.Camserv

structure Socket where
  owner : ℕ
  fd : ℕ
  deriving DecidableEq

def FD_SETSIZE : ℕ := 1024

/-- The arrays hold as many elements as there are preserved descriptors. A clientdata is known by
the number of its client. -/
structure SockSet where
  active_fds : ℕ → Bool
  preserve_fds : ℕ → Bool
  preserve_arr : List ℕ
  managed_sockets : List Socket
  managed_cldatas : List ℕ
  held_sockets : List Socket
  held_cldatas : List ℕ

def sockset_new : SockSet := ⟨fun _ => false, fun _ => false, [], [], [], [], []⟩

/-- None where the set is full or has the descriptor. -/
def sockset_add_fd (sset : SockSet) (new_sock : Socket) (cldata : ℕ) : Option SockSet :=
  if sset.preserve_arr.length = FD_SETSIZE then none
  else if sset.preserve_fds new_sock.fd = true then none
  else some { sset with
    preserve_arr := sset.preserve_arr ++ [new_sock.fd]
    managed_sockets := sset.managed_sockets ++ [new_sock]
    managed_cldatas := sset.managed_cldatas ++ [cldata]
    preserve_fds := Function.update sset.preserve_fds new_sock.fd true }

def sockset_del_fd (sset : SockSet) (sock : Socket) : SockSet :=
  if sset.preserve_fds sock.fd = true then
    let i := sset.preserve_arr.idxOf sock.fd
    { sset with
      preserve_arr := sset.preserve_arr.eraseIdx i
      managed_sockets := sset.managed_sockets.eraseIdx i
      managed_cldatas := sset.managed_cldatas.eraseIdx i
      preserve_fds := Function.update sset.preserve_fds sock.fd false }
  else sset

def sockset_hold (sset : SockSet) (sock : Socket) : SockSet :=
  if sset.preserve_fds sock.fd = true then
    let i := sset.preserve_arr.idxOf sock.fd
    sockset_del_fd { sset with
      held_sockets := sset.held_sockets ++ (sset.managed_sockets[i]?).toList
      held_cldatas := sset.held_cldatas ++ (sset.managed_cldatas[i]?).toList } sock
  else sset

def sockset_unhold_all (sset : SockSet) : SockSet :=
  { (sset.held_sockets.zip sset.held_cldatas).foldl
      (fun sset held => (sockset_add_fd sset held.1 held.2).getD sset) sset with
    held_sockets := []
    held_cldatas := [] }

def sockset_select (sset : SockSet) (ready : ℕ → Bool) : SockSet :=
  { sset with active_fds := fun fd => sset.preserve_fds fd && ready fd }

def sockset_query_socks (sset : SockSet) : List ℕ :=
  ((sset.preserve_arr.zip sset.managed_cldatas).filter fun e => sset.active_fds e.1).map Prod.snd

end NaviMisc.Camserv

/-!
The sockets of a set, as its arrays have them.
-/

namespace NaviMisc.Camserv

section Lists

variable {α β : Type*} [DecidableEq α] [DecidableEq β] {f : α → β} {l : List α} {a : α}

theorem idxOf_map (h : (l.map f).Nodup) (ha : a ∈ l) : (l.map f).idxOf (f a) = l.idxOf a := by
  induction l with
  | nil => cases ha
  | cons b l ih =>
    rw [List.map_cons, List.nodup_cons] at h
    by_cases hab : b = a
    · rw [hab, List.map_cons, List.idxOf_cons_self, List.idxOf_cons_self]
    · have hmem := (List.mem_cons.mp ha).resolve_left (Ne.symm hab)
      have hne : f b ≠ f a := by
        intro heq
        exact h.1 (heq ▸ List.mem_map_of_mem hmem)
      rw [List.map_cons, List.idxOf_cons_ne _ hne, List.idxOf_cons_ne _ hab, ih h.2 hmem]

theorem map_erase (h : (l.map f).Nodup) (ha : a ∈ l) :
    (l.map f).eraseIdx ((l.map f).idxOf (f a)) = (l.erase a).map f := by
  rw [List.eraseIdx_map, idxOf_map h ha, List.eraseIdx_idxOf_eq_erase]

end Lists

namespace SockSet

variable {sset : SockSet} {sock : Socket}

def sockets (sset : SockSet) : List Socket := sset.managed_sockets ++ sset.held_sockets

structure Consistent (sset : SockSet) : Prop where
  preserved : ∀ fd, sset.preserve_fds fd = true ↔ fd ∈ sset.preserve_arr
  fds : sset.preserve_arr = sset.managed_sockets.map Socket.fd
  cldatas : sset.managed_cldatas = sset.managed_sockets.map Socket.owner
  held : sset.held_cldatas = sset.held_sockets.map Socket.owner
  nodup : (sset.sockets.map Socket.fd).Nodup
  lt : ∀ sock ∈ sset.sockets, sock.fd < FD_SETSIZE

theorem consistent_new : Consistent sockset_new := by
  constructor <;> simp [sockset_new, sockets]

theorem del_fd_held (held_sockets : List Socket) (held_cldatas : List ℕ) :
    sockset_del_fd { sset with held_sockets := held_sockets, held_cldatas := held_cldatas } sock =
      { sockset_del_fd sset sock with
        held_sockets := held_sockets
        held_cldatas := held_cldatas } := by
  unfold sockset_del_fd
  dsimp only
  split_ifs <;> rfl

def released (sset : SockSet) : SockSet := { sset with held_sockets := [], held_cldatas := [] }

theorem add_fd_released (sset : SockSet) (sock : Socket) :
    (sockset_add_fd sset.released sock sock.owner).getD sset.released =
      ((sockset_add_fd sset sock sock.owner).getD sset).released := by
  unfold sockset_add_fd released
  dsimp only
  split_ifs <;> rfl

theorem foldl_released (sset : SockSet) (held : List Socket) :
    (held.foldl (fun sset sock => (sockset_add_fd sset sock sock.owner).getD sset) sset).released =
      held.foldl (fun sset sock => (sockset_add_fd sset sock sock.owner).getD sset)
        sset.released := by
  induction held generalizing sset with
  | nil => rfl
  | cons sock held ih => rw [List.foldl_cons, List.foldl_cons, ih, add_fd_released]

namespace Consistent

variable (h : sset.Consistent)
include h

theorem preserve_fds_iff (fd : ℕ) :
    sset.preserve_fds fd = true ↔ fd ∈ sset.managed_sockets.map Socket.fd := by
  rw [h.preserved, h.fds]

theorem nodup_managed : (sset.managed_sockets.map Socket.fd).Nodup :=
  h.nodup.sublist ((List.sublist_append_left _ _).map _)

theorem nodup_sockets : sset.sockets.Nodup := h.nodup.of_map _

theorem length_lt (hfd : sock.fd ∉ sset.managed_sockets.map Socket.fd) (hlt : sock.fd < FD_SETSIZE) :
    sset.preserve_arr.length < FD_SETSIZE := by
  have hnodup : (sock.fd :: sset.managed_sockets.map Socket.fd).Nodup :=
    List.nodup_cons.mpr ⟨hfd, h.nodup_managed⟩
  have hsubset : sock.fd :: sset.managed_sockets.map Socket.fd ⊆ List.range FD_SETSIZE := by
    intro fd hmem
    rw [List.mem_range]
    rcases List.mem_cons.mp hmem with rfl | hmem
    · exact hlt
    · obtain ⟨sock, hsock, rfl⟩ := List.mem_map.mp hmem
      exact h.lt sock (List.mem_append_left _ hsock)
  have hlength := hnodup.length_le_of_subset hsubset
  rw [List.length_cons, List.length_map, List.length_range] at hlength
  rw [h.fds, List.length_map]
  exact hlength

theorem add_fd (hfd : sock.fd ∉ sset.sockets.map Socket.fd) (hlt : sock.fd < FD_SETSIZE) :
    ∃ sset', sockset_add_fd sset sock sock.owner = some sset' ∧ sset'.Consistent ∧
      sset'.managed_sockets = sset.managed_sockets ++ [sock] ∧
      sset'.held_sockets = sset.held_sockets := by
  have hmanaged : sock.fd ∉ sset.managed_sockets.map Socket.fd := by
    intro hmem
    apply hfd
    rw [sockets, List.map_append]
    exact List.mem_append_left _ hmem
  unfold sockset_add_fd
  rw [if_neg (Nat.ne_of_lt (h.length_lt hmanaged hlt)), if_neg (by rwa [h.preserve_fds_iff])]
  refine ⟨_, rfl, ⟨?_, ?_, ?_, h.held, ?_, ?_⟩, rfl, rfl⟩
  · intro fd
    dsimp only
    rw [List.mem_append, List.mem_singleton, ← h.preserved, Function.update_apply]
    split_ifs with heq <;> simp [heq]
  · simp [h.fds]
  · simp [h.cldatas]
  · have hperm : (sset.managed_sockets ++ [sock] ++ sset.held_sockets).Perm (sock :: sset.sockets) := by
      rw [List.append_assoc]
      exact List.perm_middle
    rw [sockets, (hperm.map Socket.fd).nodup_iff, List.map_cons, List.nodup_cons]
    exact ⟨hfd, h.nodup⟩
  · intro sock' hsock'
    simp only [sockets, List.mem_append, List.mem_singleton] at hsock'
    rcases hsock' with (hsock' | rfl) | hsock'
    · exact h.lt sock' (List.mem_append_left _ hsock')
    · exact hlt
    · exact h.lt sock' (List.mem_append_right _ hsock')

theorem del_fd_of_not_mem (hfd : sock.fd ∉ sset.managed_sockets.map Socket.fd) :
    sockset_del_fd sset sock = sset :=
  if_neg (by rwa [h.preserve_fds_iff])

theorem del_fd (hsock : sock ∈ sset.managed_sockets) :
    (sockset_del_fd sset sock).Consistent ∧
      (sockset_del_fd sset sock).managed_sockets = sset.managed_sockets.erase sock ∧
      (sockset_del_fd sset sock).held_sockets = sset.held_sockets := by
  have hidx : sset.preserve_arr.idxOf sock.fd = sset.managed_sockets.idxOf sock := by
    rw [h.fds, idxOf_map h.nodup_managed hsock]
  have hmanaged : sset.managed_sockets.eraseIdx (sset.preserve_arr.idxOf sock.fd) =
      sset.managed_sockets.erase sock := by
    rw [hidx, List.eraseIdx_idxOf_eq_erase]
  have harr : sset.preserve_arr.eraseIdx (sset.preserve_arr.idxOf sock.fd) =
      (sset.managed_sockets.erase sock).map Socket.fd := by
    rw [h.fds, map_erase h.nodup_managed hsock]
  unfold sockset_del_fd
  rw [if_pos ((h.preserve_fds_iff _).mpr (List.mem_map_of_mem hsock))]
  have hsub : (sset.managed_sockets.erase sock ++ sset.held_sockets).Sublist sset.sockets :=
    List.erase_sublist.append_right _
  refine ⟨⟨?_, ?_, ?_, h.held, ?_, ?_⟩, hmanaged, rfl⟩
  · intro fd
    dsimp only
    rw [harr, Function.update_apply]
    have hnodup := h.nodup_managed
    have hfd : fd ∈ (sset.managed_sockets.erase sock).map Socket.fd ↔
        fd ≠ sock.fd ∧ fd ∈ sset.managed_sockets.map Socket.fd := by
      rw [← map_erase h.nodup_managed hsock, List.eraseIdx_idxOf_eq_erase, hnodup.mem_erase_iff]
    rw [hfd, ← h.preserve_fds_iff]
    split_ifs with heq <;> simp [heq]
  · exact harr.trans (congrArg (List.map _) hmanaged.symm)
  · dsimp only
    rw [h.cldatas, List.eraseIdx_map]
  · rw [sockets]
    dsimp only
    rw [hmanaged]
    exact h.nodup.sublist (hsub.map _)
  · intro sock' hsock'
    rw [sockets] at hsock'
    dsimp only at hsock'
    rw [hmanaged] at hsock'
    exact h.lt sock' (hsub.subset hsock')

theorem hold (hsock : sock ∈ sset.managed_sockets) :
    (sockset_hold sset sock).Consistent ∧
      (sockset_hold sset sock).managed_sockets = sset.managed_sockets.erase sock ∧
      (sockset_hold sset sock).held_sockets = sset.held_sockets ++ [sock] := by
  have hidx : sset.preserve_arr.idxOf sock.fd = sset.managed_sockets.idxOf sock := by
    rw [h.fds, idxOf_map h.nodup_managed hsock]
  have hcldata : sset.managed_cldatas[sset.managed_sockets.idxOf sock]? = some sock.owner := by
    rw [h.cldatas, List.getElem?_map, List.getElem?_idxOf hsock, Option.map_some]
  obtain ⟨hdel, hmanaged, -⟩ := h.del_fd hsock
  unfold sockset_hold
  rw [if_pos ((h.preserve_fds_iff _).mpr (List.mem_map_of_mem hsock)), hidx]
  dsimp only
  rw [List.getElem?_idxOf hsock, hcldata, Option.toList_some, Option.toList_some, del_fd_held]
  have hperm : ((sockset_del_fd sset sock).managed_sockets ++ (sset.held_sockets ++ [sock])).Perm
      sset.sockets := by
    rw [hmanaged, ← List.append_assoc]
    refine List.perm_append_comm.trans ?_
    rw [List.singleton_append, ← List.cons_append]
    exact (List.perm_cons_erase hsock).symm.append_right _
  refine ⟨⟨hdel.preserved, hdel.fds, hdel.cldatas, by simp [h.held], ?_, ?_⟩, hmanaged, rfl⟩
  · exact (hperm.map Socket.fd).nodup_iff.mpr h.nodup
  · intro sock' hsock'
    exact h.lt sock' (hperm.mem_iff.mp hsock')

omit h in
theorem foldl_add_fd {held : List Socket} (h : sset.Consistent) (hheld : sset.held_sockets = [])
    (hnodup : ((sset.managed_sockets ++ held).map Socket.fd).Nodup)
    (hlt : ∀ sock ∈ held, sock.fd < FD_SETSIZE) :
    let sset' := held.foldl (fun sset sock =>
      (sockset_add_fd sset sock sock.owner).getD sset) sset
    sset'.Consistent ∧ sset'.managed_sockets = sset.managed_sockets ++ held ∧
      sset'.held_sockets = [] := by
  induction held generalizing sset with
  | nil => exact ⟨h, by simp, hheld⟩
  | cons sock held ih =>
    rw [List.forall_mem_cons] at hlt
    have hperm : (sset.managed_sockets ++ sock :: held).Perm
        (sock :: (sset.managed_sockets ++ held)) := List.perm_middle
    have hcons := (hperm.map Socket.fd).nodup_iff.mp hnodup
    rw [List.map_cons, List.nodup_cons, List.map_append, List.mem_append, not_or] at hcons
    have hfd : sock.fd ∉ sset.sockets.map Socket.fd := by
      rw [sockets, hheld, List.append_nil]
      exact hcons.1.1
    obtain ⟨sset', hadd, hconsistent, hmanaged, hheld'⟩ := h.add_fd hfd hlt.1
    have hsplit : sset.managed_sockets ++ sock :: held = sset'.managed_sockets ++ held := by
      rw [hmanaged, List.append_assoc, List.singleton_append]
    rw [List.foldl_cons, hadd, Option.getD_some, hsplit]
    exact ih hconsistent (hheld'.trans hheld) (hsplit ▸ hnodup) hlt.2

theorem unhold_all :
    (sockset_unhold_all sset).Consistent ∧
      (sockset_unhold_all sset).managed_sockets = sset.sockets ∧
      (sockset_unhold_all sset).held_sockets = [] := by
  have hzip : sset.held_sockets.zip sset.held_cldatas =
      sset.held_sockets.map fun sock => (sock, sock.owner) := by
    rw [h.held, List.zip_map_right, List.zip, List.zipWith_self, List.map_map]
    rfl
  have hreleased : sset.released.Consistent := by
    refine ⟨h.preserved, h.fds, h.cldatas, rfl, ?_, ?_⟩
    · rw [sockets, released, List.append_nil]
      exact h.nodup_managed
    · intro sock hsock
      rw [sockets, released, List.append_nil] at hsock
      exact h.lt sock (List.mem_append_left _ hsock)
  have hlt : ∀ sock ∈ sset.held_sockets, sock.fd < FD_SETSIZE := by
    intro sock hsock
    exact h.lt sock (List.mem_append_right _ hsock)
  have hunhold : sockset_unhold_all sset = sset.held_sockets.foldl (fun sset sock =>
      (sockset_add_fd sset sock sock.owner).getD sset) sset.released := by
    rw [sockset_unhold_all, hzip, List.foldl_map]
    exact foldl_released _ _
  rw [hunhold]
  exact hreleased.foldl_add_fd rfl h.nodup hlt

theorem mem_del_fd (hsock : sock ∈ sset.managed_sockets) (sock' : Socket) :
    sock' ∈ (sockset_del_fd sset sock).sockets ↔ sock' ≠ sock ∧ sock' ∈ sset.sockets := by
  obtain ⟨-, hmanaged, hheld⟩ := h.del_fd hsock
  rw [sockets, hmanaged, hheld, ← List.erase_append_left _ hsock]
  exact h.nodup_sockets.mem_erase_iff

theorem mem_hold (hsock : sock ∈ sset.managed_sockets) (sock' : Socket) :
    sock' ∈ (sockset_hold sset sock).sockets ↔ sock' ∈ sset.sockets := by
  obtain ⟨-, hmanaged, hheld⟩ := h.hold hsock
  have hmem : sock' ∈ sset.sockets.erase sock ↔ sock' ≠ sock ∧ sock' ∈ sset.sockets :=
    h.nodup_sockets.mem_erase_iff
  rw [sockets, List.erase_append_left _ hsock] at hmem
  rw [sockets, hmanaged, hheld, ← List.append_assoc, List.mem_append, hmem, List.mem_singleton]
  by_cases heq : sock' = sock
  · simp [sockets, heq, hsock]
  · simp [sockets, heq]

theorem sockets_unhold_all : (sockset_unhold_all sset).sockets = sset.sockets := by
  obtain ⟨-, hmanaged, hheld⟩ := h.unhold_all
  rw [sockets, hmanaged, hheld, List.append_nil]

theorem query_socks_sublist :
    (sockset_query_socks sset).Sublist (sset.managed_sockets.map Socket.owner) := by
  have hsnd : (sset.preserve_arr.zip sset.managed_cldatas).map Prod.snd =
      sset.managed_sockets.map Socket.owner := by
    rw [← h.cldatas]
    apply List.map_snd_zip
    simp [h.fds, h.cldatas]
  rw [← hsnd]
  exact List.filter_sublist.map _

theorem select (ready : ℕ → Bool) : (sockset_select sset ready).Consistent :=
  ⟨h.preserved, h.fds, h.cldatas, h.held, h.nodup, h.lt⟩

end Consistent

end SockSet

end NaviMisc.Camserv
