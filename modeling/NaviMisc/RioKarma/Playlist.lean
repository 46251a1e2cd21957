import NaviMisc.RioKarma.Escape

/-!
Playlists of `RioKarma/Property.py`: escaped binary lists of file ids.
-/

namespace NaviMisc.RioKarma.Property

open Lib.ByteOrder (Byte load store)

abbrev Word := BitVec 32

def pack (ints : List Word) : Str := ints.flatMap fun x => store .little (n := 4) x

/-- The format is as long as the string has whole words. -/
def unpack : Str → Except Fault (List Word)
  | [] => .ok []
  | a :: b :: c :: d :: s => do return load .little 4 [a, b, c, d] :: (← unpack s)
  | _ => .error .structError

structure PartialDetails where
  fid : Option Word
  fidGeneration : Option Word
  deriving DecidableEq

def results (hasGenerations : Bool) : List Word → List PartialDetails
  | [] => []
  | [fid] => [⟨some fid, none⟩]
  | fid :: generation :: ints =>
    if hasGenerations then
      ⟨some fid, if generation ≠ 0 then some generation else none⟩ :: results hasGenerations ints
    else ⟨some fid, none⟩ :: results hasGenerations (generation :: ints)

def fromPlaylist (s : Str) : Except Fault (List PartialDetails) := do
  match ← unpack (← fromEscaped s) with
  | [] => .error .indexError
  | header :: ints => return results (header &&& 0xF0000000#32 = 0) ints

def toInts (details : PartialDetails) : List Word :=
  [details.fid.getD 0, details.fidGeneration.getD 0]

def HEADER : Word := 0x000002FF

def toPlaylist (s : List PartialDetails) : Str := toEscaped (pack (HEADER :: s.flatMap toInts))

def PartialDetails.stored (details : PartialDetails) : PartialDetails where
  fid := some (details.fid.getD 0)
  fidGeneration := if details.fidGeneration.getD 0 ≠ 0 then some (details.fidGeneration.getD 0) else none

section pack

variable {s : Str} {ints : List Word}

@[simp] theorem pack_cons (x : Word) (ints : List Word) :
    pack (x :: ints) = store .little (n := 4) x ++ pack ints := rfl

theorem unpack_pack (ints : List Word) : unpack (pack ints) = .ok ints := by
  induction ints with
  | nil => rfl
  | cons x ints ih =>
    obtain ⟨a, b, c, d, hx⟩ : ∃ a b c d, store .little (n := 4) x = [a, b, c, d] := ⟨_, _, _, _, rfl⟩
    have hload : load .little 4 [a, b, c, d] = x := by
      rw [← hx]
      exact Lib.ByteOrder.load_store .little (n := 4) x
    rw [pack_cons, hx]
    simp only [List.cons_append, List.nil_append, unpack, ih, hload]
    rfl

theorem pack_of_unpack (h : unpack s = .ok ints) : pack ints = s := by
  fun_induction unpack s generalizing ints with
  | case1 =>
    cases h
    rfl
  | case2 a b c d s ih =>
    obtain ⟨rest, hrest, rfl⟩ := Lib.Lists.bind_return_eq_ok.mp h
    have hstore := Lib.ByteOrder.store_load .little (l := [a, b, c, d]) (n := 4) rfl
    show store .little (n := 4) (load .little 4 [a, b, c, d]) ++ pack rest = _
    rw [hstore, ih hrest]
    rfl
  | case3 => cases h

end pack

section playlist

variable {details : List PartialDetails} {ints : List Word}

theorem results_toInts (details : List PartialDetails) :
    results true (details.flatMap toInts) = details.map PartialDetails.stored := by
  induction details with
  | nil => rfl
  | cons d details ih =>
    rw [List.flatMap_cons, List.map_cons, ← ih]
    rfl

theorem generation_inj {x y : Word}
    (h : (if x ≠ 0 then some x else none) = if y ≠ 0 then some y else none) : x = y := by
  by_cases hx : x = 0
  · rw [if_neg (not_not.mpr hx)] at h
    by_cases hy : y = 0
    · rw [hx, hy]
    · rw [if_pos hy] at h
      cases h
  · rw [if_pos hx] at h
    by_cases hy : y = 0
    · rw [if_neg (not_not.mpr hy)] at h
      cases h
    · rw [if_pos hy] at h
      exact Option.some.inj h

theorem of_results (h : results true ints = details.map PartialDetails.stored) :
    ∃ zero, ints ++ zero = details.flatMap toInts ∧ (zero = [] ∨ zero = [0]) := by
  induction details generalizing ints with
  | nil =>
    rcases ints with - | ⟨fid, - | ⟨generation, ints⟩⟩
    · exact ⟨[], rfl, .inl rfl⟩
    · cases h
    · cases h
  | cons d details ih =>
    rcases ints with - | ⟨fid, - | ⟨generation, ints⟩⟩
    · cases h
    · obtain ⟨hd, hnil⟩ := List.cons.inj h
      rw [PartialDetails.stored, PartialDetails.mk.injEq, Option.some.injEq] at hd
      obtain rfl : details = [] := List.map_eq_nil_iff.mp hnil.symm
      refine ⟨[0], ?_, .inr rfl⟩
      have hzero : (0 : Word) = d.fidGeneration.getD 0 := generation_inj hd.2
      rw [hd.1, List.flatMap_cons, toInts, ← hzero]
      rfl
    · obtain ⟨hd, htail⟩ := List.cons.inj h
      rw [PartialDetails.stored, PartialDetails.mk.injEq, Option.some.injEq] at hd
      obtain ⟨zero, hzero, hcases⟩ := ih htail
      refine ⟨zero, ?_, hcases⟩
      rw [List.cons_append, List.cons_append, hzero, hd.1, generation_inj hd.2]
      rfl

theorem pack_header (ints : List Word) : pack (HEADER :: ints) = [0xFF, 0x02, 0x00, 0x00] ++ pack ints :=
  rfl

theorem of_pack_header {s w : Str} (hs : pack (HEADER :: ints) = s ++ w)
    (hw : ∀ b ∈ w, b = BLANK) :
    ∃ s', s = [0xFF, 0x02, 0x00, 0x00] ++ s' ∧ pack ints = s' ++ w := by
  have hblank : ∀ {c : Byte} {l : Str}, w = c :: l → c = BLANK := by
    rintro c l rfl
    exact hw c List.mem_cons_self
  rw [pack_header] at hs
  rcases s with - | ⟨a, - | ⟨b, - | ⟨c, - | ⟨d, s⟩⟩⟩⟩
  · exact absurd (hblank hs.symm) (by decide)
  · exact absurd (hblank (List.cons.inj hs).2.symm) (by decide)
  · exact absurd (hblank (List.cons.inj (List.cons.inj hs).2).2.symm) (by decide)
  · exact absurd (hblank (List.cons.inj (List.cons.inj (List.cons.inj hs).2).2).2.symm) (by decide)
  · simp only [List.cons_append, List.nil_append, List.cons.injEq] at hs
    obtain ⟨rfl, rfl, rfl, rfl, hs⟩ := hs
    exact ⟨s, rfl, hs⟩

theorem header_of_pack {header : Word} {r : Str}
    (h : pack (header :: ints) = [0xFF, 0x02, 0x00, 0x00] ++ r) : header = HEADER ∧ pack ints = r := by
  obtain ⟨hstore, hints⟩ : store .little (n := 4) header = [0xFF, 0x02, 0x00, 0x00] ∧ pack ints = r :=
    List.append_inj h rfl
  refine ⟨?_, hints⟩
  have hload := Lib.ByteOrder.load_store .little (n := 4) header
  rw [hstore] at hload
  exact hload.symm

theorem fromPlaylist_iff {s w : Str} (hs : pack (HEADER :: details.flatMap toInts) = s ++ w)
    (hw : ∀ b ∈ w, b = BLANK) :
    fromPlaylist (toEscaped s) = .ok (details.map PartialDetails.stored) ↔
      w = [] ∧ Escapable (pack (HEADER :: details.flatMap toInts)) := by
  constructor
  · intro h
    obtain ⟨r, hr, h⟩ := Lib.Lists.bind_eq_ok h
    obtain ⟨ints, hints, h⟩ := Lib.Lists.bind_eq_ok h
    obtain ⟨s', rfl, hs'⟩ := of_pack_header hs hw
    obtain ⟨r', hr', rfl⟩ := (decodes_append (by decide)).mp hr
    cases ints with
    | nil => cases h
    | cons header ints =>
      obtain ⟨rfl, hpack⟩ := header_of_pack (pack_of_unpack hints)
      obtain ⟨zero, hzero, hcases⟩ := of_results (Except.ok.inj h)
      have heq : r' ++ pack zero = s' ++ w := by
        rw [← hpack, ← hs', ← hzero, pack, pack, pack, List.flatMap_append]
      rw [pack_header, hs', escapable_append (by decide)]
      by_cases hescapable : Escapable s'
      · rw [Decodes.unique hr' hescapable.decodes, List.append_cancel_left_eq] at heq
        rcases hcases with rfl | rfl
        · obtain rfl : w = [] := heq.symm
          exact ⟨rfl, by rwa [List.append_nil]⟩
        · rw [← heq] at hw
          exact absurd (hw 0 List.mem_cons_self) (by decide)
      · have hlength := Decodes.loses hr' hescapable hw heq
        rcases hcases with rfl | rfl
        · exact absurd hlength (Nat.zero_ne_add_one _)
        · obtain ⟨x, y, rfl⟩ : ∃ x y, w = [x, y] := List.length_eq_two.mp (by
            have hfour : (pack [0]).length = 4 := rfl
            omega)
          have hlast : some (0 : Byte) = some y := by
            have h := congrArg List.getLast? heq
            rwa [List.getLast?_append, List.getLast?_append] at h
          rw [Option.some.injEq] at hlast
          rw [← hlast] at hw
          exact absurd (hw 0 (by simp)) (by decide)
  · rintro ⟨rfl, hescapable⟩
    rw [List.append_nil] at hs
    rw [hs] at hescapable
    have hread : fromEscaped (toEscaped s) = .ok s := fromEscaped_toEscaped_iff.mpr hescapable
    have hunpack := unpack_pack (HEADER :: details.flatMap toInts)
    rw [hs] at hunpack
    rw [← results_toInts]
    simp only [fromPlaylist, hread, bind, Except.bind, hunpack]
    rfl

theorem fromPlaylist_toPlaylist_iff (details : List PartialDetails) :
    fromPlaylist (toPlaylist details) = .ok (details.map PartialDetails.stored) ↔
      Escapable (pack (HEADER :: details.flatMap toInts)) := by
  have hnil : pack (HEADER :: details.flatMap toInts) = pack (HEADER :: details.flatMap toInts) ++ [] :=
    (List.append_nil _).symm
  have hiff := fromPlaylist_iff hnil fun _ hb => absurd hb List.not_mem_nil
  rwa [and_iff_right rfl] at hiff

end playlist

/-- Both round trips, and where they fail. -/
theorem escapes_iff (s : Str) (details : List PartialDetails) : NEWLINE ∉ toEscaped s ∧
    (fromEscaped (toEscaped s) = .ok s ↔ Escapable s) ∧
    (fromPlaylist (toPlaylist details) = .ok (details.map PartialDetails.stored) ↔
      Escapable (pack (HEADER :: details.flatMap toInts))) :=
  ⟨newline_not_mem_toEscaped s, fromEscaped_toEscaped_iff, fromPlaylist_toPlaylist_iff details⟩

/-- A single backslash, and the file with the id 0x15C10. -/
theorem backslash_lost : fromEscaped (toEscaped [BACKSLASH]) ≠ .ok [BACKSLASH] ∧
    fromPlaylist (toPlaylist [⟨some 0x15C10, some 1⟩]) ≠ .ok [⟨some 0x15C10, some 1⟩] := by
  decide

end NaviMisc.RioKarma.Property
