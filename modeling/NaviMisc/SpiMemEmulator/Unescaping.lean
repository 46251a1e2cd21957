import NaviMisc.Lib.Lists
import NaviMisc.SpiMemEmulator.PacketPort

/-!
The substitutions that split received data, against the decoder that goes byte by byte.
-/

namespace NaviMisc.SpiMemEmulator.PacketPort

open NaviMisc.Lib
open NaviMisc.Lib.ByteStuffing

theorem escape_eq (data : List Byte) : escape data = data.flatMap stuffing.stuff := by
  rw [escape, Text.replace_singleton, Text.replace_singleton, List.flatMap_assoc]
  congr 1
  funext c
  rw [Stuffing.stuff]
  by_cases hesc : c = ESCAPE
  · subst hesc
    rfl
  · by_cases hflag : c = FLAG
    · subst hflag
      rfl
    · have hplain : ¬(c = stuffing.flag ∨ c = stuffing.escape) := not_or.mpr ⟨hflag, hesc⟩
      rw [if_neg hesc, if_neg hplain, List.flatMap_singleton, if_neg hflag]

theorem written_eq (packet : List Byte) : written packet = stuffing.frame packet := by
  rw [written, escape_eq]
  rfl

def Clean (l : List Byte) : Prop :=
  (l.IsChain fun a b => a = ESCAPE → b ≠ ESCAPE ∧ b ≠ FLAG) ∧ ∀ a ∈ l.getLast?, a ≠ ESCAPE

section Substitutions

theorem decode_subEscapes (l : List Byte) (b : Bool) :
    stuffing.decode b (subEscapes l) = stuffing.decode b l ∧
      stuffing.escaped b (subEscapes l) = stuffing.escaped b l := by
  induction l generalizing b with
  | nil => exact ⟨rfl, rfl⟩
  | cons c l ih =>
    rw [subEscapes]
    split_ifs with h
    · obtain ⟨rfl, hhead⟩ := h
      obtain ⟨l', rfl⟩ : ∃ l', l = ESCAPE :: l' := by
        cases l with
        | nil => cases hhead
        | cons c' l' =>
          cases hhead
          exact ⟨l', rfl⟩
      rw [(ih b).1, (ih b).2]
      exact ⟨rfl, rfl⟩
    · rw [Stuffing.decode, Stuffing.escaped, (ih _).1, (ih _).2]
      exact ⟨rfl, rfl⟩

theorem head_subEscapes (l : List Byte) : (subEscapes l).head? = l.head? := by
  induction l with
  | nil => rfl
  | cons c l ih =>
    rw [subEscapes]
    split_ifs with h
    · rw [ih, h.2, h.1]
      rfl
    · rfl

theorem isChain_subEscapes (l : List Byte) :
    (subEscapes l).IsChain fun a b => a = ESCAPE → b ≠ ESCAPE := by
  induction l with
  | nil => exact .nil
  | cons c l ih =>
    rw [subEscapes]
    split_ifs with h
    · exact ih
    · apply ih.cons
      rintro d hd rfl rfl
      rw [head_subEscapes] at hd
      exact h ⟨rfl, hd⟩

theorem decode_replace (l : List Byte) (b : Bool) :
    stuffing.decode b (Text.replace [ESCAPE, FLAG] [FLAG] l) = stuffing.decode b l ∧
      stuffing.escaped b (Text.replace [ESCAPE, FLAG] [FLAG] l) = stuffing.escaped b l := by
  induction l using Text.replace_rec (List.cons_ne_nil ESCAPE [FLAG]) generalizing b with
  | nil => exact ⟨rfl, rfl⟩
  | cons c l hnot ih =>
    rw [Text.replace_cons hnot, Stuffing.decode, Stuffing.escaped, (ih _).1, (ih _).2]
    exact ⟨rfl, rfl⟩
  | found l ih =>
    rw [Text.replace_match (List.cons_ne_nil _ _)]
    change stuffing.decode b (stuffing.flag :: Text.replace _ _ l) = stuffing.decode b
        (stuffing.escape :: stuffing.flag :: l) ∧
      stuffing.escaped b (stuffing.flag :: Text.replace _ _ l) = stuffing.escaped b
        (stuffing.escape :: stuffing.flag :: l)
    rw [Stuffing.decode_flag, Stuffing.escaped_flag, Stuffing.decode_escape,
      Stuffing.escaped_escape, Stuffing.decode_flag, Stuffing.escaped_flag, (ih _).1, (ih _).2]
    exact ⟨rfl, rfl⟩

theorem isChain_replace {l : List Byte} (h : l.IsChain fun a b => a = ESCAPE → b ≠ ESCAPE) :
    ((Text.replace [ESCAPE, FLAG] [FLAG] l).IsChain
        fun a b => a = ESCAPE → b ≠ ESCAPE ∧ b ≠ FLAG) ∧
      ∀ a ∈ l.head?, a ≠ ESCAPE → (Text.replace [ESCAPE, FLAG] [FLAG] l).head? = some a := by
  induction l using Text.replace_rec (List.cons_ne_nil ESCAPE [FLAG]) with
  | nil => exact ⟨.nil, fun a ha => by cases ha⟩
  | cons c l hnot ih =>
    obtain ⟨hchain, hhead⟩ := ih h.tail
    rw [Text.replace_cons hnot]
    refine ⟨hchain.cons ?_, fun a ha _ => ha⟩
    rintro d hd rfl
    cases l with
    | nil => cases hd
    | cons c' l =>
      have hc' : c' ≠ ESCAPE := h.rel_head? rfl rfl
      have hreplace := hhead c' rfl hc'
      rw [Option.mem_def.mp hd, Option.some.injEq] at hreplace
      rw [hreplace]
      refine ⟨hc', ?_⟩
      rintro rfl
      exact hnot (List.prefix_append [ESCAPE, FLAG] l)
  | found l ih =>
    rw [Text.replace_match (List.cons_ne_nil _ _)]
    constructor
    · apply (ih h.tail.tail).1.cons
      intro d _ hflag
      exact absurd hflag (by decide)
    · intro a ha hne
      cases ha
      exact absurd rfl hne

end Substitutions

section Chunks

variable {l l' : List Byte}

theorem Clean.right {c : List Byte} {a : Byte} (h : Clean (c ++ a :: l)) : Clean l := by
  refine ⟨h.1.right_of_append.tail, fun b hb => h.2 b ?_⟩
  cases l with
  | nil => cases hb
  | cons b' l =>
    rw [List.getLast?_append_of_ne_nil _ (List.cons_ne_nil _ _), List.getLast?_cons_cons]
    exact hb

theorem Clean.left (h : Clean (l ++ FLAG :: l')) : Clean l := by
  refine ⟨h.1.left_of_append, ?_⟩
  rintro a ha rfl
  exact ((List.isChain_append.mp h.1).2.2 ESCAPE ha FLAG rfl rfl).2 rfl

theorem clean_dropLast (h : l.IsChain fun a b => a = ESCAPE → b ≠ ESCAPE ∧ b ≠ FLAG)
    (hlast : l.getLast? = some ESCAPE) : Clean l.dropLast := by
  obtain ⟨init, rfl⟩ := List.getLast?_eq_some_iff.mp hlast
  rw [List.dropLast_concat]
  refine ⟨h.left_of_append, ?_⟩
  rintro a ha rfl
  exact ((List.isChain_append.mp h).2.2 ESCAPE ha ESCAPE rfl rfl).1 rfl

def unescapeChunk : List Byte → Except Error (List Byte)
  | [] => .error .indexError
  | c :: chunk => .ok ((ESC_XOR ^^^ c) :: chunk)

theorem decode_plain (hflag : FLAG ∉ l) (hesc : ESCAPE ∉ l) : stuffing.decode false l = l.map .data := by
  induction l with
  | nil => rfl
  | cons c l ih =>
    rw [List.mem_cons, not_or] at hflag hesc
    have hstep := Stuffing.decode_data (m := stuffing) false (Ne.symm hflag.1) (Ne.symm hesc.1) l
    rw [hstep, ih hflag.2 hesc.2]
    rfl

theorem decode_plain_escape (hflag : FLAG ∉ l) (hesc : ESCAPE ∉ l) (c : Byte)
    (hc : c ≠ ESCAPE ∧ c ≠ FLAG) (l' : List Byte) :
    stuffing.decode false (l ++ ESCAPE :: c :: l') =
      l.map .data ++ .data (ESC_XOR ^^^ c) :: stuffing.decode false l' := by
  have hstep := Stuffing.decode_data (m := stuffing) true hc.2 hc.1 l'
  rw [Stuffing.decode_append, decode_plain hflag hesc]
  change _ ++ stuffing.decode _ (stuffing.escape :: c :: l') = _
  rw [Stuffing.decode_escape, hstep, if_pos rfl, BitVec.xor_comm]
  rfl

theorem splitOn_unescape (l : List Byte) (h : Clean l) (hflag : FLAG ∉ l) :
    ∃ first chunks rest, l.splitOn ESCAPE = first :: chunks ∧
      chunks.mapM unescapeChunk = .ok rest ∧
        stuffing.decode false l = (first ++ rest.flatten).map .data ∧
          ∀ c ∈ l.head?, c ≠ ESCAPE → first.head? = some c := by
  induction l using Text.splitOn_rec ESCAPE with
  | last l hl =>
    refine ⟨l, [], [], ?_, rfl, ?_, fun c hc _ => hc⟩
    · exact List.splitOn_eq_singleton hl
    · rw [decode_plain hflag hl, List.flatten_nil, List.append_nil]
  | cut l l' hl ih =>
    cases l' with
    | nil => exact absurd rfl (h.2 ESCAPE (by simp))
    | cons c l' =>
      have hc : c ≠ ESCAPE ∧ c ≠ FLAG := h.1.right_of_append.rel_head? rfl rfl
      rw [List.mem_append, not_or, List.mem_cons, not_or] at hflag
      obtain ⟨first, chunks, rest, hsplit, hmap, hdecode, hhead⟩ :=
        ih h.right hflag.2.2
      obtain ⟨tail, rfl⟩ : ∃ tail, first = c :: tail :=
        List.head?_eq_some_iff.mp (hhead c rfl hc.1)
      have hstep := Stuffing.decode_data (m := stuffing) false hc.2 hc.1 l'
      rw [hdecode, List.cons_append, List.map_cons, if_neg Bool.false_ne_true] at hstep
      obtain ⟨-, hrest⟩ := List.cons.inj hstep
      refine ⟨l, (c :: tail) :: chunks, ((ESC_XOR ^^^ c) :: tail) :: rest, ?_, ?_, ?_, ?_⟩
      · rw [List.splitOn_append_cons_self_of_not_mem hl, hsplit]
      · rw [List.mapM_cons, hmap]
        rfl
      · rw [decode_plain_escape hflag.1 hl c hc, ← hrest]
        simp
      · intro b hb hne
        cases l with
        | nil =>
          cases hb
          exact absurd rfl hne
        | cons b' l => exact hb

theorem unescape_clean (h : Clean l) (hflag : FLAG ∉ l) :
    ∃ data, unescape l = .ok data ∧ stuffing.decode false l = data.map .data := by
  obtain ⟨first, chunks, rest, hsplit, hmap, hdecode, -⟩ := splitOn_unescape l h hflag
  refine ⟨first ++ rest.flatten, ?_, hdecode⟩
  rw [unescape, hsplit]
  change (chunks.mapM unescapeChunk >>= _) = _
  rw [hmap]
  rfl

theorem splitOn_clean (l : List Byte) (h : Clean l) :
    ∃ first chunks, (l.splitOn FLAG).mapM unescape = .ok (first :: chunks) ∧
      ∀ frags, addChunks frags (first :: chunks) = (stuffing.decode false l).foldl deliver frags := by
  induction l using Text.splitOn_rec FLAG with
  | last l hl =>
    obtain ⟨data, hdata, hdecode⟩ := unescape_clean h hl
    refine ⟨data, [], ?_, fun frags => ?_⟩
    · rw [List.splitOn_eq_singleton hl, List.mapM_cons, hdata]
      rfl
    · rw [hdecode, foldl_deliver_data, addChunks, List.append_nil]
  | cut l l' hl ih =>
    obtain ⟨data, hdata, hdecode⟩ := unescape_clean h.left hl
    obtain ⟨first, chunks, hchunks, hfold⟩ := ih h.right
    refine ⟨data, first :: chunks, ?_, fun frags => ?_⟩
    · rw [List.splitOn_append_cons_self_of_not_mem hl, List.mapM_cons, hdata, hchunks]
      rfl
    · have hflag : stuffing.decode false (l ++ FLAG :: l') =
          data.map .data ++ .flag :: stuffing.decode false l' := by
        rw [Stuffing.decode_append, hdecode]
        exact congrArg _ (Stuffing.decode_flag (m := stuffing) _ l')
      rw [hflag, List.foldl_append, foldl_deliver_data, List.foldl_cons, ← hfold, deliver, addChunks,
        addChunks, List.modifyLast_concat, List.append_assoc]
      rfl

theorem getLast?_of_escaped {l : List Byte} {b : Bool} (hl : l ≠ []) :
    l.getLast? = some ESCAPE ∧ stuffing.escaped b l = true ∧
        stuffing.decode b l = stuffing.decode b l.dropLast ∨
      ∃ last, l.getLast? = some last ∧ last ≠ ESCAPE ∧ stuffing.escaped b l = false := by
  obtain ⟨init, last, rfl⟩ := l.eq_nil_or_concat.resolve_left hl
  rw [List.concat_eq_append, List.getLast?_concat, List.dropLast_concat]
  by_cases hlast : last = ESCAPE
  · have hend := Stuffing.decode_escape (m := stuffing) (stuffing.escaped b init) []
    refine Or.inl ⟨congrArg some hlast, ?_, ?_⟩
    · rw [Stuffing.escaped_append, hlast]
      exact Stuffing.escaped_escape (m := stuffing) _ []
    · rw [Stuffing.decode_append, hlast]
      exact (congrArg _ hend).trans (List.append_nil _)
  · exact Or.inr ⟨last, rfl, hlast, Stuffing.escaped_concat (m := stuffing) hlast b init⟩

theorem splitPackets_spec (port : PacketPort) (b : Bool)
    (hesc : port.escBuffer = if b then [ESCAPE] else []) {data : List Byte} (hdata : data ≠ []) :
    ∃ chunks, port.splitPackets data = .ok (chunks, { port with
        escBuffer := if stuffing.escaped b data then [ESCAPE] else [] }) ∧
      ∀ frags, addChunks frags chunks = (stuffing.decode b data).foldl deliver frags := by
  obtain ⟨received, hreceived⟩ : ∃ received, Text.replace [ESCAPE, FLAG] [FLAG]
      (subEscapes (port.escBuffer ++ data)) = received := ⟨_, rfl⟩
  have hdecode : stuffing.decode false received = stuffing.decode b data ∧
      stuffing.escaped false received = stuffing.escaped b data := by
    rw [← hreceived, (decode_replace _ _).1, (decode_replace _ _).2, (decode_subEscapes _ _).1,
      (decode_subEscapes _ _).2, hesc]
    cases b <;> exact ⟨rfl, rfl⟩
  have hchain := (isChain_replace (isChain_subEscapes (port.escBuffer ++ data))).1
  rw [hreceived] at hchain
  have hne : received ≠ [] := by
    rw [← hreceived]
    apply Text.replace_ne_nil (List.cons_ne_nil _ _) (List.cons_ne_nil _ _)
    rw [Ne, ← List.head?_eq_none_iff, head_subEscapes, List.head?_eq_none_iff]
    exact List.append_ne_nil_of_right_ne_nil _ hdata
  rw [splitPackets, hreceived]
  rcases getLast?_of_escaped (b := false) hne with
    ⟨hlast, hescaped, hinit⟩ | ⟨last, hlast, hplain, hescaped⟩
  · obtain ⟨first, chunks, hchunks, hfold⟩ := splitOn_clean _ (clean_dropLast hchain hlast)
    refine ⟨first :: chunks, ?_, fun frags => ?_⟩
    · rw [hlast, ← hdecode.2, hescaped]
      dsimp only
      rw [if_pos rfl, hchunks]
      rfl
    · rw [hfold, ← hinit, hdecode.1]
  · have hclean : Clean received := by
      refine ⟨hchain, fun a ha => ?_⟩
      rw [hlast, Option.mem_some_iff] at ha
      rwa [← ha]
    obtain ⟨first, chunks, hchunks, hfold⟩ := splitOn_clean _ hclean
    refine ⟨first :: chunks, ?_, fun frags => ?_⟩
    · rw [hlast, ← hdecode.2, hescaped]
      dsimp only
      rw [if_neg hplain, hchunks]
      rfl
    · rw [hfold, hdecode.1]

end Chunks

end NaviMisc.SpiMemEmulator.PacketPort
