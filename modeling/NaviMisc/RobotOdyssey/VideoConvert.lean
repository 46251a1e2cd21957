import Mathlib.Data.Fin.VecNotation
import Mathlib.Data.List.Perm.Subperm
import Mathlib.Tactic.IntervalCases
import Mathlib.Tactic.Ring

/-!
The conversions of videoConvert.cpp: a CGA framebuffer, with the odd lines 0x2000 bytes behind the
even ones, scaled to the screen, cut into tiles, and cleared.
-/

namespace NaviMisc.RobotOdyssey.VideoConvert

abbrev Byte := BitVec 8

def field (byte : Byte) (n : ℕ) : Fin 4 :=
  ⟨(byte.toNat >>> (6 - 2 * n)) % 4, Nat.mod_lt _ (by decide)⟩

def byteOf (x y : ℕ) : ℕ := y % 2 * 0x2000 + y / 2 * 80 + x / 4

/-- `p(x, y)`, for a framebuffer as a map from offsets. -/
def pixel (cga : ℕ → Byte) (x y : ℕ) : Fin 4 := field (cga (byteOf x y)) (x % 4)

/-- `byte >> 6`. -/
def top (byte : Byte) : Fin 4 :=
  ⟨byte.toNat >>> 6, by
    have := byte.isLt
    rw [Nat.shiftRight_eq_div_pow]
    omega⟩

theorem top_shift (byte : Byte) (n : ℕ) (h : n < 4) : top (byte <<< (2 * n)) = field byte n := by
  have := byte.isLt
  apply Fin.ext
  obtain rfl | rfl | rfl | rfl : n = 0 ∨ n = 1 ∨ n = 2 ∨ n = 3 := by omega
  all_goals
    simp only [top, field, BitVec.toNat_shiftLeft, Nat.shiftLeft_eq, Nat.shiftRight_eq_div_pow]
    omega

abbrev Palette := Fin 4 → BitVec 16

def pal00_pal31 : Palette := ![0x8000, 0xE728, 0xE519, 0xE739]
def pal01_pal30 : Palette := ![0x0000, 0x18C2, 0x1846, 0x18C6]
def pal10_pal21 : Palette := ![0x8000, 0xCE66, 0xCCD3, 0xCE73]
def pal11_pal20 : Palette := ![0x0000, 0x3184, 0x308C, 0x318C]

structure Scaler where
  input : ℕ
  output : ℕ
  color : BitVec 16
  byte : Byte
  writes : List (ℕ × BitVec 16)

namespace Scaler

def fetch (cga : ℕ → Byte) (s : Scaler) : Scaler :=
  { s with byte := cga s.input, input := s.input + 1 }

def shift (s : Scaler) : Scaler := { s with byte := s.byte <<< 2 }

def set (pal : Palette) (s : Scaler) : Scaler := { s with color := pal (top s.byte) }

def add (pal : Palette) (s : Scaler) : Scaler := { s with color := s.color + pal (top s.byte) }

def put (s : Scaler) : Scaler :=
  { s with writes := s.writes ++ [(s.output, s.color)], output := s.output + 1 }

variable (cga : ℕ → Byte)

def body : List (Scaler → Scaler) :=
  [ fetch cga, set pal00_pal31, shift, add pal01_pal30, put,
    set pal10_pal21, shift, add pal11_pal20, put,
    set pal11_pal20, shift, add pal10_pal21, put,
    set pal01_pal30, fetch cga, add pal00_pal31, put,

    shift, set pal00_pal31, shift, add pal01_pal30, put,
    set pal10_pal21, shift, add pal11_pal20, put,
    set pal11_pal20, fetch cga, add pal10_pal21, put,
    set pal01_pal30, shift, add pal00_pal31, put,

    shift, set pal00_pal31, shift, add pal01_pal30, put,
    set pal10_pal21, fetch cga, add pal11_pal20, put,
    set pal11_pal20, shift, add pal10_pal21, put,
    set pal01_pal30, shift, add pal00_pal31, put,

    shift, set pal00_pal31, fetch cga, add pal01_pal30, put,
    set pal10_pal21, shift, add pal11_pal20, put,
    set pal11_pal20, shift, add pal10_pal21, put,
    set pal01_pal30, shift, add pal00_pal31, put ]

def block (s : Scaler) : Scaler := (body cga).foldl (fun s statement => statement s) s

def line (s : Scaler) : Scaler :=
  let s := (block cga)^[16] s
  { s with output := s.output + 256 }

def scaleCGAPlaneTo256 (input output : ℕ) (writes : List (ℕ × BitVec 16)) :
    List (ℕ × BitVec 16) :=
  ((line cga)^[96] ⟨input, output, 0, 0, writes⟩).writes

def scaleCGAto256 : List (ℕ × BitVec 16) :=
  scaleCGAPlaneTo256 cga 0x2000 256 (scaleCGAPlaneTo256 cga 0 0 [])

end Scaler

def palA : Fin 4 → Palette := ![pal00_pal31, pal10_pal21, pal11_pal20, pal01_pal30]
def palB : Fin 4 → Palette := ![pal01_pal30, pal11_pal20, pal10_pal21, pal00_pal31]

def px (cga : ℕ → Byte) (input n : ℕ) : Fin 4 := field (cga (input + n / 4)) (n % 4)

def groupWrites (cga : ℕ → Byte) (input output k : ℕ) : List (ℕ × BitVec 16) :=
  (List.finRange 4).map fun j : Fin 4 => (output + (4 * k + j.val),
    palA j (px cga input (5 * k + j.val)) + palB j (px cga input (5 * k + j.val + 1)))

def blockWrites (cga : ℕ → Byte) (input output : ℕ) : List (ℕ × BitVec 16) :=
  (List.range 4).flatMap (groupWrites cga input output)

namespace Scaler

variable {cga : ℕ → Byte} {input output n k : ℕ} {writes : List (ℕ × BitVec 16)} {s : Scaler}

structure At (cga : ℕ → Byte) (input n output : ℕ) (writes : List (ℕ × BitVec 16))
    (s : Scaler) : Prop where
  byte : s.byte = cga (input + n / 4) <<< (2 * (n % 4))
  input : s.input = input + n / 4 + 1
  output : s.output = output
  writes : s.writes = writes

theorem At.top (h : At cga input n output writes s) : top s.byte = px cga input n := by
  rw [h.byte, top_shift _ _ (Nat.mod_lt n (by decide)), px]

structure Next (cga : ℕ → Byte) (n : ℕ) (next : Scaler → Scaler) : Prop where
  at_ : ∀ {input output writes s}, At cga input n output writes s →
    At cga input (n + 1) output writes (next s)
  color : ∀ s, (next s).color = s.color

theorem next_shift (hn : n % 4 ≠ 3) : Next cga n shift where
  at_ h := by
    refine ⟨?_, ?_, h.output, h.writes⟩
    · rw [shift, h.byte, ← BitVec.shiftLeft_add, show (n + 1) / 4 = n / 4 by omega,
        show 2 * ((n + 1) % 4) = 2 * (n % 4) + 2 by omega]
    · rw [show (n + 1) / 4 = n / 4 by omega]
      exact h.input
  color _ := rfl

theorem next_fetch (hn : n % 4 = 3) : Next cga n (fetch cga) where
  at_ h := by
    refine ⟨?_, ?_, h.output, h.writes⟩
    · rw [fetch, h.input, show (n + 1) / 4 = n / 4 + 1 by omega,
        show (n + 1) % 4 = 0 by omega]
      exact (BitVec.shiftLeft_zero _).symm
    · rw [show (n + 1) / 4 = n / 4 + 1 by omega]
      exact congrArg (· + 1) h.input
  color _ := rfl

theorem At.put {next : Scaler → Scaler} (pal pal' : Palette) (hnext : Next cga n next)
    (h : At cga input n output writes s) : At cga input (n + 1) (output + 1)
      (writes ++ [(output, pal (px cga input n) + pal' (px cga input (n + 1)))])
      (((s.set pal |> next).add pal').put) := by
  have hset : At cga input n output writes (s.set pal) := ⟨h.byte, h.input, h.output, h.writes⟩
  have hmoved := hnext.at_ hset
  refine ⟨hmoved.byte, hmoved.input, congrArg (· + 1) hmoved.output, ?_⟩
  change (next (s.set pal)).writes ++ [((next (s.set pal)).output,
    (next (s.set pal)).color + pal' (VideoConvert.top (next (s.set pal)).byte))] = _
  rw [hmoved.writes, hmoved.output, hmoved.top, hnext.color, set, h.top]

theorem At.group {a b c d : Scaler → Scaler} (h : At cga input (5 * k) (output + 4 * k) writes s)
    (ha : Next cga (5 * k) a) (hb : Next cga (5 * k + 1) b) (hc : Next cga (5 * k + 2) c)
    (hd : Next cga (5 * k + 3) d) :
    At cga input (5 * k + 4) (output + 4 * (k + 1)) (writes ++ groupWrites cga input output k)
      ([set pal00_pal31, a, add pal01_pal30, Scaler.put,
        set pal10_pal21, b, add pal11_pal20, Scaler.put,
        set pal11_pal20, c, add pal10_pal21, Scaler.put,
        set pal01_pal30, d, add pal00_pal31, Scaler.put].foldl
          (fun s statement => statement s) s) := by
  have hput := (((h.put pal00_pal31 pal01_pal30 ha).put pal10_pal21 pal11_pal20 hb).put
    pal11_pal20 pal10_pal21 hc).put pal01_pal30 pal00_pal31 hd
  simp only [List.append_assoc] at hput
  exact hput

theorem block_at (s : Scaler) : At cga s.input 19 (s.output + 16)
    (s.writes ++ blockWrites cga s.input s.output) (block cga s) := by
  have hstart : At cga s.input 0 s.output s.writes (fetch cga s) :=
    ⟨(BitVec.shiftLeft_zero _).symm, rfl, rfl, rfl⟩
  have h0 := At.group (k := 0) hstart (next_shift (by decide)) (next_shift (by decide))
    (next_shift (by decide)) (next_fetch (by decide))
  have h1 := At.group (k := 1) ((next_shift (by decide)).at_ h0) (next_shift (by decide))
    (next_shift (by decide)) (next_fetch (by decide)) (next_shift (by decide))
  have h2 := At.group (k := 2) ((next_shift (by decide)).at_ h1) (next_shift (by decide))
    (next_fetch (by decide)) (next_shift (by decide)) (next_shift (by decide))
  have h3 := At.group (k := 3) ((next_shift (by decide)).at_ h2) (next_fetch (by decide))
    (next_shift (by decide)) (next_shift (by decide)) (next_shift (by decide))
  simp only [List.append_assoc] at h3
  exact h3

structure Moves (step : Scaler → Scaler) (a b : ℕ) (piece : ℕ → ℕ → List (ℕ × BitVec 16)) :
    Prop where
  input : ∀ s, (step s).input = s.input + a
  output : ∀ s, (step s).output = s.output + b
  writes : ∀ s, (step s).writes = s.writes ++ piece s.input s.output

theorem block_moves : Moves (block cga) 5 16 (blockWrites cga) where
  input s := (block_at s).input
  output s := (block_at s).output
  writes s := (block_at s).writes

theorem Moves.iterate {step : Scaler → Scaler} {a b : ℕ} {piece : ℕ → ℕ → List (ℕ × BitVec 16)}
    (h : Moves step a b piece) (n : ℕ) : Moves (step^[n]) (n * a) (n * b) fun i o =>
      (List.range n).flatMap fun m => piece (i + m * a) (o + m * b) := by
  induction n with
  | zero =>
    rw [Nat.zero_mul, Nat.zero_mul]
    exact ⟨fun s => rfl, fun s => rfl, fun s => (List.append_nil _).symm⟩
  | succ n ih =>
    refine ⟨fun s => ?_, fun s => ?_, fun s => ?_⟩
    · rw [Function.iterate_succ_apply', h.input, ih.input, Nat.add_assoc, Nat.succ_mul]
    · rw [Function.iterate_succ_apply', h.output, ih.output, Nat.add_assoc, Nat.succ_mul]
    · rw [Function.iterate_succ_apply', h.writes, ih.writes, ih.input, ih.output, List.range_succ,
        List.flatMap_append, List.append_assoc, List.flatMap_singleton]

theorem Moves.skip {step : Scaler → Scaler} {a b : ℕ} {piece : ℕ → ℕ → List (ℕ × BitVec 16)}
    (h : Moves step a b piece) (c : ℕ) :
    Moves (fun s => { step s with output := (step s).output + c }) a (b + c) piece where
  input := h.input
  output s := by rw [h.output, Nat.add_assoc]
  writes := h.writes

def lineWrites (cga : ℕ → Byte) (input output : ℕ) : List (ℕ × BitVec 16) :=
  (List.range 16).flatMap fun m => blockWrites cga (input + m * 5) (output + m * 16)

theorem line_moves : Moves (line cga) 80 512 (lineWrites cga) :=
  (block_moves.iterate 16).skip 256

def planeWrites (cga : ℕ → Byte) (input output : ℕ) : List (ℕ × BitVec 16) :=
  (List.range 96).flatMap fun m => lineWrites cga (input + m * 80) (output + m * 512)

theorem scaleCGAPlaneTo256_eq (input output : ℕ) (writes : List (ℕ × BitVec 16)) :
    scaleCGAPlaneTo256 cga input output writes = writes ++ planeWrites cga input output :=
  (line_moves.iterate 96).writes _

theorem scaleCGAto256_eq :
    scaleCGAto256 cga = planeWrites cga 0 0 ++ planeWrites cga 0x2000 256 := by
  rw [scaleCGAto256, scaleCGAPlaneTo256_eq, scaleCGAPlaneTo256_eq, List.nil_append]

end Scaler

/-- Each word of the screen is written once, with what the filter makes of its pixels, and no
other. -/
structure Scales (cga : ℕ → Byte) (writes : List (ℕ × BitVec 16)) : Prop where
  value : ∀ y < 192, ∀ k < 64, ∀ j : Fin 4, (256 * y + (4 * k + j.val),
    palA j (pixel cga (5 * k + j.val) y) + palB j (pixel cga (5 * k + j.val + 1) y)) ∈ writes
  once : (writes.map Prod.fst).Nodup
  inside : ∀ w ∈ writes, w.1 < 256 * 192

section scale

variable (cga : ℕ → Byte)

theorem length_blockWrites (input output : ℕ) : (blockWrites cga input output).length = 16 := rfl

theorem length_lineWrites (input output : ℕ) :
    (Scaler.lineWrites cga input output).length = 256 := by
  simp [Scaler.lineWrites, List.length_flatMap, length_blockWrites]

theorem length_planeWrites (input output : ℕ) :
    (Scaler.planeWrites cga input output).length = 96 * 256 := by
  simp [Scaler.planeWrites, List.length_flatMap, length_lineWrites]

theorem mem_planeWrites (input output : ℕ) {r m k : ℕ} (hr : r < 96) (hm : m < 16) (hk : k < 4)
    (j : Fin 4) : (output + r * 512 + m * 16 + (4 * k + j.val),
      palA j (px cga (input + r * 80 + m * 5) (5 * k + j.val)) +
        palB j (px cga (input + r * 80 + m * 5) (5 * k + j.val + 1))) ∈
      Scaler.planeWrites cga input output := by
  refine List.mem_flatMap.mpr ⟨r, List.mem_range.mpr hr, ?_⟩
  refine List.mem_flatMap.mpr ⟨m, List.mem_range.mpr hm, ?_⟩
  refine List.mem_flatMap.mpr ⟨k, List.mem_range.mpr hk, ?_⟩
  exact List.mem_map.mpr ⟨j, List.mem_finRange j, rfl⟩

theorem px_eq_pixel (k n y : ℕ) :
    px cga (y % 2 * 0x2000 + y / 2 * 80 + k / 4 * 5) (5 * (k % 4) + n) =
      pixel cga (5 * k + n) y := by
  have hbyte : y % 2 * 0x2000 + y / 2 * 80 + k / 4 * 5 + (5 * (k % 4) + n) / 4 =
      byteOf (5 * k + n) y := by
    rw [byteOf]
    omega
  rw [px, pixel, hbyte, show (5 * (k % 4) + n) % 4 = (5 * k + n) % 4 by omega]

theorem scale_value {y k : ℕ} (hy : y < 192) (hk : k < 64) (j : Fin 4) : (256 * y + (4 * k + j.val),
    palA j (pixel cga (5 * k + j.val) y) + palB j (pixel cga (5 * k + j.val + 1) y)) ∈
      Scaler.scaleCGAto256 cga := by
  have hmem := mem_planeWrites cga (y % 2 * 0x2000) (y % 2 * 256) (r := y / 2) (m := k / 4)
    (k := k % 4) (by omega) (by omega) (Nat.mod_lt k (by decide)) j
  rw [Nat.add_assoc (5 * _), px_eq_pixel, px_eq_pixel, ← Nat.add_assoc (5 * k),
    show y % 2 * 256 + y / 2 * 512 + k / 4 * 16 + (4 * (k % 4) + j.val) =
      256 * y + (4 * k + j.val) by omega] at hmem
  rw [Scaler.scaleCGAto256_eq, List.mem_append]
  rcases Nat.mod_two_eq_zero_or_one y with hplane | hplane <;> rw [hplane] at hmem
  · exact Or.inl hmem
  · exact Or.inr hmem

theorem scale_perm :
    ((Scaler.scaleCGAto256 cga).map Prod.fst).Perm (List.range (256 * 192)) := by
  have hsub : List.range (256 * 192) ⊆ (Scaler.scaleCGAto256 cga).map Prod.fst := by
    intro i hi
    have hlt := List.mem_range.mp hi
    refine List.mem_map.mpr ⟨_, scale_value cga (y := i / 256) (k := i % 256 / 4) (by omega)
      (by omega) ⟨i % 4, by omega⟩, ?_⟩
    change 256 * (i / 256) + (4 * (i % 256 / 4) + i % 4) = i
    omega
  refine ((List.subperm_of_subset List.nodup_range hsub).perm_of_length_le ?_).symm
  rw [List.length_map, Scaler.scaleCGAto256_eq, List.length_append, length_planeWrites,
    length_planeWrites, List.length_range]

theorem scaleCGAto256_scales : Scales cga (Scaler.scaleCGAto256 cga) where
  value _ hy _ hk j := scale_value cga hy hk j
  once := (scale_perm cga).nodup_iff.mpr List.nodup_range
  inside _ hw := List.mem_range.mp ((scale_perm cga).mem_iff.mp (List.mem_map_of_mem hw))

end scale

/-- A failing `sassert` stops the program with its message. -/
def sassert (condition : Prop) [Decidable condition] (message : String) : Except String Unit :=
  if condition then .ok () else .error message

def expand2to4 (byte : Byte) : BitVec 16 :=
  let byte := byte.setWidth 32
  ((0x3000 &&& byte <<< 12) ||| (0x0300 &&& byte <<< 6) ||| (0x0030 &&& byte) |||
    (0x0003 &&& byte >>> 6)).setWidth 16

def nibSwap32 (x : BitVec 32) : BitVec 32 :=
  ((x &&& 0xF0F0F0F0) >>> 4) ||| ((x &&& 0x0F0F0F0F) <<< 4)

/-- `count` pieces of a sprite, each from `stride` bytes behind the one before. -/
def pieces {α : Type} (stride : ℕ) (piece : ℕ → List α) : ℕ → ℕ → List α
  | 0, _ => []
  | count + 1, start => piece start ++ pieces stride piece count (start + stride)

section memory

variable (mem : ℕ → Byte)

def tile (line : ℕ) : List (BitVec 16) :=
  [ expand2to4 (mem (line + (0 + 80 * 0))),
    expand2to4 (mem (line + (1 + 80 * 0))),
    expand2to4 (mem (line + (0 + 80 * 0 + 0x2000))),
    expand2to4 (mem (line + (1 + 80 * 0 + 0x2000))),
    expand2to4 (mem (line + (0 + 80 * 1))),
    expand2to4 (mem (line + (1 + 80 * 1))),
    expand2to4 (mem (line + (0 + 80 * 1 + 0x2000))),
    expand2to4 (mem (line + (1 + 80 * 1 + 0x2000))),
    expand2to4 (mem (line + (0 + 80 * 2))),
    expand2to4 (mem (line + (1 + 80 * 2))),
    expand2to4 (mem (line + (0 + 80 * 2 + 0x2000))),
    expand2to4 (mem (line + (1 + 80 * 2 + 0x2000))),
    expand2to4 (mem (line + (0 + 80 * 3))),
    expand2to4 (mem (line + (1 + 80 * 3))),
    expand2to4 (mem (line + (0 + 80 * 3 + 0x2000))),
    expand2to4 (mem (line + (1 + 80 * 3 + 0x2000))) ]

def CGAto16ColorTiles (cgaBuffer x y width height : ℕ) : Except String (List (BitVec 16)) := do
  sassert (x &&& 3 = 0) "x must be a mulitple of 4"
  sassert (y &&& 1 = 0) "y must be a mulitple of 2"
  sassert (width &&& 7 = 0) "width must be a mulitple of 8"
  sassert (height &&& 7 = 0) "height must be a mulitple of 8"
  let tileWidth := width >>> 3
  let tileHeight := height >>> 3
  let cgaBuffer := cgaBuffer + ((x >>> 2) + (y >>> 1) * 80)
  return pieces (80 * 4) (pieces 2 (tile mem) tileWidth) tileHeight cgaBuffer

def word (a : ℕ) : BitVec 32 := mem (a + 3) ++ mem (a + 2) ++ mem (a + 1) ++ mem a

def wideTile (line : ℕ) : List (BitVec 32) :=
  [ nibSwap32 (word mem (line + 4 * (20 * 0 + 0x800 * 0))),
    nibSwap32 (word mem (line + 4 * (20 * 0 + 0x800 * 1))),
    nibSwap32 (word mem (line + 4 * (20 * 1 + 0x800 * 0))),
    nibSwap32 (word mem (line + 4 * (20 * 1 + 0x800 * 1))),
    nibSwap32 (word mem (line + 4 * (20 * 2 + 0x800 * 0))),
    nibSwap32 (word mem (line + 4 * (20 * 2 + 0x800 * 1))),
    nibSwap32 (word mem (line + 4 * (20 * 3 + 0x800 * 0))),
    nibSwap32 (word mem (line + 4 * (20 * 3 + 0x800 * 1))) ]

def CGAWideto16ColorTiles (cgaBuffer x y width height : ℕ) :
    Except String (List (BitVec 32)) := do
  sassert (x &&& 7 = 0) "x must be a mulitple of 8"
  sassert (y &&& 1 = 0) "y must be a mulitple of 2"
  sassert (width &&& 7 = 0) "width must be a mulitple of 8"
  sassert (height &&& 7 = 0) "height must be a mulitple of 8"
  sassert (cgaBuffer &&& 3 = 0) "framebuffer must be word aligned"
  let cga32 := cgaBuffer + (x >>> 1) + (y >>> 1) * 80
  let tileWidth := width >>> 3
  let tileHeight := height >>> 3
  return pieces (4 * 80) (pieces 4 (wideTile mem) tileWidth) tileHeight cga32

end memory

def clearWord (mem : ℕ → Byte) (a : ℕ) : ℕ → Byte := fun b =>
  if a ≤ b ∧ b < a + 4 then 0 else mem b

def clearLine : ℕ → ℕ → (ℕ → Byte) → ℕ → Byte
  | 0, _, mem => mem
  | i + 1, line, mem =>
    clearLine i (line + 4) (clearWord (clearWord mem line) (line + 4 * (0x2000 / 4)))

def clearLines (tileWidth : ℕ) : ℕ → ℕ → (ℕ → Byte) → ℕ → Byte
  | 0, _, mem => mem
  | tileHeight + 1, cga32, mem =>
    clearLines tileWidth tileHeight (cga32 + 4 * (80 / 4)) (clearLine tileWidth cga32 mem)

def CGAclear (mem : ℕ → Byte) (cgaBuffer x y width height : ℕ) : Except String (ℕ → Byte) := do
  sassert (x &&& 15 = 0) "x must be a mulitple of 16"
  sassert (y &&& 1 = 0) "y must be a mulitple of 2"
  sassert (width &&& 15 = 0) "width must be a mulitple of 16"
  sassert (height &&& 1 = 0) "height must be a mulitple of 2"
  sassert (cgaBuffer &&& 3 = 0) "framebuffer must be word aligned"
  let tileWidth := width >>> 4
  let tileHeight := height >>> 1
  let cga32 := cgaBuffer + (x >>> 2) + (y >>> 1) * 80
  return clearLines tileWidth tileHeight cga32 mem

def nibble {w : ℕ} (v : BitVec w) (n : ℕ) : BitVec 4 := v.extractLsb' (4 * n) 4

def tileIndex (tileWidth i j : ℕ) : ℕ := ((j / 8 * tileWidth + i / 8) * 8 + j % 8) * 8 + i % 8

structure Draws {w : ℕ} (fb : List (BitVec w)) (width height : ℕ) (value : ℕ → ℕ → ℕ) : Prop where
  length : fb.length * (w / 4) = width * height
  pixels : ∀ i < width, ∀ j < height,
    (fb[tileIndex (width / 8) i j / (w / 4)]?.map fun v =>
      (nibble v (tileIndex (width / 8) i j % (w / 4))).toNat) = some (value i j)

theorem nibble_expand : ∀ (byte : Byte) (n : Fin 4),
    (nibble (expand2to4 byte) n).toNat = field byte n := by
  decide +kernel

theorem getLsbD_nibble {w : ℕ} (v : BitVec w) (n : ℕ) {k : ℕ} (hk : k < 4) :
    (nibble v n).getLsbD k = v.getLsbD (4 * n + k) := by
  rw [nibble, BitVec.getLsbD_extractLsb', decide_eq_true hk, Bool.true_and]

theorem getLsbD_nibSwap32 (x : BitVec 32) {k : ℕ} (hk : k < 32) : (nibSwap32 x).getLsbD k =
    x.getLsbD (if k / 4 % 2 = 0 then k + 4 else k - 4) := by
  have hhigh : ∀ k < 36, (0xF0F0F0F0 : BitVec 32).getLsbD k = decide (k < 32 ∧ k / 4 % 2 = 1) := by
    decide
  have hlow : ∀ k < 32, (0x0F0F0F0F : BitVec 32).getLsbD k = decide (k / 4 % 2 = 0) := by decide
  rw [nibSwap32, BitVec.getLsbD_or, BitVec.getLsbD_ushiftRight, BitVec.getLsbD_shiftLeft,
    BitVec.getLsbD_and, BitVec.getLsbD_and, hhigh _ (by omega), hlow _ (by omega), Nat.add_comm 4]
  split_ifs with h
  · rw [decide_eq_true (p := k + 4 < 32 ∧ _) (by omega), Bool.and_true]
    rcases Nat.lt_or_ge k 4 with hlt | hge
    · simp [hlt]
    · rw [decide_eq_false (p := (k - 4) / 4 % 2 = 0) (by omega)]
      simp
  · rw [decide_eq_false (p := k + 4 < 32 ∧ _) (by omega), decide_eq_false (p := k < 4) (by omega),
      decide_eq_true (p := (k - 4) / 4 % 2 = 0) (by omega), decide_eq_true hk]
    simp

theorem nibble_swap (x : BitVec 32) (n : Fin 4) (h : Fin 2) :
    nibble (nibSwap32 x) (2 * n + h) = nibble x (2 * n + (1 - h)) := by
  apply BitVec.eq_of_getLsbD_eq
  intro k hk
  rw [getLsbD_nibble _ _ hk, getLsbD_nibble _ _ hk, getLsbD_nibSwap32 _ (by omega)]
  congr 1
  split_ifs <;> omega

theorem nibble_word (mem : ℕ → Byte) (a : ℕ) (n : Fin 4) (h : Fin 2) :
    nibble (word mem a) (2 * n + h) = nibble (mem (a + n)) h := by
  apply BitVec.eq_of_getLsbD_eq
  intro k hk
  rw [getLsbD_nibble _ _ hk, getLsbD_nibble _ _ hk, word, BitVec.getLsbD_append,
    BitVec.getLsbD_append, BitVec.getLsbD_append]
  obtain rfl | rfl | rfl | rfl : n = 0 ∨ n = 1 ∨ n = 2 ∨ n = 3 := by omega
  · rw [if_pos (by omega)]
    change (mem a).getLsbD _ = (mem a).getLsbD _
    congr 1
    omega
  · rw [if_neg (by omega), if_pos (by omega)]
    congr 1
    omega
  · rw [if_neg (by omega), if_neg (by omega), if_pos (by omega)]
    congr 1
    omega
  · rw [if_neg (by omega), if_neg (by omega), if_neg (by omega)]
    congr 1
    omega

theorem nibble_byte : ∀ (byte : Byte) (h : Fin 2),
    (nibble byte (1 - h)).toNat = 4 * field byte (2 * h) + field byte (2 * h + 1) := by
  decide +kernel

section pieces

variable {α : Type} {stride m : ℕ} {piece : ℕ → List α}

theorem length_pieces (h : ∀ a, (piece a).length = m) (count start : ℕ) :
    (pieces stride piece count start).length = count * m := by
  induction count generalizing start with
  | zero => exact (Nat.zero_mul m).symm
  | succ count ih => rw [pieces, List.length_append, h, ih, Nat.succ_mul, Nat.add_comm]

theorem getElem?_pieces (h : ∀ a, (piece a).length = m) {count k r : ℕ} (hk : k < count)
    (hr : r < m) (start : ℕ) :
    (pieces stride piece count start)[k * m + r]? = (piece (start + k * stride))[r]? := by
  induction count generalizing k start with
  | zero => exact absurd hk (Nat.not_lt_zero k)
  | succ count ih =>
    rw [pieces]
    cases k with
    | zero =>
      rw [Nat.zero_mul, Nat.zero_add, List.getElem?_append_left (by rw [h]; exact hr),
        Nat.zero_mul, Nat.add_zero]
    | succ k =>
      rw [List.getElem?_append_right (by rw [h, Nat.succ_mul]; omega), h,
        show (k + 1) * m + r - m = k * m + r by rw [Nat.succ_mul]; omega,
        ih (Nat.lt_of_succ_lt_succ hk), Nat.succ_mul, Nat.add_assoc start, Nat.add_comm stride]

end pieces

theorem draws_pieces {w m : ℕ} {t : ℕ → List (BitVec w)} {v : ℕ → ℕ → ℕ → ℕ}
    (hm : m * (w / 4) = 64) (hlen : ∀ line, (t line).length = m)
    (ht : ∀ line, ∀ i < 8, ∀ j < 8, ((t line)[(j * 8 + i) / (w / 4)]?.map fun u =>
      (nibble u ((j * 8 + i) % (w / 4))).toNat) = some (v line i j))
    (stride tileWidth tileHeight start : ℕ) :
    Draws (pieces 320 (pieces stride t tileWidth) tileHeight start) (tileWidth * 8) (tileHeight * 8)
      fun i j => v (start + j / 8 * 320 + i / 8 * stride) (i % 8) (j % 8) where
  length := by
    rw [length_pieces (length_pieces hlen tileWidth), Nat.mul_assoc, Nat.mul_assoc, hm]
    ring
  pixels i hi j hj := by
    have hper : 0 < w / 4 := Nat.pos_of_ne_zero fun h => by simp [h] at hm
    have hindex : tileIndex tileWidth i j =
        j % 8 * 8 + i % 8 + (j / 8 * tileWidth + i / 8) * m * (w / 4) := by
      rw [tileIndex, Nat.mul_assoc _ m, hm]
      ring
    have hq : (j % 8 * 8 + i % 8) / (w / 4) < m := by
      rw [Nat.div_lt_iff_lt_mul hper, hm]
      omega
    have hcol : i / 8 < tileWidth := by omega
    have hrow : j / 8 < tileHeight := by omega
    have hr : i / 8 * m + (j % 8 * 8 + i % 8) / (w / 4) < tileWidth * m :=
      calc i / 8 * m + (j % 8 * 8 + i % 8) / (w / 4)
        _ < i / 8 * m + m := Nat.add_lt_add_left hq _
        _ = (i / 8 + 1) * m := (Nat.succ_mul _ _).symm
        _ ≤ tileWidth * m := Nat.mul_le_mul_right m hcol
    have hdiv : tileIndex tileWidth i j / (w / 4) =
        j / 8 * (tileWidth * m) + (i / 8 * m + (j % 8 * 8 + i % 8) / (w / 4)) := by
      rw [hindex, Nat.add_mul_div_right _ _ hper]
      ring
    rw [Nat.mul_div_cancel _ (by decide), hdiv, hindex, Nat.add_mul_mod_self_right,
      getElem?_pieces (length_pieces hlen tileWidth) hrow hr, getElem?_pieces hlen hcol hq]
    exact ht _ _ (Nat.mod_lt i (by decide)) _ (Nat.mod_lt j (by decide))

theorem sassert_mask {a k : ℕ} (n : ℕ) (hk : k = 2 ^ n - 1) (h : a % 2 ^ n = 0)
    (message : String) : sassert (a &&& k = 0) message = .ok () := by
  rw [sassert, hk, Nat.and_two_pow_sub_one_eq_mod, if_pos h]

section sprites

variable (mem : ℕ → Byte)

theorem getElem?_tile (line : ℕ) {q : ℕ} (hq : q < 16) : (tile mem line)[q]? =
    some (expand2to4 (mem (line + (q % 2 + q / 4 * 80 + q / 2 % 2 * 0x2000)))) := by
  interval_cases q <;> rfl

theorem getElem?_wideTile (line : ℕ) {q : ℕ} (hq : q < 8) : (wideTile mem line)[q]? =
    some (nibSwap32 (word mem (line + (q / 2 * 80 + q % 2 * 0x2000)))) := by
  interval_cases q <;> rfl

theorem nibble_wide (a : ℕ) {i : ℕ} (hi : i < 8) :
    (nibble (nibSwap32 (word mem a)) i).toNat =
      4 * field (mem (a + i / 2)) (2 * (i % 2)) + field (mem (a + i / 2)) (2 * (i % 2) + 1) := by
  have hswap := nibble_swap (word mem a) ⟨i / 2, by omega⟩ ⟨i % 2, by omega⟩
  have hword := nibble_word mem a ⟨i / 2, by omega⟩ ⟨1 - i % 2, by omega⟩
  rw [Nat.div_add_mod] at hswap
  rw [hswap, hword]
  exact nibble_byte _ ⟨i % 2, by omega⟩

def tileValue (line i j : ℕ) : ℕ :=
  (field (mem (line + (i / 4 + j / 2 * 80 + j % 2 * 0x2000))) (i % 4)).val

def wideValue (line i j : ℕ) : ℕ :=
  4 * (field (mem (line + (i / 2 + j / 2 * 80 + j % 2 * 0x2000))) (2 * (i % 2))).val +
    (field (mem (line + (i / 2 + j / 2 * 80 + j % 2 * 0x2000))) (2 * (i % 2) + 1)).val

theorem tile_draws (line : ℕ) {i j : ℕ} (hi : i < 8) (hj : j < 8) :
    ((tile mem line)[(j * 8 + i) / (16 / 4)]?.map fun u =>
      (nibble u ((j * 8 + i) % (16 / 4))).toNat) = some (tileValue mem line i j) := by
  have hat : (2 * j + i / 4) % 2 + (2 * j + i / 4) / 4 * 80 + (2 * j + i / 4) / 2 % 2 * 0x2000 =
      i / 4 + j / 2 * 80 + j % 2 * 0x2000 := by omega
  rw [show (j * 8 + i) / (16 / 4) = 2 * j + i / 4 by omega,
    show (j * 8 + i) % (16 / 4) = i % 4 by omega, getElem?_tile mem line (by omega), hat,
    Option.map_some, nibble_expand _ ⟨i % 4, Nat.mod_lt i (by decide)⟩, tileValue]

theorem wideTile_draws (line : ℕ) {i j : ℕ} (hi : i < 8) (hj : j < 8) :
    ((wideTile mem line)[(j * 8 + i) / (32 / 4)]?.map fun u =>
      (nibble u ((j * 8 + i) % (32 / 4))).toNat) = some (wideValue mem line i j) := by
  have hat : line + (j / 2 * 80 + j % 2 * 0x2000) + i / 2 =
      line + (i / 2 + j / 2 * 80 + j % 2 * 0x2000) := by omega
  rw [show (j * 8 + i) / (32 / 4) = j by omega, show (j * 8 + i) % (32 / 4) = i by omega,
    getElem?_wideTile mem line hj, Option.map_some, nibble_wide mem _ hi, hat, wideValue]

variable {cgaBuffer x y width height : ℕ}

theorem tileValue_eq (hx : x % 4 = 0) (hy : y % 2 = 0) (i j : ℕ) :
    tileValue mem (cgaBuffer + (x / 4 + y / 2 * 80) + j / 8 * 320 + i / 8 * 2) (i % 8) (j % 8) =
      (pixel (fun a => mem (cgaBuffer + a)) (x + i) (y + j)).val := by
  have hat : cgaBuffer + (x / 4 + y / 2 * 80) + j / 8 * 320 + i / 8 * 2 +
      (i % 8 / 4 + j % 8 / 2 * 80 + j % 8 % 2 * 0x2000) = cgaBuffer + byteOf (x + i) (y + j) := by
    rw [byteOf]
    omega
  rw [tileValue, hat, pixel, show i % 8 % 4 = (x + i) % 4 by omega]

theorem wideValue_eq (hx : x % 8 = 0) (hy : y % 2 = 0) (i j : ℕ) :
    wideValue mem (cgaBuffer + x / 2 + y / 2 * 80 + j / 8 * 320 + i / 8 * 4) (i % 8) (j % 8) =
      4 * (pixel (fun a => mem (cgaBuffer + a)) (2 * (x + i)) (y + j)).val +
        (pixel (fun a => mem (cgaBuffer + a)) (2 * (x + i) + 1) (y + j)).val := by
  have hat : cgaBuffer + x / 2 + y / 2 * 80 + j / 8 * 320 + i / 8 * 4 +
      (i % 8 / 2 + j % 8 / 2 * 80 + j % 8 % 2 * 0x2000) =
      cgaBuffer + byteOf (2 * (x + i)) (y + j) := by
    rw [byteOf]
    omega
  have hbyte : byteOf (2 * (x + i) + 1) (y + j) = byteOf (2 * (x + i)) (y + j) := by
    rw [byteOf, byteOf]
    omega
  rw [wideValue, hat, pixel, pixel, hbyte, show 2 * (i % 8 % 2) = 2 * (x + i) % 4 by omega,
    show 2 * (x + i) % 4 + 1 = (2 * (x + i) + 1) % 4 by omega]

theorem CGAto16ColorTiles_draws (hx : x % 4 = 0) (hy : y % 2 = 0) (hwidth : width % 8 = 0)
    (hheight : height % 8 = 0) :
    ∃ fb4, CGAto16ColorTiles mem cgaBuffer x y width height = .ok fb4 ∧ Draws fb4 width height
      fun i j => (pixel (fun a => mem (cgaBuffer + a)) (x + i) (y + j)).val := by
  have hdraws := draws_pieces (m := 16) (t := tile mem) (v := tileValue mem) (by decide)
    (fun _ => rfl) (fun line _ hi _ hj => tile_draws mem line hi hj) 2 (width / 8) (height / 8)
    (cgaBuffer + (x / 4 + y / 2 * 80))
  simp only [tileValue_eq mem hx hy, Nat.div_mul_cancel (Nat.dvd_of_mod_eq_zero hwidth),
    Nat.div_mul_cancel (Nat.dvd_of_mod_eq_zero hheight)] at hdraws
  refine ⟨_, ?_, hdraws⟩
  rw [CGAto16ColorTiles, sassert_mask (k := 3) 2 rfl hx, sassert_mask (k := 1) 1 rfl hy,
    sassert_mask (k := 7) 3 rfl hwidth, sassert_mask (k := 7) 3 rfl hheight]
  simp only [Nat.shiftRight_eq_div_pow]
  rfl

theorem CGAWideto16ColorTiles_draws (hbuffer : cgaBuffer % 4 = 0) (hx : x % 8 = 0) (hy : y % 2 = 0)
    (hwidth : width % 8 = 0) (hheight : height % 8 = 0) :
    ∃ fb32, CGAWideto16ColorTiles mem cgaBuffer x y width height = .ok fb32 ∧
      Draws fb32 width height fun i j =>
        4 * (pixel (fun a => mem (cgaBuffer + a)) (2 * (x + i)) (y + j)).val +
          (pixel (fun a => mem (cgaBuffer + a)) (2 * (x + i) + 1) (y + j)).val := by
  have hdraws := draws_pieces (m := 8) (t := wideTile mem) (v := wideValue mem) (by decide)
    (fun _ => rfl) (fun line _ hi _ hj => wideTile_draws mem line hi hj) 4 (width / 8) (height / 8)
    (cgaBuffer + x / 2 + y / 2 * 80)
  simp only [wideValue_eq mem hx hy, Nat.div_mul_cancel (Nat.dvd_of_mod_eq_zero hwidth),
    Nat.div_mul_cancel (Nat.dvd_of_mod_eq_zero hheight)] at hdraws
  refine ⟨_, ?_, hdraws⟩
  rw [CGAWideto16ColorTiles, sassert_mask (k := 7) 3 rfl hx, sassert_mask (k := 1) 1 rfl hy,
    sassert_mask (k := 7) 3 rfl hwidth, sassert_mask (k := 7) 3 rfl hheight,
    sassert_mask (k := 3) 2 rfl hbuffer]
  simp only [Nat.shiftRight_eq_div_pow]
  rfl

end sprites

section clear

variable {mem : ℕ → Byte}

def InLine (n line b : ℕ) : Prop :=
  (line ≤ b ∧ b < line + 4 * n) ∨ (line + 0x2000 ≤ b ∧ b < line + 0x2000 + 4 * n)

instance (n line b : ℕ) : Decidable (InLine n line b) :=
  inferInstanceAs (Decidable ((line ≤ b ∧ b < line + 4 * n) ∨
    (line + 0x2000 ≤ b ∧ b < line + 0x2000 + 4 * n)))

theorem clearLine_apply (n line b : ℕ) (mem : ℕ → Byte) :
    clearLine n line mem b = if InLine n line b then 0 else mem b := by
  induction n generalizing line mem with
  | zero => rw [clearLine, if_neg (by rw [InLine]; omega)]
  | succ n ih =>
    rw [clearLine, ih, clearWord, clearWord]
    by_cases hall : InLine (n + 1) line b
    · rw [if_pos hall]
      rw [InLine] at hall
      split_ifs with hrest hodd heven
      · rfl
      · rfl
      · rfl
      · rw [InLine] at hrest
        omega
    · rw [if_neg hall]
      rw [InLine] at hall
      rw [if_neg (by rw [InLine]; omega), if_neg (by omega), if_neg (by omega)]

theorem clearLines_apply (tileWidth n cga32 b : ℕ) (mem : ℕ → Byte) :
    clearLines tileWidth n cga32 mem b =
      if ∃ r < n, InLine tileWidth (cga32 + 80 * r) b then 0 else mem b := by
  induction n generalizing cga32 mem with
  | zero => simp [clearLines]
  | succ n ih =>
    have hshift (r : ℕ) : cga32 + 4 * (80 / 4) + 80 * r = cga32 + 80 * (r + 1) := by omega
    rw [clearLines, ih, clearLine_apply]
    simp only [hshift, Nat.exists_lt_succ_left, Nat.mul_zero, Nat.add_zero]
    by_cases hrest : ∃ r < n, InLine tileWidth (cga32 + 80 * (r + 1)) b
    · rw [if_pos hrest, if_pos (Or.inr hrest)]
    · rw [if_neg hrest]
      simp only [hrest, or_false]

variable {cgaBuffer x y width height : ℕ}

theorem CGAclear_apply (hbuffer : cgaBuffer % 4 = 0) (hx : x % 16 = 0) (hy : y % 2 = 0)
    (hwidth : width % 16 = 0) (hheight : height % 2 = 0) :
    ∃ mem', CGAclear mem cgaBuffer x y width height = .ok mem' ∧ ∀ a, mem' a =
      if ∃ r < height / 2, InLine (width / 16) (cgaBuffer + x / 4 + y / 2 * 80 + 80 * r) a then 0
      else mem a := by
  refine ⟨clearLines (width / 16) (height / 2) (cgaBuffer + x / 4 + y / 2 * 80) mem, ?_,
    fun a => clearLines_apply _ _ _ a mem⟩
  rw [CGAclear, sassert_mask (k := 15) 4 rfl hx, sassert_mask (k := 1) 1 rfl hy,
    sassert_mask (k := 15) 4 rfl hwidth, sassert_mask (k := 1) 1 rfl hheight,
    sassert_mask (k := 3) 2 rfl hbuffer]
  simp only [Nat.shiftRight_eq_div_pow]
  rfl

theorem inLine_byteOf (hx : x % 16 = 0) (hy : y % 2 = 0) (hwidth : width % 16 = 0)
    (hheight : height % 2 = 0) (hright : x + width ≤ 320) (hbottom : y + height ≤ 200)
    {px py : ℕ} (hpx : px < 320) (hpy : py < 200) :
    (∃ r < height / 2, InLine (width / 16) (cgaBuffer + x / 4 + y / 2 * 80 + 80 * r)
      (cgaBuffer + byteOf px py)) ↔
      x ≤ px ∧ px < x + width ∧ y ≤ py ∧ py < y + height := by
  constructor
  · rintro ⟨r, hr, hin⟩
    rw [InLine, byteOf] at hin
    have hlast : y / 2 + r < 100 := by omega
    have hcol : x / 4 + 4 * (width / 16) ≤ 80 := by omega
    have hrow : py / 2 = y / 2 + r := by
      rcases Nat.mod_two_eq_zero_or_one py with hplane | hplane <;> rw [hplane] at hin <;> omega
    omega
  · rintro ⟨h1, h2, h3, h4⟩
    refine ⟨py / 2 - y / 2, by omega, ?_⟩
    rw [InLine, byteOf]
    omega

structure Cleared (mem mem' : ℕ → Byte) (cgaBuffer x y width height : ℕ) : Prop where
  pixels : ∀ px < 320, ∀ py < 200, pixel (fun a => mem' (cgaBuffer + a)) px py =
    if x ≤ px ∧ px < x + width ∧ y ≤ py ∧ py < y + height then 0
    else pixel (fun a => mem (cgaBuffer + a)) px py
  rest : ∀ a, (∀ px < 320, ∀ py < 200, cgaBuffer + byteOf px py ≠ a) → mem' a = mem a

theorem CGAclear_cleared (hbuffer : cgaBuffer % 4 = 0) (hx : x % 16 = 0) (hy : y % 2 = 0)
    (hwidth : width % 16 = 0) (hheight : height % 2 = 0) (hright : x + width ≤ 320)
    (hbottom : y + height ≤ 200) :
    ∃ mem', CGAclear mem cgaBuffer x y width height = .ok mem' ∧
      Cleared mem mem' cgaBuffer x y width height := by
  obtain ⟨mem', hok, hmem'⟩ := @CGAclear_apply mem _ _ _ _ _ hbuffer hx hy hwidth hheight
  refine ⟨mem', hok, fun px hpx py hpy => ?_, fun a ha => ?_⟩
  · have hbyte := hmem' (cgaBuffer + byteOf px py)
    simp only [inLine_byteOf hx hy hwidth hheight hright hbottom hpx hpy] at hbyte
    rw [pixel, hbyte, pixel]
    split_ifs
    · exact Fin.ext (by rw [field]; exact congrArg (· % 4) (Nat.zero_shiftRight _))
    · rfl
  · rw [hmem', if_neg]
    rintro ⟨r, hr, hin⟩
    rw [InLine] at hin
    rcases hin with hin | hin
    · refine ha (4 * (a - cgaBuffer - (y / 2 * 80 + 80 * r))) ?_ (2 * (y / 2 + r)) ?_ ?_
      · omega
      · omega
      · rw [byteOf]
        omega
    · refine ha (4 * (a - cgaBuffer - 0x2000 - (y / 2 * 80 + 80 * r))) ?_
        (2 * (y / 2 + r) + 1) ?_ ?_
      · omega
      · omega
      · rw [byteOf]
        omega

end clear

/-- The two conversions draw the pixels of a rectangle of the screen, and clearing one makes its
pixels black. -/
theorem conversions_exact (mem : ℕ → Byte) (cgaBuffer x y width height : ℕ) :
    (x % 4 = 0 → y % 2 = 0 → width % 8 = 0 → height % 8 = 0 → x + width ≤ 320 →
      y + height ≤ 200 →
      ∃ fb4, CGAto16ColorTiles mem cgaBuffer x y width height = .ok fb4 ∧
        Draws fb4 width height fun i j =>
          (pixel (fun a => mem (cgaBuffer + a)) (x + i) (y + j)).val) ∧
    (cgaBuffer % 4 = 0 → x % 8 = 0 → y % 2 = 0 → width % 8 = 0 → height % 8 = 0 →
      2 * (x + width) ≤ 320 → y + height ≤ 200 →
      ∃ fb32, CGAWideto16ColorTiles mem cgaBuffer x y width height = .ok fb32 ∧
        Draws fb32 width height fun i j =>
          4 * (pixel (fun a => mem (cgaBuffer + a)) (2 * (x + i)) (y + j)).val +
            (pixel (fun a => mem (cgaBuffer + a)) (2 * (x + i) + 1) (y + j)).val) ∧
    (cgaBuffer % 4 = 0 → x % 16 = 0 → y % 2 = 0 → width % 16 = 0 → height % 2 = 0 →
      x + width ≤ 320 → y + height ≤ 200 →
      ∃ mem', CGAclear mem cgaBuffer x y width height = .ok mem' ∧
        Cleared mem mem' cgaBuffer x y width height) :=
  ⟨fun hx hy hwidth hheight _ _ => CGAto16ColorTiles_draws mem hx hy hwidth hheight,
    fun hbuffer hx hy hwidth hheight _ _ =>
      CGAWideto16ColorTiles_draws mem hbuffer hx hy hwidth hheight,
    CGAclear_cleared⟩

theorem conversions_exact_tile :
    ∃ fb4, CGAto16ColorTiles (BitVec.ofNat 8) 0 4 2 8 8 = .ok fb4 ∧ Draws fb4 8 8 fun i j =>
      (pixel (fun a => BitVec.ofNat 8 (0 + a)) (4 + i) (2 + j)).val :=
  (conversions_exact (BitVec.ofNat 8) 0 4 2 8 8).1 rfl rfl rfl rfl (by decide) (by decide)

end NaviMisc.RobotOdyssey.VideoConvert
