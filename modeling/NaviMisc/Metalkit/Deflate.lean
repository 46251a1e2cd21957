import NaviMisc.Metalkit.PuffDecode

/-!
The deflate format as such: which bits stand for which bytes. The bits are a list, and a relation
takes the output and the bits before a part of the stream to those behind it.
-/

namespace NaviMisc.Metalkit.Deflate

open Lib.ByteOrder (Byte bytes)
open Lib.PrefixCode (Codeword left)
open Puff

/-- A string is repeated from `dist` bytes back, as often as it takes. -/
def repeated (dist : ℕ) : ℕ → List Byte → List Byte
  | 0, o => o
  | len + 1, o => repeated dist len (o ++ (o[o.length - dist]?).toList)

/-- What stands behind length symbol `i`: the rest of the length, and a distance. -/
inductive CopyBits (distcodes : List ℕ) (i : ℕ) : ℕ → ℕ → List Bool → Prop
  | mk {len e x j d e' x' : ℕ} {w : List Bool} : lens[i]? = some len → lext[i]? = some e →
    x < 2 ^ e → Codeword distcodes j w → dists[j]? = some d → dext[j]? = some e' → x' < 2 ^ e' →
    CopyBits distcodes i (len + x) (d + x') (lowBits x e ++ (w ++ lowBits x' e'))

inductive Tokens (lencodes distcodes : List ℕ) :
    List Byte → List Bool → List Byte → List Bool → Prop
  | done {o : List Byte} {w l : List Bool} :
    Codeword lencodes 256 w → Tokens lencodes distcodes o (w ++ l) o l
  | literal {o o' : List Byte} {w l l' : List Bool} {b : Byte} : Codeword lencodes b.toNat w →
    Tokens lencodes distcodes (o ++ [b]) l o' l' → Tokens lencodes distcodes o (w ++ l) o' l'
  | string {o o' : List Byte} {w w' l l' : List Bool} {i len dist : ℕ} :
    Codeword lencodes (257 + i) w → CopyBits distcodes i len dist w' → dist ≤ o.length →
    Tokens lencodes distcodes (repeated dist len o) l o' l' →
    Tokens lencodes distcodes o (w ++ (w' ++ l)) o' l'

inductive Run (ls : List ℕ) : ℕ → ℕ → ℕ → List Bool → Prop
  | length {symbol : ℕ} : symbol < 16 → Run ls symbol symbol 1 []
  | last {a x : ℕ} : ls.getLast? = some a → x < 2 ^ 2 → Run ls 16 a (3 + x) (lowBits x 2)
  | zeros {x : ℕ} : x < 2 ^ 3 → Run ls 17 0 (3 + x) (lowBits x 3)
  | moreZeros {x : ℕ} : x < 2 ^ 7 → Run ls 18 0 (11 + x) (lowBits x 7)

/-- The lengths are completed to `n`. -/
inductive Lengths (codes : List ℕ) (n : ℕ) : List ℕ → List Bool → List ℕ → List Bool → Prop
  | done {ls : List ℕ} {l : List Bool} : ls.length = n → Lengths codes n ls l ls l
  | run {ls ls' : List ℕ} {w w' l l' : List Bool} {symbol a times : ℕ} :
    ls.length < n → Codeword codes symbol w → Run ls symbol a times w' → ls.length + times ≤ n →
    Lengths codes n (ls ++ List.replicate times a) l ls' l' →
    Lengths codes n ls (w ++ (w' ++ l)) ls' l'

def permuted (vs : List ℕ) : List ℕ := (List.range 19).map fun i => vs.getD (order.idxOf i) 0

def Usable (lengths : List ℕ) : Prop :=
  0 ≤ left lengths.count MAXBITS ∧
    (left lengths.count MAXBITS ≠ 0 → lengths.length - lengths.count 0 ≤ 1)

inductive Header : ℕ → ℕ → List ℕ → List Bool → List Bool → Prop
  | mk {x y z : ℕ} {vs : List ℕ} {l : List Bool} : x < 2 ^ 5 → y < 2 ^ 5 → z < 2 ^ 4 →
    x + 257 ≤ MAXLCODES → y + 1 ≤ MAXDCODES → vs.length = z + 4 → (∀ v ∈ vs, v < 2 ^ 3) →
    Header (x + 257) (y + 1) (permuted vs) (lowBits x 5 ++ (lowBits y 5 ++ (lowBits z 4 ++
      (vs.flatMap (lowBits · 3) ++ l)))) l

def NoCode (l : List Bool) : Prop :=
  ∃ nlen ndist codes l', Header nlen ndist codes l l' ∧ ∀ a ∈ codes, a = 0

def fixedLencodes : List ℕ :=
  List.replicate 144 8 ++ List.replicate 112 9 ++ List.replicate 24 7 ++ List.replicate 8 8

inductive Block (o : List Byte) : ℕ → List Bool → List Byte → List Bool → Prop
  | stored {data : List Byte} {pad l : List Bool} : pad.length < 8 → l.length % 8 = 0 →
    data.length < 2 ^ 16 →
    Block o 0 (pad ++ (byteBits (bytes 2 data.length ++ (bytes 2 data.length).map (~~~ ·) ++ data)
      ++ l)) (o ++ data) l
  | fixed {o' : List Byte} {l l' : List Bool} :
    Tokens fixedLencodes (List.replicate MAXDCODES 5) o l o' l' → Block o 1 l o' l'
  | dynamic {nlen ndist : ℕ} {codes ls : List ℕ} {o' : List Byte} {l l₁ l₂ l' : List Bool} :
    Header nlen ndist codes l l₁ → left codes.count MAXBITS = 0 →
    Lengths codes (nlen + ndist) [] l₁ ls l₂ → Usable (ls.take nlen) → Usable (ls.drop nlen) →
    Tokens (ls.take nlen) (ls.drop nlen) o l₂ o' l' → Block o 2 l o' l'

inductive Blocks : List Byte → List Bool → List Byte → List Bool → Prop
  | none {o : List Byte} {l : List Bool} : Blocks o l o l
  | more {o o' o'' : List Byte} {l l' l'' : List Bool} {type : ℕ} : type < 2 ^ 2 →
    Block o type l o' l' → Blocks o' l' o'' l'' →
    Blocks o (false :: (lowBits type 2 ++ l)) o'' l''

def Stream (o : List Byte) (l : List Bool) (data : List Byte) (l' : List Bool) : Prop :=
  ∃ o₁ type l₁, type < 2 ^ 2 ∧ Blocks o l o₁ (true :: (lowBits type 2 ++ l₁)) ∧
    Block o₁ type l₁ data l'

def Broken (o : List Byte) (l : List Bool) : Prop :=
  ∃ o₁ last l₁, Blocks o l o₁ (last :: (lowBits 2 2 ++ l₁)) ∧ NoCode l₁

end NaviMisc.Metalkit.Deflate
