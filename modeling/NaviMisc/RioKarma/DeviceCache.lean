import Mathlib.Data.List.AList
import Mathlib.Logic.Equiv.List
import Mathlib.Tactic.DeriveCountable
import NaviMisc.Lib.Runs
import NaviMisc.Lib.Table
import NaviMisc.RioKarma.AllocationTree
import NaviMisc.RioKarma.Coder

/-!
`BaseCache` of `RioKarma/Metadata.py`: dictionaries in a table, pickled and by columns.
-/

namespace NaviMisc.RioKarma.Cache

open Property (Str bytes toUTF8)
open Lib.Table (Row)

inductive Fault
  | valueError
  | keyError

abbrev Key := String

/-- Of other objects only what `str` gives is known. -/
inductive Value
  | str (s : Str)
  | unicode (s : String)
  | int (n : ℤ)
  | none
  | other (s : Str)

abbrev Details := AList fun _ : Key => Value

structure Codec where
  encode : Str → Str
  decode : Str → Str
  dumps : Details → Str
  loads : Str → Details
  repr : Value → Str
  decode_encode : ∀ s, decode (encode s) = s
  loads_dumps : ∀ d, loads (dumps d) = d

def Value.text : Value → Str
  | .str s => s
  | .unicode s => toUTF8 s
  | .int n => Property.str n
  | .none => bytes "None"
  | .other s => s

def Codec.object (codec : Codec) (d : Details) : Value :=
  .other (bytes "\x7b" ++ (bytes ", ").intercalate
    (d.entries.map fun item => codec.repr (.str (bytes item.1)) ++ bytes ": " ++ codec.repr item.2)
      ++ bytes "\x7d")

def Codec._encode (codec : Codec) (obj : Value) : Str := codec.encode obj.text

structure Schema where
  searchableKeys : List Key
  primaryKey : Key
  primaryKey_mem : primaryKey ∈ searchableKeys
  pickled_not_mem : "_pickled" ∉ searchableKeys

abbrev Files := List (Row Key Str)

section BaseCache

variable (codec : Codec) (schema : Schema)

def dbItems (d : Details) : List (Key × Str) :=
  ("_pickled", codec._encode (.str (codec.dumps d))) ::
    schema.searchableKeys.filterMap fun column =>
      (d.lookup column).map fun value => (column, codec._encode value)

def _insertFile (files : Files) (d : Details) : Files :=
  match d.lookup schema.primaryKey with
  | some key =>
    Lib.Table.upsert schema.primaryKey (codec._encode key) (dbItems codec schema d) files
  | none => (Lib.Table.insert schema.primaryKey (dbItems codec schema d) files).getD files

def _deleteFile (files : Files) (key : Value) : Files :=
  Lib.Table.delete schema.primaryKey (codec._encode key) files

def unpickle (row : Row Key Str) : Option Details := do
  return codec.loads (codec.decode (← row "_pickled"))

def _getFile (files : Files) (key : Value) : Option Details := do
  unpickle codec (← (Lib.Table.select [(schema.primaryKey, codec._encode key)] files).head?)

def _findFiles (files : Files) (kw : List (Key × Value)) : Except Fault (List Details) :=
  if ∀ k ∈ kw, k.1 ∈ schema.searchableKeys then
    .ok ((Lib.Table.select (kw.map fun k => (k.1, codec._encode k.2)) files).filterMap
      (unpickle codec))
  else .error .valueError

structure Describes (row : Row Key Str) (d : Details) : Prop where
  pickled : row "_pickled" = some (codec._encode (.str (codec.dumps d)))
  columns : ∀ column ∈ schema.searchableKeys, ∀ value,
    d.lookup column = some value → row column = some (codec._encode value)
  texts : ∀ column ∈ schema.searchableKeys, ∀ cell,
    row column = some cell → ∃ s, cell = codec._encode (.str s)

def Fresh (row : Row Key Str) (d : Details) : Prop :=
  ∀ column ∈ schema.searchableKeys, d.lookup column = none → row column = none

variable {codec schema} {d : Details} {row : Row Key Str}

theorem Codec._encode_inj {v w : Value} : codec._encode v = codec._encode w ↔ v.text = w.text :=
  (Function.LeftInverse.injective codec.decode_encode).eq_iff

theorem lookup_pickled :
    (dbItems codec schema d).lookup "_pickled" = some (codec._encode (.str (codec.dumps d))) :=
  List.lookup_cons_self

theorem lookup_column {column : Key} (h : column ∈ schema.searchableKeys) :
    (dbItems codec schema d).lookup column = (d.lookup column).map codec._encode := by
  have hne : column ≠ "_pickled" := fun heq => schema.pickled_not_mem (heq ▸ h)
  rw [dbItems, List.lookup_cons, beq_false_of_ne hne]
  have hlookup := Lib.Lists.lookup_filterMap (fun column => (d.lookup column).map codec._encode) h
  simp only [Option.map_map] at hlookup
  exact hlookup

theorem Describes.unpickle (h : Describes codec schema row d) : unpickle codec row = some d := by
  rw [Cache.unpickle, h.pickled]
  change some (codec.loads (codec.decode (codec.encode (codec.dumps d)))) = some d
  rw [codec.decode_encode, codec.loads_dumps]

theorem describes_set (h : ∀ column ∈ schema.searchableKeys, ∀ cell,
    row column = some cell → ∃ s, cell = codec._encode (.str s)) (d : Details) :
    Describes codec schema (row.set (dbItems codec schema d)) d where
  pickled := Row.set_of_some lookup_pickled
  columns column hcolumn value hvalue := by
    apply Row.set_of_some
    rw [lookup_column hcolumn, hvalue]
    rfl
  texts column hcolumn cell hcell := by
    cases hvalue : d.lookup column with
    | none =>
      rw [Row.set_of_none (by rw [lookup_column hcolumn, hvalue]; rfl)] at hcell
      exact h column hcolumn cell hcell
    | some value =>
      rw [Row.set_of_some (by rw [lookup_column hcolumn, hvalue]; rfl)] at hcell
      exact ⟨value.text, (Option.some.inj hcell).symm⟩

theorem fresh_set :
    Fresh schema (row.set (dbItems codec schema d)) d ↔ Fresh schema row d := by
  apply forall₃_congr
  intro column hcolumn hnone
  rw [Row.set_of_none (by rw [lookup_column hcolumn, hnone]; rfl)]

end BaseCache

section plain

instance countableChar : Countable Char :=
  Function.Injective.countable (f := Char.toNat) fun _ _ => Char.toNat_inj.mp

instance countableString : Countable String :=
  Function.Injective.countable (f := String.toList) fun _ _ => String.toList_inj.mp

instance countableStr : Countable Str :=
  Function.Injective.countable (f := List.map BitVec.toNat)
    (List.map_injective_iff.mpr fun _ _ => BitVec.eq_of_toNat_eq)

deriving instance Countable for Value

instance : Countable Details := by
  apply Function.Injective.countable (f := fun d => d.entries.map fun item => (item.1, item.2))
  intro d d' h
  apply AList.ext
  refine List.map_injective_iff.mpr ?_ h
  intro item item' heq
  exact Sigma.ext (congrArg Prod.fst heq) (heq_of_eq (congrArg Prod.snd heq))

/-- Pickles that only count the dictionaries, stored as they are. -/
noncomputable def Codec.plain : Codec where
  encode s := s
  decode s := s
  dumps d := List.replicate ((exists_injective_nat Details).choose d) 0
  loads s := Function.invFun (exists_injective_nat Details).choose s.length
  repr v := v.text
  decode_encode _ := rfl
  loads_dumps d := by
    rw [List.length_replicate]
    exact Function.leftInverse_invFun (exists_injective_nat Details).choose_spec d

end plain

end NaviMisc.RioKarma.Cache

/-!
`DeviceCache` of `RioKarma/Filesystem.py` against a store of files by their id.
-/

namespace NaviMisc.RioKarma.Filesystem

open Cache
open Property (Str)
open Lib.Table (Row Keyed)

structure File where
  id : Value
  details : Details

def File.ofDetails (details : Details) : Except Fault File :=
  match details.lookup "fid" with
  | some id => .ok ⟨id, details⟩
  | none => .error .keyError

structure NumberedFile extends File where
  number : ℕ
  id_eq : id = .int number
  details_fid : details.lookup "fid" = some id

structure Allocator where
  allocator : FileIdAllocator
  represents : ∃ tree, allocator.tree.Represents 16 tree

theorem Allocator.allocates (a : Allocator) (address : ℕ) :
    ∃ f, a.allocator.allocate address = some f ∧ ∃ tree, f.tree.Represents 16 tree := by
  obtain ⟨tree, htree⟩ := a.represents
  obtain ⟨t, ht, hrep⟩ := htree.allocate (by decide) (address >>> 4)
  exact ⟨⟨t⟩, by rw [FileIdAllocator.allocate, ht]; rfl, _, hrep⟩

def Allocator.allocate (a : Allocator) (address : ℕ) : Allocator where
  allocator := (a.allocator.allocate address).get <| by
    obtain ⟨f, hf, -⟩ := a.allocates address
    rw [hf]
    rfl
  represents := by
    obtain ⟨f, hf, hrep⟩ := a.allocates address
    simp only [hf, Option.get_some]
    exact hrep

theorem FileIdAllocator.exists_init :
    ∃ f, FileIdAllocator.init = some f ∧ ∃ tree, f.tree.Represents 16 tree := by
  have hbits : 1 ≤ 16 := by decide
  obtain ⟨t, tree, ht, hrep, -⟩ :=
    (AllocationTree.represents_init hbits).allocateAll hbits (List.range 0x11)
  exact ⟨⟨t⟩, by rw [FileIdAllocator.init, ht]; rfl, tree, hrep⟩

def Allocator.init : Allocator where
  allocator := FileIdAllocator.init.get <| by
    obtain ⟨f, hf, -⟩ := FileIdAllocator.exists_init
    rw [hf]
    rfl
  represents := by
    obtain ⟨f, hf, hrep⟩ := FileIdAllocator.exists_init
    simp only [hf, Option.get_some]
    exact hrep

def schema : Schema where
  searchableKeys := ["fid", "type", "rid", "title", "artist", "source", "codec", "fid_generation",
    "ctime"]
  primaryKey := "fid"
  primaryKey_mem := by decide
  pickled_not_mem := by decide

structure DeviceCache where
  fileIdAllocator : Allocator
  files : Files

section operations

variable (codec : Codec)

def DeviceCache.insertFile (cache : DeviceCache) (f : NumberedFile) : DeviceCache where
  fileIdAllocator := cache.fileIdAllocator.allocate f.number
  files := _insertFile codec schema cache.files f.details

def DeviceCache.deleteFile (cache : DeviceCache) (f : NumberedFile) : DeviceCache :=
  { cache with files := _deleteFile codec schema cache.files (codec.object f.details) }

def DeviceCache.getFile (cache : DeviceCache) (fid : Value) : Except Fault (Option File) :=
  match _getFile codec schema cache.files fid with
  | some details =>
    if details.entries.isEmpty then .ok none else do return some (← File.ofDetails details)
  | none => .ok none

def DeviceCache.findFiles (cache : DeviceCache) (kw : List (Key × Value)) : Except Fault (List File) := do
  (← _findFiles codec schema cache.files kw).mapM File.ofDetails

end operations

inductive Op
  | insertFile (f : NumberedFile)
  | deleteFile (f : NumberedFile)

abbrev Store := ℕ → Option NumberedFile

def Store.step (store : Store) : Op → Store
  | .insertFile f => Function.update store f.number (some f)
  | .deleteFile f => Function.update store f.number none

structure State where
  cache : DeviceCache
  store : Store

def step (codec : Codec) (s : State) (op : Op) : State where
  cache := match op with
    | .insertFile f => s.cache.insertFile codec f
    | .deleteFile f => s.cache.deleteFile codec f
  store := s.store.step op

structure Correct (codec : Codec) (s : State) : Prop where
  getFile : ∀ fid : ℕ,
    s.cache.getFile codec (.int fid) = .ok ((s.store fid).map NumberedFile.toFile)
  findFiles : ∀ kw : List (Key × Value), (∀ k ∈ kw, k.1 ∈ schema.searchableKeys ∧ k.2 ≠ .none) →
    ∃ files, s.cache.findFiles codec kw = .ok files ∧ files.Nodup ∧
      ∀ f, f ∈ files ↔ ∃ fid g, s.store fid = some g ∧ g.toFile = f ∧
        ∀ k ∈ kw, ∃ value, f.details.lookup k.1 = some value ∧
          codec._encode value = codec._encode k.2

def Keeps (s : State) : Op → Prop
  | .insertFile f => ∀ g, s.store f.number = some g →
      ∀ column ∈ schema.searchableKeys, f.details.lookup column = none →
        g.details.lookup column = none
  | .deleteFile f => s.store f.number = none

structure Inv (codec : Codec) (s : State) : Prop where
  keyed : Keyed "fid" s.cache.files
  rows : ∀ row ∈ s.cache.files, ∃ f : NumberedFile, Describes codec schema row f.details
  stored : ∀ number f, s.store number = some f →
    f.number = number ∧ ∃ row ∈ s.cache.files, Describes codec schema row f.details

def Exact (codec : Codec) (s : State) : Prop :=
  ∀ row ∈ s.cache.files, ∀ f : NumberedFile, Describes codec schema row f.details →
    s.store f.number = some f ∧ Fresh schema row f.details

section lemmas

variable {codec : Codec} {s : State} {row : Row Key Str}

theorem store_insertFile_self (f : NumberedFile) :
    (step codec s (.insertFile f)).store f.number = some f :=
  Function.update_self ..

theorem store_insertFile_of_ne {f : NumberedFile} {number : ℕ} (h : number ≠ f.number) :
    (step codec s (.insertFile f)).store number = s.store number :=
  Function.update_of_ne h ..

theorem store_deleteFile_self (f : NumberedFile) :
    (step codec s (.deleteFile f)).store f.number = none :=
  Function.update_self ..

theorem store_deleteFile_of_ne {f : NumberedFile} {number : ℕ} (h : number ≠ f.number) :
    (step codec s (.deleteFile f)).store number = s.store number :=
  Function.update_of_ne h ..

theorem number_inj {n m : ℕ} (h : codec._encode (.int n) = codec._encode (.int m)) : n = m := by
  have htext := congrArg Property.int (Codec._encode_inj.mp h)
  simp only [Value.text, Property.int_str] at htext
  exact Int.ofNat_inj.mp (Except.ok.inj htext)

theorem NumberedFile.ext {f g : NumberedFile} (h : f.details = g.details) : f = g := by
  obtain ⟨⟨id, details⟩, number, hid, hfid⟩ := f
  obtain ⟨⟨id', details'⟩, number', hid', hfid'⟩ := g
  obtain rfl : details = details' := h
  obtain rfl : id = id' := Option.some.inj (hfid.symm.trans hfid')
  obtain rfl : number = number' := Int.ofNat_inj.mp (Value.int.inj (hid.symm.trans hid'))
  rfl

theorem describes_fid {f : NumberedFile} (h : Describes codec schema row f.details) :
    row "fid" = some (codec._encode (.int f.number)) := by
  rw [← f.id_eq]
  exact h.columns "fid" schema.primaryKey_mem f.id f.details_fid

theorem describes_unique {f g : NumberedFile} (hf : Describes codec schema row f.details)
    (hg : Describes codec schema row g.details) : f = g :=
  NumberedFile.ext (Option.some.inj (hf.unpickle.symm.trans hg.unpickle))

theorem object_ne (d : Details) (n : ℕ) : codec._encode (codec.object d) ≠ codec._encode (.int n) := by
  intro h
  have htext := Codec._encode_inj.mp h
  have hmem : (0x7B : Lib.ByteOrder.Byte) ∈ Property.decimals n := by
    have hstr : Property.str n = Property.decimals n := if_neg (by omega)
    rw [← hstr]
    change _ ∈ (Value.int n).text
    rw [← htext]
    exact List.mem_append_left _ (List.mem_append_left _ (by decide))
  have := (Property.mem_decimals hmem).2
  contradiction

theorem ofDetails_details (f : NumberedFile) : File.ofDetails f.details = .ok f.toFile := by
  rw [File.ofDetails, f.details_fid]

theorem mapM_unpickle {rows : Files} (hkeyed : Keyed "fid" rows)
    (hrows : ∀ row ∈ rows, ∃ f : NumberedFile, Describes codec schema row f.details) :
    ∃ files, (rows.filterMap (unpickle codec)).mapM File.ofDetails = .ok files ∧ files.Nodup ∧
      ∀ f, f ∈ files ↔ ∃ row ∈ rows, ∃ g : NumberedFile,
        Describes codec schema row g.details ∧ g.toFile = f := by
  induction rows with
  | nil => exact ⟨[], rfl, List.nodup_nil, by simp⟩
  | cons row rows ih =>
    obtain ⟨g, hg⟩ := hrows row List.mem_cons_self
    obtain ⟨hne, hkeyed⟩ := List.pairwise_cons.mp hkeyed
    obtain ⟨files, hfiles, hnodup, hmem⟩ :=
      ih hkeyed fun row hrow => hrows row (List.mem_cons_of_mem _ hrow)
    refine ⟨g.toFile :: files, ?_, ?_, ?_⟩
    · rw [List.filterMap_cons_some hg.unpickle, List.mapM_cons, ofDetails_details, hfiles]
      rfl
    · refine List.nodup_cons.mpr ⟨?_, hnodup⟩
      intro hin
      obtain ⟨row', hrow', g', hg', heq⟩ := (hmem _).mp hin
      obtain rfl := NumberedFile.ext (congrArg File.details heq)
      exact hne row' hrow' ((describes_fid hg).trans (describes_fid hg').symm)
    · intro f
      rw [List.mem_cons, hmem]
      constructor
      · rintro (rfl | ⟨row', hrow', hg'⟩)
        · exact ⟨row, List.mem_cons_self, g, hg, rfl⟩
        · exact ⟨row', List.mem_cons_of_mem _ hrow', hg'⟩
      · rintro ⟨row', hrow', g', hg', rfl⟩
        rcases List.mem_cons.mp hrow' with rfl | hrow'
        · rw [describes_unique hg hg']
          exact .inl rfl
        · exact .inr ⟨row', hrow', g', hg', rfl⟩

theorem Inv.getFile_of_mem (h : Inv codec s) (hrow : row ∈ s.cache.files) {f : NumberedFile}
    (hf : Describes codec schema row f.details) :
    s.cache.getFile codec (.int f.number) = .ok (some f.toFile) := by
  have hentries : f.details.entries.isEmpty = false := by
    rw [List.isEmpty_eq_false_iff]
    intro hnil
    have hfid := f.details_fid
    rw [AList.lookup, hnil] at hfid
    cases hfid
  have hget : _getFile codec schema s.cache.files (.int f.number) = some f.details := by
    change (List.head? (Lib.Table.select [("fid", _)] s.cache.files)).bind _ = _
    rw [h.keyed.select_eq hrow (describes_fid hf)]
    exact hf.unpickle
  rw [DeviceCache.getFile, hget]
  simp only [hentries, ofDetails_details]
  rfl

theorem getFile_of_not_mem {n : ℕ}
    (h : ∀ row ∈ s.cache.files, row "fid" ≠ some (codec._encode (.int n))) :
    s.cache.getFile codec (.int n) = .ok none := by
  have hget : _getFile codec schema s.cache.files (.int n) = none := by
    change (List.head? (Lib.Table.select [("fid", _)] s.cache.files)).bind _ = _
    rw [Lib.Table.select_eq_nil h]
    rfl
  rw [DeviceCache.getFile, hget]

theorem Inv.findFiles (h : Inv codec s) {kw : List (Key × Value)}
    (hkw : ∀ k ∈ kw, k.1 ∈ schema.searchableKeys) :
    ∃ files, s.cache.findFiles codec kw = .ok files ∧ files.Nodup ∧
      ∀ f, f ∈ files ↔ ∃ row ∈ s.cache.files, ∃ g : NumberedFile,
        Describes codec schema row g.details ∧ g.toFile = f ∧
          ∀ k ∈ kw, row k.1 = some (codec._encode k.2) := by
  let constraints := kw.map fun k => (k.1, codec._encode k.2)
  have hrows : ∀ row ∈ Lib.Table.select constraints s.cache.files,
      ∃ f : NumberedFile, Describes codec schema row f.details :=
    fun row hrow => h.rows row (Lib.Table.mem_select.mp hrow).1
  obtain ⟨files, hfiles, hnodup, hmem⟩ := mapM_unpickle (h.keyed.select constraints) hrows
  refine ⟨files, ?_, hnodup, ?_⟩
  · rw [DeviceCache.findFiles, _findFiles, if_pos hkw]
    exact hfiles
  · intro f
    rw [hmem]
    apply exists_congr
    intro row
    rw [Lib.Table.mem_select, List.forall_mem_map]
    constructor
    · rintro ⟨⟨hrow, hall⟩, g, hg, heq⟩
      exact ⟨hrow, g, hg, heq, hall⟩
    · rintro ⟨hrow, g, hg, heq, hall⟩
      exact ⟨⟨hrow, hall⟩, g, hg, heq⟩

theorem column_iff {f : NumberedFile} (hf : Describes codec schema row f.details)
    (hfresh : Fresh schema row f.details) {column : Key} (hcolumn : column ∈ schema.searchableKeys)
    {cell : Str} :
    row column = some cell ↔ ∃ value, f.details.lookup column = some value ∧
      codec._encode value = cell := by
  cases hvalue : f.details.lookup column with
  | none =>
    rw [hfresh column hcolumn hvalue]
    simp
  | some value =>
    rw [hf.columns column hcolumn value hvalue]
    simp

theorem Inv.correct (h : Inv codec s) (hexact : Exact codec s) : Correct codec s where
  getFile fid := by
    cases hstore : s.store fid with
    | some f =>
      obtain ⟨rfl, row, hrow, hf⟩ := h.stored fid f hstore
      exact h.getFile_of_mem hrow hf
    | none =>
      apply getFile_of_not_mem
      intro row hrow hfid
      obtain ⟨f, hf⟩ := h.rows row hrow
      have hnumber := number_inj (Option.some.inj ((describes_fid hf).symm.trans hfid))
      rw [← hnumber, (hexact row hrow f hf).1] at hstore
      cases hstore
  findFiles kw hkw := by
    obtain ⟨files, hfiles, hnodup, hmem⟩ := h.findFiles fun k hk => (hkw k hk).1
    refine ⟨files, hfiles, hnodup, ?_⟩
    intro f
    rw [hmem]
    constructor
    · rintro ⟨row, hrow, g, hg, rfl, hall⟩
      obtain ⟨hstore, hfresh⟩ := hexact row hrow g hg
      refine ⟨g.number, g, hstore, rfl, ?_⟩
      intro k hk
      exact (column_iff hg hfresh (hkw k hk).1).mp (hall k hk)
    · rintro ⟨fid, g, hstore, rfl, hall⟩
      obtain ⟨-, row, hrow, hg⟩ := h.stored fid g hstore
      obtain ⟨-, hfresh⟩ := hexact row hrow g hg
      refine ⟨row, hrow, g, hg, rfl, ?_⟩
      intro k hk
      exact (column_iff hg hfresh (hkw k hk).1).mpr (hall k hk)

theorem Inv.exact (h : Inv codec s) (hcorrect : Correct codec s) : Exact codec s := by
  intro row hrow f hf
  have hstore : s.store f.number = some f := by
    have hget := hcorrect.getFile f.number
    rw [h.getFile_of_mem hrow hf] at hget
    obtain ⟨g, hg, heq⟩ := Option.map_eq_some_iff.mp (Except.ok.inj hget).symm
    rw [hg, NumberedFile.ext (congrArg File.details heq)]
  refine ⟨hstore, ?_⟩
  intro column hcolumn hnone
  by_contra hsome
  obtain ⟨cell, hcell⟩ := Option.ne_none_iff_exists'.mp hsome
  obtain ⟨text, rfl⟩ := hf.texts column hcolumn cell hcell
  have hkw : ∀ k ∈ [(column, Value.str text)], k.1 ∈ schema.searchableKeys ∧ k.2 ≠ .none := by
    intro k hk
    rw [List.mem_singleton.mp hk]
    exact ⟨hcolumn, Value.noConfusion⟩
  obtain ⟨files, hfiles, -, hfound⟩ := hcorrect.findFiles _ hkw
  obtain ⟨files', hfiles', -, hmem⟩ := h.findFiles fun k hk => (hkw k hk).1
  obtain rfl := Except.ok.inj (hfiles.symm.trans hfiles')
  have hin : f.toFile ∈ files := by
    refine (hmem _).mpr ⟨row, hrow, f, hf, rfl, ?_⟩
    intro k hk
    rw [List.mem_singleton.mp hk]
    exact hcell
  obtain ⟨-, -, -, -, hall⟩ := (hfound _).mp hin
  obtain ⟨value, hvalue, -⟩ := hall _ List.mem_cons_self
  rw [hnone] at hvalue
  cases hvalue

theorem Inv.correct_iff (h : Inv codec s) : Correct codec s ↔ Exact codec s :=
  ⟨h.exact, h.correct⟩

theorem deleteFile_files (h : Inv codec s) (f : NumberedFile) :
    (s.cache.deleteFile codec f).files = s.cache.files := by
  apply Lib.Table.delete_eq_self
  intro row hrow hfid
  obtain ⟨g, hg⟩ := h.rows row hrow
  exact object_ne f.details g.number (Option.some.inj (hfid.symm.trans (describes_fid hg)))

theorem lookup_primaryKey (f : NumberedFile) :
    f.details.lookup schema.primaryKey = some (.int f.number) := by
  rw [← f.id_eq]
  exact f.details_fid

theorem insertFile_files (f : NumberedFile) : (s.cache.insertFile codec f).files =
    Lib.Table.upsert "fid" (codec._encode (.int f.number)) (dbItems codec schema f.details)
      s.cache.files := by
  rw [DeviceCache.insertFile, _insertFile, lookup_primaryKey]
  rfl

theorem lookup_fid (f : NumberedFile) : (dbItems codec schema f.details).lookup "fid" =
    some (codec._encode (.int f.number)) := by
  change (dbItems codec schema f.details).lookup schema.primaryKey = _
  rw [lookup_column schema.primaryKey_mem, lookup_primaryKey]
  rfl

theorem mem_insertFile {f : NumberedFile} :
    row ∈ (s.cache.insertFile codec f).files ↔
      (row ∈ s.cache.files ∧ row "fid" ≠ some (codec._encode (.int f.number))) ∨
        (∃ old ∈ s.cache.files, old "fid" = some (codec._encode (.int f.number)) ∧
          row = old.set (dbItems codec schema f.details)) ∨
        ((∀ old ∈ s.cache.files, old "fid" ≠ some (codec._encode (.int f.number))) ∧
          row = Row.null.set (dbItems codec schema f.details)) := by
  rw [insertFile_files]
  exact Lib.Table.mem_upsert (lookup_fid f)

theorem Inv.describes_set (h : Inv codec s) (hrow : row ∈ s.cache.files) (d : Details) :
    Describes codec schema (row.set (dbItems codec schema d)) d := by
  obtain ⟨f, hf⟩ := h.rows row hrow
  exact Cache.describes_set hf.texts d

theorem describes_null (d : Details) :
    Describes codec schema (Row.null.set (dbItems codec schema d)) d :=
  Cache.describes_set (fun _ _ _ hcell => by cases hcell) d

theorem Inv.exists_insertFile (h : Inv codec s) (f : NumberedFile) :
    ∃ row ∈ (s.cache.insertFile codec f).files, Describes codec schema row f.details := by
  by_cases hold : ∃ old ∈ s.cache.files, old "fid" = some (codec._encode (.int f.number))
  · obtain ⟨old, hold, hkey⟩ := hold
    exact ⟨_, mem_insertFile.mpr (.inr (.inl ⟨old, hold, hkey, rfl⟩)), h.describes_set hold _⟩
  · have hnone : ∀ old ∈ s.cache.files, old "fid" ≠ some (codec._encode (.int f.number)) :=
      fun old hmem hkey => hold ⟨old, hmem, hkey⟩
    exact ⟨_, mem_insertFile.mpr (.inr (.inr ⟨hnone, rfl⟩)), describes_null _⟩

theorem Inv.insertFile (h : Inv codec s) (f : NumberedFile) :
    Inv codec (step codec s (.insertFile f)) where
  keyed := by
    simp only [step]
    rw [insertFile_files]
    exact h.keyed.upsert (lookup_fid f)
  rows row hrow := by
    rcases mem_insertFile.mp hrow with ⟨hrow, -⟩ | ⟨old, hold, -, rfl⟩ | ⟨-, rfl⟩
    · exact h.rows row hrow
    · exact ⟨f, h.describes_set hold _⟩
    · exact ⟨f, describes_null _⟩
  stored number g hstore := by
    by_cases hnumber : number = f.number
    · subst hnumber
      obtain rfl := Option.some.inj ((store_insertFile_self f).symm.trans hstore)
      exact ⟨rfl, h.exists_insertFile f⟩
    · rw [store_insertFile_of_ne hnumber] at hstore
      obtain ⟨rfl, row, hrow, hg⟩ := h.stored number g hstore
      refine ⟨rfl, row, mem_insertFile.mpr (.inl ⟨hrow, ?_⟩), hg⟩
      intro hfid
      exact hnumber (number_inj (Option.some.inj ((describes_fid hg).symm.trans hfid)))

theorem Inv.deleteFile (h : Inv codec s) (f : NumberedFile) :
    Inv codec (step codec s (.deleteFile f)) := by
  have hfiles : (step codec s (.deleteFile f)).cache.files = s.cache.files := deleteFile_files h f
  refine ⟨?_, ?_, ?_⟩
  · rw [hfiles]
    exact h.keyed
  · rw [hfiles]
    exact h.rows
  · rw [hfiles]
    intro number g hstore
    by_cases hnumber : number = f.number
    · subst hnumber
      rw [store_deleteFile_self] at hstore
      cases hstore
    · rw [store_deleteFile_of_ne hnumber] at hstore
      exact h.stored number g hstore

theorem Inv.step (h : Inv codec s) (op : Op) : Inv codec (step codec s op) := by
  cases op with
  | insertFile f => exact h.insertFile f
  | deleteFile f => exact h.deleteFile f

theorem fresh_set_iff {f g : NumberedFile} (hg : Describes codec schema row g.details)
    (hfresh : Fresh schema row g.details) :
    Fresh schema (row.set (dbItems codec schema f.details)) f.details ↔
      ∀ column ∈ schema.searchableKeys, f.details.lookup column = none →
        g.details.lookup column = none := by
  rw [fresh_set]
  apply forall₃_congr
  intro column hcolumn hnone
  constructor
  · intro hcell
    by_contra hsome
    obtain ⟨value, hvalue⟩ := Option.ne_none_iff_exists'.mp hsome
    rw [hg.columns column hcolumn value hvalue] at hcell
    cases hcell
  · exact hfresh column hcolumn

theorem Inv.exact_insertFile_iff (h : Inv codec s) (hexact : Exact codec s) (f : NumberedFile) :
    Exact codec (Filesystem.step codec s (.insertFile f)) ↔ Keeps s (.insertFile f) := by
  constructor
  · intro hexact' g hstore
    obtain ⟨hnumber, row, hrow, hg⟩ := h.stored f.number g hstore
    have hfid := describes_fid hg
    rw [hnumber] at hfid
    have hset := mem_insertFile.mpr (.inr (.inl ⟨row, hrow, hfid, rfl⟩))
    apply (fresh_set_iff hg (hexact row hrow g hg).2).mp
    exact (hexact' _ hset f (h.describes_set hrow f.details)).2
  · intro hkeeps row hrow g hg
    rcases mem_insertFile.mp hrow with ⟨hrow, hne⟩ | ⟨old, hold, hfid, rfl⟩ | ⟨-, rfl⟩
    · have hnumber : g.number ≠ f.number := by
        intro hnumber
        rw [describes_fid hg, hnumber] at hne
        exact hne rfl
      obtain ⟨hstore, hfresh⟩ := hexact row hrow g hg
      exact ⟨(store_insertFile_of_ne hnumber).trans hstore, hfresh⟩
    · obtain rfl := describes_unique (h.describes_set hold f.details) hg
      obtain ⟨g', hg'⟩ := h.rows old hold
      obtain ⟨hstore, hfresh⟩ := hexact old hold g' hg'
      have hnumber := number_inj (Option.some.inj ((describes_fid hg').symm.trans hfid))
      rw [hnumber] at hstore
      exact ⟨store_insertFile_self f, (fresh_set_iff hg' hfresh).mpr (hkeeps g' hstore)⟩
    · obtain rfl := describes_unique (describes_null f.details) hg
      refine ⟨store_insertFile_self f, fresh_set.mpr ?_⟩
      exact fun _ _ _ => rfl

theorem Inv.exact_deleteFile_iff (h : Inv codec s) (hexact : Exact codec s) (f : NumberedFile) :
    Exact codec (Filesystem.step codec s (.deleteFile f)) ↔ Keeps s (.deleteFile f) := by
  have hfiles : (Filesystem.step codec s (.deleteFile f)).cache.files = s.cache.files :=
    deleteFile_files h f
  constructor
  · intro hexact'
    by_contra hsome
    obtain ⟨g, hstore⟩ := Option.ne_none_iff_exists'.mp hsome
    obtain ⟨hnumber, row, hrow, hg⟩ := h.stored f.number g hstore
    have hstore' := (hexact' row (hfiles ▸ hrow) g hg).1
    rw [hnumber, store_deleteFile_self] at hstore'
    cases hstore'
  · intro hnone row hrow g hg
    have hsame : (Filesystem.step codec s (.deleteFile f)).store = s.store := by
      change Function.update s.store f.number none = s.store
      rw [← hnone, Function.update_eq_self]
    rw [hsame]
    exact hexact row (hfiles ▸ hrow) g hg

end lemmas

section store

def State.empty : State := ⟨⟨Allocator.init, []⟩, fun _ => none⟩

theorem inv_empty (codec : Codec) : Inv codec State.empty where
  keyed := List.Pairwise.nil
  rows := by simp [State.empty]
  stored := by simp [State.empty]

theorem keyed_store (codec : Codec) (ops : List Op) :
    Lib.Runs.Always (step codec) (Correct codec) State.empty ops ↔
      Lib.Runs.Meets (step codec) Keeps State.empty ops := by
  have hinv := inv_empty codec
  have hexact : Exact codec State.empty := fun _ hrow => by cases hrow
  refine Lib.Runs.always_iff_meets (I := Inv codec) (fun s op h => h.step op) ?_ hinv
    (hinv.correct hexact) ops
  intro s op h hcorrect
  rw [(h.step op).correct_iff]
  cases op with
  | insertFile f => exact h.exact_insertFile_iff (h.exact hcorrect) f
  | deleteFile f => exact h.exact_deleteFile_iff (h.exact hcorrect) f

def file : NumberedFile where
  id := .int 0x110
  details := AList.singleton "fid" (.int 0x110)
  number := 0x110
  id_eq := rfl
  details_fid := rfl

theorem deleted_found :
    ¬Lib.Runs.Always (step .plain) (Correct .plain) State.empty
      [.insertFile file, .deleteFile file] := by
  intro h
  have hinv := (inv_empty .plain).insertFile file
  obtain ⟨row, hrow, hfile⟩ := (inv_empty .plain).exists_insertFile file
  have hfound := (hinv.deleteFile file).getFile_of_mem ((deleteFile_files hinv file) ▸ hrow) hfile
  have hget := h.last.getFile 0x110
  have hdeleted := hfound.symm.trans hget
  change Except.ok (some _) = Except.ok none at hdeleted
  cases hdeleted

end store

end NaviMisc.RioKarma.Filesystem
