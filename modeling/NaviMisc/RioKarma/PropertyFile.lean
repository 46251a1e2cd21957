import Mathlib.Data.Finmap
import NaviMisc.RioKarma.Coder

/-!
Property files of `RioKarma/Property.py`: dictionaries written as lines of text,
and read back from a stream of any pieces.
-/

namespace NaviMisc.RioKarma.Property

open Lib.Text (strip rstrip unlines)

def EQUALS : Lib.ByteOrder.Byte := 0x3D

section writer

variable {σ : Type}

structure LineBufferedWriter (σ : Type) where
  writeBuffer : Str
  state : σ

def LineBufferedWriter.write (writeLine : σ → Str → Except Fault σ) (writer : LineBufferedWriter σ)
    (data : Str) : Except Fault (LineBufferedWriter σ) := do
  let fragments := (writer.writeBuffer ++ data).splitOn NEWLINE
  let state ← fragments.dropLast.foldlM writeLine writer.state
  return ⟨fragments.getLastD [], state⟩

end writer

/-- A line of `key=value`, as `PropertyFileWriter` takes it apart. -/
def PropertyFileWriter.writeLine (db : Finmap Value) (line : Str) : Except Fault (Finmap Value) :=
  match (strip isSpace line).span (· ≠ EQUALS) with
  | (key, _ :: value) => do return db.insert key (← (coderOf key).decode value)
  | (_, []) => .error .valueError

/-- `received` are the dictionaries that the callback was called with. -/
structure FileDatabaseWriter where
  current : Finmap Value
  received : List (Finmap Value)

def FileDatabaseWriter.writeLine (writer : FileDatabaseWriter) (line : Str) :
    Except Fault FileDatabaseWriter :=
  let line := strip isSpace line
  if line ≠ [] then do
    return { writer with current := ← PropertyFileWriter.writeLine writer.current line }
  else .ok ⟨∅, writer.received ++ [writer.current]⟩

def FileDatabaseWriter.run (pieces : List Str) : Except Fault (List (Finmap Value)) := do
  let writer ← pieces.foldlM (LineBufferedWriter.write FileDatabaseWriter.writeLine) ⟨[], ∅, []⟩
  return writer.state.received

/-- `rest` is what the iterator over the dictionary has left. -/
structure PropertyFileReader where
  readBuffer : Str
  rest : List (Sigma Value)

def PropertyFileReader.line (item : Sigma Value) : Str :=
  item.1 ++ EQUALS :: (coderOf item.1).encode item.2

def PropertyFileReader.readLines (more : Bool) : Str → List (Sigma Value) → PropertyFileReader
  | buffer, [] => ⟨buffer, []⟩
  | buffer, item :: rest =>
    if more then readLines more (buffer ++ (line item ++ [NEWLINE])) rest
    else ⟨buffer, item :: rest⟩

def PropertyFileReader.read (reader : PropertyFileReader) (size : Option ℕ) :
    Str × PropertyFileReader :=
  let more := match size with
    | none => true
    | some size => reader.readBuffer.length < size
  let filled := readLines more reader.readBuffer reader.rest
  match size with
  | none => (filled.readBuffer, { filled with readBuffer := [] })
  | some size =>
    (filled.readBuffer.take size, { filled with readBuffer := filled.readBuffer.drop size })

def PropertyFileReader.reads (reader : PropertyFileReader) : List (Option ℕ) → Str × PropertyFileReader
  | [] => ([], reader)
  | size :: sizes =>
    let (data, reader) := reader.read size
    let (text, reader) := reader.reads sizes
    (data ++ text, reader)

structure Database where
  items : AList Value
  nonempty : items.entries ≠ []
  key : ∀ item ∈ items.entries, item.1 ≠ [] ∧ ∀ c ∈ item.1, c ≠ EQUALS ∧ ¬isSpace c ∧ c ≠ NUL
  value : ∀ item ∈ items.entries, (coderOf item.1).NoNewline item.2

def Database.reads (db : Database) (sizes : List (Option ℕ)) : Str × PropertyFileReader :=
  PropertyFileReader.reads ⟨[], db.items.entries⟩ sizes

def Database.ReadOut (db : Database) (sizes : List (Option ℕ)) : Prop :=
  ((db.reads sizes).2.read none).1 = []

def stream (dbs : List (Database × List (Option ℕ))) : Str :=
  dbs.flatMap fun db => (db.1.reads db.2).1 ++ [NEWLINE]

def Survives (item : Sigma Value) : Prop :=
  Trimmed ((coderOf item.1).encode item.2) ∧ (coderOf item.1).Exact item.2

section reader

open PropertyFileReader (line readLines)

def PropertyFileReader.content (reader : PropertyFileReader) : Str :=
  reader.readBuffer ++ unlines NEWLINE (reader.rest.map line)

theorem readLines_content (more : Bool) (buffer : Str) (rest : List (Sigma Value)) :
    (readLines more buffer rest).content = buffer ++ unlines NEWLINE (rest.map line) := by
  induction rest generalizing buffer with
  | nil => rfl
  | cons item rest ih =>
    cases more with
    | false => rfl
    | true =>
      have hstep : readLines true buffer (item :: rest) =
          readLines true (buffer ++ (line item ++ [NEWLINE])) rest := rfl
      rw [hstep, ih, List.append_assoc]
      rfl

theorem readLines_true (buffer : Str) (rest : List (Sigma Value)) :
    (readLines true buffer rest).rest = [] := by
  induction rest generalizing buffer with
  | nil => rfl
  | cons item rest ih => exact ih _

theorem read_content (reader : PropertyFileReader) (size : Option ℕ) :
    (reader.read size).1 ++ (reader.read size).2.content = reader.content := by
  cases size with
  | none => exact readLines_content true reader.readBuffer reader.rest
  | some size =>
    have hfilled := readLines_content (reader.readBuffer.length < size) reader.readBuffer reader.rest
    rw [PropertyFileReader.content, ← List.append_assoc, PropertyFileReader.read,
      List.take_append_drop]
    exact hfilled

theorem read_none (reader : PropertyFileReader) : (reader.read none).1 = reader.content := by
  have hcontent := read_content reader none
  have hrest : (reader.read none).2.content = [] := by
    show [] ++ unlines NEWLINE ((readLines true reader.readBuffer reader.rest).rest.map line) = []
    rw [readLines_true]
    rfl
  rwa [hrest, List.append_nil] at hcontent

theorem reads_content (reader : PropertyFileReader) (sizes : List (Option ℕ)) :
    (reader.reads sizes).1 ++ (reader.reads sizes).2.content = reader.content := by
  induction sizes generalizing reader with
  | nil => rfl
  | cons size sizes ih =>
    rw [← read_content reader size, ← ih (reader.read size).2, ← List.append_assoc]
    rfl

theorem readOut_concat_none (db : Database) (sizes : List (Option ℕ)) :
    db.ReadOut (sizes ++ [none]) := by
  have hreads : ∀ reader : PropertyFileReader,
      ((reader.reads (sizes ++ [none])).2.read none).1 = [] := by
    induction sizes with
    | nil =>
      intro reader
      have hrest : (reader.read none).2.content = [] := by
        have hcontent := read_content reader none
        rwa [read_none, List.append_right_eq_self] at hcontent
      rw [read_none]
      exact hrest
    | cons size sizes ih => exact fun reader => ih (reader.read size).2
  exact hreads _

theorem Database.ReadOut.text {db : Database} {sizes : List (Option ℕ)} (h : db.ReadOut sizes) :
    (db.reads sizes).1 = unlines NEWLINE (db.items.entries.map line) := by
  have hcontent := reads_content ⟨[], db.items.entries⟩ sizes
  rw [Database.ReadOut, read_none] at h
  have hend : (PropertyFileReader.reads ⟨[], db.items.entries⟩ sizes).2.content = [] := h
  rwa [hend, List.append_nil] at hcontent

end reader

section write

variable {σ : Type} {writeLine : σ → Str → Except Fault σ}

theorem write_append (writer : LineBufferedWriter σ) (data data' : Str) :
    writer.write writeLine (data ++ data') =
      writer.write writeLine data >>= fun writer => writer.write writeLine data' := by
  obtain ⟨init, last, hsplit, -, happend⟩ :=
    Lib.Text.splitOn_append NEWLINE (writer.writeBuffer ++ data) data'
  have hne : (last ++ data').splitOn NEWLINE ≠ [] := List.splitOn_ne_nil _ _
  have hlast : (init ++ (last ++ data').splitOn NEWLINE).getLastD [] =
      ((last ++ data').splitOn NEWLINE).getLastD [] := by
    rw [List.getLastD_eq_getLast?, List.getLastD_eq_getLast?, List.getLast?_append_of_ne_nil _ hne]
  rw [LineBufferedWriter.write, LineBufferedWriter.write, ← List.append_assoc, happend, hsplit,
    List.dropLast_append_of_ne_nil hne, List.foldlM_append, List.dropLast_concat, hlast]
  cases init.foldlM writeLine writer.state with
  | error fault => rfl
  | ok state => simp [LineBufferedWriter.write, bind, Except.bind, pure, Except.pure]

theorem foldlM_write (state : σ) (pieces : List Str) :
    pieces.foldlM (LineBufferedWriter.write writeLine) ⟨[], state⟩ =
      LineBufferedWriter.write writeLine ⟨[], state⟩ pieces.flatten := by
  induction pieces using List.reverseRecOn with
  | nil => rfl
  | append_singleton pieces piece ih =>
    rw [List.foldlM_append, ih, List.flatten_concat, write_append]
    simp

theorem write_unlines (state : σ) {lines : List Str} (h : ∀ line ∈ lines, NEWLINE ∉ line) :
    LineBufferedWriter.write writeLine ⟨[], state⟩ (unlines NEWLINE lines) =
      do return ⟨[], ← lines.foldlM writeLine state⟩ := by
  rw [LineBufferedWriter.write, List.nil_append, Lib.Text.splitOn_unlines h, List.dropLast_concat]
  simp

end write

section database

open PropertyFileReader (line)

def take (db : Finmap Value) (item : Sigma Value) : Except Fault (Finmap Value) := do
  return db.insert item.1 (← (coderOf item.1).decode
    (rstrip isSpace ((coderOf item.1).encode item.2)))

theorem span_key {key value : Str} (h : ∀ c ∈ key, c ≠ EQUALS) :
    (key ++ EQUALS :: value).span (· ≠ EQUALS) = (key, EQUALS :: value) := by
  have hkey : ∀ c ∈ key, (decide (c ≠ EQUALS)) = true := fun c hc => decide_eq_true (h c hc)
  rw [List.span_eq_takeWhile_dropWhile, List.takeWhile_append_of_pos hkey,
    List.dropWhile_append_of_pos hkey]
  simp

theorem writeLine_line {item : Sigma Value} (hne : item.1 ≠ [])
    (hkey : ∀ c ∈ item.1, c ≠ EQUALS ∧ ¬isSpace c ∧ c ≠ NUL) (writer : FileDatabaseWriter) :
    writer.writeLine (line item) =
      do return { writer with current := ← take writer.current item } := by
  obtain ⟨key, value⟩ := item
  obtain ⟨c, rest, rfl⟩ := List.exists_cons_of_ne_nil hne
  have hspace : ¬isSpace c := (hkey c List.mem_cons_self).2.1
  have hequals : ¬isSpace EQUALS := by decide
  have hstrip : ∀ s, strip isSpace (c :: rest ++ EQUALS :: s) = c :: rest ++ EQUALS :: rstrip isSpace s := by
    intro s
    rw [List.cons_append, Lib.Text.strip_cons hspace, ← List.cons_append,
      Lib.Text.rstrip_append_cons hequals]
  rw [FileDatabaseWriter.writeLine, line, hstrip, if_pos (by simp), PropertyFileWriter.writeLine,
    hstrip, Lib.Text.rstrip_rstrip, span_key fun c hc => (hkey c hc).1]
  rfl

theorem foldlM_writeLine {items : List (Sigma Value)}
    (h : ∀ item ∈ items, item.1 ≠ [] ∧ ∀ c ∈ item.1, c ≠ EQUALS ∧ ¬isSpace c ∧ c ≠ NUL)
    (writer : FileDatabaseWriter) :
    (items.map line).foldlM FileDatabaseWriter.writeLine writer =
      do return { writer with current := ← items.foldlM take writer.current } := by
  induction items generalizing writer with
  | nil => rfl
  | cons item items ih =>
    obtain ⟨hne, hkey⟩ := h item List.mem_cons_self
    rw [List.map_cons, List.foldlM_cons, writeLine_line hne hkey, List.foldlM_cons]
    cases take writer.current item with
    | error fault => rfl
    | ok db => exact ih (fun item hitem => h item (List.mem_cons_of_mem _ hitem)) ⟨db, writer.received⟩

def Database.lines (db : Database) : List Str := db.items.entries.map line ++ [[]]

def Database.read (db : Database) : Except Fault (Finmap Value) := db.items.entries.foldlM take ∅

theorem foldlM_lines (db : Database) (received : List (Finmap Value)) :
    db.lines.foldlM FileDatabaseWriter.writeLine ⟨∅, received⟩ =
      do return ⟨∅, received ++ [← db.read]⟩ := by
  rw [Database.lines, List.foldlM_append, foldlM_writeLine db.key, Database.read]
  cases db.items.entries.foldlM take ∅ with
  | error fault => rfl
  | ok db => rfl

theorem foldlM_databases (dbs : List Database) (received : List (Finmap Value)) :
    (dbs.flatMap Database.lines).foldlM FileDatabaseWriter.writeLine ⟨∅, received⟩ =
      do return ⟨∅, received ++ (← dbs.mapM Database.read)⟩ := by
  induction dbs generalizing received with
  | nil => simp
  | cons db dbs ih =>
    rw [List.flatMap_cons, List.foldlM_append, foldlM_lines, List.mapM_cons]
    cases db.read with
    | error fault => rfl
    | ok first =>
      have hrest := ih (received ++ [first])
      simp only [bind, Except.bind, pure, Except.pure] at hrest ⊢
      rw [hrest]
      cases dbs.mapM Database.read with
      | error fault => rfl
      | ok rest => simp

theorem lookup_foldlM {items : List (Sigma Value)} (hkeys : items.NodupKeys)
    {db db' : Finmap Value} (h : items.foldlM take db = .ok db') :
    (∀ key, (∀ item ∈ items, item.1 ≠ key) → db'.lookup key = db.lookup key) ∧
    ∀ item ∈ items, ∃ value, db'.lookup item.1 = some value ∧
      (coderOf item.1).decode (rstrip isSpace ((coderOf item.1).encode item.2)) = .ok value := by
  induction items generalizing db with
  | nil =>
    cases h
    exact ⟨fun _ _ => rfl, fun item hitem => absurd hitem List.not_mem_nil⟩
  | cons item items ih =>
    rw [List.foldlM_cons] at h
    obtain ⟨db₁, hitem, h⟩ := Lib.Lists.bind_eq_ok h
    obtain ⟨value, hvalue, rfl⟩ := Lib.Lists.bind_return_eq_ok.mp hitem
    rw [List.nodupKeys_cons] at hkeys
    obtain ⟨hothers, hitems⟩ := ih hkeys.2 h
    constructor
    · intro key hkey
      rw [hothers key fun other hother => hkey other (List.mem_cons_of_mem _ hother)]
      exact Finmap.lookup_insert_of_ne db (hkey item List.mem_cons_self).symm
    · intro other hother
      rcases List.mem_cons.mp hother with rfl | hother
      · refine ⟨value, ?_, hvalue⟩
        rw [hothers other.1 fun item hitem heq => hkeys.1 (heq ▸ List.mem_keys_of_mem hitem)]
        exact Finmap.lookup_insert db
      · exact hitems other hother

theorem foldlM_eq_ok {items : List (Sigma Value)} (h : ∀ item ∈ items, Survives item)
    (db : Finmap Value) : ∃ db', items.foldlM take db = .ok db' := by
  induction items generalizing db with
  | nil => exact ⟨db, rfl⟩
  | cons item items ih =>
    have hitem := decode_rstrip_iff.mpr (h item List.mem_cons_self)
    obtain ⟨db', hdb'⟩ := ih (fun other hother => h other (List.mem_cons_of_mem _ hother))
      (db.insert item.1 item.2)
    refine ⟨db', ?_⟩
    rw [List.foldlM_cons, take, hitem]
    exact hdb'

theorem read_iff (db : Database) :
    db.read = .ok db.items.toFinmap ↔ ∀ item ∈ db.items.entries, Survives item := by
  have hlookup : ∀ item ∈ db.items.entries, Finmap.lookup item.1 db.items.toFinmap = some item.2 := by
    intro item hitem
    rw [Finmap.lookup_toFinmap]
    exact AList.mem_lookup_iff.mpr hitem
  constructor
  · intro h item hitem
    obtain ⟨value, hvalue, hdecode⟩ := (lookup_foldlM db.items.nodupKeys h).2 item hitem
    rw [hlookup item hitem] at hvalue
    obtain rfl := Option.some.inj hvalue
    exact decode_rstrip_iff.mp hdecode
  · intro h
    obtain ⟨db', hdb'⟩ := foldlM_eq_ok h ∅
    obtain ⟨hothers, hitems⟩ := lookup_foldlM db.items.nodupKeys hdb'
    have heq : db' = db.items.toFinmap := by
      apply Finmap.ext_lookup
      intro key
      by_cases hkey : ∃ item ∈ db.items.entries, item.1 = key
      · obtain ⟨item, hitem, rfl⟩ := hkey
        obtain ⟨value, hvalue, hdecode⟩ := hitems item hitem
        have hself := hdecode.symm.trans (decode_rstrip_iff.mpr (h item hitem))
        rw [hvalue, hlookup item hitem, Except.ok.inj hself]
      · push Not at hkey
        rw [hothers key hkey, Finmap.lookup_empty]
        symm
        rw [Finmap.lookup_toFinmap, AList.lookup_eq_none]
        intro hmem
        obtain ⟨item, hitem, hitemkey⟩ := List.mem_map.mp (AList.mem_keys.mpr hmem)
        exact hkey item hitem hitemkey
    rw [← heq]
    exact hdb'

end database

section stream

open PropertyFileReader (line)

variable {dbs : List (Database × List (Option ℕ))} {pieces : List Str}

theorem newline_not_mem_lines (db : Database) : ∀ l ∈ db.lines, NEWLINE ∉ l := by
  intro l hl
  rcases List.mem_append.mp hl with hl | hl
  · obtain ⟨item, hitem, rfl⟩ := List.mem_map.mp hl
    intro hmem
    rcases List.mem_append.mp hmem with hmem | hmem
    · exact ((db.key item hitem).2 NEWLINE hmem).2.1 (by decide)
    · rcases List.mem_cons.mp hmem with heq | hmem
      · exact absurd heq (by decide)
      · exact newline_not_mem_encode (db.value item hitem) hmem
  · rw [List.mem_singleton.mp hl]
    exact List.not_mem_nil

theorem stream_eq (h : ∀ db ∈ dbs, db.1.ReadOut db.2) :
    stream dbs = unlines NEWLINE (dbs.flatMap fun db => db.1.lines) := by
  induction dbs with
  | nil => rfl
  | cons db dbs ih =>
    have hrest := ih fun other hother => h other (List.mem_cons_of_mem _ hother)
    have hcons : stream (db :: dbs) = (db.1.reads db.2).1 ++ [NEWLINE] ++ stream dbs := rfl
    rw [hcons, (h db List.mem_cons_self).text, hrest, unlines, unlines, unlines, List.flatMap_cons,
      List.flatMap_append, Database.lines, List.flatMap_append]
    rfl

theorem run_eq (h : ∀ db ∈ dbs, db.1.ReadOut db.2) (hpieces : pieces.flatten = stream dbs) :
    FileDatabaseWriter.run pieces = dbs.mapM fun db => db.1.read := by
  have hlines : ∀ l ∈ dbs.flatMap fun db => db.1.lines, NEWLINE ∉ l := by
    intro l hl
    obtain ⟨db, -, hdb⟩ := List.mem_flatMap.mp hl
    exact newline_not_mem_lines db.1 l hdb
  have hdatabases := foldlM_databases (dbs.map Prod.fst) []
  rw [List.flatMap_map, List.mapM_map] at hdatabases
  rw [FileDatabaseWriter.run, foldlM_write, hpieces, stream_eq h, write_unlines _ hlines, hdatabases]
  simp only [Function.comp_def]
  cases dbs.mapM fun db => db.1.read with
  | error fault => rfl
  | ok received => rfl

/-- The callback receives the dictionaries themselves exactly if every value of them survives. -/
theorem received_iff (h : ∀ db ∈ dbs, db.1.ReadOut db.2) (hpieces : pieces.flatten = stream dbs) :
    FileDatabaseWriter.run pieces = .ok (dbs.map fun db => db.1.items.toFinmap) ↔
      ∀ db ∈ dbs, ∀ item ∈ db.1.items.entries, Survives item := by
  rw [run_eq h hpieces, Lib.Lists.mapM_eq_map_iff]
  apply forall₂_congr
  intro db _
  exact read_iff db.1

def song (title : String) (h : '\n' ∉ title.toList) : Database where
  items := ⟨[⟨bytes "title", title⟩], List.nodupKeys_singleton _⟩
  nonempty := List.cons_ne_nil _ _
  key := by
    have hkey : bytes "title" ≠ [] ∧
        ∀ c ∈ bytes "title", c ≠ EQUALS ∧ ¬isSpace c ∧ c ≠ NUL := by decide
    intro item hitem
    rw [List.mem_singleton.mp hitem]
    exact hkey
  value := by
    intro item hitem
    rw [List.mem_singleton.mp hitem]
    exact h

theorem received_song : FileDatabaseWriter.run
    ((stream [(song "Intro" (by decide), [some 3, none])]).map fun c => [c]) =
      .ok [(song "Intro" (by decide)).items.toFinmap] :=
  (@received_iff [(song "Intro" (by decide), [some 3, none])] _
    (by
      intro db hdb
      rw [List.mem_singleton.mp hdb]
      exact readOut_concat_none _ [some 3])
    (List.flatMap_singleton' _)).mpr (by
      intro db hdb item hitem
      rw [List.mem_singleton.mp hdb] at hitem
      rw [List.mem_singleton.mp hitem]
      have htrimmed : Trimmed (toUTF8 "Intro") := by decide
      exact ⟨htrimmed, trivial⟩)

/-- The blank at the end of a title is taken for the end of the line. -/
theorem trailing_blank_lost :
    FileDatabaseWriter.run [stream [(song "Intro " (by decide), [none])]] ≠
      .ok [(song "Intro " (by decide)).items.toFinmap] := by
  intro h
  rw [@run_eq [(song "Intro " (by decide), [none])] _ _ (List.append_nil _)] at h
  · have hread := (Lib.Lists.mapM_eq_map_iff (f := fun db : Database × List (Option ℕ) => db.1.read)
      (g := fun db => db.1.items.toFinmap)).mp h _ List.mem_cons_self
    have hsurvives := (read_iff _).mp hread _ List.mem_cons_self
    have htrimmed : ¬Trimmed (toUTF8 "Intro ") := by decide
    exact htrimmed hsurvives.1
  · intro db hdb
    rw [List.mem_singleton.mp hdb]
    exact readOut_concat_none _ []
end stream

end NaviMisc.RioKarma.Property
