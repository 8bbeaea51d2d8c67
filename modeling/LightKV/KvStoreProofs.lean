import LightKV.KvEngineProofs

/-! # The store behind the engine

    What the engine's memory and its directory stand for: a memtable, a list of
    tables, and the numbered files on disk, each the sorted layer or the bytes
    it holds.  The operations are those of the engine without skip list, file
    formats, paths and iterators.  `Rep e s` says that the engine `e` stands for
    the store `s`; every stage of every operation keeps it, and `get` reads the
    overlay of the store's layers. -/

namespace KvStore

open KvBytes KvDirectory KvEngine KvIterators KvMerging KvSkipList KvTable KvTableIterator KvWal
open KWayMerge Overlay

/-! ## The store -/

/-- A table the engine has a reader for. -/
structure Table where
  number : Nat
  sequence : Nat
  entries : List Entry

/-- A file without entries is one that `Open` rejects. -/
structure Store where
  mem : List Entry
  tables : List Table
  counter : Nat
  maxMemNodes : Nat
  files : List (Nat × List Entry)
  log : Nat
  logs : List (Nat × Bytes)

/-- What a read finds. -/
def Store.view (s : Store) (key : Bytes) : Option TableValue :=
  overlay (s.mem :: s.tables.map Table.entries) key

/-- A log is opened. -/
def openLog (n : Nat) (logs : List (Nat × Bytes)) : List (Nat × Bytes) :=
  match logs.lookup n with
  | none => upsert n [] logs
  | some _ => logs

/-- A record is appended to the current log. -/
def Store.append (s : Store) (r : ParsedLogRecord) : Store :=
  { s with logs := upsert s.log ((s.logs.lookup s.log).getD [] ++ encodeRecord r) s.logs }

/-- The memtable goes to a new table. -/
def Store.writeTable (s : Store) : Store :=
  { s with
    counter := s.counter + 1
    files := upsert (s.counter + 1) (storedLayer s.mem) s.files
    tables := ⟨s.counter + 1, s.counter + 1, storedLayer s.mem⟩ :: s.tables }

/-- The next log. -/
def Store.rotateWal (s : Store) : Store :=
  { s with log := s.counter + 1, logs := openLog (s.counter + 1) s.logs }

/-- `FlushMemTable`. -/
def Store.flush (s : Store) : Store :=
  if s.mem = [] then s
  else { s.writeTable.rotateWal with
    mem := []
    logs := discard s.log s.writeTable.rotateWal.logs }

/-- A write reaches the log and the memtable. -/
def Store.write (s : Store) (r : ParsedLogRecord) (tv : TableValue) : Store :=
  { s.append r with mem := upsert r.key tv s.mem }

/-- `put`. -/
def Store.put (s : Store) (key value : Bytes) : Store :=
  let s := s.write ⟨.PUT, key, value⟩ ⟨.kTypeValue, value⟩
  if s.mem.length ≥ s.maxMemNodes then s.flush else s

/-- `erase`. -/
def Store.erase (s : Store) (key : Bytes) : Store :=
  s.write ⟨.ERASE, key, []⟩ ⟨.kTypeDeletion, []⟩

/-- `++sst_counter_`. -/
def Store.reserve (s : Store) : Store := { s with counter := s.counter + 1 }

/-- The merged file is written. -/
def Store.writeMerged (s : Store) (number : Nat) (m : List Entry) : Store :=
  { s with files := upsert number m s.files }

/-- The tables that were not merged. -/
def Store.remaining (s : Store) (old : List Table) : List Table :=
  s.tables.filter (fun u => !(old.map Table.number).contains u.number)

/-- The merged tables are replaced. -/
def Store.swap (s : Store) (old : List Table) (t : Table) : Store :=
  { s with tables := t :: s.remaining old }

/-- A merged table's file is deleted. -/
def Store.deleteOld (s : Store) (compactNumber number : Nat) : Store :=
  if number = compactNumber then s else { s with files := discard number s.files }

/-- A table's entries, as its iterator gives them. -/
def Table.layer (t : Table) : List IteratorEntry := t.entries.map (toEntry t.sequence)

/-- The entries that a merge keeps. -/
def liveEntries (out : List IteratorEntry) : List Entry :=
  (out.filter (fun e => e.type != .kTypeDeletion)).map (fun e => (e.key, ⟨e.type, e.value⟩))

/-- **`m` is what a compaction of the tables `old` writes.** -/
def Merged (old : List Table) (m : List Entry) : Prop :=
  ∃ out, IsMerge IteratorEntry.key IteratorEntry.sequence (old.map Table.layer) out
    ∧ m = liveEntries out

/-! ## Files -/

theorem lookup_openLog (n k : Nat) (logs : List (Nat × Bytes)) :
    (openLog n logs).lookup k
      = if k = n then some ((logs.lookup n).getD []) else logs.lookup k := by
  cases hn : logs.lookup n with
  | none =>
      simp only [openLog, hn]
      rw [lookup_upsert]
      rfl
  | some b =>
      simp only [openLog, hn]
      by_cases hk : k = n
      · rw [if_pos hk, hk, hn]
        rfl
      · rw [if_neg hk]

theorem keySorted_openLog {n : Nat} {logs : List (Nat × Bytes)} (h : KeySorted logs) :
    KeySorted (openLog n logs) := by
  cases hn : logs.lookup n with
  | none =>
      simp only [openLog, hn]
      exact keySorted_upsert h
  | some b =>
      simp only [openLog, hn]
      exact h

/-- What a file on disk stands for. -/
def FileOf (file : Bytes) (es : List Entry) : Prop :=
  es = [] ∧ (∀ filename sequence, SSTableReader.open filename (some file) sequence = .ok none)
    ∨ ∃ bs, TableFile file es bs

/-- What the file at a table's path stands for, if there is one. -/
def FileRel : Option Bytes → Option (List Entry) → Prop
  | none, none => True
  | some file, some es => FileOf file es
  | _, _ => False

/-- **A directory stands for numbered tables and logs.** -/
structure DirRep (dir : Directory) (files : List (Nat × List Entry)) (logs : List (Nat × Bytes)) :
    Prop where
  sorted : KeySorted dir
  names : ∀ f ∈ dir, (∃ n, f.1 = getSstPath n) ∨ ∃ n, f.1 = getWalPath n
  tableAt : ∀ n, FileRel (dir.lookup (getSstPath n)) (files.lookup n)
  filesSorted : KeySorted files
  logAt : ∀ n, dir.lookup (getWalPath n) = logs.lookup n
  logsSorted : KeySorted logs

/-- A file stands at a path exactly when a table does. -/
theorem fileRel_isSome {file : Option Bytes} {es : Option (List Entry)} (h : FileRel file es) :
    file.isSome = es.isSome := by
  cases file <;> cases es
  · rfl
  · exact h.elim
  · exact h.elim
  · rfl

theorem dirRep_nil : DirRep [] [] [] where
  sorted := keySorted_nil
  names := by simp
  tableAt _ := trivial
  filesSorted := keySorted_nil
  logAt _ := rfl
  logsSorted := keySorted_nil

variable {dir : Directory} {files : List (Nat × List Entry)} {logs : List (Nat × Bytes)}

/-- A table file is written. -/
theorem DirRep.writeFile (h : DirRep dir files logs) {file : Bytes} {es : List Entry}
    (hf : FileOf file es) (n : Nat) :
    DirRep (upsert (getSstPath n) file dir) (upsert n es files) logs where
  sorted := keySorted_upsert h.sorted
  names f hmem := by
    rcases mem_upsert_key hmem with heq | hmem'
    · exact Or.inl ⟨n, congrArg Prod.fst heq⟩
    · exact h.names f hmem'
  tableAt k := by
    rw [lookup_upsert, lookup_upsert]
    by_cases hk : k = n
    · rw [if_pos (congrArg getSstPath hk), if_pos hk]
      exact hf
    · rw [if_neg (fun hc => hk (getSstPath_injective hc)), if_neg hk]
      exact h.tableAt k
  filesSorted := keySorted_upsert h.filesSorted
  logAt k := by
    rw [lookup_upsert, if_neg (fun hc => getSstPath_ne_getWalPath n k hc.symm)]
    exact h.logAt k
  logsSorted := h.logsSorted

/-- A table file is removed. -/
theorem DirRep.removeFile (h : DirRep dir files logs) (n : Nat) :
    DirRep (remove dir (getSstPath n)) (discard n files) logs where
  sorted := keySorted_discard h.sorted _
  names f hmem := h.names f (mem_discard hmem)
  tableAt k := by
    rw [remove, lookup_discard, lookup_discard]
    by_cases hk : k = n
    · rw [if_pos (congrArg getSstPath hk), if_pos hk]
      trivial
    · rw [if_neg (fun hc => hk (getSstPath_injective hc)), if_neg hk]
      exact h.tableAt k
  filesSorted := keySorted_discard h.filesSorted n
  logAt k := by
    rw [remove, lookup_discard, if_neg (fun hc => getSstPath_ne_getWalPath n k hc.symm)]
    exact h.logAt k
  logsSorted := h.logsSorted

/-- A log is written. -/
theorem DirRep.writeLog (h : DirRep dir files logs) (n : Nat) (log : Bytes) :
    DirRep (upsert (getWalPath n) log dir) files (upsert n log logs) where
  sorted := keySorted_upsert h.sorted
  names f hmem := by
    rcases mem_upsert_key hmem with heq | hmem'
    · exact Or.inr ⟨n, congrArg Prod.fst heq⟩
    · exact h.names f hmem'
  tableAt k := by
    rw [lookup_upsert, if_neg (getSstPath_ne_getWalPath k n)]
    exact h.tableAt k
  filesSorted := h.filesSorted
  logAt k := by
    rw [lookup_upsert, lookup_upsert]
    by_cases hk : k = n
    · rw [if_pos (congrArg getWalPath hk), if_pos hk]
    · rw [if_neg (fun hc => hk (getWalPath_injective hc)), if_neg hk]
      exact h.logAt k
  logsSorted := keySorted_upsert h.logsSorted

/-- A log is removed. -/
theorem DirRep.removeLog (h : DirRep dir files logs) (n : Nat) :
    DirRep (removeWalFile dir (getWalPath n)) files (discard n logs) where
  sorted := keySorted_discard h.sorted _
  names f hmem := h.names f (mem_discard hmem)
  tableAt k := by
    rw [removeWalFile, remove, lookup_discard, if_neg (getSstPath_ne_getWalPath k n)]
    exact h.tableAt k
  filesSorted := h.filesSorted
  logAt k := by
    rw [removeWalFile, remove, lookup_discard, lookup_discard]
    by_cases hk : k = n
    · rw [if_pos (congrArg getWalPath hk), if_pos hk]
    · rw [if_neg (fun hc => hk (getWalPath_injective hc)), if_neg hk]
      exact h.logAt k
  logsSorted := keySorted_discard h.logsSorted n

/-- A log is opened. -/
theorem DirRep.openLog (h : DirRep dir files logs) (n : Nat) :
    DirRep (WalLogger.open dir (getWalPath n)).1 files (openLog n logs) := by
  have hn := h.logAt n
  cases hl : logs.lookup n with
  | none =>
      rw [hl] at hn
      simp only [WalLogger.open, hn, KvStore.openLog, hl]
      exact h.writeLog n []
  | some b =>
      rw [hl] at hn
      simp only [WalLogger.open, hn, KvStore.openLog, hl]
      exact h

/-- Opening a file for what it stands for. -/
theorem open_fileOf {file : Bytes} {es : List Entry} (h : FileOf file es) (filename : Bytes)
    (sequence : Nat) :
    es = [] ∧ SSTableReader.open filename (some file) sequence = .ok none
      ∨ es ≠ [] ∧ ∃ r bs, SSTableReader.open filename (some file) sequence = .ok (some r)
        ∧ r.filename = filename ∧ r.sequence = sequence ∧ ReadsTable r es bs := by
  rcases h with ⟨hes, hopen⟩ | ⟨bs, htab⟩
  · exact Or.inl ⟨hes, hopen filename sequence⟩
  · exact Or.inr ⟨htab.some, _, bs, open_tableFile htab filename sequence, rfl, rfl, htab, rfl,
      htab.le_wholeReads.1⟩

/-- **Building a table** leaves a file for the layer as it is kept. -/
theorem buildTable_spec {l : List Entry} (hl : ∀ kv ∈ l, Storable kv) (hs : KeySorted l) :
    Runs (buildTable l) (fun file => FileOf file (storedLayer l)) := by
  rcases build_tableFile blockSize hl hs with herr | ⟨b, ok, hrun, hfile⟩
  · simp only [buildTable, herr, error_bind]
    rfl
  · simp only [buildTable, hrun, ok_bind]
    rcases hfile with ⟨hnil, hempty⟩ | ⟨bs, htab⟩
    · refine Or.inl ⟨by rw [hnil]; rfl, ?_⟩
      intro filename sequence
      rw [hempty]
      exact open_nil filename sequence
    · exact Or.inr ⟨bs, htab⟩

/-- **It fails only of a file of `2 ^ 62` bytes or more.** -/
theorem buildTable_error_iff {l : List Entry} (hl : ∀ kv ∈ l, kv.1.length < 2 ^ 32) {f : Fault} :
    buildTable l = .error f
      ↔ f = .fileTooLarge ∧ l ≠ [] ∧ 2 ^ 62 ≤ (fileOf (blocksOf blockSize l)).length := by
  by_cases hne : l = []
  · subst hne
    constructor
    · intro h
      cases h
    · rintro ⟨-, hne, -⟩
      exact absurd rfl hne
  · have hfin := finish_addAll blockSize hl hne
    split at hfin
    · rename_i hlen
      obtain ⟨b, hrun, -⟩ := hfin
      simp only [buildTable, hrun, ok_bind]
      constructor
      · intro h
        cases h
      · rintro ⟨-, -, hlarge⟩
        exact absurd hlen (Nat.not_lt.mpr hlarge)
    · rename_i hlen
      simp only [buildTable, hfin, error_bind]
      constructor
      · intro h
        exact ⟨(Except.error.inj h).symm, hne, Nat.le_of_not_lt hlen⟩
      · rintro ⟨rfl, -, -⟩
        rfl

/-! ## What an engine stands for -/

/-- A reader of a table. -/
def ReaderOf (r : SSTableReader) (t : Table) : Prop :=
  r.filename = getSstPath t.number ∧ r.sequence = t.sequence ∧ ∃ bs, ReadsTable r t.entries bs

/-- **The engine `e` stands for the store `s`.** -/
structure Rep (e : KVEngine) (s : Store) : Prop where
  mem : Models e.skiplist s.mem
  storable : ∀ kv ∈ s.mem, Storable kv
  tables : List.Forall₂ ReaderOf e.sstables s.tables
  counter : e.sstCounter = s.counter
  maxMemNodes : e.maxMemNodes = s.maxMemNodes
  dir : DirRep e.dir s.files s.logs
  path : e.currentWalPath = getWalPath s.log
  wal : e.wal = ⟨getWalPath s.log, true⟩
  logExists : (s.logs.lookup s.log).isSome
  logLe : s.log ≤ s.counter + 1

variable {e : KVEngine} {s : Store}

/-- Appending to the log. -/
theorem Rep.append (h : Rep e s) (op : OperationType) (key value : Bytes) :
    ∃ dir, e.wal.append e.dir op key value = (dir, true)
      ∧ DirRep dir s.files (s.append ⟨op, key, value⟩).logs := by
  obtain ⟨log, hlog⟩ := Option.isSome_iff_exists.mp h.logExists
  have hfile : e.dir.lookup e.wal.path = some log := by
    rw [h.wal]
    exact (h.dir.logAt s.log).trans hlog
  have hopen : e.wal.isOpen = true := by rw [h.wal]
  refine ⟨_, lookup_append hopen hfile op key value, ?_⟩
  simp only [Store.append, hlog, Option.getD_some, h.wal]
  exact h.dir.writeLog s.log _

/-- A write of any key reaches the memtable. -/
theorem write_of_models {e : KVEngine} {l : List Entry} (h : Models e.skiplist l)
    (op : OperationType) (key value : Bytes) (tv : TableValue) :
    ∃ e', e.write op key value tv = .ok e' ∧ Models e'.skiplist (upsert key tv l)
      ∧ e'.sstables = e.sstables ∧ e'.maxMemNodes = e.maxMemNodes := by
  obtain ⟨skiplist, hput, hmem, -⟩ := models_put h key tv
  refine ⟨{ e with dir := (e.wal.append e.dir op key value).1, skiplist := skiplist }, ?_, hmem,
    rfl, rfl⟩
  simp only [KVEngine.write, hput, ok_bind]
  rfl

/-- A write reaches the log and the memtable. -/
theorem Rep.write (h : Rep e s) (op : OperationType) {key : Bytes} (value : Bytes)
    (tv : TableValue) (hk : key.length < 2 ^ 32)
    (ht : tv.type = .kTypeDeletion ∨ tv.type = .kTypeValue) :
    ∃ e', e.write op key value tv = .ok e' ∧ Rep e' (s.write ⟨op, key, value⟩ tv) := by
  obtain ⟨dir, happ, hdir⟩ := h.append op key value
  obtain ⟨skiplist, hput, hmem, -⟩ := models_put h.mem key tv
  refine ⟨{ e with dir := dir, skiplist := skiplist }, ?_, ?_⟩
  · simp only [KVEngine.write, happ, hput, ok_bind]
    rfl
  exact
    { mem := hmem
      storable := by
        intro kv hkv
        rcases mem_upsert_key hkv with heq | hkv'
        · rw [heq]
          exact ⟨hk, ht⟩
        · exact h.storable kv hkv'
      tables := h.tables
      counter := h.counter
      maxMemNodes := h.maxMemNodes
      dir := hdir
      path := h.path
      wal := h.wal
      logExists := by
        simp [Store.write, Store.append, lookup_upsert]
      logLe := h.logLe }

/-- **Writing the memtable to a table.** -/
theorem Rep.writeTable (h : Rep e s) (hne : s.mem ≠ []) :
    Runs e.writeTable (fun e' => Rep e' s.writeTable ∧ e'.currentWalPath = e.currentWalPath) := by
  have hdump := models_dumpAll h.mem
  simp only [KVEngine.writeTable, hdump, ok_bind]
  refine (buildTable_spec h.storable h.mem.keySorted).bind ?_
  intro file hfile
  have hlook : (upsert (getSstPath (e.sstCounter + 1)) file e.dir).lookup
      (getSstPath (e.sstCounter + 1)) = some file := by
    rw [lookup_upsert, if_pos rfl]
  have hsne : storedLayer s.mem ≠ [] := by
    simpa [storedLayer] using hne
  simp only [hlook]
  rcases open_fileOf hfile (getSstPath (e.sstCounter + 1)) (e.sstCounter + 1) with
    ⟨hnil, -⟩ | ⟨-, r, bs, hopen, hname, hseq, hreads⟩
  · exact absurd hnil hsne
  · simp only [hopen, ok_bind]
    refine ⟨?_, rfl⟩
    exact
      { mem := h.mem
        storable := h.storable
        tables := by
          refine List.Forall₂.cons ⟨?_, ?_, bs, hreads⟩ h.tables
          · rw [hname, h.counter]
          · rw [hseq, h.counter]
        counter := congrArg (· + 1) h.counter
        maxMemNodes := h.maxMemNodes
        dir := by
          rw [h.counter]
          exact h.dir.writeFile hfile _
        path := h.path
        wal := h.wal
        logExists := h.logExists
        logLe := Nat.le_succ_of_le h.logLe }

/-- Going on to the next log. -/
theorem Rep.rotateWal (h : Rep e s) : Rep e.rotateWal s.rotateWal where
  mem := h.mem
  storable := h.storable
  tables := h.tables
  counter := h.counter
  maxMemNodes := h.maxMemNodes
  dir := by
    simp only [KVEngine.rotateWal, h.counter]
    exact h.dir.openLog (s.counter + 1)
  path := by simp only [KVEngine.rotateWal, h.counter, Store.rotateWal]
  wal := by
    simp only [KVEngine.rotateWal, h.counter, Store.rotateWal, WalLogger.open]
  logExists := by simp [Store.rotateWal, lookup_openLog]
  logLe := Nat.le_refl _

/-- **`FlushMemTable`.** -/
theorem Rep.flush (h : Rep e s) : Runs e.flushMemTable (fun e' => Rep e' s.flush) := by
  have hsize := models_size h.mem
  by_cases hmem : s.mem = []
  · have hzero : e.skiplist.size = 0 := by rw [hsize, hmem]; rfl
    simp only [KVEngine.flushMemTable, if_pos hzero, Store.flush, if_pos hmem]
    exact h
  · have hpos : ¬ e.skiplist.size = 0 := by
      rw [hsize]
      simpa using hmem
    simp only [KVEngine.flushMemTable, if_neg hpos, Store.flush, if_neg hmem]
    refine (h.writeTable hmem).bind ?_
    rintro e₁ ⟨h₁, hpath⟩
    have h₂ := h₁.rotateWal
    obtain ⟨skiplist, hclear, hnil, -⟩ := models_clear h₂.mem
    simp only [hclear, ok_bind]
    have hold : e.currentWalPath = getWalPath s.log := h.path
    have hnew : s.log ≠ s.writeTable.rotateWal.log := by
      have := h.logLe
      show s.log ≠ s.counter + 1 + 1
      omega
    exact
      { mem := hnil
        storable := by simp
        tables := h₂.tables
        counter := h₂.counter
        maxMemNodes := h₂.maxMemNodes
        dir := by
          rw [hold]
          exact h₂.dir.removeLog s.log
        path := h₂.path
        wal := h₂.wal
        logExists := by
          show ((discard s.log s.writeTable.rotateWal.logs).lookup
            s.writeTable.rotateWal.log).isSome
          rw [lookup_discard, if_neg (Ne.symm hnew)]
          exact h₂.logExists
        logLe := h₂.logLe }

/-- **`put`.** -/
theorem Rep.put (h : Rep e s) {key : Bytes} (hk : key.length < 2 ^ 32) (value : Bytes) :
    Runs (e.put key value) (fun e' => Rep e' (s.put key value)) := by
  obtain ⟨e', hrun, h'⟩ := h.write .PUT value ⟨.kTypeValue, value⟩ hk (Or.inr rfl)
  have hsize := models_size h'.mem
  simp only [KVEngine.put, hrun, ok_bind, Store.put]
  by_cases hfull : (s.write ⟨.PUT, key, value⟩ ⟨.kTypeValue, value⟩).mem.length
      ≥ (s.write ⟨.PUT, key, value⟩ ⟨.kTypeValue, value⟩).maxMemNodes
  · rw [if_pos (by rw [hsize, h'.maxMemNodes]; exact hfull), if_pos hfull]
    exact h'.flush
  · rw [if_neg (by rw [hsize, h'.maxMemNodes]; exact hfull), if_neg hfull]
    exact h'

/-- **`erase`.** -/
theorem Rep.erase (h : Rep e s) {key : Bytes} (hk : key.length < 2 ^ 32) :
    ∃ e', e.erase key = .ok e' ∧ Rep e' (s.erase key) :=
  h.write .ERASE [] ⟨.kTypeDeletion, []⟩ hk (Or.inl rfl)

/-- `Get` on a table. -/
theorem get_of_readerOf {r : SSTableReader} {t : Table} (h : ReaderOf r t) (key : Bytes) :
    r.get key = .ok (t.entries.lookup key) := by
  obtain ⟨-, -, bs, hreads⟩ := h
  exact hreads.get key

/-- The search through readers whose `Get` is a lookup. -/
theorem getFromTables_overlay {readers : List SSTableReader} {ts : List Table}
    (h : List.Forall₂ (fun r t => ∀ key, r.get key = .ok (t.entries.lookup key)) readers ts)
    (key : Bytes) : getFromTables key readers = .ok (overlay (ts.map Table.entries) key) := by
  induction h with
  | nil => rfl
  | @cons r t readers ts hr _ ih =>
      simp only [getFromTables, hr, ok_bind, ih, List.map_cons, overlay_cons]
      cases t.entries.lookup key <;> rfl

/-- The search through the tables. -/
theorem getFromTables_spec {readers : List SSTableReader} {ts : List Table}
    (h : List.Forall₂ ReaderOf readers ts) (key : Bytes) :
    getFromTables key readers = .ok (overlay (ts.map Table.entries) key) :=
  getFromTables_overlay (h.imp fun _ _ hr => get_of_readerOf hr) key

/-- **`get` reads the overlay of the memtable and the tables.** -/
theorem Rep.get (h : Rep e s) (key : Bytes) : e.get key = .ok (visible (s.view key)) := by
  have hmem := models_get h.mem key
  simp only [KVEngine.get, hmem, ok_bind, Store.view, overlay_cons]
  cases s.mem.lookup key with
  | some tv => rfl
  | none =>
      simp only [getFromTables_spec h.tables key, ok_bind]
      rfl

end KvStore
