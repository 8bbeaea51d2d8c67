import LightKV.KvNumberingProofs

/-! # Flushes that fail

    `FlushMemTable` ignores what `Finish` returns and goes on when `Open` does:
    whatever became of the new table file, the memtable is cleared and its log is
    removed.  So a flush keeps every readable key exactly when the values of the
    memtable are all found in the tables that are left (`flushWith_keeps_iff`);
    where nothing of the new file can be opened, these are the older tables.  A
    flush that writes its whole file and opens it keeps them
    (`survives_of_complete`). -/

namespace KvFlushFailure

open Execution KvBytes KvDirectory KvEngine KvRecovery KvReopen KvSession KvSkipList KvStore
open KvTable KvWal Overlay
open KvNumbering hiding Event

/-! ## The outcome of building and opening a table -/

/-- What becomes of a new table file. -/
structure BuildOutcome where
  /-- so many bytes of it reach the disk; none when it cannot be created -/
  written : Option Nat
  /-- `Open` gets to read what is there -/
  readable : Bool

/-- The whole file is written and can be read. -/
def BuildOutcome.complete (o : BuildOutcome) (file : Bytes) : Prop :=
  (∃ n, o.written = some n ∧ file.length ≤ n) ∧ o.readable = true

/-- The directory behind the builder. -/
def BuildOutcome.store (o : BuildOutcome) (sstPath file : Bytes) (dir : Directory) : Directory :=
  match o.written with
  | none => dir
  | some n => upsert sstPath (file.take n) dir

/-- What `Open` returns, if it does: a torn file may claim an index for which it
    throws. -/
def BuildOutcome.load (o : BuildOutcome) (sstPath file : Bytes) (dir : Directory)
    (sequence : Nat) : Except Fault (Option SSTableReader) :=
  if o.readable then SSTableReader.open sstPath ((o.store sstPath file dir).lookup sstPath) sequence
  else pure none

/-- The tables that are left: a reader that `Open` returned goes to the front. -/
def left (reader : Option SSTableReader) (older : List SSTableReader) : List SSTableReader :=
  match reader with
  | some reader => reader :: older
  | none => older

/-- Write the memtable to the next table file, with this outcome. -/
def KVEngine.writeTableWith (e : KVEngine) (o : BuildOutcome) : Except Fault KVEngine := do
  let sstCounter := e.sstCounter + 1
  let sstPath := getSstPath sstCounter
  let allKv ← e.skiplist.dumpAll
  let file ← buildTable allKv
  let reader ← o.load sstPath file e.dir sstCounter
  pure { e with
    sstCounter := sstCounter
    dir := o.store sstPath file e.dir
    sstables := left reader e.sstables }

/-- `FlushMemTable`, with this outcome. -/
def KVEngine.flushWith (e : KVEngine) (o : BuildOutcome) : Except Fault KVEngine :=
  if e.skiplist.size = 0 then pure e
  else do
    let oldWalPath := e.currentWalPath
    let e ← KVEngine.writeTableWith e o
    let e := e.rotateWal
    let skiplist ← e.skiplist.clear
    pure { e with skiplist := skiplist, dir := removeWalFile e.dir oldWalPath }

variable {e e' : KVEngine} {mem : List Entry}

/-- **A flush that writes and opens its file** is `FlushMemTable`. -/
theorem flushWith_complete (hmem : Models e.skiplist mem) {o : BuildOutcome}
    (ho : ∀ file, buildTable mem = .ok file → o.complete file) :
    KVEngine.flushWith e o = e.flushMemTable := by
  have hwrite : KVEngine.writeTableWith e o = e.writeTable := by
    simp only [KVEngine.writeTableWith, KVEngine.writeTable, models_dumpAll hmem, ok_bind]
    cases hfile : buildTable mem with
    | error f => rfl
    | ok file =>
        obtain ⟨⟨n, hn, hle⟩, hreadable⟩ := ho file hfile
        simp only [ok_bind, BuildOutcome.load, BuildOutcome.store, hn, hreadable, if_true,
          List.take_of_length_le hle]
        rfl
  rw [KVEngine.flushWith, KVEngine.flushMemTable, hwrite]

/-! ## What is read -/

/-- What a search through these tables finds. -/
def found (tables : List SSTableReader) (key : Bytes) : Except Fault (Option Bytes) := do
  let tv ← getFromTables key tables
  pure (visible tv)

/-- `get` asks the memtable, and then the tables. -/
theorem get_eq (hmem : Models e.skiplist mem) (key : Bytes) :
    e.get key = match mem.lookup key with
      | some tv => .ok (visible (some tv))
      | none => found e.sstables key := by
  rw [KVEngine.get, models_get hmem, ok_bind]
  cases mem.lookup key with
  | some tv => rfl
  | none => rfl

/-- A value that is found is one of a table's. -/
theorem exists_reader_of_found {key value : Bytes} :
    ∀ {tables : List SSTableReader}, found tables key = .ok (some value) →
      ∃ r ∈ tables, ∃ tv, r.get key = .ok (some tv) ∧ visible (some tv) = some value := by
  intro tables
  induction tables with
  | nil =>
      intro h
      cases h
  | cons r tables ih =>
      intro h
      obtain ⟨tv, hsearch, htv⟩ := bind_eq_ok.mp h
      obtain ⟨first, hr, hrest⟩ := bind_eq_ok.mp hsearch
      cases first with
      | some tv' =>
          obtain rfl := Except.ok.inj hrest
          exact ⟨r, List.mem_cons_self, tv', hr, Except.ok.inj htv⟩
      | none =>
          have hfound : found tables key = .ok (some value) := by
            rw [found]
            exact bind_eq_ok.mpr ⟨tv, hrest, htv⟩
          obtain ⟨r', hr', htable⟩ := ih hfound
          exact ⟨r', List.mem_cons_of_mem _ hr', htable⟩

/-- **The record of a value is on disk**: in the file of a loaded table, or in a
    log that the next start replays. -/
def Recorded (e : KVEngine) (key value : Bytes) : Prop :=
  (∃ r ∈ e.sstables, e.dir.lookup r.filename = some r.fd
      ∧ ∃ tv, r.get key = .ok (some tv) ∧ visible (some tv) = some value)
    ∨ ∃ walPath ∈ walNames e.dir,
        ⟨.PUT, key, value⟩ ∈ WalLogger.recover ⟨walPath, false⟩ e.dir

/-- **A flush with this outcome loses nothing**: if it returns, what was read
    before is read with the same value, and recorded. -/
def Keeps (e : KVEngine) (o : BuildOutcome) : Prop :=
  ∀ e', KVEngine.flushWith e o = .ok e' → ∀ key value, e.get key = .ok (some value) →
    e'.get key = .ok (some value) ∧ Recorded e' key value

/-! ## The engines of a run -/

/-- The loaded tables are the files on disk. -/
def OnDisk (e : KVEngine) : Prop := ∀ r ∈ e.sstables, e.dir.lookup r.filename = some r.fd

/-- **An engine as a run leaves it**, with this memtable; failed flushes may have
    been part of the run. -/
structure Loaded (e : KVEngine) (mem : List Entry) : Prop where
  names : SstNamed e.dir
  tables : Below e.sstables (e.sstCounter + 1)
  log : ∃ w, e.currentWalPath = getWalPath w
  wal : e.wal.path = e.currentWalPath
  disk : OnDisk e
  mem : Models e.skiplist mem

/-- The tables of a reader list stay where they are when other files change. -/
theorem OnDisk.of_lookup (h : OnDisk e) (hs : e'.sstables = e.sstables)
    (hd : ∀ r ∈ e.sstables, e'.dir.lookup r.filename = e.dir.lookup r.filename) : OnDisk e' := by
  intro r hr
  rw [hs] at hr
  exact (hd r hr).trans (h r hr)

theorem lookup_upsert_wal (n w : Nat) (file : Bytes) (dir : Directory) :
    (upsert (getWalPath w) file dir).lookup (getSstPath n) = dir.lookup (getSstPath n) := by
  rw [lookup_upsert, if_neg (getSstPath_ne_getWalPath n w)]

theorem lookup_remove_wal (n w : Nat) (dir : Directory) :
    (removeWalFile dir (getWalPath w)).lookup (getSstPath n) = dir.lookup (getSstPath n) := by
  rw [removeWalFile, remove, lookup_discard, if_neg (getSstPath_ne_getWalPath n w)]

theorem lookup_open_wal (n w : Nat) (dir : Directory) :
    (WalLogger.open dir (getWalPath w)).1.lookup (getSstPath n) = dir.lookup (getSstPath n) := by
  rw [WalLogger.open]
  cases dir.lookup (getWalPath w) with
  | none => exact lookup_upsert_wal n w [] dir
  | some file => rfl

theorem lookup_append_wal (w : WalLogger) (n m : Nat) (dir : Directory) (hw : w.path = getWalPath m)
    (op : OperationType) (key value : Bytes) :
    (w.append dir op key value).1.lookup (getSstPath n) = dir.lookup (getSstPath n) := by
  rw [WalLogger.append]
  split
  · rfl
  · cases dir.lookup w.path with
    | none => rfl
    | some file =>
        rw [hw]
        exact lookup_upsert_wal n m _ dir

theorem sstNamed_open {dir : Directory} (h : SstNamed dir) (w : Nat) :
    SstNamed (WalLogger.open dir (getWalPath w)).1 := by
  rw [WalLogger.open]
  cases dir.lookup (getWalPath w) with
  | none => exact h.upsert_wal w []
  | some file => exact h

/-! ## One flush -/

/-- The new table, if there is one, and the older ones are on disk. -/
theorem onDisk_left (h : Loaded e mem) {o : BuildOutcome} {file : Bytes}
    {reader : Option SSTableReader}
    (hload : o.load (getSstPath (e.sstCounter + 1)) file e.dir (e.sstCounter + 1) = .ok reader) :
    Below (left reader e.sstables) (e.sstCounter + 1 + 1) ∧ ∀ r ∈ left reader e.sstables,
      (o.store (getSstPath (e.sstCounter + 1)) file e.dir).lookup r.filename = some r.fd := by
  have hbelow : Below e.sstables (e.sstCounter + 1 + 1) := h.tables.mono (Nat.le_succ _)
  have hold : ∀ r ∈ e.sstables,
      (o.store (getSstPath (e.sstCounter + 1)) file e.dir).lookup r.filename = some r.fd := by
    intro r hr
    obtain ⟨n, hn, hlt⟩ := h.tables r hr
    -- the new file has a number of its own
    have hne : r.filename ≠ getSstPath (e.sstCounter + 1) := by
      intro heq
      have := getSstPath_injective (hn.symm.trans heq)
      omega
    rw [← h.disk r hr, BuildOutcome.store]
    split
    · rfl
    · rw [lookup_upsert, if_neg hne]
  cases reader with
  | none => exact ⟨hbelow, hold⟩
  | some reader =>
      have hnew : reader.filename = getSstPath (e.sstCounter + 1)
          ∧ (o.store (getSstPath (e.sstCounter + 1)) file e.dir).lookup reader.filename
            = some reader.fd := by
        rw [BuildOutcome.load] at hload
        split at hload
        · obtain ⟨hname, -, hfd⟩ := open_eq_some hload
          rw [hname]
          exact ⟨rfl, hfd⟩
        · cases hload
      constructor
      · intro r hr
        rcases List.mem_cons.mp hr with rfl | hr'
        · exact ⟨_, hnew.1, Nat.lt_succ_self _⟩
        · exact hbelow r hr'
      · intro r hr
        rcases List.mem_cons.mp hr with rfl | hr'
        · exact hnew.2
        · exact hold r hr'

/-- **A flush of a memtable** leaves it empty, and its tables are on disk. -/
theorem flushWith_eq_ok (h : Loaded e mem) (hne : mem ≠ []) {o : BuildOutcome} {file : Bytes}
    {reader : Option SSTableReader} (hfile : buildTable mem = .ok file)
    (hload : o.load (getSstPath (e.sstCounter + 1)) file e.dir (e.sstCounter + 1) = .ok reader) :
    ∃ e', KVEngine.flushWith e o = .ok e' ∧ e'.sstables = left reader e.sstables
      ∧ Loaded e' [] := by
  have hsize : ¬ e.skiplist.size = 0 := by
    rw [models_size h.mem]
    exact fun hz => hne (List.length_eq_zero_iff.mp hz)
  obtain ⟨skiplist, hclear, hnil, -⟩ := models_clear h.mem
  obtain ⟨w, hw⟩ := h.log
  obtain ⟨hbelow, hdisk⟩ := onDisk_left h hload
  have hstore : SstNamed (o.store (getSstPath (e.sstCounter + 1)) file e.dir) := by
    rw [BuildOutcome.store]
    split
    · exact h.names
    · exact h.names.upsert_sst _ _
  simp only [KVEngine.flushWith, if_neg hsize, KVEngine.writeTableWith, models_dumpAll h.mem,
    ok_bind, hfile, hload, pure_bind, KVEngine.rotateWal, hclear]
  refine ⟨_, rfl, rfl, (sstNamed_open hstore _).remove _, hbelow, ⟨_, rfl⟩, rfl, ?_, hnil⟩
  intro r hr
  obtain ⟨n, hn, -⟩ := hbelow r hr
  -- neither the next log nor the old one is a table
  show (removeWalFile _ e.currentWalPath).lookup r.filename = some r.fd
  rw [hw, hn, lookup_remove_wal]
  refine (lookup_open_wal n (e.sstCounter + 1 + 1) _).trans ?_
  rw [← hn]
  exact hdisk r hr

/-- A flush that returns has built its table and asked `Open` for it. -/
theorem eq_ok_of_flushWith (h : Loaded e mem) (hne : mem ≠ []) {o : BuildOutcome}
    (hrun : KVEngine.flushWith e o = .ok e') :
    ∃ file reader, buildTable mem = .ok file
      ∧ o.load (getSstPath (e.sstCounter + 1)) file e.dir (e.sstCounter + 1) = .ok reader := by
  have hsize : ¬ e.skiplist.size = 0 := by
    rw [models_size h.mem]
    exact fun hz => hne (List.length_eq_zero_iff.mp hz)
  rw [KVEngine.flushWith, if_neg hsize] at hrun
  obtain ⟨e₁, hwrite, -⟩ := bind_eq_ok.mp hrun
  obtain ⟨l, hdump, hwrite⟩ := bind_eq_ok.mp hwrite
  obtain ⟨file, hfile, hwrite⟩ := bind_eq_ok.mp hwrite
  obtain ⟨reader, hload, -⟩ := bind_eq_ok.mp hwrite
  obtain rfl := Except.ok.inj ((models_dumpAll h.mem).symm.trans hdump)
  exact ⟨file, reader, hfile, hload⟩

/-- **A flush, whatever its outcome**, leaves an engine as a run leaves it. -/
theorem Loaded.flushWith (h : Loaded e mem) {o : BuildOutcome}
    (hrun : KVEngine.flushWith e o = .ok e') : Loaded e' [] := by
  by_cases hne : mem = []
  · have hsize : e.skiplist.size = 0 := by rw [models_size h.mem, hne, List.length_nil]
    rw [KVEngine.flushWith, if_pos hsize] at hrun
    obtain rfl := Except.ok.inj hrun
    exact hne ▸ h
  · obtain ⟨file, reader, hfile, hload⟩ := eq_ok_of_flushWith h hne hrun
    obtain ⟨e₁, hrun₁, -, h₁⟩ := flushWith_eq_ok h hne hfile hload
    obtain rfl := Except.ok.inj (hrun₁.symm.trans hrun)
    exact h₁

/-! ## Every run leaves its tables on disk -/

theorem Loaded.write (h : Loaded e mem) {op : OperationType} {key value : Bytes} {tv : TableValue}
    (hrun : e.write op key value tv = .ok e') : Loaded e' (upsert key tv mem) := by
  obtain ⟨w, hw⟩ := h.log
  obtain ⟨skiplist, hput, heq⟩ := bind_eq_ok.mp hrun
  obtain rfl := Except.ok.inj heq
  obtain ⟨skiplist', hput', hmem', -⟩ := models_put h.mem key tv
  obtain rfl := Except.ok.inj (hput'.symm.trans hput)
  refine ⟨?_, h.tables, h.log, h.wal, h.disk.of_lookup rfl ?_, hmem'⟩
  · exact fun name hname => h.names name ((isSome_lookup_append _ _ _ _ _ _).mp hname)
  · intro r hr
    obtain ⟨n, hn, -⟩ := h.tables r hr
    rw [hn]
    exact lookup_append_wal e.wal n w e.dir (h.wal.trans hw) op key value

/-- The flush of a run without failures is one of the outcomes. -/
theorem exists_flushWith_eq (h : Loaded e mem) : ∃ o, KVEngine.flushWith e o = e.flushMemTable := by
  cases hfile : buildTable mem with
  | error f =>
      refine ⟨⟨none, false⟩, flushWith_complete h.mem ?_⟩
      intro file hfile'
      rw [hfile] at hfile'
      cases hfile'
  | ok file =>
      refine ⟨⟨some file.length, true⟩, flushWith_complete h.mem ?_⟩
      intro file' hfile'
      obtain rfl := Except.ok.inj (hfile.symm.trans hfile')
      exact ⟨⟨_, rfl, Nat.le_refl _⟩, rfl⟩

theorem Loaded.flush (h : Loaded e mem) (hrun : e.flushMemTable = .ok e') : Loaded e' [] := by
  obtain ⟨o, ho⟩ := exists_flushWith_eq h
  exact h.flushWith (ho.trans hrun)

/-- **The deletion loop** changes nothing but the directory. -/
theorem exists_deleteAll_eq (compactPath : Bytes) :
    ∀ (paths : List Bytes) (e : KVEngine),
      ∃ dir, e.deleteAll compactPath paths = { e with dir := dir } := by
  intro paths
  induction paths with
  | nil => exact fun e => ⟨e.dir, rfl⟩
  | cons path paths ih =>
      intro e
      have hone : ∃ dir, e.deleteOld compactPath path = { e with dir := dir } := by
        rw [KVEngine.deleteOld]
        split
        · exact ⟨_, rfl⟩
        · exact ⟨e.dir, rfl⟩
      obtain ⟨dir₁, h₁⟩ := hone
      obtain ⟨dir₂, h₂⟩ := ih (e.deleteOld compactPath path)
      refine ⟨dir₂, h₂.trans ?_⟩
      rw [h₁]

/-- The deletion loop removes no table that is loaded. -/
theorem loaded_deleteAll (compactPath : Bytes) :
    ∀ {paths : List Bytes} {e : KVEngine}, Loaded e mem →
      (∀ path ∈ paths, ∀ r ∈ e.sstables, r.filename ≠ path) →
      Loaded (e.deleteAll compactPath paths) mem := by
  intro paths
  induction paths with
  | nil =>
      intro e h _
      exact h
  | cons path paths ih =>
      intro e h hkept
      -- the loop changes nothing but the directory, if that
      have h' : Loaded (e.deleteOld compactPath path) mem
          ∧ (e.deleteOld compactPath path).sstables = e.sstables := by
        rw [KVEngine.deleteOld]
        split
        · refine ⟨⟨h.names.remove _, h.tables, h.log, h.wal, h.disk.of_lookup rfl ?_, h.mem⟩, rfl⟩
          intro r hr
          show (remove e.dir path).lookup r.filename = _
          rw [remove, lookup_discard, if_neg (hkept path List.mem_cons_self r hr)]
        · exact ⟨h, rfl⟩
      refine ih h'.1 ?_
      intro path' hpath'
      rw [h'.2]
      exact hkept path' (List.mem_cons_of_mem _ hpath')

/-- No table of the list has the next number. -/
theorem Loaded.filename_ne (h : Loaded e mem) {r : SSTableReader} (hr : r ∈ e.sstables) :
    r.filename ≠ getSstPath (e.sstCounter + 1) := by
  intro heq
  obtain ⟨n, hn, hlt⟩ := h.tables r hr
  exact absurd (getSstPath_injective (hn.symm.trans heq)) (Nat.ne_of_lt hlt)

/-- Writing the merged file changes no table that is loaded. -/
theorem Loaded.written (h : Loaded e mem) (file : Bytes) :
    Loaded { e.reserve with dir := upsert (getSstPath (e.sstCounter + 1)) file e.dir } mem := by
  refine ⟨h.names.upsert_sst _ _, h.tables.mono (Nat.le_succ _), h.log, h.wal,
    h.disk.of_lookup rfl ?_, h.mem⟩
  intro r hr
  exact (lookup_upsert _ _ _ _).trans (if_neg (h.filename_ne hr))

/-- The swap and the deletions leave the merged table, and delete none that is loaded. -/
theorem Loaded.swapped (h : Loaded e mem) {old : List SSTableReader} {reader : SSTableReader}
    (hname : reader.filename = getSstPath e.sstCounter)
    (hfd : e.dir.lookup (getSstPath e.sstCounter) = some reader.fd)
    (hother : ∀ r ∈ old, r.filename ≠ getSstPath e.sstCounter) :
    Loaded ((e.swap old reader).deleteAll (getSstPath e.sstCounter)
      (old.map SSTableReader.filename)) mem := by
  -- no table that stays has the name of one that is deleted
  have hremaining : ∀ r ∈ e.remaining old, r ∈ e.sstables
      ∧ r.filename ∉ old.map SSTableReader.filename := by
    intro r hr
    obtain ⟨hmem, hnot⟩ := List.mem_filter.mp hr
    exact ⟨hmem, by simpa using hnot⟩
  refine loaded_deleteAll _ ⟨h.names, ?_, h.log, h.wal, ?_, h.mem⟩ ?_
  · intro r hr
    rcases List.mem_cons.mp hr with rfl | hr'
    · exact ⟨_, hname, Nat.lt_succ_self _⟩
    · exact h.tables r (hremaining r hr').1
  · intro r hr
    rcases List.mem_cons.mp hr with rfl | hr'
    · rw [hname]
      exact hfd
    · exact h.disk r (hremaining r hr').1
  · intro path hpath q hq
    rcases List.mem_cons.mp hq with rfl | hq'
    · obtain ⟨r, hr, rfl⟩ := List.mem_map.mp hpath
      rw [hname]
      exact (hother r hr).symm
    · rintro rfl
      exact (hremaining q hq').2 hpath

theorem Loaded.compact (h : Loaded e mem) (hrun : e.compact = .ok e') : Loaded e' mem := by
  rw [KVEngine.compact] at hrun
  cases hsnap : e.snapshot with
  | none =>
      rw [hsnap] at hrun
      obtain rfl := Except.ok.inj hrun
      exact h
  | some old =>
      have hold : old = e.sstables := by
        rw [KVEngine.snapshot] at hsnap
        split at hsnap
        · cases hsnap
        · exact (Option.some.inj hsnap).symm
      subst hold
      rw [hsnap] at hrun
      obtain ⟨file, -, hrun⟩ := bind_eq_ok.mp hrun
      obtain ⟨⟨e₁, reader⟩, hwrite, hrun⟩ := bind_eq_ok.mp hrun
      obtain ⟨r₁, hopen, heq⟩ := bind_eq_ok.mp hwrite
      obtain ⟨rfl, rfl⟩ := Prod.mk.inj (Except.ok.inj heq)
      cases r₁ with
      | none =>
          -- an unreadable file: the list stays as it was
          obtain rfl := Except.ok.inj hrun
          exact h.written file
      | some reader =>
          obtain rfl := Except.ok.inj hrun
          obtain ⟨hname, -, hfd⟩ := open_eq_some hopen
          exact (h.written file).swapped hname hfd fun r hr => h.filename_ne hr

theorem loaded_start {dir : Directory} (h : SstNamed dir) {c : Config}
    (hrun : start dir c = .ok e) : ∃ mem, Loaded e mem := by
  have hbelow := below_start h hrun
  obtain ⟨skiplist, sstables, htables, hmem, rfl⟩ := start_eq_ok hrun
  refine ⟨_, sstNamed_open h _, hbelow, ⟨_, rfl⟩, rfl, ?_, hmem⟩
  intro r hr
  obtain ⟨n, hn, -⟩ := hbelow r hr
  rw [← (mem_openTables htables r hr).2, hn]
  exact lookup_open_wal n _ dir

/-- What can happen, failed flushes included. -/
inductive Occasion
  | event (ev : Event)
  /-- a `put` whose flush, if it comes to one, has this outcome -/
  | put (key value : Bytes) (o : BuildOutcome)
  /-- a `force_flush` with this outcome -/
  | forceFlush (o : BuildOutcome)

/-- One occasion. -/
def undergo (e : KVEngine) : Occasion → Except Fault KVEngine
  | .event ev => happen e ev
  | .put key value o => do
      let e ← e.write .PUT key value ⟨.kTypeValue, value⟩
      if e.skiplist.size ≥ e.maxMemNodes then KVEngine.flushWith e o else pure e
  | .forceFlush o => KVEngine.flushWith e o

/-- **Every occasion** leaves an engine that is loaded. -/
theorem undergo_loaded (h : Loaded e mem) (oc : Occasion) (hrun : undergo e oc = .ok e') :
    ∃ mem', Loaded e' mem' := by
  cases oc with
  | forceFlush o => exact ⟨[], h.flushWith hrun⟩
  | put key value o =>
      obtain ⟨e₁, hwrite, hrun⟩ := bind_eq_ok.mp hrun
      have h₁ := h.write hwrite
      split at hrun
      · exact ⟨[], h₁.flushWith hrun⟩
      · obtain rfl := Except.ok.inj hrun
        exact ⟨_, h₁⟩
  | event ev =>
      cases ev with
      | reopen c => exact loaded_start h.names hrun
      | op o =>
          cases o with
          | put key value =>
              obtain ⟨e₁, hwrite, hrun⟩ := bind_eq_ok.mp hrun
              have h₁ := h.write hwrite
              split at hrun
              · exact ⟨[], h₁.flush hrun⟩
              · obtain rfl := Except.ok.inj hrun
                exact ⟨_, h₁⟩
          | erase key => exact ⟨_, h.write hrun⟩
          | forceFlush => exact ⟨[], h.flush hrun⟩
          | compact => exact ⟨mem, h.compact hrun⟩

/-- **Every run** of client operations, restarts and failed flushes leaves an
    engine to which `flushWith_keeps_iff` applies. -/
theorem loaded_run (c : Config) (ocs : List Occasion) :
    Ends (fun _ => True) (start [] c >>= fun e => ocs.foldlM undergo e)
      (fun e => ∃ mem, Loaded e mem) := by
  have hstart : Ends (fun _ => True) (start [] c) (fun e => ∃ mem, Loaded e mem) := by
    cases hrun : start [] c with
    | error f => trivial
    | ok e => exact loaded_start names_nil.tables hrun
  have hstep : ∀ {oc : Occasion} {_ : List Occasion} {e : KVEngine}, (∃ mem, Loaded e mem) →
      True → Ends (fun _ => True) (undergo e oc) (fun e => ∃ mem, Loaded e mem) := by
    rintro oc _ e ⟨mem, h⟩ _
    cases hrun : undergo e oc with
    | error f => trivial
    | ok e' => exact undergo_loaded h oc hrun
  exact hstart.bind fun e he => ends_foldlM (fun _ e => ∃ mem, Loaded e mem) @hstep ocs
    (meets_of_forall (fun _ _ => trivial) ocs e) he

/-! ## What a flush needs -/

/-- The values of a memtable are found in some tables. -/
def Backed (mem : List Entry) (tables : List SSTableReader) : Prop :=
  ∀ kv ∈ mem, kv.2.type ≠ .kTypeDeletion → found tables kv.1 = .ok (some kv.2.value)

/-- **What a flush of a memtable needs**, by what `Open` returned: without a
    table, the older ones have the memtable's values; with one, they are found in
    it or behind it, and it hides no other value. -/
def Survives (mem : List Entry) (older : List SSTableReader) : Option SSTableReader → Prop
  | none => Backed mem older
  | some reader => Backed mem (reader :: older)
      ∧ ∀ key value, mem.lookup key = none → found older key = .ok (some value) →
        found (reader :: older) key = .ok (some value)

/-- The entries of a memtable are its lookups. -/
theorem backed_iff (hsorted : KeySorted mem) (tables : List SSTableReader) :
    Backed mem tables ↔ ∀ key value tv, mem.lookup key = some tv →
      visible (some tv) = some value → found tables key = .ok (some value) := by
  constructor
  · intro hb key value tv hlook hvisible
    simp only [visible] at hvisible
    split at hvisible
    · cases hvisible
    · rename_i htype
      have hkv := hb (key, tv) (mem_of_lookup hlook) htype
      rwa [Option.some.inj hvisible] at hkv
  · intro hb kv hkv htype
    refine hb kv.1 kv.2.value kv.2 ?_ ?_
    · exact (lookup_eq_some_iff hsorted).mpr hkv
    · simp only [visible, if_neg htype]

/-- What an engine reads is in its memtable, or in its tables where the memtable does
    not have the key. -/
theorem found_iff (hmem : Models e.skiplist mem) (tables : List SSTableReader) :
    (∀ key value, e.get key = .ok (some value) → found tables key = .ok (some value))
      ↔ Backed mem tables ∧ ∀ key value, mem.lookup key = none →
        found e.sstables key = .ok (some value) → found tables key = .ok (some value) := by
  rw [backed_iff hmem.keySorted]
  constructor
  · intro hget
    constructor
    · intro key value tv hlook hvisible
      refine hget key value ?_
      rw [get_eq hmem, hlook]
      exact congrArg Except.ok hvisible
    · intro key value hlook hfound
      refine hget key value ?_
      rw [get_eq hmem, hlook]
      exact hfound
  · rintro ⟨hb, holder⟩ key value hget
    rw [get_eq hmem] at hget
    cases hlook : mem.lookup key with
    | some tv =>
        rw [hlook] at hget
        exact hb key value tv hlook (Except.ok.inj hget)
    | none =>
        rw [hlook] at hget
        exact holder key value hlook hget

/-- What a memtable over tables reads is found in the tables that are left. -/
theorem survives_iff (hmem : Models e.skiplist mem) (reader : Option SSTableReader) :
    Survives mem e.sstables reader ↔ ∀ key value, e.get key = .ok (some value) →
      found (left reader e.sstables) key = .ok (some value) := by
  cases reader with
  | none => exact ((found_iff hmem e.sstables).trans (and_iff_left fun _ _ _ hf => hf)).symm
  | some reader => exact (found_iff hmem (reader :: e.sstables)).symm

/-- What is read in a loaded table is recorded. -/
theorem recorded_of_found (hdisk : OnDisk e) {key value : Bytes}
    (h : found e.sstables key = .ok (some value)) : Recorded e key value := by
  obtain ⟨r, hr, htable⟩ := exists_reader_of_found h
  exact Or.inl ⟨r, hr, hdisk r hr, htable⟩

/-- **A flush that writes its whole file and opens it** keeps every value that
    fits its length field, where reads return the bytes they ask for. -/
theorem survives_of_complete (hmem : Models e.skiplist mem) (hne : mem ≠ [])
    (hfits : ∀ kv ∈ mem, Fits kv) {o : BuildOutcome} {file : Bytes}
    {reader : Option SSTableReader} (hfile : buildTable mem = .ok file) (ho : o.complete file)
    (hload : o.load (getSstPath (e.sstCounter + 1)) file e.dir (e.sstCounter + 1) = .ok reader) :
    Survives mem e.sstables reader := by
  obtain ⟨⟨n, hn, hle⟩, hreadable⟩ := ho
  have hstored := storedLayer_of_fits hfits
  have hof : FileOf file mem := by
    have hstorable : ∀ kv ∈ mem, Storable kv := fun kv hkv =>
      ⟨(hfits kv hkv).1, (hfits kv hkv).2.imp And.left And.left⟩
    have hbuild := buildTable_spec hstorable hmem.keySorted
    rw [hstored] at hbuild
    exact hbuild.of_eq_ok hfile
  rw [BuildOutcome.load, if_pos hreadable, BuildOutcome.store, hn] at hload
  simp only [List.take_of_length_le hle] at hload
  rw [lookup_upsert, if_pos rfl] at hload
  rcases open_fileOf hof (getSstPath (e.sstCounter + 1)) (e.sstCounter + 1) with
    ⟨hnil, -⟩ | ⟨-, r, bs, hopen, hname, hseq, hreads⟩
  · exact absurd hnil hne
  · obtain rfl := Except.ok.inj (hopen.symm.trans hload)
    have hreader : ReaderOf r ⟨e.sstCounter + 1, e.sstCounter + 1, mem⟩ :=
      ⟨hname, hseq, bs, hreads⟩
    have hget : ∀ key, r.get key = .ok (mem.lookup key) := get_of_readerOf hreader
    have hfound : ∀ key, found (r :: e.sstables) key = match mem.lookup key with
        | some tv => .ok (visible (some tv))
        | none => found e.sstables key := by
      intro key
      rw [found, getFromTables, hget, ok_bind]
      cases mem.lookup key with
      | some tv => rfl
      | none => rfl
    constructor
    · intro kv hkv htype
      rw [hfound, (lookup_eq_some_iff hmem.keySorted).mpr hkv]
      simp only [visible, if_neg htype]
    · intro key value hlook hold
      rw [hfound, hlook]
      exact hold

/-- A flush with what `Open` returned: it keeps every value exactly when the
    tables that are left have the memtable's. -/
theorem keeps_iff_survives (h : Loaded e mem) (hne : mem ≠ []) {o : BuildOutcome} {file : Bytes}
    {reader : Option SSTableReader} (hfile : buildTable mem = .ok file)
    (hload : o.load (getSstPath (e.sstCounter + 1)) file e.dir (e.sstCounter + 1) = .ok reader) :
    Keeps e o ↔ Survives mem e.sstables reader := by
  obtain ⟨e₁, hrun₁, htables, h'⟩ := flushWith_eq_ok h hne hfile hload
  rw [survives_iff h.mem reader, ← htables]
  constructor
  · intro hkeeps key value hget
    have hget' := (hkeeps e₁ hrun₁ key value hget).1
    rwa [get_eq h'.mem] at hget'
  · intro hsurvives e' hrun key value hget
    obtain rfl := Except.ok.inj (hrun₁.symm.trans hrun)
    have hfound := hsurvives key value hget
    refine ⟨?_, recorded_of_found h'.disk hfound⟩
    rw [get_eq h'.mem]
    exact hfound

/-- **No table is accepted**: the older tables must have the memtable's values. -/
theorem keeps_iff_of_rejected (h : Loaded e mem) (hne : mem ≠ []) {o : BuildOutcome} {file : Bytes}
    (hfile : buildTable mem = .ok file)
    (hload : o.load (getSstPath (e.sstCounter + 1)) file e.dir (e.sstCounter + 1) = .ok none) :
    Keeps e o ↔ Backed mem e.sstables :=
  keeps_iff_survives h hne hfile hload

/-- **The whole file is written and opened**: nothing is lost. -/
theorem keeps_of_complete (h : Loaded e mem) (hne : mem ≠ []) (hfits : ∀ kv ∈ mem, Fits kv)
    {o : BuildOutcome} (ho : ∀ file, buildTable mem = .ok file → o.complete file) : Keeps e o := by
  intro e' hrun
  obtain ⟨file, reader, hfile, hload⟩ := eq_ok_of_flushWith h hne hrun
  exact (keeps_iff_survives h hne hfile hload).mpr
    (survives_of_complete h.mem hne hfits hfile (ho file hfile) hload) e' hrun

/-- **A torn file is accepted**: the memtable's values must be found in it or behind
    it, and it must hide no other. -/
theorem keeps_iff_of_accepted (h : Loaded e mem) (hne : mem ≠ []) {o : BuildOutcome} {file : Bytes}
    {reader : SSTableReader} (hfile : buildTable mem = .ok file)
    (hload : o.load (getSstPath (e.sstCounter + 1)) file e.dir (e.sstCounter + 1)
      = .ok (some reader)) :
    Keeps e o ↔ Backed mem (reader :: e.sstables)
      ∧ ∀ key value, mem.lookup key = none → found e.sstables key = .ok (some value) →
        found (reader :: e.sstables) key = .ok (some value) :=
  keeps_iff_survives h hne hfile hload

/-- **A flush loses nothing exactly when** there is nothing to flush, or the
    memtable's values are found in the tables that are left. -/
theorem flushWith_keeps_iff (h : Loaded e mem) (o : BuildOutcome) :
    Keeps e o ↔ mem = [] ∨ ∀ file reader, buildTable mem = .ok file →
      o.load (getSstPath (e.sstCounter + 1)) file e.dir (e.sstCounter + 1) = .ok reader →
        Survives mem e.sstables reader := by
  by_cases hne : mem = []
  · -- nothing happens, and every value that is read is a table's
    refine iff_of_true ?_ (Or.inl hne)
    intro e' hrun key value hget
    have hsize : e.skiplist.size = 0 := by rw [models_size h.mem, hne, List.length_nil]
    rw [KVEngine.flushWith, if_pos hsize] at hrun
    obtain rfl := Except.ok.inj hrun
    refine ⟨hget, recorded_of_found h.disk ?_⟩
    rw [get_eq h.mem, hne] at hget
    exact hget
  · rw [or_iff_right hne]
    constructor
    · intro hkeeps file reader hfile hload
      exact (keeps_iff_survives h hne hfile hload).mp hkeeps
    · intro hsurvives e' hrun
      obtain ⟨file, reader, hfile, hload⟩ := eq_ok_of_flushWith h hne hrun
      exact (keeps_iff_survives h hne hfile hload).mpr (hsurvives file reader hfile hload) e' hrun

/-- An engine with one key in its memtable. -/
def oneKey : Except Fault KVEngine :=
  start [] plainConfig >>= fun e => [Occasion.event (.op (.put [107] [1]))].foldlM undergo e

theorem flushWith_keeps_iff_oneKey :
    ∃ e mem, oneKey = .ok e ∧ (Keeps e ⟨none, true⟩ ↔ mem = [] ∨ ∀ file reader,
      buildTable mem = .ok file →
        BuildOutcome.load ⟨none, true⟩ (getSstPath (e.sstCounter + 1)) file e.dir
          (e.sstCounter + 1) = .ok reader → Survives mem e.sstables reader) := by
  have hruns : Yields oneKey (fun _ => True) := by decide +kernel
  have hloaded := loaded_run plainConfig [Occasion.event (.op (.put [107] [1]))]
  cases he : oneKey with
  | error f =>
      rw [he] at hruns
      exact hruns.elim
  | ok e =>
      obtain ⟨mem, h⟩ := hloaded.of_eq_ok he
      exact ⟨e, mem, rfl, flushWith_keeps_iff h ⟨none, true⟩⟩

/-- **The table file cannot be created, and the only value is gone**: from memory,
    and from every table and log on disk. -/
theorem uncreated_table_loses_value :
    Yields oneKey (fun e => e.get [107] = .ok (some [1])
      ∧ Yields (KVEngine.flushWith e ⟨none, true⟩) (fun e' => e'.get [107] = .ok none
        ∧ e'.sstables.length = 0 ∧ ∀ walPath ∈ walNames e'.dir,
          WalLogger.recover ⟨walPath, false⟩ e'.dir = [])) := by
  decide +kernel

end KvFlushFailure
