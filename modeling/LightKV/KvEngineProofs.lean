import LightKV.KvWalProofs
import LightKV.KvTableIteratorProofs

/-! # The engine

    `KVEngine` over its data directory: the memtable, the current log, and the
    readers of the tables on disk, newest first.  `FlushMemTable` and `Compact`
    are written in the stages their file effects come in, so that a run can be
    cut off, or another client can come in, between two of them. -/

namespace KvEngine

open KvBytes KvDirectory KvIterators KvMerging KvSkipList KvTable KvTableIterator KvWal Overlay

/-- A null `SSTableReader` never reaches a list; the memtable's head holds no data. -/
instance : Inhabited TableValue := ⟨{}⟩

/-- `KVEngine`, with the directory at `db_path_`. -/
structure KVEngine where
  skiplist : SkipList Bytes TableValue
  currentWalPath : Bytes
  wal : WalLogger
  sstables : List SSTableReader
  maxMemNodes : Nat
  sstCounter : Nat
  dir : Directory

/-- The engine where a `pread` moves at most `maxRead` bytes. -/
def KVEngine.upTo (maxRead : Nat) (e : KVEngine) : KVEngine :=
  { e with sstables := e.sstables.map (SSTableReader.upTo maxRead) }

/-! ## Building tables -/

/-- The default of `SSTableBuilder`'s `block_size`. -/
def blockSize : Nat := 4096

/-- A table file of some entries, as `Finish` leaves it. -/
def buildTable (l : List Entry) : Except Fault Bytes := do
  let (builder, _) ← ((SSTableBuilder.new blockSize).addAll l).finish
  pure builder.file

/-! ## `FlushMemTable` -/

/-- Write the memtable to the next table file and put its reader first. -/
def KVEngine.writeTable (e : KVEngine) : Except Fault KVEngine := do
  let sstCounter := e.sstCounter + 1
  let sstPath := getSstPath sstCounter
  let allKv ← e.skiplist.dumpAll
  let file ← buildTable allKv
  let dir := upsert sstPath file e.dir
  let reader ← SSTableReader.open sstPath (dir.lookup sstPath) sstCounter
  let sstables := match reader with
    | some reader => reader :: e.sstables
    | none => e.sstables
  pure { e with sstCounter := sstCounter, dir := dir, sstables := sstables }

/-- Go on to the next log. -/
def KVEngine.rotateWal (e : KVEngine) : KVEngine :=
  let currentWalPath := getWalPath (e.sstCounter + 1)
  let (dir, wal) := WalLogger.open e.dir currentWalPath
  { e with currentWalPath := currentWalPath, wal := wal, dir := dir }

/-- `FlushMemTable`. -/
def KVEngine.flushMemTable (e : KVEngine) : Except Fault KVEngine :=
  if e.skiplist.size = 0 then pure e
  else do
    let oldWalPath := e.currentWalPath
    let e ← e.writeTable
    let e := e.rotateWal
    let skiplist ← e.skiplist.clear
    pure { e with skiplist := skiplist, dir := removeWalFile e.dir oldWalPath }

/-! ## The client operations -/

/-- A value that is not a tombstone. -/
def visible : Option TableValue → Option Bytes
  | none => none
  | some tv => if tv.type = .kTypeDeletion then none else some tv.value

/-- The front of `put` and `erase`: append to the log, then insert into the memtable. -/
def KVEngine.write (e : KVEngine) (op : OperationType) (key value : Bytes) (tv : TableValue) :
    Except Fault KVEngine := do
  let (dir, _) := e.wal.append e.dir op key value
  let skiplist ← e.skiplist.put key tv
  pure { e with dir := dir, skiplist := skiplist }

/-- `put`. -/
def KVEngine.put (e : KVEngine) (key value : Bytes) : Except Fault KVEngine := do
  let e ← e.write .PUT key value ⟨.kTypeValue, value⟩
  if e.skiplist.size ≥ e.maxMemNodes then e.flushMemTable else pure e

/-- The loop of `get` over the tables. -/
def getFromTables (key : Bytes) : List SSTableReader → Except Fault (Option TableValue)
  | [] => pure none
  | reader :: readers => do
      let found ← reader.get key
      match found with
      | some tv => pure (some tv)
      | none => getFromTables key readers

/-- `get`: the value when it returns true. -/
def KVEngine.get (e : KVEngine) (key : Bytes) : Except Fault (Option Bytes) := do
  let memVal ← e.skiplist.get key
  match memVal with
  | some tv => pure (visible (some tv))
  | none => do
      let found ← getFromTables key e.sstables
      pure (visible found)

/-- `erase`. -/
def KVEngine.erase (e : KVEngine) (key : Bytes) : Except Fault KVEngine :=
  e.write .ERASE key [] ⟨.kTypeDeletion, []⟩

/-- `force_flush`. -/
def KVEngine.forceFlush (e : KVEngine) : Except Fault KVEngine := e.flushMemTable

/-- `NeedsCompaction`. -/
def KVEngine.needsCompaction (e : KVEngine) (threshold : Nat) : Bool :=
  e.sstables.length ≥ threshold

/-! ## `Compact` -/

/-- Phase 1, under the read lock: the tables to merge. -/
def KVEngine.snapshot (e : KVEngine) : Option (List SSTableReader) :=
  if e.sstables.length ≤ 1 then none else some e.sstables

/-- `++sst_counter_`. -/
def KVEngine.reserve (e : KVEngine) : KVEngine := { e with sstCounter := e.sstCounter + 1 }

/-- One `SSTableIterator` for each table. -/
def tableIterators : List SSTableReader → Except Fault (List EngineIterator)
  | [] => pure []
  | reader :: readers => do
      let it ← SSTableIterator.new reader reader.sequence
      let its ← tableIterators readers
      pure (.sstable it :: its)

/-- The merge loop. -/
def compactLoop : Nat → MergingIterator EngineIterator → Option Bytes → SSTableBuilder →
    Except Fault SSTableBuilder
  | 0, _, _, _ => .error .noProgress
  | fuel + 1, it, lastKey, builder =>
      if KvIterator.valid it then
        let entry := KvIterator.entry it
        if lastKey = some entry.key then do
          let it ← KvIterator.next it
          compactLoop fuel it lastKey builder
        else if entry.type = .kTypeDeletion then do
          let it ← KvIterator.next it
          compactLoop fuel it (some entry.key) builder
        else do
          let builder := builder.add entry.key entry.value entry.type
          let it ← KvIterator.next it
          compactLoop fuel it (some entry.key) builder
      else pure builder

/-- Phase 2, without a lock: merge the tables into one. -/
def mergeTables (old : List SSTableReader) : Except Fault Bytes := do
  let children ← tableIterators old
  let it ← MergingIterator.new children
  let builder ← compactLoop (it.fuel + 1) it none (SSTableBuilder.new blockSize)
  let (builder, _) ← builder.finish
  pure builder.file

/-- The new file, and `Open` on it. -/
def KVEngine.writeMerged (e : KVEngine) (number : Nat) (file : Bytes) :
    Except Fault (KVEngine × Option SSTableReader) := do
  let dir := upsert (getSstPath number) file e.dir
  let reader ← SSTableReader.open (getSstPath number) (dir.lookup (getSstPath number)) 0
  pure ({ e with dir := dir }, reader)

/-- The tables that were not part of the snapshot. -/
def KVEngine.remaining (e : KVEngine) (old : List SSTableReader) : List SSTableReader :=
  let pathsToRemove := old.map SSTableReader.filename
  e.sstables.filter (fun sst => !pathsToRemove.contains sst.filename)

/-- Phase 3, under the write lock: replace the merged tables. -/
def KVEngine.swap (e : KVEngine) (old : List SSTableReader) (reader : SSTableReader) : KVEngine :=
  { e with sstables := reader :: e.remaining old }

/-- Phase 4: one turn of the deletion loop. -/
def KVEngine.deleteOld (e : KVEngine) (compactPath path : Bytes) : KVEngine :=
  if !path.isEmpty && path != compactPath then { e with dir := remove e.dir path } else e

/-- What is left of phase 4. -/
def KVEngine.deleteAll (e : KVEngine) (compactPath : Bytes) (paths : List Bytes) : KVEngine :=
  paths.foldl (fun e path => e.deleteOld compactPath path) e

/-- `Compact`. -/
def KVEngine.compact (e : KVEngine) : Except Fault KVEngine :=
  match e.snapshot with
  | none => pure e
  | some old => do
      let e := e.reserve
      let number := e.sstCounter
      let file ← mergeTables old
      let (e, reader) ← e.writeMerged number file
      match reader with
      | none => pure e
      | some reader =>
          let e := e.swap old reader
          pure (e.deleteAll (getSstPath number) (old.map SSTableReader.filename))

/-! ## `NewIterator` -/

/-- `NewIterator`. -/
def KVEngine.newIterator (e : KVEngine) : Except Fault (MergingIterator EngineIterator) := do
  let mem ← SkipListIterator.new e.skiplist ⊤ []
  let tables ← tableIterators e.sstables
  MergingIterator.new (.skipList mem :: tables)

/-! ## The constructor -/

/-- The first loop of `LoadExistingSSTables`: the largest number in a name. -/
def maxNumber : List Bytes → Nat → Nat
  | [], sstCounter => sstCounter
  | name :: names, sstCounter =>
      match stoull (stem name) with
      | some seq => maxNumber names (max sstCounter seq)
      | none => maxNumber names sstCounter

/-- The second loop of `LoadExistingSSTables`. -/
def openTables (dir : Directory) : List Bytes → Except Fault (List SSTableReader)
  | [] => pure []
  | name :: names => do
      let seq := (stoull (stem name)).getD 0
      let reader ← SSTableReader.open name (dir.lookup name) seq
      let readers ← openTables dir names
      match reader with
      | some reader => pure (reader :: readers)
      | none => pure readers

/-- The tables' names, sorted. -/
def sstNames (dir : Directory) : List Bytes := (dir.map Prod.fst).filter isSstName

/-- The logs' names, sorted. -/
def walNames (dir : Directory) : List Bytes := (dir.map Prod.fst).filter isWalName

/-- Replay one log. -/
def replay : List ParsedLogRecord → SkipList Bytes TableValue →
    Except Fault (SkipList Bytes TableValue)
  | [], skiplist => pure skiplist
  | record :: records, skiplist =>
      if record.op = .PUT then do
        let skiplist ← skiplist.put record.key ⟨.kTypeValue, record.value⟩
        replay records skiplist
      else if record.op = .ERASE then do
        let skiplist ← skiplist.put record.key ⟨.kTypeDeletion, []⟩
        replay records skiplist
      else replay records skiplist

/-- `RecoverAllWals`. -/
def recoverAllWals (dir : Directory) : List Bytes → SkipList Bytes TableValue →
    Except Fault (SkipList Bytes TableValue)
  | [], skiplist => pure skiplist
  | walPath :: walPaths, skiplist => do
      let skiplist ← replay (WalLogger.recover ⟨walPath, false⟩ dir) skiplist
      recoverAllWals dir walPaths skiplist

/-- The constructor, on the directory it finds. -/
def KVEngine.open (dir : Directory) (maxMemNodes maxLevel : Nat) (draws : Nat → Bool) :
    Except Fault KVEngine := do
  let sstCounter := maxNumber (sstNames dir) 0
  let sstables ← openTables dir (sstNames dir).reverse
  let skiplist ← recoverAllWals dir (walNames dir) (SkipList.empty maxLevel draws)
  let currentWalPath := getWalPath (sstCounter + 1)
  let (dir, wal) := WalLogger.open dir currentWalPath
  pure ⟨skiplist, currentWalPath, wal, sstables, maxMemNodes, sstCounter, dir⟩

/-- The destructor: what it leaves on disk. -/
def KVEngine.close (e : KVEngine) : Directory :=
  let _ := e.wal.close
  e.dir

end KvEngine
