import LightKV.KvRangeQueryProofs
import LightKV.KvFilesProofs

/-! # How many files a shard has

    Only a full memtable makes a table, and the scheduler merges the tables of a
    shard when there are five of them.  The tables of a shard are therefore
    bounded by the writes since its last turn, which add at most one for 20000 of
    them (`files_bounded`), although erases let the memtable itself grow without
    bound.  A merge always ends in one table, since the newest table holds the value
    whose write made it.  The `.sst` files in a shard's directory are those of its
    tables, and there is one log beside them. -/

namespace KvTableBound

open Execution KvBytes KvCompaction KvDirectory KvEngine KvFiles KvMerging KvRangeQuery KvRecovery
open KvSession KvSharding KvStore KvTable Overlay

/-! ## Stores without leftovers -/

/-- **A store without leftovers**: its files are those of its tables, none of them
    empty, with one log, and the newest table has a value. -/
structure Slim (s : Store) : Prop where
  filed : Filed s
  whole : ∀ n es, s.files.lookup n = some es → es ≠ []
  newest : ∀ t ∈ s.tables.head?, ∃ kv ∈ t.entries, kv.2.type = .kTypeValue
  log : ∃ b, s.logs = [(s.log, b)]
  nodes : s.maxMemNodes = 20000

/-- What has been written towards new tables: 20000 for each table, and what the
    memtable has, up to where the next write fills it. -/
def load (s : Store) : Nat := 20000 * s.tables.length + min s.mem.length 19999

variable {s : Store}

theorem slim_freshStore : Slim freshStore := by
  refine ⟨⟨List.Pairwise.nil, List.Pairwise.nil, ?_, ?_, ?_, Or.inl rfl⟩, ?_, ?_, ⟨[], rfl⟩, rfl⟩
  · intro t ht
    cases ht
  · intro n es hn
    cases hn
  · intro n es hn
    cases hn
  · intro n es hn
    cases hn
  · intro t ht
    cases ht

/-! ## Writes -/

/-- A write goes to the one log. -/
theorem logs_write {b : Bytes} (hb : s.logs = [(s.log, b)]) (r : KvWal.ParsedLogRecord)
    (tv : TableValue) : ∃ b', (s.write r tv).logs = [((s.write r tv).log, b')] := by
  refine ⟨(s.logs.lookup s.log).getD [] ++ KvWal.encodeRecord r, ?_⟩
  show upsert s.log _ s.logs = _
  rw [hb, upsert, if_neg (lt_irrefl _), if_pos rfl]
  rfl

/-- The next log replaces the current one. -/
theorem logs_flush {b : Bytes} (hb : s.logs = [(s.log, b)]) (hlog : s.log ≤ s.counter + 1)
    (hne : s.mem ≠ []) : s.flush.logs = [(s.flush.log, [])] := by
  have hlt : s.log < s.counter + 2 := Nat.lt_succ_of_le hlog
  have hnew : ([(s.log, b)] : List (Nat × Bytes)).lookup (s.counter + 2) = none := by
    rw [List.lookup_cons, beq_false_of_ne hlt.ne']
    rfl
  rw [Store.flush, if_neg hne]
  show Overlay.discard s.log (openLog (s.counter + 2) s.logs) = [(s.counter + 2, [])]
  rw [hb, openLog, hnew]
  simp [upsert, Overlay.discard, hlt, hlt.ne']

theorem Slim.write (h : Slim s) (r : KvWal.ParsedLogRecord) (tv : TableValue) :
    Slim (s.write r tv) := by
  obtain ⟨b, hb⟩ := h.log
  have hf := h.filed
  exact ⟨⟨hf.sorted, hf.descending, hf.tableFile, hf.fileTable, hf.fileLe, hf.top⟩, h.whole,
    h.newest, logs_write hb r tv, h.nodes⟩

theorem length_mem_write (hs : KeySorted s.mem) (r : KvWal.ParsedLogRecord) (tv : TableValue) :
    (s.write r tv).mem.length ≤ s.mem.length + 1 := by
  have hlen := length_upsert (k := r.key) (v := tv) hs
  show (upsert r.key tv s.mem).length ≤ _
  rw [hlen]
  split <;> omega

/-- A value in the memtable is one in its table. -/
theorem value_storedLayer {l : List Entry} {kv : Entry} (hkv : kv ∈ l)
    (htype : kv.2.type = .kTypeValue) : ∃ kv' ∈ storedLayer l, kv'.2.type = .kTypeValue := by
  refine ⟨(kv.1, stored kv.2), List.mem_map_of_mem hkv, ?_⟩
  rw [stored, htype, if_neg (by decide)]

theorem Slim.flush (h : Slim s) (hlog : s.log ≤ s.counter + 1)
    (hvalue : ∃ kv ∈ s.mem, kv.2.type = .kTypeValue) : Slim s.flush := by
  obtain ⟨kv, hkv, htype⟩ := hvalue
  obtain ⟨b, hb⟩ := h.log
  have hne : s.mem ≠ [] := List.ne_nil_of_mem hkv
  have hf := h.filed.flush
  have hlogs := logs_flush hb hlog hne
  rw [Store.flush, if_neg hne] at hf hlogs ⊢
  refine ⟨hf, ?_, ?_, ⟨[], hlogs⟩, h.nodes⟩
  · intro n es hn
    have hn' : (upsert (s.counter + 1) (storedLayer s.mem) s.files).lookup n = some es := hn
    rw [lookup_upsert] at hn'
    split at hn'
    · obtain rfl := Option.some.inj hn'
      simpa [storedLayer] using hne
    · exact h.whole n es hn'
  · intro t ht
    obtain rfl := Option.mem_some.mp ht
    exact value_storedLayer hkv htype

theorem length_flush (hne : s.mem ≠ []) :
    s.flush.tables.length = s.tables.length + 1 ∧ s.flush.mem = [] := by
  rw [Store.flush, if_neg hne]
  exact ⟨rfl, rfl⟩

theorem load_write (hs : KeySorted s.mem) (r : KvWal.ParsedLogRecord) (tv : TableValue) :
    load (s.write r tv) ≤ load s + 1 := by
  have hlen := length_mem_write hs r tv
  have htables : (s.write r tv).tables = s.tables := rfl
  rw [load, load, htables]
  omega

/-- **A write adds at most one**, also when it flushes. -/
theorem load_put (h : Slim s) (hs : KeySorted s.mem) (key value : Bytes) :
    load (s.put key value) ≤ load s + 1 := by
  rw [Store.put]
  split
  · rename_i hfull
    have hlen := length_mem_write hs ⟨.PUT, key, value⟩ ⟨.kTypeValue, value⟩
    have hnodes := (h.write ⟨.PUT, key, value⟩ ⟨.kTypeValue, value⟩).nodes
    have hpos : 0 < (s.write ⟨.PUT, key, value⟩ ⟨.kTypeValue, value⟩).mem.length := by omega
    obtain ⟨htables, hmem⟩ := length_flush (List.ne_nil_of_length_pos hpos)
    have hsame : (s.write ⟨.PUT, key, value⟩ ⟨.kTypeValue, value⟩).tables = s.tables := rfl
    rw [load, load, htables, hmem, hsame, List.length_nil]
    omega
  · exact load_write hs _ _

theorem Slim.put (h : Slim s) (hs : KeySorted s.mem) (hlog : s.log ≤ s.counter + 1)
    (key value : Bytes) : Slim (s.put key value) := by
  have hw := h.write ⟨.PUT, key, value⟩ ⟨.kTypeValue, value⟩
  rw [Store.put]
  split
  · refine hw.flush hlog ⟨(key, ⟨.kTypeValue, value⟩), ?_, rfl⟩
    refine (lookup_eq_some_iff (keySorted_upsert hs)).mp ?_
    rw [lookup_upsert, if_pos rfl]
  · exact hw

/-! ## Compactions -/

/-- **A merge of these tables is not empty**: the value in the newest table is a
    newest version. -/
theorem Slim.merged_ne_nil (h : Slim s) (ht : Tidy s) (hg : ∀ t ∈ s.tables, GoodTable t)
    (hlen : 1 < s.tables.length) {m : List Entry} (hm : Merged s.tables m) : m ≠ [] := by
  have hsorted : ∀ t ∈ s.tables, KeySorted t.entries := fun t htm => (hg t htm).1
  have hordered := ht.ordered
  cases htables : s.tables with
  | nil =>
      rw [htables] at hlen
      cases hlen
  | cons t rest =>
      rw [htables] at hm hsorted hordered
      exact KvCompaction.merged_ne_nil hm hsorted hordered (h.newest t (by rw [htables]; rfl))

theorem nodes_deleteAll (number : Nat) (ns : List Nat) :
    ∀ (s : Store), (Store.deleteAll s number ns).maxMemNodes = s.maxMemNodes := by
  induction ns with
  | nil => exact fun _ => rfl
  | cons n ns ih =>
      intro s
      refine (ih (s.deleteOld number n)).trans ?_
      rw [Store.deleteOld]
      split <;> rfl

theorem Slim.compacted (h : Slim s) {m : List Entry} (hne : m ≠ [])
    (hvalues : ∀ kv ∈ m, kv.2.type = .kTypeValue) : Slim (Store.compacted s m) := by
  obtain ⟨hlog, hlogs⟩ := logs_compacted s m
  have htables := tables_compacted s m
  rw [if_neg hne] at htables
  refine ⟨h.filed.compacted m, ?_, ?_, ?_, ?_⟩
  · -- the files of the old tables are gone, and there were no others
    intro n es hn
    rw [Store.compacted, if_neg hne, lookup_deleteAll] at hn
    split at hn
    · cases hn
    · have hn' : (upsert (s.counter + 1) m s.files).lookup n = some es := hn
      rw [lookup_upsert] at hn'
      split at hn'
      · exact Option.some.inj hn' ▸ hne
      · exact h.whole n es hn'
  · intro t ht
    rw [htables] at ht
    obtain rfl := Option.mem_some.mp ht
    obtain ⟨kv, hkv⟩ := List.exists_mem_of_ne_nil m hne
    exact ⟨kv, hkv, hvalues kv hkv⟩
  · rw [hlog, hlogs]
    exact h.log
  · rw [Store.compacted, if_neg hne, nodes_deleteAll]
    exact h.nodes

/-- **A compaction** leaves one table at most. -/
theorem Slim.compact (h : Slim s) (ht : Tidy s) (hg : ∀ t ∈ s.tables, GoodTable t) {s' : Store}
    (hstep : Step s .compact s') : Slim s' ∧ s'.tables.length ≤ 1 := by
  cases hstep with
  | compactNone hle => exact ⟨h, hle⟩
  | @compact hlt m hm =>
      have hne := h.merged_ne_nil ht hg hlt hm
      refine ⟨h.compacted hne (values_of_merged hm hg), ?_⟩
      rw [tables_compacted, if_neg hne]
      exact le_rfl

/-! ## The directory -/

/-- **The directory of a store** whose files are those of its tables, with one log. -/
theorem names_of_files {e : KVEngine} (hrep : Rep e s)
    (hnodup : (s.tables.map Table.number).Nodup)
    (hfiles : ∀ n, (s.files.lookup n).isSome ↔ ∃ t ∈ s.tables, t.number = n)
    (hlog : ∃ b, s.logs = [(s.log, b)]) :
    (sstNames e.dir).Perm (e.sstables.map SSTableReader.filename)
      ∧ walNames e.dir = [e.currentWalPath] := by
  obtain ⟨ns, hns, hperm, -⟩ := sstNames_spec hrep.dir
  obtain ⟨ms, hms, hperm', -⟩ := walNames_spec hrep.dir
  constructor
  · have hfilenames : e.sstables.map SSTableReader.filename
        = (s.tables.map Table.number).map getSstPath := by
      rw [List.map_map, ← List.forall₂_eq_eq_eq, List.forall₂_map_left_iff,
        List.forall₂_map_right_iff]
      exact hrep.tables.imp (fun _ _ hr => hr.1)
    have hnumbers : (s.files.map Prod.fst).Perm (s.tables.map Table.number) := by
      refine (List.perm_ext_iff_of_nodup ?_ hnodup).mpr ?_
      · exact hrep.dir.filesSorted.map Prod.fst (fun _ _ hab => ne_of_lt hab)
      · intro n
        rw [mem_map_fst_iff, List.mem_map]
        exact hfiles n
    rw [hns, hfilenames]
    exact (hperm.trans hnumbers).map getSstPath
  · obtain ⟨b, hb⟩ := hlog
    rw [hb] at hperm'
    rw [hms, List.perm_singleton.mp hperm', hrep.path]
    rfl

/-- **The files of a store without leftovers.** -/
theorem Slim.files {e : KVEngine} (h : Slim s) (hrep : Rep e s) :
    (sstNames e.dir).Perm (e.sstables.map SSTableReader.filename)
      ∧ walNames e.dir = [e.currentWalPath] := by
  have hf := h.filed
  refine names_of_files hrep
    (hf.descending.map Table.number (fun _ _ hab => (ne_of_lt hab).symm)) ?_ h.log
  intro n
  constructor
  · intro hn
    obtain ⟨es, hes⟩ := Option.isSome_iff_exists.mp hn
    exact hf.fileTable n es hes (h.whole n es hes)
  · rintro ⟨t, ht, rfl⟩
    rw [(hf.tableFile t ht).1]
    rfl

/-! ## Runs -/

/-- The writes since the last compaction of all shards or turn of the scheduler. -/
def countWrite (writes : Nat) : ShardOp → Nat
  | .put _ _ => writes + 1
  | .delete _ => writes + 1
  | .compactAll => 0
  | .backgroundCompact => 0

def writesSince (os : List ShardOp) : Nat := os.foldl countWrite 0

/-- The stores of the shards, that many writes after their compaction. -/
def Within (writes : Nat) (ss : List Store) : Prop :=
  ∀ s ∈ ss, Slim s ∧ load s ≤ 99999 + writes

/-- Four tables, and a memtable that the next write fills. -/
theorem load_le {s : Store} (hlen : s.tables.length ≤ 4) : load s ≤ 99999 := by
  rw [load]
  omega

/-- **Every operation keeps the bound.** -/
theorem within_moves {e : ShardedKVEngine} {ss ss' : List Store} {o : ShardOp} {writes : Nat}
    (hrep : ShardsRep e ss) (h : Within writes ss) (hmoves : Moves e ss o ss') :
    Within (countWrite writes o) ss' := by
  -- a write changes one shard, and the others have a write more to go
  have hset {i : Nat} {s' : Store} (hs' : Slim s' ∧ load s' ≤ 99999 + (writes + 1)) :
      Within (writes + 1) (ss.set i s') := by
    intro u hu
    rcases List.mem_or_eq_of_mem_set hu with hu' | rfl
    · obtain ⟨hslim, hload⟩ := h u hu'
      exact ⟨hslim, Nat.le_succ_of_le hload⟩
    · exact hs'
  have hcompact {s s' : Store} (hs : s ∈ ss) (hstep : Step s .compact s') :
      Slim s' ∧ load s' ≤ 99999 := by
    obtain ⟨shard, -, hshard⟩ := forall₂_mem_right hrep.reps hs
    obtain ⟨hslim, hlen⟩ := (h s hs).1.compact (hrep.tidy s hs) (good_of_rep hshard) hstep
    exact ⟨hslim, load_le (hlen.trans (by decide))⟩
  cases hmoves with
  | @put key i s value hi hs =>
      obtain ⟨shard, -, hshard⟩ := forall₂_exists hrep.reps hs
      obtain ⟨hslim, hload⟩ := h s (List.mem_of_getElem? hs)
      have hsorted := hshard.mem.keySorted
      exact hset ⟨hslim.put hsorted hshard.logLe key value,
        (load_put hslim hsorted key value).trans (Nat.succ_le_succ hload)⟩
  | @delete key i s hi hs =>
      obtain ⟨shard, -, hshard⟩ := forall₂_exists hrep.reps hs
      obtain ⟨hslim, hload⟩ := h s (List.mem_of_getElem? hs)
      exact hset ⟨hslim.write _ _,
        (load_write hshard.mem.keySorted _ _).trans (Nat.succ_le_succ hload)⟩
  | compactAll hsteps =>
      intro s' hs'
      obtain ⟨s, hs, hstep⟩ := forall₂_mem_right hsteps hs'
      exact hcompact hs hstep
  | backgroundCompact hsteps =>
      intro s' hs'
      obtain ⟨s, hs, ⟨hfew, rfl⟩ | hstep⟩ := forall₂_mem_right hsteps hs'
      · exact ⟨(h s' hs).1, load_le (Nat.le_of_lt_succ hfew)⟩
      · exact hcompact hs hstep

/-- **The files of every shard**, after any run: at most four tables, and one more for
    every 20000 writes, whole or begun, since the last compaction of all shards or turn
    of the scheduler; a file for each table, and one log. -/
theorem files_bounded {n : UInt64} (hn : 2 ≤ n) (draws : Nat → Nat → Bool) {os : List ShardOp}
    (hos : ∀ o ∈ os, o.KeyFits) :
    Runs (fresh n draws >>= fun e => os.foldlM perform e) (fun e => ∀ shard ∈ e.shards,
      shard.sstables.length ≤ 4 + (19999 + writesSince os) / 20000
        ∧ (sstNames shard.dir).Perm (shard.sstables.map SSTableReader.filename)
        ∧ walNames shard.dir = [shard.currentWalPath]) := by
  have hfresh : Within 0 ((List.range n.toNat).map (fun _ => freshStore)) := by
    intro s hs
    obtain ⟨-, -, rfl⟩ := List.mem_map.mp hs
    exact ⟨slim_freshStore, Nat.zero_le _⟩
  refine (run_keeps Within countWrite (fun hrep h hmoves => within_moves hrep h hmoves) hn draws 0
    hfresh hos).mono ?_
  rintro e ⟨ss, hrep, h⟩ shard hshard
  obtain ⟨s, hs, hr⟩ := forall₂_mem_left hrep.reps hshard
  obtain ⟨hslim, hload⟩ := h s hs
  refine ⟨?_, hslim.files hr⟩
  have hload' : load s ≤ 99999 + writesSince os := hload
  rw [load] at hload'
  rw [hr.tables.length_eq]
  omega

theorem files_bounded_fiveTables :
    Runs (fresh 2 (fun _ _ => false) >>= fun e => fiveTables.foldlM perform e)
      (fun e => ∀ shard ∈ e.shards,
        shard.sstables.length ≤ 4 + (19999 + writesSince fiveTables) / 20000
          ∧ (sstNames shard.dir).Perm (shard.sstables.map SSTableReader.filename)
          ∧ walNames shard.dir = [shard.currentWalPath]) :=
  files_bounded (by decide) _ keyFits_fiveTables

end KvTableBound
