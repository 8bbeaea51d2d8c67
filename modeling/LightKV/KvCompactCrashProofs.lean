import LightKV.KvFilesProofs

/-! # Crashes in a compaction

    One call of `Compact`, alone and on an empty memtable, is cut off somewhere
    between its file effects, and the directory is opened again.  While the new
    file is being written the old ones are all there, so the restart reads the
    same unless `Open` takes the torn file for a table.  The old files are
    deleted newest first: a tombstone goes before the value it hides, and a
    restart in between reads the value (`cut_revives_deleted_key`).  The
    restart is right exactly when no key is in that position
    (`restart_after_cut_iff`). -/

namespace KvCompactCrash

open Execution KvBytes KvCompaction KvDirectory KvEngine KvFiles KvRecovery KvSession KvSkipList
open KvStore KvTable KvTableIterator KvWal Overlay

/-! ## A compaction that is cut off -/

/-- Where `Compact` stops. -/
inductive CutPoint
  /-- the first `n` bytes of the new file are on disk -/
  | writing (n : Nat)
  /-- the list is replaced, and the first `d` of the old files are deleted -/
  | deleted (d : Nat)

/-- What `Compact` leaves on disk when it stops there. -/
def interruptCompact (e : KVEngine) (p : CutPoint) : Except Fault Directory :=
  match e.snapshot with
  | none => pure e.dir
  | some old => do
      let e := e.reserve
      let number := e.sstCounter
      let file ← mergeTables old
      match p with
      | .writing n => pure (upsert (getSstPath number) (file.take n) e.dir)
      | .deleted d => do
          let (e, reader) ← e.writeMerged number file
          match reader with
          | none => pure e.dir
          | some reader =>
              let e := e.swap old reader
              pure (e.deleteAll (getSstPath number) ((old.map SSTableReader.filename).take d)).dir

/-- Opened as the newest table, these bytes change no read: `Open` rejects them,
    or `Get` finds nothing in them that `get` does not. -/
def TornHarmless (e : KVEngine) (file : Bytes) : Prop :=
  Runs (SSTableReader.open (getSstPath (e.sstCounter + 1)) (some file) (e.sstCounter + 1))
    (fun reader => ∀ r, reader = some r → ∀ key, r.get key = .ok none
      ∨ ∃ tv, r.get key = .ok (some tv) ∧ e.get key = .ok (visible (some tv)))

/-- **The condition on a compaction that is cut off**, in the state before it: a
    torn file is harmless; and when files are deleted, no key that reads as
    absent has a value in the tables behind the deleted ones, or there is no
    value at all. -/
def CutSafe (e : KVEngine) (p : CutPoint) : Prop :=
  ∀ old file, e.snapshot = some old → mergeTables old = .ok file →
    match p with
    | .writing n => n < file.length → TornHarmless e (file.take n)
    | .deleted d => (∀ key, e.get key = .ok none)
        ∨ ∀ key tv, e.get key = .ok none → getFromTables key (e.sstables.drop d) = .ok (some tv) →
          visible (some tv) = none

/-! ## The state before -/

/-- The tables are in order and on disk, and the only log is empty when the
    memtable is. -/
structure Settled (s : Store) : Prop where
  tidy : Tidy s
  filed : Filed s
  oneLog : ∃ log, s.logs = [(s.log, log)] ∧ (s.mem = [] → log = [])

theorem upsert_ne_nil (key : Bytes) (tv : TableValue) (l : List Entry) : upsert key tv l ≠ [] := by
  intro h
  have := lookup_upsert key key tv l
  rw [h, if_pos rfl] at this
  cases this

theorem settled_write {s : Store} (h : Settled s) (r : ParsedLogRecord) (tv : TableValue) :
    Settled (s.write r tv) := by
  obtain ⟨log, hlogs, -⟩ := h.oneLog
  refine ⟨⟨h.tidy.ordered, h.tidy.below⟩, ⟨h.filed.sorted, h.filed.descending, h.filed.tableFile,
    h.filed.fileTable, h.filed.fileLe, h.filed.top⟩, ?_⟩
  refine ⟨(s.logs.lookup s.log).getD [] ++ encodeRecord r, ?_,
    fun hnil => absurd hnil (upsert_ne_nil _ _ _)⟩
  show upsert s.log _ s.logs = _
  rw [hlogs, upsert, if_neg (Nat.lt_irrefl _), if_pos rfl]
  rfl

theorem settled_flush {s : Store} (h : Settled s) (hle : s.log ≤ s.counter + 1) :
    Settled s.flush := by
  refine ⟨tidy_flush h.tidy, h.filed.flush, ?_⟩
  by_cases hmem : s.mem = []
  · rw [Store.flush, if_pos hmem]
    exact h.oneLog
  · obtain ⟨log, hlogs, -⟩ := h.oneLog
    have hne : s.log ≠ s.counter + 1 + 1 := by omega
    have hlook : s.logs.lookup (s.counter + 1 + 1) = none := by
      rw [hlogs, List.lookup_cons, beq_false_of_ne (Ne.symm hne)]
      rfl
    refine ⟨[], ?_, fun _ => rfl⟩
    rw [Store.flush, if_neg hmem]
    show discard s.log (openLog (s.counter + 1 + 1) s.logs) = [(s.counter + 1 + 1, [])]
    rw [openLog, hlook, hlogs]
    simp only [upsert]
    rw [if_pos (by omega)]
    simp [Overlay.discard, Ne.symm hne]

/-- **Every operation** keeps a store settled. -/
theorem settled_step {s s' : Store} {o : Op} (h : Settled s) (hle : s.log ≤ s.counter + 1)
    (hs : Step s o s') : Settled s' := by
  cases hs with
  | put key value =>
      have hw := settled_write h ⟨.PUT, key, value⟩ ⟨.kTypeValue, value⟩
      rw [Store.put]
      split
      · exact settled_flush hw hle
      · exact hw
  | erase key => exact settled_write h ⟨.ERASE, key, []⟩ ⟨.kTypeDeletion, []⟩
  | forceFlush => exact settled_flush h hle
  | compactNone hlen => exact h
  | @compact hlt m hm =>
      obtain ⟨log, hlogs, hempty⟩ := h.oneLog
      obtain ⟨hl, hls⟩ := logs_compacted s m
      refine ⟨tidy_compacted h.tidy m, h.filed.compacted m, log, ?_, ?_⟩
      · rw [hls, hl, hlogs]
      · rw [mem_compacted]
        exact hempty

theorem settled_fresh (maxMemNodes : Nat) : Settled (opened [] [] [] [] maxMemNodes) where
  tidy := ⟨List.Pairwise.nil, fun _ ht => by cases ht⟩
  filed := ⟨keySorted_nil, List.Pairwise.nil, fun _ ht => (by cases ht), fun _ _ hn => (by cases hn),
    fun _ _ hn => (by cases hn), Or.inl rfl⟩
  oneLog := ⟨[], rfl, fun _ => rfl⟩

/-! ## Restarts -/

/-- **A restart** on tables that are on disk, with an empty log, reads the tables. -/
theorem restart_spec {dir : Directory} {s : Store} {n : Nat} (hdir : DirRep dir s.files s.logs)
    (hf : Filed s) (hlogs : s.logs = [(n, [])]) (hlt : s.counter < 10 ^ 6) (c : Config) :
    ∃ e s', start dir c = .ok e ∧ Rep e s' ∧ s'.mem = []
      ∧ s'.tables.map Table.entries = s.tables.map Table.entries := by
  obtain ⟨ns, ms, e, -, hns, hms, hrun, hrep⟩ :=
    open_spec hdir c.maxMemNodes c.one_le_maxLevel c.draws
  have hns' : ns = s.files.map Prod.fst := by
    refine hns (namesInOrder_of_lt getSstPath_lt hf.sorted ?_)
    intro f hmem
    exact (hf.fileLe f.1 f.2 ((lookup_eq_some_iff hf.sorted).mpr hmem)).trans_lt hlt
  have hms' : ms = s.logs.map Prod.fst := by
    refine hms ?_
    rw [hlogs]
    exact List.pairwise_singleton _ _
  subst hns'
  subst hms'
  refine ⟨e, _, hrun, hrep, ?_, ?_⟩
  · show replayLayer (recovered s.logs (s.logs.map Prod.fst)) [] = []
    rw [hlogs]
    simp [recovered, recoverFile_nil, replayLayer]
  · exact hf.loadTables

/-- The same, as `get` reads it. -/
theorem get_restart {dir : Directory} {s : Store} {n : Nat} (hdir : DirRep dir s.files s.logs)
    (hf : Filed s) (hlogs : s.logs = [(n, [])]) (hlt : s.counter < 10 ^ 6) (c : Config) :
    ∃ e, start dir c = .ok e
      ∧ ∀ key, e.get key = .ok (visible (overlay (s.tables.map Table.entries) key)) := by
  obtain ⟨e, s', hrun, hrep, hmem, htables⟩ := restart_spec hdir hf hlogs hlt c
  refine ⟨e, hrun, ?_⟩
  intro key
  rw [hrep.get, Store.view, overlay_cons, hmem, htables]
  rfl

/-- The tables' names when a file is written behind all of them. -/
theorem sstNames_upsert {dir : Directory} (hdir : KeySorted dir) {n : Nat}
    (hlast : ∀ name ∈ sstNames dir, name < getSstPath n) (file : Bytes) :
    sstNames (upsert (getSstPath n) file dir) = sstNames dir ++ [getSstPath n] := by
  have hsorted : ∀ {d : Directory}, KeySorted d → (sstNames d).Pairwise (· < ·) :=
    fun hd => List.Pairwise.sublist List.filter_sublist (List.pairwise_map.mpr hd)
  refine @eq_of_mem_iff _ _ _ id _ _ (hsorted (keySorted_upsert hdir)) ?_ ?_
  · refine List.pairwise_append.mpr ⟨hsorted hdir, List.pairwise_singleton _ _, ?_⟩
    intro a ha b hb
    rw [List.mem_singleton.mp hb]
    exact hlast a ha
  · intro name
    rw [List.mem_append, List.mem_singleton, sstNames, sstNames, List.mem_filter, List.mem_filter,
      mem_map_fst_iff, mem_map_fst_iff, lookup_upsert]
    by_cases hname : name = getSstPath n
    · subst hname
      simp
    · rw [if_neg hname]
      simp [hname]

/-- The logs' names when a table is written. -/
theorem walNames_upsert {dir : Directory} (hdir : KeySorted dir) (n : Nat) (file : Bytes) :
    walNames (upsert (getSstPath n) file dir) = walNames dir := by
  have hsorted : ∀ {d : Directory}, KeySorted d → (walNames d).Pairwise (· < ·) :=
    fun hd => List.Pairwise.sublist List.filter_sublist (List.pairwise_map.mpr hd)
  refine @eq_of_mem_iff _ _ _ id _ _ (hsorted (keySorted_upsert hdir)) (hsorted hdir) ?_
  intro name
  rw [walNames, walNames, List.mem_filter, List.mem_filter, mem_map_fst_iff, mem_map_fst_iff,
    lookup_upsert]
  by_cases hname : name = getSstPath n
  · subst hname
    simp
  · rw [if_neg hname]

theorem openTables_congr {dir dir' : Directory} :
    ∀ {names : List Bytes}, (∀ name ∈ names, dir'.lookup name = dir.lookup name) →
      openTables dir' names = openTables dir names := by
  intro names
  induction names with
  | nil => exact fun _ => rfl
  | cons name names ih =>
      intro h
      rw [openTables, openTables, h name List.mem_cons_self,
        ih (fun x hx => h x (List.mem_cons_of_mem _ hx))]

theorem recoverAllWals_congr {dir dir' : Directory} {names : List Bytes}
    (skiplist : SkipList Bytes TableValue)
    (h : ∀ name ∈ names, dir'.lookup name = dir.lookup name) :
    recoverAllWals dir' names skiplist = recoverAllWals dir names skiplist := by
  have hrecords : names.flatMap (fun name => WalLogger.recover ⟨name, false⟩ dir')
      = names.flatMap (fun name => WalLogger.recover ⟨name, false⟩ dir) := by
    refine List.flatMap_congr fun name hname => ?_
    rw [WalLogger.recover, WalLogger.recover, h name hname]
  rw [recoverAllWals_eq_replay, recoverAllWals_eq_replay, hrecords]

/-- **One file more**, behind all tables: the restart opens it first, and is
    otherwise as it would be without. -/
theorem start_upsert {dir : Directory} {files : List (Nat × List Entry)}
    {logs : List (Nat × Bytes)} (hdir : DirRep dir files logs) {n : Nat} (hn : n < 10 ^ 6)
    (hle : ∀ k, (files.lookup k).isSome → k < n) (file : Bytes) (c : Config) {e : KVEngine}
    (he : start dir c = .ok e) :
    match SSTableReader.open (getSstPath n) (some file) n with
    | .error f => start (upsert (getSstPath n) file dir) c = .error f
    | .ok reader => ∃ e', start (upsert (getSstPath n) file dir) c = .ok e'
        ∧ e'.skiplist = e.skiplist ∧ e'.sstables = reader.toList ++ e.sstables := by
  obtain ⟨ns, hns, hperm, -⟩ := sstNames_spec hdir
  have hlast : ∀ name ∈ sstNames dir, name < getSstPath n := by
    intro name hname
    rw [hns] at hname
    obtain ⟨k, hk, rfl⟩ := List.mem_map.mp hname
    have hkn := hle k (mem_map_fst_iff.mp (hperm.mem_iff.mp hk))
    exact getSstPath_lt (hkn.trans hn) hn hkn
  have hother : ∀ name, name ≠ getSstPath n →
      (upsert (getSstPath n) file dir).lookup name = dir.lookup name := by
    intro name hname
    rw [lookup_upsert, if_neg hname]
  have htables : openTables (upsert (getSstPath n) file dir) (sstNames dir).reverse
      = openTables dir (sstNames dir).reverse := by
    refine openTables_congr (fun name hname => hother name ?_)
    rintro rfl
    exact lt_irrefl _ (hlast _ (List.mem_reverse.mp hname))
  have hlogs : ∀ skiplist, recoverAllWals (upsert (getSstPath n) file dir) (walNames dir) skiplist
      = recoverAllWals dir (walNames dir) skiplist := by
    intro skiplist
    refine recoverAllWals_congr skiplist (fun name hname => hother name ?_)
    rintro rfl
    have := (List.mem_filter.mp hname).2
    rw [isWalName_getSstPath] at this
    cases this
  have hself : (upsert (getSstPath n) file dir).lookup (getSstPath n) = some file := by
    rw [lookup_upsert, if_pos rfl]
  rw [start, KVEngine.open] at he
  obtain ⟨readers, hreaders, he⟩ := bind_eq_ok.mp he
  obtain ⟨skiplist, hskiplist, he⟩ := bind_eq_ok.mp he
  obtain rfl := Except.ok.inj he
  simp only [start, KVEngine.open, sstNames_upsert hdir.sorted hlast, walNames_upsert hdir.sorted,
    List.reverse_append, List.reverse_cons, List.reverse_nil, List.nil_append, List.cons_append,
    openTables, stoull_stem_getSstPath, Option.getD_some, hself, htables, hlogs, hreaders,
    hskiplist]
  cases SSTableReader.open (getSstPath n) (some file) n with
  | error f => rfl
  | ok reader =>
      cases reader with
      | none => exact ⟨_, rfl, rfl, rfl⟩
      | some r => exact ⟨_, rfl, rfl, rfl⟩

/-! ## The restart after a cut -/

section Cut

variable {e : KVEngine} {s : Store}

/-- What `get` reads when the memtable is empty. -/
theorem get_of_empty (hrep : Rep e s) (hmem : s.mem = []) (key : Bytes) :
    e.get key = .ok (visible (overlay (s.tables.map Table.entries) key)) := by
  rw [hrep.get, Store.view, overlay_cons, hmem]
  rfl

/-- What `get` reads when the memtable does not hold the key. -/
theorem get_of_none {key : Bytes} (h : e.skiplist.get key = .ok none) :
    e.get key = (getFromTables key e.sstables).map visible := by
  rw [KVEngine.get, h, ok_bind]
  cases getFromTables key e.sstables with
  | error f => rfl
  | ok found => rfl

/-- **A file that is not complete**: the restart is right if and only if it is
    harmless. -/
theorem torn_iff (hrep : Rep e s) (h : Settled s) (hmem : s.mem = [])
    (hlt : s.counter + 1 < 10 ^ 6) (file : Bytes) (c : Config) :
    Runs (start (upsert (getSstPath (e.sstCounter + 1)) file e.dir) c)
      (fun e' => ∀ key, e'.get key = e.get key) ↔ TornHarmless e file := by
  obtain ⟨log, hlogs, hempty⟩ := h.oneLog
  obtain rfl := hempty hmem
  obtain ⟨e₀, s₀, hrun, hrep₀, hmem₀, htables⟩ :=
    restart_spec hrep.dir h.filed hlogs (Nat.lt_of_succ_lt hlt) c
  have hsk : ∀ key, e₀.skiplist.get key = .ok none := by
    intro key
    rw [models_get hrep₀.mem, hmem₀]
    rfl
  have hget : ∀ key, e.get key = (getFromTables key e₀.sstables).map visible := by
    intro key
    rw [get_of_empty hrep hmem, getFromTables_spec hrep₀.tables, htables]
    rfl
  have hle : ∀ k, (s.files.lookup k).isSome → k < s.counter + 1 := by
    intro k hk
    obtain ⟨es, hes⟩ := Option.isSome_iff_exists.mp hk
    exact Nat.lt_succ_of_le (h.filed.fileLe k es hes)
  have hstart := start_upsert hrep.dir hlt hle file c hrun
  rw [TornHarmless, hrep.counter]
  cases hopen : SSTableReader.open (getSstPath (s.counter + 1)) (some file) (s.counter + 1) with
  | error f =>
      rw [hopen] at hstart
      simp only at hstart
      rw [hstart]
      exact Iff.rfl
  | ok reader =>
      rw [hopen] at hstart
      obtain ⟨e', hrun', hsk', hss'⟩ := hstart
      rw [hrun']
      cases reader with
      | none =>
          refine ⟨fun _ r hr => (by cases hr), fun _ key => ?_⟩
          rw [get_of_none (hsk' ▸ hsk key), hss', hget]
          rfl
      | some r =>
          have hget' : ∀ key, e'.get key = r.get key >>= fun found =>
              found.elim (e.get key) (fun tv => pure (visible (some tv))) := by
            intro key
            rw [get_of_none (hsk' ▸ hsk key), hss', hget]
            simp only [Option.toList_some, List.cons_append, List.nil_append, getFromTables]
            cases r.get key with
            | error f => rfl
            | ok found => cases found <;> rfl
          have hiff : ∀ key, e'.get key = e.get key ↔ r.get key = .ok none
              ∨ ∃ tv, r.get key = .ok (some tv) ∧ e.get key = .ok (visible (some tv)) := by
            intro key
            rw [hget']
            cases hr : r.get key with
            | error f =>
                rw [get_of_empty hrep hmem]
                simp
            | ok found =>
                cases found with
                | some tv => simp [pure, Except.pure, eq_comm]
                | none => simp
          constructor
          · intro hall q hq key
            obtain rfl := Option.some.inj hq
            exact (hiff key).mp (hall key)
          · intro hharm key
            exact (hiff key).mpr (hharm r rfl key)

/-- What the merged table and the tables behind it read. -/
theorem visible_cut {L R : Option TableValue} (hR : L = none → R = none) :
    visible ((live L).or R) = visible L ↔ (visible L = none → visible R = none) := by
  cases L with
  | none =>
      rw [hR rfl]
      simp [live]
  | some tv =>
      by_cases hd : tv.type = .kTypeDeletion
      · simp [live, visible, hd]
      · simp [live, visible, hd]

theorem overlay_drop_of_none {ls : List (List Entry)} {key : Bytes} (h : overlay ls key = none)
    (d : Nat) : overlay (ls.drop d) key = none := by
  rw [overlay_eq_none] at h ⊢
  exact fun l hl => h l (List.mem_of_mem_drop hl)

/-- The tables of a complete merged file and the old ones behind the first `d`. -/
theorem get_cut (h : Settled s) (hmem : s.mem = [])
    (hlt : s.counter + 1 < 10 ^ 6) {m : List Entry} (hm : m ≠ []) (d : Nat) {dir : Directory}
    (hdir : DirRep dir (Store.deleteAll (s.writeMerged (s.counter + 1) m) (s.counter + 1)
      ((s.tables.map Table.number).take d)).files s.logs) (c : Config) :
    ∃ e', start dir c = .ok e' ∧ ∀ key, e'.get key
      = .ok (visible ((m.lookup key).or (overlay ((s.tables.map Table.entries).drop d) key))) := by
  obtain ⟨log, hlogs, hempty⟩ := h.oneLog
  obtain rfl := hempty hmem
  let s' : Store := { s with
    tables := ⟨s.counter + 1, 0, m⟩ :: s.tables.drop d
    counter := s.counter + 1
    files := (Store.deleteAll (s.writeMerged (s.counter + 1) m) (s.counter + 1)
      ((s.tables.map Table.number).take d)).files }
  have hf : Filed s' := h.filed.cut hm d rfl rfl rfl
  obtain ⟨e', hrun, hget⟩ := get_restart (s := s') hdir hf hlogs hlt c
  refine ⟨e', hrun, ?_⟩
  intro key
  rw [hget, ← List.map_drop]
  show Except.ok (visible (overlay (m :: (s.tables.drop d).map Table.entries) key)) = _
  rw [overlay_cons]

/-- What a restart reads after the merged file is complete: as before, but for
    keys that read as absent and have a value behind the deleted tables. -/
theorem get_cut_iff (hrep : Rep e s) (h : Settled s) (hmem : s.mem = [])
    (hlt : s.counter + 1 < 10 ^ 6) {m : List Entry} (hmerged : Merged s.tables m) (hm : m ≠ [])
    (d : Nat) {dir : Directory}
    (hdir : DirRep dir (Store.deleteAll (s.writeMerged (s.counter + 1) m) (s.counter + 1)
      ((s.tables.map Table.number).take d)).files s.logs) (c : Config) :
    Runs (start dir c) (fun e' => ∀ key, e'.get key = e.get key)
      ↔ ∀ key tv, e.get key = .ok none →
          getFromTables key (e.sstables.drop d) = .ok (some tv) → visible (some tv) = none := by
  obtain ⟨e', hrun, hget⟩ := get_cut h hmem hlt hm d hdir c
  have hlook := lookup_merged_of_descending hmerged (fun t ht => (good_of_rep hrep t ht).1)
    h.tidy.ordered
  have hdrop : ∀ key, getFromTables key (e.sstables.drop d)
      = .ok (overlay ((s.tables.map Table.entries).drop d) key) := by
    intro key
    rw [getFromTables_spec (List.forall₂_drop d hrep.tables), List.map_drop]
  have hiff : ∀ key, e'.get key = e.get key ↔ (e.get key = .ok none →
      visible (overlay ((s.tables.map Table.entries).drop d) key) = none) := by
    intro key
    rw [hget, get_of_empty hrep hmem, hlook, Except.ok.injEq, Except.ok.injEq]
    exact visible_cut (fun hnone => overlay_drop_of_none hnone d)
  rw [hrun]
  constructor
  · intro hall key tv hnone hfound
    rw [hdrop, Except.ok.injEq] at hfound
    rw [← hfound]
    exact (hiff key).mp (hall key) hnone
  · intro hall key
    refine (hiff key).mpr ?_
    intro hnone
    cases hR : overlay ((s.tables.map Table.entries).drop d) key with
    | none => rfl
    | some tv => exact hall key tv hnone (by rw [hdrop, hR])

/-- When there is no value at all, the merge is empty. -/
theorem merged_eq_nil_iff (hrep : Rep e s) (h : Settled s) (hmem : s.mem = []) {m : List Entry}
    (hmerged : Merged s.tables m) : m = [] ↔ ∀ key, e.get key = .ok none := by
  have hlook := lookup_merged_of_descending hmerged (fun t ht => (good_of_rep hrep t ht).1)
    h.tidy.ordered
  have hiff : ∀ key, e.get key = .ok none ↔ m.lookup key = none := by
    intro key
    rw [get_of_empty hrep hmem, Except.ok.injEq, hlook]
    cases overlay (s.tables.map Table.entries) key with
    | none => simp [visible, live]
    | some tv =>
        by_cases hd : tv.type = .kTypeDeletion
        · simp [live, visible, hd]
        · simp [live, visible, hd]
  constructor
  · rintro rfl key
    exact (hiff key).mpr rfl
  · intro hall
    have hgood := good_of_merged hmerged (good_of_rep hrep)
    refine eq_of_lookup_eq hgood.1 keySorted_nil ?_
    intro key
    exact (hiff key).mp (hall key)

/-- An empty merged file changes no read. -/
theorem get_empty_merged (hrep : Rep e s) (h : Settled s) (hmem : s.mem = [])
    (hlt : s.counter + 1 < 10 ^ 6) {dir : Directory}
    (hdir : DirRep dir (upsert (s.counter + 1) [] s.files) s.logs) (c : Config) :
    Runs (start dir c) (fun e' => ∀ key, e'.get key = e.get key) := by
  obtain ⟨log, hlogs, hempty⟩ := h.oneLog
  obtain rfl := hempty hmem
  let s' : Store := { s with
    counter := s.counter + 1
    files := upsert (s.counter + 1) [] s.files }
  have hf : Filed s' := h.filed.addEmpty rfl rfl rfl
  obtain ⟨e', hrun, hget⟩ := get_restart (s := s') hdir hf hlogs hlt c
  refine ends_of_eq_ok hrun ?_
  intro key
  rw [hget, get_of_empty hrep hmem]

/-- The restart while the new file is written. -/
theorem writing_iff (hrep : Rep e s) (h : Settled s) (hmem : s.mem = [])
    (hlt : s.counter + 1 < 10 ^ 6) {file : Bytes} {m : List Entry} (hm : Merged s.tables m)
    (hf : FileOf file m) (n : Nat) (c : Config) :
    Runs (start (upsert (getSstPath (e.sstCounter + 1)) (file.take n) e.dir) c)
      (fun e' => ∀ key, e'.get key = e.get key)
      ↔ (n < file.length → TornHarmless e (file.take n)) := by
  rcases Nat.lt_or_ge n file.length with hn | hn
  · rw [torn_iff hrep h hmem hlt]
    exact ⟨fun hharm _ => hharm, fun hharm => hharm hn⟩
  · -- the file is complete
    refine ⟨fun _ hc => absurd hc (Nat.not_lt_of_le hn), fun _ => ?_⟩
    rw [List.take_of_length_le hn, hrep.counter]
    by_cases hnil : m = []
    · subst hnil
      exact get_empty_merged hrep h hmem hlt (hrep.dir.writeFile hf _) c
    · refine (get_cut_iff hrep h hmem hlt hm hnil 0 (hrep.dir.writeFile hf _) c).mpr ?_
      intro key tv hnone hfound
      rw [List.drop_zero, getFromTables_spec hrep.tables, Except.ok.injEq] at hfound
      rw [get_of_empty hrep hmem, Except.ok.injEq, hfound] at hnone
      exact hnone

/-- The restart while the old files are deleted. -/
theorem deleted_iff (hrep : Rep e s) (h : Settled s) (hmem : s.mem = [])
    (hlt : s.counter + 1 < 10 ^ 6) (hsnap : e.snapshot = some e.sstables) {file : Bytes}
    (hfile : mergeTables e.sstables = .ok file) {m : List Entry} (hm : Merged s.tables m)
    (hf : FileOf file m) (d : Nat) (c : Config) :
    Runs (interruptCompact e (.deleted d) >>= fun dir => start dir c)
        (fun e' => ∀ key, e'.get key = e.get key)
      ↔ (∀ key, e.get key = .ok none) ∨ ∀ key tv, e.get key = .ok none →
          getFromTables key (e.sstables.drop d) = .ok (some tv) → visible (some tv) = none := by
  have hnumber : e.reserve.sstCounter = s.counter + 1 := congrArg (· + 1) hrep.counter
  have hall := merged_eq_nil_iff hrep h hmem hm
  obtain ⟨e₁, reader, hrun, hrep₁, hreader⟩ :=
    rep_writeMerged (rep_reserve hrep) hf (s.counter + 1)
  simp only [interruptCompact, hsnap, hfile, ok_bind, hnumber, hrun]
  rcases hreader with ⟨hnil, rfl⟩ | ⟨hnil, r, rfl, hr⟩
  · -- no file is deleted
    refine ⟨fun _ => Or.inl (hall.mp hnil), fun _ => ?_⟩
    subst hnil
    exact get_empty_merged hrep h hmem hlt hrep₁.dir c
  · have htake := rep_deleteAll (s.counter + 1) (List.forall₂_take d hrep.tables)
      (rep_swap hrep₁ hrep.tables hr)
    rw [List.map_take, List.map_take] at htake
    have hdir := htake.dir
    have hfiles : (Store.deleteAll ((s.reserve.writeMerged (s.counter + 1) m).swap s.tables
          ⟨s.counter + 1, 0, m⟩) (s.counter + 1) ((s.tables.map Table.number).take d)).files
        = (Store.deleteAll (s.writeMerged (s.counter + 1) m) (s.counter + 1)
          ((s.tables.map Table.number).take d)).files := files_deleteAll_congr _ _ rfl
    rw [hfiles, (logs_deleteAll _ _ _).2] at hdir
    refine (get_cut_iff hrep h hmem hlt hm hnil d hdir c).trans ⟨Or.inr, ?_⟩
    rintro (hnone | hc)
    · exact absurd (hall.mpr hnone) hnil
    · exact hc

/-- **The restart after a cut** is right if and only if the cut is safe. -/
theorem cut_iff (hrep : Rep e s) (h : Settled s) (hmem : s.mem = [])
    (hlt : s.counter + 1 < 10 ^ 6) (p : CutPoint) (c : Config) :
    Runs (interruptCompact e p >>= fun dir => start dir c)
      (fun e' => ∀ key, e'.get key = e.get key) ↔ CutSafe e p := by
  rcases snapshot_spec hrep with ⟨-, hsnap⟩ | ⟨-, hsnap⟩
  · -- there is nothing to compact
    have hsafe : CutSafe e p := by
      intro old file hold
      rw [hsnap] at hold
      cases hold
    refine ⟨fun _ => hsafe, fun _ => ?_⟩
    obtain ⟨log, hlogs, hempty⟩ := h.oneLog
    obtain rfl := hempty hmem
    obtain ⟨e', hrun, hget⟩ :=
      get_restart hrep.dir h.filed hlogs (Nat.lt_of_succ_lt hlt) c
    simp only [interruptCompact, hsnap]
    refine ends_of_eq_ok hrun ?_
    intro key
    rw [hget, get_of_empty hrep hmem]
  · have hmerge := mergeTables_spec hrep.tables
    have hold : ∀ {old : List SSTableReader} {file : Bytes}, e.snapshot = some old →
        mergeTables old = .ok file → mergeTables e.sstables = .ok file := by
      intro old file hold hok
      rw [hsnap] at hold
      rwa [Option.some.inj hold]
    cases hfile : mergeTables e.sstables with
    | error f =>
        have hsafe : CutSafe e p := fun old file h1 h2 => by cases hfile.symm.trans (hold h1 h2)
        rw [hfile] at hmerge
        refine ⟨fun _ => hsafe, fun _ => ?_⟩
        simp only [interruptCompact, hsnap, hfile]
        exact hmerge
    | ok file =>
        rw [hfile] at hmerge
        obtain ⟨m, hm, hf⟩ := hmerge
        have heq : ∀ {old : List SSTableReader} {file' : Bytes}, e.snapshot = some old →
            mergeTables old = .ok file' → file' = file :=
          fun h1 h2 => (Except.ok.inj (hfile.symm.trans (hold h1 h2))).symm
        cases p with
        | writing n =>
            have hiff := writing_iff hrep h hmem hlt hm hf n c
            simp only [interruptCompact, hsnap, hfile, ok_bind]
            refine hiff.trans ⟨fun hc old file' h1 h2 => heq h1 h2 ▸ hc, fun hc => ?_⟩
            exact hc _ _ hsnap hfile
        | deleted d =>
            refine (deleted_iff hrep h hmem hlt hsnap hfile hm hf d c).trans
              ⟨fun hc _ _ _ _ => hc, fun hc => hc _ _ hsnap hfile⟩

end Cut

/-- **Crash safety of compaction.**  After any operations and a flush, with file
    numbers below a million, the restart after a compaction that is cut off reads
    as before if and only if the cut is safe. -/
theorem restart_after_cut_iff (c c' : Config) {os : List Op} (hkeys : ∀ o ∈ os, o.KeyFits)
    (p : CutPoint) :
    Runs (start [] c >>= fun e => (os ++ [Op.forceFlush]).foldlM execute e)
      (fun e => e.sstCounter + 1 < 10 ^ 6 →
        (Runs (interruptCompact e p >>= fun dir => start dir c')
          (fun e' => ∀ key, e'.get key = e.get key) ↔ CutSafe e p)) := by
  obtain ⟨e, hrun, hrep⟩ := start_nil c
  have hsettled := settled_fresh c.maxMemNodes
  have hops := session_spec (fun (_ : Unit) s => Settled s) (fun g _ => g) (fun _ => True)
    (fun hrep h _ hs => settled_step h hrep.logLe hs) os ()
    (fun o ho => ⟨hkeys o ho, trivial⟩) hrep hsettled
  rw [hrun, ok_bind, List.foldlM_append]
  refine hops.bind ?_
  rintro e₁ ⟨s₁, hrep₁, hset₁⟩
  rw [List.foldlM_cons]
  refine (hrep₁.flush).bind ?_
  intro e₂ hrep₂ hlt
  have hmem : s₁.flush.mem = [] := by
    rw [Store.flush]
    split
    · assumption
    · rfl
  rw [hrep₂.counter] at hlt
  exact cut_iff hrep₂ (settled_flush hset₁ hrep₁.logLe) hmem hlt p c'

/-- A value in the older of two tables, its tombstone in the newer one. -/
def putThenErase : List Op :=
  [.put [107] [1], .forceFlush, .put [97] [1], .erase [107]]

theorem restart_after_cut_iff_plain :
    Runs (start [] plainConfig >>= fun e => (putThenErase ++ [Op.forceFlush]).foldlM execute e)
      (fun e => e.sstCounter + 1 < 10 ^ 6 →
        (Runs (interruptCompact e (.deleted 1) >>= fun dir => start dir plainConfig)
          (fun e' => ∀ key, e'.get key = e.get key) ↔ CutSafe e (.deleted 1))) :=
  restart_after_cut_iff plainConfig plainConfig (by decide) (.deleted 1)

/-- **The newer table is deleted first**, and the erased key is back. -/
theorem cut_revives_deleted_key :
    Yields (do
        let e ← start [] plainConfig
        let e ← (putThenErase ++ [Op.forceFlush]).foldlM execute e
        let dir ← interruptCompact e (.deleted 1)
        let e' ← start dir plainConfig
        pure (e, e'))
      (fun p => p.1.skiplist.size = 0 ∧ p.1.sstCounter + 1 < 10 ^ 6
        ∧ p.1.get [107] = .ok none ∧ p.2.get [107] = .ok (some [1])) := by
  decide +kernel

end KvCompactCrash
