import LightKV.KvCompactCrashProofs
import LightKV.KvFlushCrashProofs
import LightKV.KvWalDamageProofs

/-! # Crashes anywhere

    Runs of operations, reopens and crashes in a flush (`Incident`), and of
    compactions that are cut off as well, at any contents of the memtable and of
    the logs (`Mishap`).  Three facts hold along such a run while each mishap is
    safe: the store is durable, a restart on a shorter current log reads what had
    been written at an earlier moment of the run (`Rewinds`), and what a table tells
    of a key had been true at one (`Past`).  So reads are right after any crash
    (`get_after_mishaps`), and a log that loses its tail takes back the last writes,
    exactly as many as it lost, and none before them (`lost_tail`). -/

namespace KvMishap

open Execution KvBytes KvCompactCrash KvCompaction KvDirectory KvEngine KvFiles KvFlushCrash KvLogs
open KvRecovery KvReopen KvSession KvSkipList KvStore KvTable KvTableIterator KvWal KvWalDamage
open Overlay

/-! ## A compaction that is cut off -/

/-- What can happen: an incident, or a compaction that stops, and a restart. -/
inductive Mishap
  | incident (i : Incident)
  | compactCrash (p : CutPoint) (c : Config)

/-- One mishap. -/
def befall (e : KVEngine) : Mishap → Except Fault KVEngine
  | .incident i => suffer e i
  | .compactCrash p c => do
      let dir ← interruptCompact e p
      start dir c

/-- **The condition on a compaction that is cut off**, in the state before it: a
    torn file is none for `Open`; and when files are deleted, no key that is
    absent, and not in the memtable, has a value in the tables behind the deleted
    ones, or the tables have no value at all. -/
def CompactSafe (e : KVEngine) (p : CutPoint) : Prop :=
  (∀ dir, interruptCompact e p = .ok dir → SortsByNumber dir)
    ∧ ∀ old file, e.snapshot = some old → mergeTables old = .ok file →
      match p with
      | .writing n => n < file.length → Unopenable (file.take n)
      | .deleted d => (∀ key found, getFromTables key e.sstables = .ok found → visible found = none)
          ∨ ∀ key tv, e.skiplist.get key = .ok none → e.get key = .ok none →
              getFromTables key (e.sstables.drop d) = .ok (some tv) → visible (some tv) = none

/-- The condition on each mishap, in the state before it. -/
def SafeAt (e : KVEngine) : Mishap → Prop
  | .incident i => SafeFrom e i
  | .compactCrash p _ => CompactSafe e p

/-- What reached the log in a mishap. -/
def loggedBy (g : Bytes → Option Bytes) : Mishap → Bytes → Option Bytes
  | .incident i => logged g i
  | .compactCrash _ _ => g

/-- The last write of each key that reached its log. -/
def latestOf (ms : List Mishap) : Bytes → Option Bytes := ms.foldl loggedBy (fun _ => none)

theorem latestOf_append (ms : List Mishap) (m : Mishap) :
    latestOf (ms ++ [m]) = loggedBy (latestOf ms) m := by
  rw [latestOf, List.foldl_append]
  rfl

section Cut

variable {g : Bytes → Option Bytes} {e : KVEngine} {s : Store}

/-- A table tells of each key what the memtable or a table of `s` tells. -/
def Drawn (s : Store) (es : List Entry) : Prop :=
  ∀ k tv, es.lookup k = some tv → ∃ l ∈ s.mem :: s.tables.map Table.entries, l.lookup k = some tv

theorem drawn_of_mem {es : List Entry} (h : es ∈ s.tables.map Table.entries) : Drawn s es :=
  fun _ _ hk => ⟨es, List.mem_cons_of_mem _ h, hk⟩

theorem drawn_drop (d : Nat) {es : List Entry} (h : es ∈ (s.tables.drop d).map Table.entries) :
    Drawn s es := by
  rw [List.map_drop] at h
  exact drawn_of_mem (List.mem_of_mem_drop h)

/-- A flush writes the memtable. -/
theorem drawn_writeTable (h : Durable g s) {es : List Entry}
    (hes : es ∈ s.writeTable.tables.map Table.entries) : Drawn s es := by
  rcases List.mem_cons.mp hes with rfl | hold
  · intro k tv hk
    rw [storedLayer_of_fits h.agrees.fits] at hk
    exact ⟨s.mem, List.mem_cons_self, hk⟩
  · exact drawn_of_mem hold

theorem drawn_flush (h : Durable g s) {es : List Entry}
    (hes : es ∈ s.flush.tables.map Table.entries) : Drawn s es := by
  rw [Store.flush] at hes
  split at hes
  · exact drawn_of_mem hes
  · exact drawn_writeTable h hes

/-- A compaction writes what its tables hold. -/
theorem drawn_merged (hrep : Rep e s) (h : Durable g s) {m : List Entry}
    (hm : Merged s.tables m) : Drawn s m := by
  intro k tv hk
  rw [lookup_merged_of_descending hm (fun t ht => (good_of_rep hrep t ht).1)
    h.agrees.tidy.ordered k] at hk
  cases ho : overlay (s.tables.map Table.entries) k with
  | none =>
      rw [ho] at hk
      cases hk
  | some tv' =>
      obtain ⟨l, hl, hlook⟩ := List.exists_of_findSome?_eq_some ho
      rw [ho, live] at hk
      split at hk
      · cases hk
      · obtain rfl := Option.some.inj hk
        exact ⟨l, List.mem_cons_of_mem _ hl, hlook⟩

/-- The next engine goes on with the log of `s`, or it begins one, and its tables
    tell nothing new. -/
structure Leaves (s s' : Store) : Prop where
  log : s' = s ∨ (s'.logs.lookup (s'.counter + 1)).getD [] = []
  drawn : ∀ es ∈ s'.tables.map Table.entries, Drawn s es

theorem leaves_self (s : Store) : Leaves s s := ⟨Or.inl rfl, fun _ h => drawn_of_mem h⟩

/-- No log has the number behind the next one. -/
theorem lookup_behind (hrep : Rep e s) (h : Durable g s) :
    s.logs.lookup (s.counter + 1 + 1) = none := by
  by_contra hc
  have hlast := h.logged.last _ (Option.isSome_iff_ne_none.mpr hc)
  have := hrep.logLe
  omega

/-- A flush that is cut off leaves such a store. -/
theorem leaves_of_left (hrep : Rep e s) (h : Durable g s) {s' : Store} (hleft : Left s s') :
    Leaves s s' := by
  have hbehind := lookup_behind hrep h
  have hnew : (s.logs.lookup (s.counter + 1 + 1)).getD [] = [] := by
    rw [hbehind]
    rfl
  cases hleft with
  | same => exact leaves_self s
  | torn => exact ⟨Or.inr hnew, fun _ h => drawn_of_mem h⟩
  | written hne => exact ⟨Or.inr hnew, fun _ hes => drawn_writeTable h hes⟩
  | walOpened hne =>
      refine ⟨Or.inr ?_, fun _ hes => drawn_writeTable h hes⟩
      show ((openLog (s.counter + 1 + 1) s.logs).lookup (s.counter + 1 + 1)).getD [] = []
      rw [lookup_openLog, if_pos rfl, hbehind]
      rfl
  | flushed hne =>
      have hcounter : s.flush.counter = s.counter + 1 := by
        rw [Store.flush, if_neg hne]
        rfl
      refine ⟨Or.inr ?_, fun _ hes => drawn_flush h hes⟩
      rw [hcounter, h.logged.lookup_new_flush hrep.logLe hne]
      rfl

theorem interruptFlush_leaves (hrep : Rep e s) (h : Durable g s) {p : CrashPoint}
    (hsafe : CrashSafe e p) :
    Runs (interruptFlush e p) (fun dir => ∃ s', Restartable g dir s' ∧ Leaves s s') := by
  refine (interruptFlush_left hrep h hsafe).mono ?_
  rintro dir ⟨s', hr, hleft⟩
  exact ⟨s', hr, leaves_of_left hrep h hleft⟩

/-- An empty merged file is there, and all old ones. -/
theorem restartable_emptyMerged (hrep : Rep e s) (h : Durable g s) {dir : Directory}
    (hdir : DirRep dir (upsert (s.counter + 1) [] s.files) s.logs) :
    Restartable g dir { s with counter := s.counter + 1, files := upsert (s.counter + 1) [] s.files } where
  dir := hdir
  filed := h.filed.addEmpty rfl rfl rfl
  clean := h.logged.clean
  logLe n hn := ((h.logged.last n hn).trans hrep.logLe).trans (Nat.le_succ _)
  reads _ := h.reads_disk (fun _ => rfl)

/-- The files that a compaction leaves when it stops behind `d` deletions. -/
def filesCut (s : Store) (m : List Entry) (d : Nat) : List (Nat × List Entry) :=
  (Store.deleteAll (s.writeMerged (s.counter + 1) m) (s.counter + 1)
    ((s.tables.map Table.number).take d)).files

/-- The merged file is there, and the old ones behind the first `d`. -/
theorem restartable_cut (hrep : Rep e s) (h : Durable g s) {m : List Entry}
    (hm : Merged s.tables m) (hne : m ≠ []) {d : Nat}
    (hsafe : ∀ k, s.mem.lookup k = none →
      visible (overlay (s.tables.map Table.entries) k) = none →
      visible (overlay ((s.tables.map Table.entries).drop d) k) = none)
    {dir : Directory} (hdir : DirRep dir (filesCut s m d) s.logs) :
    Restartable g dir { s with
      tables := ⟨s.counter + 1, 0, m⟩ :: s.tables.drop d
      counter := s.counter + 1
      files := filesCut s m d } where
  dir := hdir
  filed := h.filed.cut hne d rfl rfl rfl
  clean := h.logged.clean
  logLe n hn := ((h.logged.last n hn).trans hrep.logLe).trans (Nat.le_succ _)
  reads k := by
    refine h.reads_visible ?_
    intro hmem
    have hlook := lookup_merged_of_descending hm (fun t ht => (good_of_rep hrep t ht).1)
      h.agrees.tidy.ordered k
    rw [List.map_cons, overlay_cons, hlook, List.map_drop]
    exact (visible_cut (fun hnone => overlay_drop_of_none hnone d)).mpr (hsafe k hmem)

/-- What the condition on the deletions says of the store. -/
theorem hidden_of_compactSafe (hrep : Rep e s) {d : Nat}
    (hsafe : ∀ key tv, e.skiplist.get key = .ok none → e.get key = .ok none →
      getFromTables key (e.sstables.drop d) = .ok (some tv) → visible (some tv) = none)
    (k : Bytes) (hmem : s.mem.lookup k = none)
    (hnone : visible (overlay (s.tables.map Table.entries) k) = none) :
    visible (overlay ((s.tables.map Table.entries).drop d) k) = none := by
  cases hfound : overlay ((s.tables.map Table.entries).drop d) k with
  | none => rfl
  | some tv =>
      refine hsafe k tv (by rw [models_get hrep.mem, hmem]) ?_ ?_
      · rw [hrep.get, Store.view, overlay_cons, hmem, Option.none_or, hnone]
      · rw [getFromTables_spec (List.forall₂_drop d hrep.tables), List.map_drop, hfound]

/-- A merge of tables without a value is empty. -/
theorem merged_eq_nil (hrep : Rep e s) (h : Durable g s) {m : List Entry} (hm : Merged s.tables m)
    (hnone : ∀ key found, getFromTables key e.sstables = .ok found → visible found = none) :
    m = [] := by
  have hgood := good_of_merged hm (good_of_rep hrep)
  refine eq_of_lookup_eq hgood.1 keySorted_nil ?_
  intro k
  rw [lookup_merged_of_descending hm (fun t ht => (good_of_rep hrep t ht).1) h.agrees.tidy.ordered k]
  have hk := hnone k _ (getFromTables_spec hrep.tables k)
  cases hv : overlay (s.tables.map Table.entries) k with
  | none => rfl
  | some tv =>
      rw [hv] at hk
      by_cases hd : tv.type = .kTypeDeletion
      · simp [live, hd]
      · simp [visible, hd] at hk

/-- **What is on disk when a compaction is cut off.** -/
theorem interruptCompact_leaves (hrep : Rep e s) (h : Durable g s) {p : CutPoint}
    (hsafe : CompactSafe e p) :
    Runs (interruptCompact e p) (fun dir => ∃ s', Restartable g dir s' ∧ Leaves s s') := by
  have hnew : (s.logs.lookup (s.counter + 1 + 1)).getD [] = [] := by
    rw [lookup_behind hrep h]
    rfl
  rcases snapshot_spec hrep with ⟨-, hsnap⟩ | ⟨-, hsnap⟩
  · simp only [interruptCompact, hsnap]
    exact ⟨s, h.restartable hrep, leaves_self s⟩
  have hmerge := mergeTables_spec hrep.tables
  have hnumber : e.reserve.sstCounter = s.counter + 1 := congrArg (· + 1) hrep.counter
  cases hfile : mergeTables e.sstables with
  | error f =>
      rw [hfile] at hmerge
      simp only [interruptCompact, hsnap, hfile]
      exact hmerge
  | ok file =>
      rw [hfile] at hmerge
      obtain ⟨m, hm, hf⟩ := hmerge
      have hcond := hsafe.2 _ file hsnap hfile
      -- the merged file is there, whole or as a part that `Open` rejects
      have hempty : ∀ {dir : Directory}, m = [] → DirRep dir (upsert (s.counter + 1) m s.files) s.logs →
          ∃ s', Restartable g dir s' ∧ Leaves s s' := by
        rintro dir rfl hdir
        exact ⟨_, restartable_emptyMerged hrep h hdir, Or.inr hnew, fun _ hes => drawn_of_mem hes⟩
      -- the tables of a compaction that is cut off
      have hdrawn : ∀ d, ∀ es ∈ (⟨s.counter + 1, 0, m⟩ :: s.tables.drop d).map Table.entries,
          Drawn s es := by
        intro d es hes
        rcases List.mem_cons.mp hes with rfl | hold
        · exact drawn_merged hrep h hm
        · exact drawn_drop d hold
      cases p with
      | writing n =>
          simp only [interruptCompact, hsnap, hfile, ok_bind, hnumber]
          rcases Nat.lt_or_ge n file.length with hlt | hge
          · exact ⟨_, restartable_torn hrep h (hcond hlt), Or.inr hnew, fun _ hes => drawn_of_mem hes⟩
          · show ∃ s', Restartable g (upsert (getSstPath (s.counter + 1)) (file.take n) e.dir) s' ∧ _
            rw [List.take_of_length_le hge]
            have hdir := hrep.dir.writeFile hf (s.counter + 1)
            by_cases hnil : m = []
            · exact hempty hnil hdir
            · refine ⟨_, restartable_cut hrep h hm hnil (d := 0) ?_ hdir, Or.inr hnew, hdrawn 0⟩
              exact fun k _ hnone => by rwa [List.drop_zero]
      | deleted d =>
          obtain ⟨e₁, reader, hrun, hrep₁, hreader⟩ :=
            rep_writeMerged (rep_reserve hrep) hf (s.counter + 1)
          simp only [interruptCompact, hsnap, hfile, ok_bind, hnumber, hrun]
          rcases hreader with ⟨hnil, rfl⟩ | ⟨hnil, r, rfl, hr⟩
          · exact hempty hnil hrep₁.dir
          · have htake := rep_deleteAll (s.counter + 1) (List.forall₂_take d hrep.tables)
              (rep_swap hrep₁ hrep.tables hr)
            rw [List.map_take, List.map_take] at htake
            have hdir := htake.dir
            have hfiles : (Store.deleteAll ((s.reserve.writeMerged (s.counter + 1) m).swap s.tables
                  ⟨s.counter + 1, 0, m⟩) (s.counter + 1) ((s.tables.map Table.number).take d)).files
                = filesCut s m d := files_deleteAll_congr _ _ rfl
            rw [hfiles, (logs_deleteAll _ _ _).2] at hdir
            rcases hcond with hnone | hhidden
            · exact absurd (merged_eq_nil hrep h hm hnone) hnil
            · exact ⟨_, restartable_cut hrep h hm hnil (hidden_of_compactSafe hrep hhidden) hdir,
                Or.inr hnew, hdrawn d⟩

end Cut

/-! ## Cutting the current log -/

/-- The writes of a mishap that reach the log. -/
def Mishap.writes : Mishap → Nat
  | .incident (.event (.op (.put _ _))) => 1
  | .incident (.event (.op (.erase _))) => 1
  | .incident (.putCrash _ _ _ _) => 1
  | _ => 0

/-- The writes of a run. -/
def writes (ms : List Mishap) : Nat := (ms.map Mishap.writes).sum

/-- The records of the current log. -/
abbrev records (s : Store) : List ParsedLogRecord := recoverFile (current s)

/-- What a restart reads when the current log is cut to its first `i` records. -/
def readAt (s : Store) (i : Nat) (k : Bytes) : Option Bytes :=
  visible (((replayLayer ((records s).take i) []).lookup k).or
    (((stale s).lookup k).or (overlay (s.tables.map Table.entries) k)))

/-- **Every cut of the current log is a moment of the run**: the run without the
    last writes, as many as there are records behind the cut. -/
def Rewinds (done : List Mishap) (s : Store) : Prop :=
  ∀ i ≤ (records s).length, ∃ js ks, done = js ++ ks ∧ writes ks + i = (records s).length
    ∧ ∀ k, readAt s i k = latestOf js k

variable {done : List Mishap} {e : KVEngine} {s s' : Store}

/-- With all its records, the current log is read as it is. -/
theorem readAt_full (h : Durable (latestOf done) s) (k : Bytes) :
    readAt s (records s).length k = latestOf done k := by
  have hread : visible (((replayed s.logs).lookup k).or (overlay (s.tables.map Table.entries) k))
      = latestOf done k :=
    h.reads_disk (fun _ => rfl)
  rw [← hread, h.logged.lookup_replayed, readAt, List.take_length, Option.or_assoc]
  congr 2
  simp [replayed, recordsOf, records]

theorem rewinds_of_empty (h : Durable (latestOf done) s) (hempty : current s = []) :
    Rewinds done s := by
  intro i hi
  have hnil : records s = [] := by rw [records, hempty, recoverFile_nil]
  have hzero : i = 0 := by simpa [hnil] using hi
  refine ⟨done, [], by simp, ?_, ?_⟩
  · rw [hnil, hzero]
    rfl
  · intro k
    rw [← readAt_full h k, hnil, hzero]
    rfl

/-- A mishap that writes nothing. -/
theorem Rewinds.pass (h : Rewinds done s) {m : Mishap} (hm : m.writes = 0) :
    Rewinds (done ++ [m]) s := by
  intro i hi
  obtain ⟨js, ks, hdone, hlost, hreads⟩ := h i hi
  refine ⟨js, ks ++ [m], by rw [hdone, List.append_assoc], ?_, hreads⟩
  rw [← hlost]
  simp [writes, hm]

/-- Another store with the same logs, whose tables read the same. -/
theorem Rewinds.same (h : Rewinds done s) (hcur : current s' = current s) (hstale : stale s' = stale s)
    (htables : ∀ k, visible (overlay (s'.tables.map Table.entries) k)
      = visible (overlay (s.tables.map Table.entries) k)) : Rewinds done s' := by
  have hrecords : records s' = records s := congrArg recoverFile hcur
  have hread : ∀ i k, readAt s' i k = readAt s i k := by
    intro i k
    rw [readAt, readAt, hrecords, hstale]
    cases (replayLayer ((records s).take i) []).lookup k with
    | some tv => rfl
    | none =>
        cases (stale s).lookup k with
        | some tv => rfl
        | none => exact htables k
  intro i hi
  rw [hrecords] at hi ⊢
  simp only [hread]
  exact h i hi

theorem recoverFile_of_frames {rs : List ParsedLogRecord} (h : ∀ r ∈ rs, RecordFits r) :
    recoverFile (encodeAll rs) = rs := by
  have hrec := recoverFile_encodeAll h []
  rwa [List.append_nil, recoverFile_nil, List.append_nil] at hrec

/-- Behind whole frames a new one is read. -/
theorem recoverFile_concat (hl : Logged s) {r : ParsedLogRecord} (hf : RecordFits r) :
    recoverFile (current s ++ encodeRecord r) = recoverFile (current s) ++ [r] := by
  obtain ⟨log, hlog⟩ := Option.isSome_iff_exists.mp hl.here
  obtain ⟨rs, hrs, rfl⟩ := hl.clean _ _ hlog
  have hold : current s = encodeAll rs := by rw [current, hlog]; rfl
  have hall : ∀ q ∈ rs ++ [r], RecordFits q := by
    intro q hq
    rcases List.mem_append.mp hq with hq' | hq'
    · exact hrs q hq'
    · rw [List.mem_singleton.mp hq']
      exact hf
  rw [hold, ← encodeAll_singleton, ← encodeAll_append, recoverFile_of_frames hall,
    recoverFile_of_frames hrs]

/-- What a write does to the current log and to the others. -/
theorem records_write (hl : Logged s) {r : ParsedLogRecord} (hf : RecordFits r) (tv : TableValue) :
    records (s.write r tv) = records s ++ [r] ∧ stale (s.write r tv) = stale s := by
  have hlogs : (s.write r tv).logs = upsert s.log (current s ++ encodeRecord r) s.logs := rfl
  have hcur : current (s.write r tv) = current s ++ encodeRecord r := by
    rw [current, hlogs]
    show ((upsert s.log (current s ++ encodeRecord r) s.logs).lookup s.log).getD [] = _
    rw [lookup_upsert, if_pos rfl]
    rfl
  constructor
  · rw [records, hcur]
    exact recoverFile_concat hl hf
  · have hdiscard : discard s.log (upsert s.log (current s ++ encodeRecord r) s.logs)
        = discard s.log s.logs := by
      refine eq_of_lookup_eq (keySorted_discard (keySorted_upsert hl.sorted) _)
        (keySorted_discard hl.sorted _) ?_
      intro n
      rw [lookup_discard, lookup_discard, lookup_upsert]
      by_cases hn : n = s.log
      · rw [if_pos hn, if_pos hn]
      · rw [if_neg hn, if_neg hn, if_neg hn]
    exact congrArg replayed hdiscard

/-- A write, which is one record more. -/
theorem Rewinds.write (h : Rewinds done s) (hl : Logged s) {r : ParsedLogRecord} {tv : TableValue}
    (hf : RecordFits r) {m : Mishap} (hm : m.writes = 1)
    (hd : Durable (latestOf (done ++ [m])) (s.write r tv)) :
    Rewinds (done ++ [m]) (s.write r tv) := by
  obtain ⟨hrecords, hstale⟩ := records_write hl hf tv
  have hlen : (records (s.write r tv)).length = (records s).length + 1 := by
    rw [hrecords, List.length_append, List.length_singleton]
  intro i hi
  rcases Nat.lt_or_ge (records s).length i with hlt | hle
  · -- the new record is there
    obtain rfl : i = (records (s.write r tv)).length := by omega
    refine ⟨done ++ [m], [], (List.append_nil _).symm, Nat.zero_add _, ?_⟩
    exact readAt_full hd
  · obtain ⟨js, ks, hdone, hlost, hreads⟩ := h i hle
    refine ⟨js, ks ++ [m], by rw [hdone, List.append_assoc], ?_, ?_⟩
    · rw [hlen, ← hlost]
      simp [writes, hm]
      omega
    · intro k
      rw [← hreads k, readAt, readAt, hrecords, hstale, List.take_append_of_le_length hle]
      rfl

/-- A restart goes on with the current log, or it begins an empty one. -/
theorem Rewinds.restart (h : Rewinds done s) (hd : Durable (latestOf done) s)
    (hle : s.log ≤ s.counter + 1) {maxMemNodes : Nat}
    (hd' : Durable (latestOf done) (reopened s maxMemNodes)) :
    Rewinds done (reopened s maxMemNodes) := by
  have hmax := hd.filed.maxOf_eq
  have hlogs : (reopened s maxMemNodes).logs = openLog (s.counter + 1) s.logs := by
    rw [← hmax]
    rfl
  have hlog : (reopened s maxMemNodes).log = s.counter + 1 := by
    rw [← hmax]
    rfl
  cases hl : s.logs.lookup (s.counter + 1) with
  | none =>
      refine rewinds_of_empty hd' ?_
      rw [current, hlogs, hlog, lookup_openLog, if_pos rfl, hl]
      rfl
  | some log =>
      have hlast := hd.logged.last (s.counter + 1) (by rw [hl]; rfl)
      have heq : s.counter + 1 = s.log := Nat.le_antisymm hlast hle
      have hsame : openLog (s.counter + 1) s.logs = s.logs := by simp only [openLog, hl]
      rw [hsame] at hlogs
      rw [heq] at hlog
      refine h.same ?_ ?_ ?_
      · rw [current, current, hlogs, hlog]
      · rw [stale, stale, hlogs, hlog]
      · intro k
        exact congrArg (fun ls => visible (overlay ls k)) hd.filed.loadTables

/-! ## What the tables tell -/

/-- **What a table tells of a key** had been true at some moment of the run. -/
def Past (done : List Mishap) (s : Store) : Prop :=
  ∀ es ∈ s.tables.map Table.entries, ∀ k tv, es.lookup k = some tv →
    ∃ js, js <+: done ∧ latestOf js k = visible (some tv)

theorem Past.append (h : Past done s) (m : Mishap) : Past (done ++ [m]) s := by
  intro es hes k tv hk
  obtain ⟨js, hjs, hread⟩ := h es hes k tv hk
  exact ⟨js, hjs.trans (List.prefix_append done [m]), hread⟩

/-- Tables that tell nothing new; the memtable tells the present. -/
theorem Past.drawn (h : Past done s) (hd : Durable (latestOf done) s)
    (hdrawn : ∀ es ∈ s'.tables.map Table.entries, Drawn s es) : Past done s' := by
  intro es hes k tv hk
  obtain ⟨l, hl, hlook⟩ := hdrawn es hes k tv hk
  rcases List.mem_cons.mp hl with rfl | hold
  · refine ⟨done, List.prefix_refl done, ?_⟩
    rw [← hd.agrees.reads k, Store.view, overlay_cons, hlook]
    rfl
  · exact h l hold k tv hlook

/-- The tables of a restart are those of the files. -/
theorem Past.restart (h : Past done s) (hf : Filed s) (maxMemNodes : Nat) :
    Past done (reopened s maxMemNodes) := by
  intro es hes
  have hsame : (reopened s maxMemNodes).tables.map Table.entries = s.tables.map Table.entries :=
    hf.loadTables
  rw [hsame] at hes
  exact h es hes

/-! ## Runs -/

/-- **What holds along a run**: the store is durable, each cut of its current log
    is a moment of the run, and so is what each table tells of a key. -/
structure Follows (done : List Mishap) (e : KVEngine) (s : Store) : Prop where
  rep : Rep e s
  durable : Durable (latestOf done) s
  rewinds : Rewinds done s
  past : Past done s

/-- An engine that a restart gives. -/
theorem follows_start {dir : Directory} (hr : Restartable (latestOf done) dir s')
    (hnames : SortsByNumber dir) (c : Config)
    (hrew : Rewinds done (reopened s' c.maxMemNodes)) (hpast : Past done s') :
    Runs (start dir c) (fun e' => ∃ s, Follows done e' s) := by
  obtain ⟨e', hrun, hrep⟩ := start_reopened hr.dir hnames c
  exact ends_of_eq_ok hrun
    ⟨_, hrep, hr.durable c.maxMemNodes, hrew, hpast.restart hr.filed c.maxMemNodes⟩

/-- A restart on what a crash leaves. -/
theorem Follows.restart (h : Follows done e s) {dir : Directory}
    (hr : Restartable (latestOf done) dir s') (hleaves : Leaves s s') (hnames : SortsByNumber dir)
    (c : Config) : Runs (start dir c) (fun e' => ∃ s, Follows done e' s) := by
  refine follows_start hr hnames c ?_ (h.past.drawn h.durable hleaves.drawn)
  rcases hleaves.log with rfl | hempty
  · exact h.rewinds.restart h.durable h.rep.logLe (hr.durable c.maxMemNodes)
  · refine rewinds_of_empty (hr.durable c.maxMemNodes) ?_
    rw [current]
    show ((openLog (maxOf (s'.files.map Prod.fst) + 1) s'.logs).lookup
      (maxOf (s'.files.map Prod.fst) + 1)).getD [] = []
    rw [hr.filed.maxOf_eq, lookup_openLog, if_pos rfl]
    exact hempty

/-- A crash, and the restart behind it. -/
theorem Follows.crash (h : Follows done e s) {left : Except Fault Directory} (c : Config)
    (hleft : Runs left (fun dir => ∃ s', Restartable (latestOf done) dir s' ∧ Leaves s s'))
    (hnames : ∀ dir, left = .ok dir → SortsByNumber dir) :
    Runs (left >>= fun dir => start dir c) (fun e' => ∃ s, Follows done e' s) := by
  refine hleft.bind_eq ?_
  rintro dir hdir ⟨s', hr, hleaves⟩
  exact h.restart hr hleaves (hnames dir hdir) c

/-- A flush begins an empty log, or it does nothing. -/
theorem Follows.flush (h : Follows done e s) (hsafe : FlushSafe e) {e' : KVEngine}
    (hrep : Rep e' s.flush) : Follows done e' s.flush := by
  have hd := durable_flush h.rep h.durable hsafe
  refine ⟨hrep, hd, ?_, h.past.drawn h.durable (fun _ hes => drawn_flush h.durable hes)⟩
  by_cases hmem : s.mem = []
  · rw [Store.flush, if_pos hmem]
    exact h.rewinds
  · refine rewinds_of_empty hd ?_
    have hlog : s.flush.log = s.counter + 1 + 1 := by
      rw [Store.flush, if_neg hmem]
      rfl
    rw [current, hlog, h.durable.logged.lookup_new_flush h.rep.logLe hmem]
    rfl

/-- A mishap that writes nothing, and has not done anything yet. -/
theorem Follows.pass (h : Follows done e s) {m : Mishap} (hm : m.writes = 0)
    (hlogged : loggedBy (latestOf done) m = latestOf done) : Follows (done ++ [m]) e s := by
  refine ⟨h.rep, ?_, h.rewinds.pass hm, h.past.append m⟩
  rw [latestOf_append, hlogged]
  exact h.durable

/-- A write that reached the log. -/
theorem Follows.write (h : Follows done e s) {r : ParsedLogRecord} {tv : TableValue}
    (hw : Writes r tv) (hf : RecordFits r) (hfit : Fits (r.key, tv)) {m : Mishap}
    (hm : m.writes = 1)
    (hlogged : loggedBy (latestOf done) m
      = fun k => if k = r.key then visible (some tv) else latestOf done k)
    {e' : KVEngine} (hrep : Rep e' (s.write r tv)) : Follows (done ++ [m]) e' (s.write r tv) := by
  have hd : Durable (latestOf (done ++ [m])) (s.write r tv) := by
    rw [latestOf_append, hlogged]
    exact durable_write h.durable r tv hw hf hfit
  exact ⟨hrep, hd, h.rewinds.write h.durable.logged hf hm hd, h.past.append m⟩

/-- The write of a `put`. -/
theorem Follows.putWrite (h : Follows done e s) {key value : Bytes} (hkey : key.length < 2 ^ 32)
    (hvalue : value.length < 2 ^ 32) {m : Mishap} (hm : m.writes = 1)
    (hlogged : loggedBy (latestOf done) m = effect (latestOf done) (.put key value))
    {e' : KVEngine} (hrep : Rep e' (s.write ⟨.PUT, key, value⟩ ⟨.kTypeValue, value⟩)) :
    Follows (done ++ [m]) e' (s.write ⟨.PUT, key, value⟩ ⟨.kTypeValue, value⟩) :=
  h.write (r := ⟨.PUT, key, value⟩) (Or.inl ⟨rfl, rfl⟩) ⟨hkey, hvalue⟩
    ⟨hkey, Or.inr ⟨rfl, hvalue⟩⟩ hm hlogged hrep

/-- **An operation.** -/
theorem Follows.op (h : Follows done e s) {o : Op} (hsafe : OpSafe e o) :
    Runs (execute e o) (fun e' => ∃ s', Follows (done ++ [.incident (.event (.op o))]) e' s') := by
  refine (execute_spec h.rep (OpSafe.keyFits hsafe)).mono ?_
  rintro e' ⟨s', hs, hrep'⟩
  cases hs with
  | put key value =>
      obtain ⟨hkey, hvalue, hflush⟩ := hsafe
      obtain ⟨e₁, hrun, hrep₁⟩ := h.rep.write .PUT value ⟨.kTypeValue, value⟩ hkey (Or.inr rfl)
      have hw := h.putWrite (m := .incident (.event (.op (.put key value)))) hkey hvalue rfl rfl hrep₁
      rw [Store.put] at hrep'
      split at hrep'
      · rename_i hfull
        refine ⟨_, hw.flush (hflush e₁ hrun ?_) hrep'⟩
        rw [models_size hrep₁.mem, hrep₁.maxMemNodes]
        exact hfull
      · exact ⟨_, hrep', hw.durable, hw.rewinds, hw.past⟩
  | erase key =>
      exact ⟨_, h.write (r := ⟨.ERASE, key, []⟩) (Or.inr ⟨rfl, rfl⟩) ⟨hsafe, by simp⟩
        ⟨hsafe, Or.inl ⟨rfl, rfl⟩⟩ rfl rfl hrep'⟩
  | forceFlush =>
      exact ⟨_, (h.pass (m := .incident (.event (.op .forceFlush))) rfl rfl).flush hsafe hrep'⟩
  | compactNone hle =>
      have hp := h.pass (m := .incident (.event (.op .compact))) rfl rfl
      exact ⟨_, hrep', hp.durable, hp.rewinds, hp.past⟩
  | @compact hlt m hm =>
      have hp := h.pass (m := .incident (.event (.op .compact))) rfl rfl
      obtain ⟨hlog, hlogs⟩ := logs_compacted s m
      have hd := durable_step hp.rep hp.durable (show OpSafe e .compact from trivial)
        (Step.compact hlt hm)
      refine ⟨_, hrep', hd, hp.rewinds.same ?_ ?_ ?_, hp.past.drawn hp.durable ?_⟩
      · rw [current, current, hlogs, hlog]
      · rw [stale, stale, hlogs, hlog]
      · exact visible_tables_compacted h.durable.agrees.tidy (good_of_rep h.rep) hm
      · intro es hes
        rw [tables_compacted] at hes
        split at hes
        · exact drawn_of_mem hes
        · obtain rfl := List.mem_singleton.mp hes
          exact drawn_merged h.rep h.durable hm

/-- **Every mishap that is safe.** -/
theorem befall_spec (h : Follows done e s) {m : Mishap} (hsafe : SafeAt e m) :
    Runs (befall e m) (fun e' => ∃ s', Follows (done ++ [m]) e' s') := by
  cases m with
  | compactCrash p c =>
      have hp := h.pass (m := .compactCrash p c) rfl rfl
      exact hp.crash c (interruptCompact_leaves hp.rep hp.durable hsafe) hsafe.1
  | incident i =>
      cases i with
      | event ev =>
          cases ev with
          | op o => exact h.op hsafe
          | reopen c =>
              have hp := h.pass (m := .incident (.event (.reopen c))) rfl rfl
              exact hp.restart (hp.durable.restartable hp.rep) (leaves_self s) hsafe c
      | crash p c =>
          have hp := h.pass (m := .incident (.crash p c)) rfl rfl
          exact hp.crash c (interruptFlush_leaves hp.rep hp.durable hsafe) hsafe.1
      | putCrash key value p c =>
          obtain ⟨hkey, hvalue, hsafe'⟩ := hsafe
          obtain ⟨e', hrun, hrep'⟩ := h.rep.write .PUT value ⟨.kTypeValue, value⟩ hkey (Or.inr rfl)
          have hw := h.putWrite (m := .incident (.putCrash key value p c)) hkey hvalue rfl rfl hrep'
          have hcond := hsafe' e' hrun
          simp only [befall, suffer, interruptPut, hrun, ok_bind]
          -- the put is logged before the flush can be cut
          by_cases hfull : e'.skiplist.size ≥ e'.maxMemNodes
          · rw [if_pos hfull] at hcond ⊢
            exact hw.crash c (interruptFlush_leaves hw.rep hw.durable hcond) hcond.1
          · rw [if_neg hfull] at hcond ⊢
            exact hw.restart (hw.durable.restartable hw.rep) (leaves_self _) hcond c

/-- **What a run leaves.** -/
theorem follows_run (c : Config) {ms : List Mishap}
    (hmeets : ∀ e, start [] c = .ok e → Meets befall SafeAt e ms) :
    Runs (start [] c >>= fun e => ms.foldlM befall e) (fun e => ∃ s, Follows ms e s) := by
  obtain ⟨e, hrun, hrep⟩ := start_nil c
  let I : List Mishap → KVEngine → Prop := fun rest e =>
    ∃ done s, done ++ rest = ms ∧ Follows done e s
  have hI : ∀ {m : Mishap} {rest : List Mishap} {e : KVEngine}, I (m :: rest) e →
      SafeAt e m → Runs (befall e m) (I rest) := by
    rintro m rest e ⟨done, s, hdone, h⟩ hsafe
    refine (befall_spec h hsafe).mono ?_
    rintro e' ⟨s', h'⟩
    exact ⟨done ++ [m], s', by rw [← hdone, List.append_assoc]; rfl, h'⟩
  have hfresh : Durable (latestOf []) (opened [] [] [] [] c.maxMemNodes) :=
    durable_fresh c.maxMemNodes
  rw [hrun, ok_bind]
  refine (ends_foldlM I hI ms (hmeets e hrun)
    ⟨[], _, rfl, hrep, hfresh, rewinds_of_empty hfresh rfl, by rintro es ⟨⟩⟩).mono ?_
  rintro e' ⟨done, s', hdone, h⟩
  rw [List.append_nil] at hdone
  exact ⟨s', hdone ▸ h⟩

/-- A test for `CompactSafe`: as many files are deleted as there are. -/
def compactTest (e : KVEngine) (p : CutPoint) : Bool :=
  (match interruptCompact e p with
    | .ok dir => shortNames dir
    | .error _ => true)
  && match p with
    | .writing n =>
        match mergeTables e.sstables with
        | .ok file => file.length ≤ n || rejects (file.take n)
        | .error _ => true
    | .deleted d => e.sstables.length ≤ d

theorem compactSafe_of_compactTest {e : KVEngine} {p : CutPoint} (h : compactTest e p = true) :
    CompactSafe e p := by
  obtain ⟨hdir, htest⟩ := Bool.and_eq_true_iff.mp h
  constructor
  · intro dir hrun
    rw [hrun] at hdir
    exact sortsByNumber_of_shortNames hdir
  · intro old file hsnap hfile
    have hold : old = e.sstables := by
      rw [KVEngine.snapshot] at hsnap
      split at hsnap
      · cases hsnap
      · exact (Option.some.inj hsnap).symm
    subst hold
    cases p with
    | writing n =>
        intro hlt
        simp only [hfile] at htest
        rcases Bool.or_eq_true_iff.mp htest with hle | hrej
        · exact absurd (of_decide_eq_true hle) (Nat.not_le_of_lt hlt)
        · exact unopenable_of_rejects hrej
    | deleted d =>
        refine Or.inr ?_
        intro key tv _ _ hfound
        rw [List.drop_of_length_le (of_decide_eq_true htest)] at hfound
        cases hfound

/-- A test for `SafeAt`. -/
def mishapTest (e : KVEngine) : Mishap → Bool
  | .incident i => incidentTest e i
  | .compactCrash p _ => compactTest e p

theorem safeAt_of_mishapTest (e : KVEngine) (m : Mishap) (h : mishapTest e m = true) :
    SafeAt e m := by
  cases m with
  | incident i => exact safeFrom_of_incidentTest e i h
  | compactCrash p c => exact compactSafe_of_compactTest h

/-- Two compactions are cut off, the memtable not empty, and then writes follow. -/
def cutTwice : List Mishap :=
  [.incident (.event (.op (.put [107] [1]))), .incident (.event (.op .forceFlush)),
    .incident (.event (.op (.put [97] [1]))), .incident (.crash .walOpened plainConfig),
    .incident (.event (.op (.put [98] [2]))), .compactCrash (.writing 40) plainConfig,
    .incident (.event (.op (.erase [107]))), .compactCrash (.deleted 2) plainConfig,
    .incident (.putCrash [99] [3] .before plainConfig), .incident (.event (.op (.erase [97])))]

theorem meets_cutTwice (e : KVEngine) (he : start [] plainConfig = .ok e) :
    Meets befall SafeAt e cutTwice := by
  have hcheck : Yields (start [] plainConfig)
      (fun e => checkAll befall mishapTest e cutTwice = true) := by
    decide +kernel
  exact meets_of_checkAll safeAt_of_mishapTest (hcheck.of_eq_ok he)

/-- The directory, when the current log has kept its first `n` bytes only. -/
def loseTail (e : KVEngine) (n : Nat) : Directory :=
  upsert e.currentWalPath ((held e.dir e.currentWalPath).take n) e.dir

/-- The records of the current log that a restart finds in a directory. -/
def readLog (e : KVEngine) (dir : Directory) : List ParsedLogRecord :=
  WalLogger.recover ⟨e.currentWalPath, false⟩ dir

/-- **The condition on the cut**: where it goes through a record behind its
    header, the missing bytes do not run from zero to zero. -/
def TailSafe (e : KVEngine) (n : Nat) : Prop :=
  SortsByNumber e.dir ∧ ∀ i r c, (readLog e e.dir)[i]? = some r →
    n = (encodeAll ((readLog e e.dir).take i)).length + c → 13 ≤ c → c < (encodeRecord r).length →
      computeCrc32 ((encodeRecord r).drop c) 0 ≠ 0

/-- A position in a log is behind all records, or in one of them. -/
theorem exists_record (n : Nat) : ∀ (rs : List ParsedLogRecord), (encodeAll rs).length ≤ n
    ∨ ∃ i r c, rs[i]? = some r ∧ n = (encodeAll (rs.take i)).length + c
        ∧ c < (encodeRecord r).length := by
  intro rs
  induction rs generalizing n with
  | nil => exact Or.inl (Nat.zero_le _)
  | cons r rs ih =>
      have hcons : ∀ qs, (encodeAll (r :: qs)).length
          = (encodeRecord r).length + (encodeAll qs).length := by
        intro qs
        simp [encodeAll]
      rcases Nat.lt_or_ge n (encodeRecord r).length with hlt | hge
      · exact Or.inr ⟨0, r, n, rfl, by simp [encodeAll], hlt⟩
      · rcases ih (n - (encodeRecord r).length) with hall | ⟨i, q, c, hi, hn, hc⟩
        · refine Or.inl ?_
          rw [hcons]
          omega
        · refine Or.inr ⟨i + 1, q, c, hi, ?_, hc⟩
          rw [List.take_succ_cons, hcons]
          omega

/-- What is recovered of a log that is cut. -/
theorem recoverFile_take {rs : List ParsedLogRecord} (h : ∀ r ∈ rs, RecordFits r) {n : Nat}
    (hsafe : ∀ i r c, rs[i]? = some r → n = (encodeAll (rs.take i)).length + c → 13 ≤ c →
      c < (encodeRecord r).length → computeCrc32 ((encodeRecord r).drop c) 0 ≠ 0) :
    ∃ i ≤ rs.length, recoverFile ((encodeAll rs).take n) = rs.take i := by
  rcases exists_record n rs with hall | ⟨i, r, c, hi, hn, hc⟩
  · refine ⟨rs.length, Nat.le_refl _, ?_⟩
    rw [List.take_of_length_le hall, List.take_length, recoverFile_of_frames h]
  · refine ⟨i, (List.getElem?_eq_some_iff.mp hi).1.le, ?_⟩
    have hbefore : ∀ x ∈ rs.take i, RecordFits x := fun x hx => h x (List.mem_of_mem_take hx)
    rw [hn, encodeAll_split hi, List.take_length_add_append, List.take_append_of_le_length hc.le,
      recoverFile_encodeAll hbefore, List.append_right_eq_self, recoverFile_eq_nil]
    by_cases hheader : c < 13
    · have hshort : ((encodeRecord r).take c).length < 13 := by
        rw [List.length_take_of_le hc.le]
        exact hheader
      exact Or.inl hshort
    · have hle : 13 ≤ c := Nat.le_of_not_lt hheader
      exact (rejected_take_iff (h r (List.mem_of_getElem? hi)) hle hc).mpr (hsafe i r c hi hn hle hc)

/-- The store with its current log cut. -/
def cutLog (s : Store) (n : Nat) : Store :=
  { s with logs := upsert s.log ((current s).take n) s.logs }

/-- A directory with the same names sorts as it did. -/
theorem sortsByNumber_congr {dir dir' : Directory}
    (h : ∀ name, (dir'.lookup name).isSome → (dir.lookup name).isSome) (hd : SortsByNumber dir) :
    SortsByNumber dir' :=
  ⟨fun m n hm hn => hd.1 m n (h _ hm) (h _ hn), fun m n hm hn => hd.2 m n (h _ hm) (h _ hn)⟩

/-- **A log that loses its tail** takes back the last writes of the run, as many
    as there are records in the tail, and nothing else: the restart reads what
    the run had written before them. -/
theorem lost_tail (c c' : Config) {ms : List Mishap}
    (hmeets : ∀ e, start [] c = .ok e → Meets befall SafeAt e ms) :
    Runs (start [] c >>= fun e => ms.foldlM befall e) (fun e => ∀ n, TailSafe e n →
      Runs (start (loseTail e n) c') (fun e' => ∃ js ks, ms = js ++ ks
        ∧ writes ks + (readLog e (loseTail e n)).length = (readLog e e.dir).length
        ∧ ∀ key, e'.get key = .ok (latestOf js key))) := by
  refine (follows_run c hmeets).mono ?_
  rintro e ⟨s, h⟩ n ⟨hnames, hsafe⟩
  obtain ⟨log, hlog⟩ := Option.isSome_iff_exists.mp h.durable.logged.here
  obtain ⟨rs, hrs, rfl⟩ := h.durable.logged.clean _ _ hlog
  have hcur : current s = encodeAll rs := by rw [current, hlog]; rfl
  have hrecords : records s = rs := by rw [records, hcur, recoverFile_of_frames hrs]
  have hheld : held e.dir e.currentWalPath = current s := by
    rw [held, h.rep.path, h.rep.dir.logAt, current]
  have hread : readLog e e.dir = rs := by
    rw [readLog, h.rep.path, recover_eq h.rep.dir, hlog]
    exact recoverFile_of_frames hrs
  have hdir : DirRep (loseTail e n) (cutLog s n).files (cutLog s n).logs := by
    rw [loseTail, hheld, h.rep.path]
    exact h.rep.dir.writeLog s.log _
  have hself : (cutLog s n).logs.lookup s.log = some ((encodeAll rs).take n) := by
    rw [← hcur]
    exact (lookup_upsert _ _ _ _).trans (if_pos rfl)
  rw [hread] at hsafe
  obtain ⟨i, hi, hcut⟩ := recoverFile_take hrs hsafe
  have hread' : readLog e (loseTail e n) = rs.take i := by
    rw [readLog, h.rep.path, recover_eq hdir, hself]
    exact hcut
  have hnames' : SortsByNumber (loseTail e n) := by
    refine sortsByNumber_congr ?_ hnames
    intro name hname
    rw [loseTail, lookup_upsert] at hname
    split at hname
    · rename_i heq
      rw [heq, h.rep.path, h.rep.dir.logAt, hlog]
      rfl
    · exact hname
  obtain ⟨e', hrun, hrep'⟩ := start_reopened hdir hnames' c'
  obtain ⟨js, ks, hms, hlost, hreads⟩ := h.rewinds i (hrecords ▸ hi)
  refine ends_of_eq_ok hrun ⟨js, ks, hms, ?_, ?_⟩
  · rw [hread, hread', List.length_take_of_le hi, hlost, hrecords]
  · intro key
    have hf := h.durable.filed
    have hfiled : Filed (cutLog s n) :=
      ⟨hf.sorted, hf.descending, hf.tableFile, hf.fileTable, hf.fileLe, hf.top⟩
    have hlogs : (replayed (cutLog s n).logs).lookup key
        = ((replayLayer ((records s).take i) []).lookup key).or ((stale s).lookup key) := by
      rw [cutLog, upsert_last h.durable.logged.sorted h.durable.logged.last, lookup_replayed_append,
        hcur, replayed, recordsOf, List.flatMap_singleton, hcut, hrecords]
      rfl
    rw [hrep'.get, view_reopened hfiled hdir.logsSorted, hlogs, ← hreads key, readAt,
      Option.or_assoc]
    rfl

theorem lost_tail_cutTwice :
    Runs (start [] plainConfig >>= fun e => cutTwice.foldlM befall e) (fun e => ∀ n, TailSafe e n →
      Runs (start (loseTail e n) plainConfig) (fun e' => ∃ js ks, cutTwice = js ++ ks
        ∧ writes ks + (readLog e (loseTail e n)).length = (readLog e e.dir).length
        ∧ ∀ key, e'.get key = .ok (latestOf js key))) :=
  lost_tail plainConfig plainConfig meets_cutTwice

end KvMishap
