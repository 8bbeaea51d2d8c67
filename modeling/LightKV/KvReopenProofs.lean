import LightKV.KvFilesProofs
import LightKV.KvLogsProofs

/-! # Closing and opening again

    A store is durable when its tables are the files on disk and its logs hold
    the memtable.  Opening a durable store's directory gives a durable store
    with the same reads (`start_durable`), so a clean reopen is transparent in
    every run whose flushes leave no log behind that disagrees with the memtable
    (`reopen_transparent`).  `Compact` moves the counter on, so that the next
    session starts a new log and never removes the old one; then a flush does
    leave one behind (`reopen_reads_old_value`). -/

namespace KvReopen

open Execution KvBytes KvCompaction KvDirectory KvEngine KvFiles KvLogs KvRecovery KvSession
open KvSkipList KvStore KvTable KvWal Overlay

/-! ## Opening a durable store -/

/-- **The store agrees with a map, on disk as well as in memory.** -/
structure Durable (g : Bytes → Option Bytes) (s : Store) : Prop where
  agrees : Agrees g s
  filed : Filed s
  logged : Logged s

variable {g : Bytes → Option Bytes} {s : Store}

/-- The store that opens on the files and logs of `s`. -/
abbrev reopened (s : Store) (maxMemNodes : Nat) : Store :=
  opened s.files s.logs (s.files.map Prod.fst) (s.logs.map Prod.fst) maxMemNodes

theorem mem_reopened (hs : KeySorted s.logs) (maxMemNodes : Nat) :
    (reopened s maxMemNodes).mem = replayed s.logs := by
  show replayLayer (recovered s.logs (s.logs.map Prod.fst)) [] = replayed s.logs
  rw [recovered_eq hs]
  rfl

theorem view_reopened (hf : Filed s) (hs : KeySorted s.logs) (maxMemNodes : Nat) (k : Bytes) :
    (reopened s maxMemNodes).view k
      = ((replayed s.logs).lookup k).or (overlay (s.tables.map Table.entries) k) := by
  rw [Store.view, overlay_cons, mem_reopened hs]
  show _ = ((replayed s.logs).lookup k).or (overlay (s.tables.map Table.entries) k)
  rw [← hf.loadTables]
  rfl

/-- The tables that open are those of the files. -/
theorem filed_reopened (hs : KeySorted s.files) (maxMemNodes : Nat) :
    Filed (reopened s maxMemNodes) where
  sorted := hs
  descending := by
    refine (tidy_opened hs rfl s.logs (s.logs.map Prod.fst) maxMemNodes).ordered.imp_of_mem ?_
    intro t u ht hu hlt
    rwa [(mem_loadTables.mp ht).2.1, (mem_loadTables.mp hu).2.1] at hlt
  tableFile := fun t ht => (mem_loadTables.mp ht).2.2
  fileTable := by
    intro n es hn hne
    refine ⟨⟨n, n, es⟩, mem_loadTables.mpr ⟨?_, rfl, hn, hne⟩, rfl⟩
    rw [List.mem_reverse, mem_map_fst_iff]
    exact Option.isSome_iff_exists.mpr ⟨es, hn⟩
  fileLe := by
    intro n es hn
    exact le_maxOf (mem_map_fst_iff.mpr (Option.isSome_iff_exists.mpr ⟨es, hn⟩))
  top := by
    rcases maxOf_mem (s.files.map Prod.fst) with hz | hm
    · exact Or.inl hz
    · exact Or.inr (mem_map_fst_iff.mp hm)

/-- The logs that open are those of `s`, and the next one. -/
theorem logged_reopened (hf : Filed s) (hs : KeySorted s.logs)
    (hclean : ∀ n log, s.logs.lookup n = some log → Clean log)
    (hle : ∀ n, (s.logs.lookup n).isSome → n ≤ s.counter + 1) (maxMemNodes : Nat) :
    Logged (reopened s maxMemNodes) := by
  have hmax := hf.maxOf_eq
  have hmem := mem_reopened hs maxMemNodes
  -- `Open` appends: a log of that number keeps what it holds
  have hopen : ∀ n, (openLog (maxOf (s.files.map Prod.fst) + 1) s.logs).lookup n
      = if n = s.counter + 1 then some ((s.logs.lookup n).getD []) else s.logs.lookup n := by
    intro n
    rw [hmax, lookup_openLog]
    split
    · rename_i hn
      rw [hn]
    · rfl
  have hlast : ∀ n, ((openLog (maxOf (s.files.map Prod.fst) + 1) s.logs).lookup n).isSome →
      n ≤ maxOf (s.files.map Prod.fst) + 1 := by
    intro n hn
    rw [hopen] at hn
    rw [hmax]
    split at hn
    · omega
    · exact hle n hn
  -- the empty log changes no replay
  have hall : ∀ k, (replayed (openLog (maxOf (s.files.map Prod.fst) + 1) s.logs)).lookup k
      = (replayed s.logs).lookup k :=
    lookup_replayed_openLog hs (by rw [hmax]; exact hle)
  exact
    { sorted := keySorted_openLog hs
      clean := by
        intro n log hn
        have hn' := hopen n ▸ hn
        split at hn'
        · obtain rfl := Option.some.inj hn'
          cases hl : s.logs.lookup n with
          | none => exact clean_nil
          | some log => exact hclean n log hl
        · exact hclean n log hn'
      here := by
        show ((openLog (maxOf (s.files.map Prod.fst) + 1) s.logs).lookup
          (maxOf (s.files.map Prod.fst) + 1)).isSome
        rw [lookup_openLog, if_pos rfl]
        rfl
      last := hlast
      told := by
        intro k tv hk
        rw [hmem, ← hall]
        refine replayed_of_last (keySorted_openLog hs) hlast ?_ hk
        show _ = some (((openLog (maxOf (s.files.map Prod.fst) + 1) s.logs).lookup
          (maxOf (s.files.map Prod.fst) + 1)).getD [])
        rw [lookup_openLog, if_pos rfl]
        rfl
      kept := by
        intro k tv hk
        rw [hmem] at hk
        exact (hall k).trans hk
      agree := by
        intro k tv hk
        have hk' := (hall k).symm.trans hk
        rw [view_reopened hf hs, hk']
        rfl }

/-- **Opening again.**  The files and logs of `s` are opened, where a replay of
    the logs over the tables reads as `g`. -/
theorem durable_opened (hf : Filed s) (hs : KeySorted s.logs)
    (hclean : ∀ n log, s.logs.lookup n = some log → Clean log)
    (hle : ∀ n, (s.logs.lookup n).isSome → n ≤ s.counter + 1)
    (hreads : ∀ k, visible (((replayed s.logs).lookup k).or
      (overlay (s.tables.map Table.entries) k)) = g k) (maxMemNodes : Nat) :
    Durable g (reopened s maxMemNodes) := by
  refine ⟨⟨tidy_opened hf.sorted rfl s.logs _ maxMemNodes, ?_, ?_⟩, filed_reopened hf.sorted maxMemNodes,
    logged_reopened hf hs hclean hle maxMemNodes⟩
  · exact fits_replayLayer (recordFits_recovered s.logs _)
  · intro k
    rw [view_reopened hf hs, hreads]

/-- What a replay of the logs reads, over tables that read the same. -/
theorem Durable.reads_visible (h : Durable g s) {tables : List Table} {k : Bytes}
    (ht : s.mem.lookup k = none → visible (overlay (tables.map Table.entries) k)
      = visible (overlay (s.tables.map Table.entries) k)) :
    visible (((replayed s.logs).lookup k).or (overlay (tables.map Table.entries) k)) = g k := by
  rw [← h.agrees.reads k]
  cases hk : (replayed s.logs).lookup k with
  | some tv => exact h.logged.agree k tv hk
  | none =>
      have hmem : s.mem.lookup k = none := by
        by_contra hc
        obtain ⟨tv, htv⟩ := Option.ne_none_iff_exists'.mp hc
        rw [h.logged.kept k tv htv] at hk
        cases hk
      rw [Option.none_or, ht hmem, Store.view, overlay_cons, hmem, Option.none_or]

/-- What a replay of the logs reads, over tables that hide nothing new. -/
theorem Durable.reads_disk (h : Durable g s) {tables : List Table} {k : Bytes}
    (ht : s.mem.lookup k = none →
      overlay (tables.map Table.entries) k = overlay (s.tables.map Table.entries) k) :
    visible (((replayed s.logs).lookup k).or (overlay (tables.map Table.entries) k)) = g k :=
  h.reads_visible (fun hmem => congrArg visible (ht hmem))

/-- The names of numbered files in a directory sort as their numbers do. -/
def NamesSorted (path : Nat → Bytes) (dir : Directory) : Prop :=
  ∀ m n, (dir.lookup (path m)).isSome → (dir.lookup (path n)).isSome → m < n → path m < path n

/-- The names of tables and of logs sort as their numbers do. -/
def SortsByNumber (dir : Directory) : Prop :=
  NamesSorted getSstPath dir ∧ NamesSorted getWalPath dir

theorem namesInOrder_of_namesSorted {V : Type} {path : Nat → Bytes} {dir : Directory}
    (h : NamesSorted path dir) {fs : List (Nat × V)} (hs : KeySorted fs)
    (hlook : ∀ n, (fs.lookup n).isSome → (dir.lookup (path n)).isSome) : NamesInOrder path fs := by
  rw [NamesInOrder, List.pairwise_map]
  refine hs.imp_of_mem ?_
  intro a b ha hb hab
  have hmem : ∀ f ∈ fs, (dir.lookup (path f.1)).isSome := by
    intro f hf
    exact hlook f.1 (mem_map_fst_iff.mp (List.mem_map_of_mem hf))
  exact h a.1 b.1 (hmem a ha) (hmem b hb) hab

/-- The logs' names in a directory whose names sort so. -/
theorem walNames_eq {dir : Directory} {files : List (Nat × List Entry)}
    {logs : List (Nat × Bytes)} (hdir : DirRep dir files logs) (h : NamesSorted getWalPath dir) :
    walNames dir = (logs.map Prod.fst).map getWalPath := by
  obtain ⟨ms, hms, -, hord⟩ := walNames_spec hdir
  rw [hms, hord (namesInOrder_of_namesSorted h hdir.logsSorted (fun n hn => by rwa [hdir.logAt n]))]

theorem namesInOrder_tables {dir : Directory} {files : List (Nat × List Entry)}
    {logs : List (Nat × Bytes)} (hdir : DirRep dir files logs) (h : NamesSorted getSstPath dir) :
    NamesInOrder getSstPath files := by
  refine namesInOrder_of_namesSorted h hdir.filesSorted ?_
  intro n hn
  rwa [fileRel_isSome (hdir.tableAt n)]

/-- The tables' names in a directory whose names sort so. -/
theorem sstNames_eq {dir : Directory} {files : List (Nat × List Entry)} {logs : List (Nat × Bytes)}
    (hdir : DirRep dir files logs) (h : NamesSorted getSstPath dir) :
    sstNames dir = (files.map Prod.fst).map getSstPath := by
  obtain ⟨ns, hns, -, hord⟩ := sstNames_spec hdir
  rw [hns, hord (namesInOrder_tables hdir h)]

/-- **What a directory holds** when its next engine will read as `g`. -/
structure Restartable (g : Bytes → Option Bytes) (dir : Directory) (s : Store) : Prop where
  dir : DirRep dir s.files s.logs
  filed : Filed s
  clean : ∀ n log, s.logs.lookup n = some log → Clean log
  logLe : ∀ n, (s.logs.lookup n).isSome → n ≤ s.counter + 1
  reads : ∀ k, visible (((replayed s.logs).lookup k).or
    (overlay (s.tables.map Table.entries) k)) = g k

/-- **Opening a directory** gives the store that opens on its files and logs. -/
theorem start_reopened {dir : Directory} (hdir : DirRep dir s.files s.logs)
    (hnames : SortsByNumber dir) (c : Config) :
    ∃ e, start dir c = .ok e ∧ Rep e (reopened s c.maxMemNodes) := by
  obtain ⟨ns, ms, e, -, hns, hms, hrun, hrep⟩ :=
    open_spec hdir c.maxMemNodes c.one_le_maxLevel c.draws
  have hns' : ns = s.files.map Prod.fst := hns (namesInOrder_tables hdir hnames.1)
  have hms' : ms = s.logs.map Prod.fst := hms (namesInOrder_of_namesSorted hnames.2
    hdir.logsSorted (fun n hn => by rwa [hdir.logAt n]))
  subst hns'
  subst hms'
  exact ⟨e, hrun, hrep⟩

/-- The store that opens on such a directory is durable. -/
theorem Restartable.durable {dir : Directory} (h : Restartable g dir s) (maxMemNodes : Nat) :
    Durable g (reopened s maxMemNodes) :=
  durable_opened h.filed h.dir.logsSorted h.clean h.logLe h.reads maxMemNodes

/-- **Opening a directory** gives a durable engine. -/
theorem start_durable {dir : Directory} (h : Restartable g dir s) (hnames : SortsByNumber dir)
    (c : Config) : ∃ e s', start dir c = .ok e ∧ Rep e s' ∧ Durable g s' := by
  obtain ⟨e, hrun, hrep⟩ := start_reopened h.dir hnames c
  exact ⟨e, _, hrun, hrep, h.durable c.maxMemNodes⟩

/-- A durable engine leaves a directory for the next one. -/
theorem Durable.restartable {e : KVEngine} (h : Durable g s) (hrep : Rep e s) :
    Restartable g e.close s where
  dir := hrep.dir
  filed := h.filed
  clean := h.logged.clean
  logLe n hn := (h.logged.last n hn).trans hrep.logLe
  reads _ := h.reads_disk (fun _ => rfl)

/-! ## Runs of sessions -/

/-- What happens to a directory over its life. -/
inductive Event
  | op (o : Op)
  /-- the engine is closed, and the directory opened again -/
  | reopen (c : Config)

/-- One event. -/
def happen (e : KVEngine) : Event → Except Fault KVEngine
  | .op o => execute e o
  | .reopen c => start e.close c

/-- What the logs other than the current one say. -/
def staleOf (e : KVEngine) : List Entry :=
  replayLayer (((walNames e.dir).filter (· ≠ e.currentWalPath)).flatMap
    (fun walPath => WalLogger.recover ⟨walPath, false⟩ e.dir)) []

/-- A flush of this memtable leaves no log behind that disagrees with it. -/
def FlushSafe (e : KVEngine) : Prop :=
  NamesSorted getWalPath e.dir ∧ ∀ key tv tv', e.skiplist.get key = .ok (some tv) →
    (staleOf e).lookup key = some tv' → visible (some tv') = visible (some tv)

/-- **The condition on each operation**, in the state before it. -/
def OpSafe (e : KVEngine) : Op → Prop
  | .put key value => key.length < 2 ^ 32 ∧ value.length < 2 ^ 32
      ∧ ∀ e', e.write .PUT key value ⟨.kTypeValue, value⟩ = .ok e' →
        e'.skiplist.size ≥ e'.maxMemNodes → FlushSafe e'
  | .erase key => key.length < 2 ^ 32
  | .forceFlush => FlushSafe e
  | .compact => True

/-- The condition on each event: a directory is opened only while its names sort
    as its numbers do. -/
def Safe (e : KVEngine) : Event → Prop
  | .op o => OpSafe e o
  | .reopen _ => SortsByNumber e.dir

/-- What the logs that a flush leaves behind say. -/
theorem staleOf_eq {e : KVEngine} (hrep : Rep e s) (h : NamesSorted getWalPath e.dir) :
    staleOf e = stale s := by
  have hfilter : ((s.logs.map Prod.fst).map getWalPath).filter (· ≠ getWalPath s.log)
      = ((discard s.log s.logs).map Prod.fst).map getWalPath := by
    rw [Overlay.discard, List.map_map, List.map_map, List.filter_map]
    congr 1
    refine List.filter_congr ?_
    intro l _
    simp only [Function.comp_apply, ne_eq, decide_not, beq_eq_decide]
    congr 1
    exact decide_eq_decide.mpr ⟨fun h => getWalPath_injective h, fun h => congrArg getWalPath h⟩
  rw [staleOf, walNames_eq hrep.dir h, hrep.path, hfilter, stale, replayed, recordsOf,
    List.flatMap_map, List.flatMap_map]
  congr 1
  refine List.flatMap_congr ?_
  intro l hl
  rw [recover_eq hrep.dir, (lookup_eq_some_iff hrep.dir.logsSorted).mpr (mem_discard hl)]
  rfl

/-- **A flush that is safe** keeps a store durable. -/
theorem durable_flush {e : KVEngine} (hrep : Rep e s) (h : Durable g s) (hsafe : FlushSafe e) :
    Durable g s.flush := by
  refine ⟨agrees_flush h.agrees, h.filed.flush,
    h.logged.flush h.agrees.fits hrep.logLe ?_⟩
  intro k tv tv' hmem hstale
  refine hsafe.2 k tv tv' (by rw [models_get hrep.mem, hmem]) ?_
  rw [staleOf_eq hrep hsafe.1]
  exact hstale

/-- **A write** keeps a store durable. -/
theorem durable_write (h : Durable g s) (r : ParsedLogRecord) (tv : TableValue) (hw : Writes r tv)
    (hf : RecordFits r) (hfit : Fits (r.key, tv)) :
    Durable (fun k => if k = r.key then visible (some tv) else g k) (s.write r tv) :=
  ⟨agrees_write h.agrees r tv hfit,
    ⟨h.filed.sorted, h.filed.descending, h.filed.tableFile, h.filed.fileTable, h.filed.fileLe,
      h.filed.top⟩,
    h.logged.write hw hf⟩

/-- **Every operation that is safe** keeps a store durable. -/
theorem durable_step {e : KVEngine} {s' : Store} {o : Op} (hrep : Rep e s) (h : Durable g s)
    (hsafe : OpSafe e o) (hs : Step s o s') : Durable (effect g o) s' := by
  cases hs with
  | put key value =>
      obtain ⟨hkey, hvalue, hflush⟩ := hsafe
      have hw : Durable (effect g (.put key value))
          (s.write ⟨.PUT, key, value⟩ ⟨.kTypeValue, value⟩) :=
        durable_write h ⟨.PUT, key, value⟩ ⟨.kTypeValue, value⟩ (Or.inl ⟨rfl, rfl⟩)
          ⟨hkey, hvalue⟩ ⟨hkey, Or.inr ⟨rfl, hvalue⟩⟩
      obtain ⟨e', hrun, hrep'⟩ := hrep.write .PUT value ⟨.kTypeValue, value⟩ hkey (Or.inr rfl)
      rw [Store.put]
      split
      · rename_i hfull
        refine durable_flush hrep' hw (hflush e' hrun ?_)
        rw [models_size hrep'.mem, hrep'.maxMemNodes]
        exact hfull
      · exact hw
  | erase key =>
      exact durable_write h ⟨.ERASE, key, []⟩ ⟨.kTypeDeletion, []⟩ (Or.inr ⟨rfl, rfl⟩)
        ⟨hsafe, by simp⟩ ⟨hsafe, Or.inl ⟨rfl, rfl⟩⟩
  | forceFlush => exact durable_flush hrep h hsafe
  | compactNone hle => exact h
  | @compact hlt m hm =>
      have hview := visible_compacted h.agrees.tidy (good_of_rep hrep) hm
      have hagrees : Agrees g (Store.compacted s m) := by
        refine ⟨tidy_compacted h.agrees.tidy m, ?_, fun k => by rw [hview, h.agrees.reads k]⟩
        intro kv hkv
        rw [mem_compacted] at hkv
        exact h.agrees.fits kv hkv
      obtain ⟨hlog, hlogs⟩ := logs_compacted s m
      exact ⟨hagrees, h.filed.compacted m,
        h.logged.of_view (mem_compacted s m) hlog hlogs hview⟩

/-- An operation that is safe has a key that fits. -/
theorem OpSafe.keyFits {e : KVEngine} {o : Op} (h : OpSafe e o) : o.KeyFits := by
  cases o with
  | put key value => exact h.1
  | erase key => exact h
  | forceFlush => trivial
  | compact => trivial

/-- **Every event that is safe** keeps the engine durable. -/
theorem happen_durable {e : KVEngine} {ev : Event} (h : ∃ s g, Rep e s ∧ Durable g s)
    (hsafe : Safe e ev) : Runs (happen e ev) (fun e' => ∃ s g, Rep e' s ∧ Durable g s) := by
  obtain ⟨s, g, hrep, hd⟩ := h
  cases ev with
  | op o =>
      refine (execute_spec hrep (OpSafe.keyFits hsafe)).mono ?_
      rintro e' ⟨s', hs, hrep'⟩
      exact ⟨s', _, hrep', durable_step hrep hd hsafe hs⟩
  | reopen c =>
      obtain ⟨e', s', hrun, hrep', hd'⟩ := start_durable (hd.restartable hrep) hsafe c
      exact ends_of_eq_ok hrun ⟨s', g, hrep', hd'⟩

/-- A fresh store is durable. -/
theorem durable_fresh (maxMemNodes : Nat) :
    Durable (fun _ => none) (opened [] [] [] [] maxMemNodes) :=
  durable_opened (s := ⟨[], [], 0, maxMemNodes, [], 0, []⟩) (g := fun _ => none)
    ⟨keySorted_nil, List.Pairwise.nil, by simp, by simp, by simp, Or.inl rfl⟩
    keySorted_nil (by simp) (by simp) (fun _ => rfl) maxMemNodes

/-- **A clean reopen is transparent**, in every run whose events are safe. -/
theorem reopen_transparent (c c' : Config) {evs : List Event}
    (hmeets : ∀ e, start [] c = .ok e → Meets happen Safe e (evs ++ [.reopen c'])) :
    Runs (do
        let e ← start [] c
        let e ← evs.foldlM happen e
        let e' ← start e.close c'
        pure (e, e'))
      (fun p => ∀ key, p.2.get key = p.1.get key) := by
  obtain ⟨e, hrun, hrep⟩ := start_nil c
  obtain ⟨hevs, hlast⟩ := (hmeets e hrun).append
  let I : List Event → KVEngine → Prop := fun _ e => ∃ s g, Rep e s ∧ Durable g s
  have hall := ends_foldlM I (fun h hok => happen_durable h hok) evs hevs
    ⟨_, _, hrep, durable_fresh c.maxMemNodes⟩
  rw [hrun, ok_bind]
  cases hev : evs.foldlM happen e with
  | error f =>
      rw [hev] at hall
      exact hall
  | ok e₁ =>
      rw [hev] at hall
      obtain ⟨s₁, g, hrep₁, hd₁⟩ := hall
      obtain ⟨e₂, s₂, hrun₂, hrep₂, hd₂⟩ := start_durable (hd₁.restartable hrep₁) (hlast e₁ hev).1 c'
      rw [ok_bind, hrun₂]
      intro key
      show e₂.get key = e₁.get key
      rw [hrep₁.get, hrep₂.get, hd₁.agrees.reads, hd₂.agrees.reads]

/-- A test for `SortsByNumber`: every number in a name has six digits. -/
def shortNames (dir : Directory) : Bool :=
  dir.all (fun f => f.1.length ≤ if isSstName f.1 then 10 else 14)

theorem sortsByNumber_of_shortNames {dir : Directory} (h : shortNames dir = true) :
    SortsByNumber dir := by
  have hmem : ∀ {name : Bytes}, (dir.lookup name).isSome →
      name.length ≤ if isSstName name then 10 else 14 := by
    intro name hname
    obtain ⟨file, hfile⟩ := Option.isSome_iff_exists.mp hname
    exact of_decide_eq_true (List.all_eq_true.mp h _ (mem_of_lookup hfile))
  have hsst : ∀ {n : Nat}, (dir.lookup (getSstPath n)).isSome → n < 10 ^ 6 := by
    intro n hn
    have hlen := hmem hn
    rw [isSstName_getSstPath, if_pos rfl, getSstPath, List.length_append] at hlen
    exact lt_of_length_padded (Nat.le_of_add_le_add_right hlen)
  have hwal : ∀ {n : Nat}, (dir.lookup (getWalPath n)).isSome → n < 10 ^ 6 := by
    intro n hn
    have hlen := hmem hn
    rw [isSstName_getWalPath, if_neg Bool.false_ne_true, getWalPath, List.length_append,
      List.length_append] at hlen
    have h1 : walPrefix.length = 4 := rfl
    have h2 : dotLog.length = 4 := rfl
    exact lt_of_length_padded (by omega)
  exact ⟨fun m n hm hn => getSstPath_lt (hsst hm) (hsst hn),
    fun m n hm hn => getWalPath_lt (hwal hm) (hwal hn)⟩

/-- A test for `FlushSafe`: no other log says anything. -/
def noStaleLog (e : KVEngine) : Bool := shortNames e.dir && (staleOf e).isEmpty

theorem flushSafe_of_noStaleLog {e : KVEngine} (h : noStaleLog e = true) : FlushSafe e := by
  obtain ⟨hnames, hempty⟩ := Bool.and_eq_true_iff.mp h
  refine ⟨(sortsByNumber_of_shortNames hnames).2, ?_⟩
  intro key tv tv' _ hstale
  rw [List.isEmpty_iff.mp hempty] at hstale
  cases hstale

/-- A test for `Safe`. -/
def safeTest (e : KVEngine) : Event → Bool
  | .op (.put key value) => key.length < 2 ^ 32 && value.length < 2 ^ 32
      && match e.write .PUT key value ⟨.kTypeValue, value⟩ with
        | .ok e' => e'.skiplist.size < e'.maxMemNodes || noStaleLog e'
        | .error _ => true
  | .op (.erase key) => key.length < 2 ^ 32
  | .op .forceFlush => noStaleLog e
  | .op .compact => true
  | .reopen _ => shortNames e.dir

theorem safe_of_safeTest (e : KVEngine) (ev : Event) (h : safeTest e ev = true) : Safe e ev := by
  cases ev with
  | reopen c => exact sortsByNumber_of_shortNames h
  | op o =>
      cases o with
      | put key value =>
          obtain ⟨hfits, htest⟩ := Bool.and_eq_true_iff.mp h
          obtain ⟨hkey, hvalue⟩ := Bool.and_eq_true_iff.mp hfits
          refine ⟨of_decide_eq_true hkey, of_decide_eq_true hvalue, ?_⟩
          intro e' hrun hfull
          rw [hrun] at htest
          rcases Bool.or_eq_true_iff.mp htest with hlt | hquiet
          · exact absurd (of_decide_eq_true hlt) (Nat.not_lt_of_le hfull)
          · exact flushSafe_of_noStaleLog hquiet
      | erase key =>
          show key.length < 2 ^ 32
          exact of_decide_eq_true h
      | forceFlush => exact flushSafe_of_noStaleLog h
      | compact => trivial

/-- Two sessions with a compaction that is followed by a flush. -/
def compactThenFlush : List Event :=
  [.op (.put [107] [1]), .op .forceFlush, .op (.put [97] [1]), .op .forceFlush, .op .compact,
    .op (.put [107] [2]), .op .forceFlush, .op (.put [98] [1]), .reopen plainConfig,
    .op (.erase [97])]

theorem reopen_transparent_plain :
    Runs (do
        let e ← start [] plainConfig
        let e ← compactThenFlush.foldlM happen e
        let e' ← start e.close plainConfig
        pure (e, e'))
      (fun p => ∀ key, p.2.get key = p.1.get key) := by
  refine reopen_transparent plainConfig plainConfig ?_
  intro e he
  have hcheck : Yields (start [] plainConfig)
      (fun e => checkAll happen safeTest e (compactThenFlush ++ [.reopen plainConfig]) = true) := by
    decide +kernel
  exact meets_of_checkAll safe_of_safeTest (hcheck.of_eq_ok he)

/-- A session that writes after its compaction, and one that overwrites and
    flushes. -/
def compactThenClose : List Event :=
  [.op (.put [97] [1]), .op .forceFlush, .op (.put [98] [1]), .op .forceFlush,
    .op (.put [107] [1]), .op .compact, .reopen plainConfig, .op (.put [107] [2]),
    .op .forceFlush]

/-- **The log of the first session is replayed over the table of the second.** -/
theorem reopen_reads_old_value :
    Yields (do
        let e ← start [] plainConfig
        let e ← compactThenClose.foldlM happen e
        let e' ← start e.close plainConfig
        pure (e, e'))
      (fun p => p.1.get [107] = .ok (some [2]) ∧ p.2.get [107] = .ok (some [1])) := by
  decide +kernel

end KvReopen
