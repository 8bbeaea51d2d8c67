import LightKV.KvCrashInFlightProofs
import LightKV.KvMishapProofs

/-! # Tables that are lost

    `LoadExistingSSTables` passes over a file that `Open` rejects, and says nothing.
    When the files of some tables are overwritten by such bytes (`spoil`), the next
    engine starts all the same, and answers as one whose readers of these files were
    taken away (`without`).  What the other tables tell of a key had been true at
    some moment of the run (`Past`), so every key reads as at such a moment, which
    may be another one for each key, and a key that no lost table holds reads as
    before (`lost_tables`). -/

namespace KvLostTables

open Execution KvBytes KvCrashInFlight KvDirectory KvEngine KvFiles KvFlushCrash KvLogs KvMerging
open KvMishap KvRecovery KvReopen KvSession KvStore KvTable KvTableOrder Overlay

/-- The file of a table is overwritten. -/
def overwriteTable (dir : Directory) (harm : Nat × Bytes) : Directory :=
  upsert (getSstPath harm.1) harm.2 dir

/-- The files of some tables are. -/
def spoil (dir : Directory) (harms : List (Nat × Bytes)) : Directory :=
  harms.foldl overwriteTable dir

/-- A file that is overwritten. -/
def Spoiled (harms : List (Nat × Bytes)) (filename : Bytes) : Prop :=
  filename ∈ harms.map (fun harm => getSstPath harm.1)

instance (harms : List (Nat × Bytes)) (filename : Bytes) : Decidable (Spoiled harms filename) :=
  inferInstanceAs (Decidable (_ ∈ _))

/-- The engine without the readers of these files. -/
def without (e : KVEngine) (harms : List (Nat × Bytes)) : KVEngine :=
  { e with sstables := e.sstables.filter (fun sst => ¬ Spoiled harms sst.filename) }

/-- **The condition on the damage**: it goes to files that are there, and the new
    bytes are no table. -/
def HarmSafe (e : KVEngine) (harms : List (Nat × Bytes)) : Prop :=
  SortsByNumber e.dir ∧ ∀ harm ∈ harms,
    (e.dir.lookup (getSstPath harm.1)).isSome ∧ Unopenable harm.2

/-! ## Files that hold no table -/

variable {dir : Directory} {files : List (Nat × List Entry)} {logs : List (Nat × Bytes)}
variable {harms : List (Nat × Bytes)}

/-- Files that `Open` rejects from now on. -/
def spoilFiles (files : List (Nat × List Entry)) (ns : List Nat) : List (Nat × List Entry) :=
  ns.foldl (fun files n => upsert n [] files) files

/-- The tables that are left. -/
def kept (ns : List Nat) (n : Nat) : Bool := n ∉ ns

theorem spoiled_getSstPath (n : Nat) :
    Spoiled harms (getSstPath n) ↔ n ∈ harms.map Prod.fst := by
  rw [Spoiled, List.mem_map, List.mem_map]
  constructor
  · rintro ⟨harm, hharm, heq⟩
    exact ⟨harm, hharm, getSstPath_injective heq⟩
  · rintro ⟨harm, hharm, rfl⟩
    exact ⟨harm, hharm, rfl⟩

/-- **What the directory stands for** when tables are overwritten. -/
theorem dirRep_spoil :
    ∀ (harms : List (Nat × Bytes)) {dir : Directory} {files : List (Nat × List Entry)},
      DirRep dir files logs → (∀ harm ∈ harms, Unopenable harm.2) →
      DirRep (spoil dir harms) (spoilFiles files (harms.map Prod.fst)) logs := by
  intro harms
  induction harms with
  | nil => exact fun h _ => h
  | cons harm harms ih =>
      intro dir files h hharms
      have hfirst := h.writeFile (Or.inl ⟨rfl, hharms harm List.mem_cons_self⟩) harm.1
      exact ih hfirst (fun harm' hharm' => hharms harm' (List.mem_cons_of_mem _ hharm'))

theorem lookup_spoilFiles (n : Nat) :
    ∀ (ns : List Nat) (files : List (Nat × List Entry)),
      (spoilFiles files ns).lookup n = if n ∈ ns then some [] else files.lookup n := by
  intro ns
  induction ns with
  | nil =>
      intro files
      rw [if_neg List.not_mem_nil]
      rfl
  | cons m ns ih =>
      intro files
      have hrest := ih (upsert m [] files)
      rw [lookup_upsert] at hrest
      show (spoilFiles (upsert m [] files) ns).lookup n = _
      rw [hrest]
      by_cases hn : n ∈ ns
      · rw [if_pos hn, if_pos (List.mem_cons_of_mem _ hn)]
      · by_cases hm : n = m
        · rw [if_neg hn, if_pos hm, if_pos (List.mem_cons.mpr (Or.inl hm))]
        · rw [if_neg hn, if_neg hm, if_neg (fun h => (List.mem_cons.mp h).elim hm hn)]

/-- Names are there as before. -/
theorem lookup_spoil_isSome (name : Bytes) :
    ∀ (harms : List (Nat × Bytes)) {dir : Directory},
      (∀ harm ∈ harms, (dir.lookup (getSstPath harm.1)).isSome) →
      (((spoil dir harms).lookup name).isSome ↔ (dir.lookup name).isSome) := by
  intro harms
  induction harms with
  | nil => exact fun _ => Iff.rfl
  | cons harm harms ih =>
      intro dir h
      have hsame : ∀ name', ((overwriteTable dir harm).lookup name').isSome
          ↔ (dir.lookup name').isSome := by
        intro name'
        rw [overwriteTable, lookup_upsert]
        split
        case isTrue heq =>
            rw [heq]
            exact iff_of_true rfl (h harm List.mem_cons_self)
        case isFalse => exact Iff.rfl
      have hthere : ∀ harm' ∈ harms,
          ((overwriteTable dir harm).lookup (getSstPath harm'.1)).isSome := by
        intro harm' hharm'
        exact (hsame _).mpr (h harm' (List.mem_cons_of_mem _ hharm'))
      exact (ih hthere).trans (hsame name)

/-- **The tables of the files that are left.** -/
theorem loadTables_spoilFiles (files : List (Nat × List Entry)) (ns ms : List Nat) :
    loadTables (spoilFiles files ns) ms = loadTables files (ms.filter (kept ns)) := by
  rw [loadTables, loadTables, List.filterMap_filter]
  refine List.filterMap_congr ?_
  intro n _
  rw [loadTable, lookup_spoilFiles, kept]
  by_cases hn : n ∈ ns
  · simp [hn]
  · simp [hn, loadTable]

theorem loadTables_filter (files : List (Nat × List Entry)) (p : Nat → Bool) (ms : List Nat) :
    loadTables files (ms.filter p) = (loadTables files ms).filter (fun t => p t.number) := by
  rw [loadTables, loadTables, List.filterMap_filter, List.filter_filterMap]
  refine List.filterMap_congr ?_
  intro n _
  cases hload : loadTable files n with
  | none => split <;> rfl
  | some t =>
      rw [(loadTable_eq_some hload).1.symm]
      rfl

/-- Readers that are left, and the tables they read. -/
theorem forall₂_kept {readers : List SSTableReader} {ts : List Table}
    (h : List.Forall₂ ReaderOf readers ts) :
    List.Forall₂ ReaderOf (readers.filter (fun sst => ¬ Spoiled harms sst.filename))
      (ts.filter (fun t => kept (harms.map Prod.fst) t.number)) := by
  induction h with
  | nil => exact List.Forall₂.nil
  | @cons r t readers ts hr _ ih =>
      have hsame : decide (¬ Spoiled harms r.filename) = kept (harms.map Prod.fst) t.number := by
        rw [kept, hr.1]
        exact decide_eq_decide.mpr (not_congr (spoiled_getSstPath t.number))
      rw [List.filter_cons, List.filter_cons, hsame]
      split
      · exact List.Forall₂.cons hr ih
      · exact ih

/-! ## The next engine -/

variable {done : List Mishap} {e e₀ : KVEngine} {s : Store}

/-- The store without the files that are lost. -/
def spoilStore (s : Store) (harms : List (Nat × Bytes)) : Store :=
  { s with files := spoilFiles s.files (harms.map Prod.fst) }

/-- What opens is what would have opened, without these tables. -/
theorem reopened_spoilStore (hdir : DirRep dir s.files s.logs)
    (hdir' : DirRep (spoil dir harms) (spoilStore s harms).files s.logs)
    (hthere : ∀ harm ∈ harms, (dir.lookup (getSstPath harm.1)).isSome) (maxMemNodes : Nat) :
    reopened (spoilStore s harms) maxMemNodes = { reopened s maxMemNodes with
      tables := (reopened s maxMemNodes).tables.filter (fun t => kept (harms.map Prod.fst) t.number)
      files := (spoilStore s harms).files } := by
  have hkeys : (spoilStore s harms).files.map Prod.fst = s.files.map Prod.fst := by
    refine keys_eq_of_isSome hdir'.filesSorted hdir.filesSorted ?_
    intro n
    rw [← fileRel_isSome (hdir'.tableAt n), ← fileRel_isSome (hdir.tableAt n)]
    exact lookup_spoil_isSome (getSstPath n) harms hthere
  rw [reopened, hkeys]
  show Store.mk _ (loadTables (spoilFiles s.files (harms.map Prod.fst)) _) _ _ _ _ _ = _
  rw [loadTables_spoilFiles, loadTables_filter]
  rfl

/-- **What some of the tables tell** under the logs had been true at some moment of
    the run. -/
theorem read_past (h : Follows done e s) {ts : List Table}
    (hts : ∀ t ∈ ts, t.entries ∈ s.tables.map Table.entries) (key : Bytes) :
    ∃ js, js <+: done ∧ visible (((replayed s.logs).lookup key).or
      (overlay (ts.map Table.entries) key)) = latestOf js key := by
  cases hlog : (replayed s.logs).lookup key with
  | some tv =>
      -- what the logs tell is the last write
      refine ⟨done, List.prefix_refl done, ?_⟩
      rw [← h.durable.reads_disk (fun _ => rfl), hlog]
      rfl
  | none =>
      rw [Option.none_or]
      cases hread : overlay (ts.map Table.entries) key with
      | none => exact ⟨[], List.nil_prefix, rfl⟩
      | some tv =>
          obtain ⟨l, hl, hlook⟩ := List.exists_of_findSome?_eq_some hread
          obtain ⟨t, ht, rfl⟩ := List.mem_map.mp hl
          obtain ⟨js, hjs, hpast⟩ := h.past _ (hts t ht) key tv hlook
          exact ⟨js, hjs, hpast.symm⟩

/-- **Lost tables.**  After every run of safe mishaps, and whatever tables' files
    are overwritten by bytes that `Open` rejects: the next engine answers as the
    one that would have opened, without the readers of these files; every key
    reads as at some moment of the run, and as at its end if none of these tables
    holds it. -/
theorem lost_tables (c c' : Config) {ms : List Mishap}
    (hmeets : ∀ e, start [] c = .ok e → Meets befall SafeAt e ms) :
    Runs (start [] c >>= fun e => ms.foldlM befall e) (fun e => ∀ harms, HarmSafe e harms →
      Runs (start e.dir c') (fun e₀ => Runs (start (spoil e.dir harms) c') (fun e' =>
        ∀ key, e'.get key = (without e₀ harms).get key
          ∧ (∃ js, js <+: ms ∧ e'.get key = .ok (latestOf js key))
          ∧ ((∀ r ∈ e₀.sstables, Spoiled harms r.filename → r.get key = .ok none) →
            e'.get key = .ok (latestOf ms key))))) := by
  refine (follows_run c hmeets).mono ?_
  rintro e ⟨s, h⟩ harms ⟨hnames, hharms⟩
  have hdir := h.rep.dir
  have hthere : ∀ harm ∈ harms, (e.dir.lookup (getSstPath harm.1)).isSome :=
    fun harm hharm => (hharms harm hharm).1
  have hdir' : DirRep (spoil e.dir harms) (spoilStore s harms).files s.logs :=
    dirRep_spoil harms hdir (fun harm hharm => (hharms harm hharm).2)
  have hnames' : SortsByNumber (spoil e.dir harms) :=
    sortsByNumber_congr (fun name hname => (lookup_spoil_isSome name harms hthere).mp hname) hnames
  obtain ⟨e₀, hrun₀, hrep₀⟩ := start_reopened hdir hnames c'
  obtain ⟨e', hrun', hrep'⟩ := start_reopened (s := spoilStore s harms) hdir' hnames' c'
  refine ends_of_eq_ok hrun₀ (ends_of_eq_ok hrun' ?_)
  intro key
  rw [reopened_spoilStore hdir hdir' hthere] at hrep'
  -- the tables that are left are tables of the run
  have htables : ((reopened s c'.maxMemNodes).tables).map Table.entries
      = s.tables.map Table.entries := h.durable.filed.loadTables
  have hleft : ∀ t ∈ (reopened s c'.maxMemNodes).tables.filter
      (fun t => kept (harms.map Prod.fst) t.number), t.entries ∈ s.tables.map Table.entries :=
    fun t ht => htables ▸ List.mem_map_of_mem (List.mem_filter.mp ht).1
  have hread : e'.get key = .ok (visible (((replayed s.logs).lookup key).or (overlay
      (((reopened s c'.maxMemNodes).tables.filter
        (fun t => kept (harms.map Prod.fst) t.number)).map Table.entries) key))) := by
    rw [hrep'.get, Store.view, overlay_cons, mem_reopened hdir.logsSorted]
  refine ⟨?_, ?_, ?_⟩
  · have hwithout : Rep (without e₀ harms) { reopened s c'.maxMemNodes with
        tables := (reopened s c'.maxMemNodes).tables.filter
          (fun t => kept (harms.map Prod.fst) t.number) } :=
      { hrep₀ with tables := forall₂_kept hrep₀.tables }
    rw [hrep'.get, hwithout.get]
    rfl
  · obtain ⟨js, hjs, hpast⟩ := read_past h hleft key
    exact ⟨js, hjs, by rw [hread, hpast]⟩
  · intro hfree
    have hkeep : ∀ t ∈ (reopened s c'.maxMemNodes).tables, Holds t key →
        kept (harms.map Prod.fst) t.number = true := by
      intro t ht hholds
      obtain ⟨r, hr, hreader⟩ := forall₂_mem_right hrep₀.tables ht
      refine decide_eq_true ?_
      intro hlost
      have hnone := hfree r hr (by rw [hreader.1]; exact (spoiled_getSstPath t.number).mpr hlost)
      rw [get_of_readerOf hreader] at hnone
      exact hholds (Except.ok.inj hnone)
    have hall := overlay_loadTables_filter s.files (kept (harms.map Prod.fst)) key
      (s.files.map Prod.fst).reverse hkeep
    rw [loadTables_filter] at hall
    rw [hread]
    show Except.ok (visible (((replayed s.logs).lookup key).or (overlay (List.map Table.entries
      (List.filter _ (loadTables s.files (s.files.map Prod.fst).reverse))) key))) = _
    rw [hall, h.durable.filed.loadTables, h.durable.reads_disk (fun _ => rfl)]

/-- A test for `HarmSafe`. -/
def harmTest (e : KVEngine) (harms : List (Nat × Bytes)) : Bool :=
  shortNames e.dir
    && harms.all (fun harm => (e.dir.lookup (getSstPath harm.1)).isSome && rejects harm.2)

theorem harmSafe_of_harmTest {e : KVEngine} (h : harmTest e harms = true) : HarmSafe e harms := by
  obtain ⟨hnames, hall⟩ := Bool.and_eq_true_iff.mp h
  refine ⟨sortsByNumber_of_shortNames hnames, ?_⟩
  intro harm hharm
  obtain ⟨hthere, hrej⟩ := Bool.and_eq_true_iff.mp (List.all_eq_true.mp hall harm hharm)
  exact ⟨hthere, unopenable_of_rejects hrej⟩

/-- A key is erased, and the table with the tombstone is the second. -/
def erasedKey : List Mishap :=
  [.incident (.event (.op (.put [107] [1]))), .incident (.event (.op .forceFlush)),
    .incident (.event (.op (.erase [107]))), .incident (.event (.op (.put [97] [2]))),
    .incident (.event (.op .forceFlush)), .incident (.event (.op (.put [98] [3])))]

theorem meets_erasedKey (e : KVEngine) (he : start [] plainConfig = .ok e) :
    Meets befall SafeAt e erasedKey := by
  have hcheck : Yields (start [] plainConfig)
      (fun e => checkAll befall mishapTest e erasedKey = true) := by
    decide +kernel
  exact meets_of_checkAll safeAt_of_mishapTest (hcheck.of_eq_ok he)

theorem lost_tables_erasedKey :
    Runs (start [] plainConfig >>= fun e => erasedKey.foldlM befall e) (fun e =>
      Runs (start e.dir plainConfig) (fun e₀ =>
        Runs (start (spoil e.dir [(2, [0])]) plainConfig) (fun e' =>
          ∀ key, e'.get key = (without e₀ [(2, [0])]).get key
            ∧ (∃ js, js <+: erasedKey ∧ e'.get key = .ok (latestOf js key))
            ∧ ((∀ r ∈ e₀.sstables, Spoiled [(2, [0])] r.filename → r.get key = .ok none) →
              e'.get key = .ok (latestOf erasedKey key))))) := by
  have htest : Yields (start [] plainConfig >>= fun e => erasedKey.foldlM befall e)
      (fun e => harmTest e [(2, [0])] = true) := by
    decide +kernel
  have hrun := lost_tables plainConfig plainConfig meets_erasedKey
  exact (hrun.and htest.ends).mono (fun e h => h.1 [(2, [0])] (harmSafe_of_harmTest h.2))

/-- The erased key is back. -/
example : Yields (start [] plainConfig >>= fun e => erasedKey.foldlM befall e >>= fun e =>
    start (spoil e.dir [(2, [0])]) plainConfig)
      (fun e' => e'.get [107] = .ok (some [1]) ∧ e'.get [97] = .ok none
        ∧ e'.get [98] = .ok (some [3])) := by
  decide +kernel

end KvLostTables
