import LightKV.KvRecoveryProofs

/-! # The order in which files are taken up

    `LoadExistingSSTables` and `RecoverAllWals` sort the names of the files they
    find, and take the order of the names for that of the numbers.  It is that
    order exactly while no number in use, cut to as many digits as a smaller one
    has, falls below it (`startup_order_iff`): a table `1000000.sst` stands before
    `999999.sst`. -/

namespace KvStartup

open Execution KvBytes KvDirectory KvEngine KvRecovery KvSkipList KvTable KvWal Overlay

/-- Of two numbers in use, the larger one does not fall below the smaller one when
    it is cut to as many digits. -/
def CutsAbove (used : Nat → Prop) : Prop :=
  ∀ m n, used m → used n → m < n → m ≤ n / 10 ^ (width n - width m)

/-- There is a file of that name. -/
def Present (dir : Directory) (name : Bytes) : Prop := name ∈ dir.map Prod.fst

variable {dir : Directory}

/-- **Sorted names of numbers**: they ascend as the numbers do exactly when each two
    of the numbers do. -/
theorem ascending_iff_cutsAbove {path : Nat → Bytes}
    (hpath : ∀ {m n}, m < n → (path m < path n ↔ m ≤ n / 10 ^ (width n - width m)))
    {ns : List Nat} (hsorted : (ns.map path).Pairwise (· < ·)) :
    ns.Pairwise (· < ·) ↔ CutsAbove (· ∈ ns) := by
  rw [List.pairwise_map] at hsorted
  constructor
  · intro hasc m n hm hn hlt
    -- of two members the smaller number has the smaller name, whichever comes first
    let Agree : Nat → Nat → Prop := fun a b => (a < b → path a < path b) ∧ (b < a → path b < path a)
    have hsymm : Std.Symm Agree := ⟨fun _ _ h => ⟨h.2, h.1⟩⟩
    have hagree : ns.Pairwise Agree := by
      refine (hasc.and hsorted).imp ?_
      rintro a b ⟨hab, hname⟩
      exact ⟨fun _ => hname, fun hba => absurd hab (Nat.not_lt.mpr hba.le)⟩
    have hself : ∀ a ∈ ns, Agree a a :=
      fun a _ => ⟨fun h => absurd h (Nat.lt_irrefl a), fun h => absurd h (Nat.lt_irrefl a)⟩
    exact (hpath hlt).mp ((hagree.forall_of_forall hself hm hn).1 hlt)
  · intro hcuts
    refine hsorted.imp_of_mem ?_
    intro m n hm hn hlt
    rcases Nat.lt_trichotomy m n with h | rfl | h
    · exact h
    · exact absurd hlt (lt_irrefl _)
    · exact absurd ((hpath h).mpr (hcuts n m hn hm h)) (not_lt.mpr hlt.le)

/-- The names of one kind are those of some numbers, in the order of the names. -/
theorem exists_numbers {path : Nat → Bytes} {isName : Bytes → Bool} (hdir : KeySorted dir)
    (hnames : ∀ name, Present dir name → isName name = true → ∃ n, name = path n)
    (his : ∀ n, isName (path n) = true) (hinj : ∀ {m n}, path m = path n → m = n) :
    ∃ ns : List Nat, (dir.map Prod.fst).filter isName = ns.map path ∧ (ns.map path).Pairwise (· < ·)
      ∧ ∀ n, n ∈ ns ↔ Present dir (path n) := by
  obtain ⟨ns, hns⟩ := exists_map_eq (f := path) (l := (dir.map Prod.fst).filter isName)
    (fun name hname => hnames name (List.mem_filter.mp hname).1 (List.mem_filter.mp hname).2)
  refine ⟨ns, hns, ?_, ?_⟩
  · rw [← hns]
    exact List.Pairwise.sublist List.filter_sublist (List.pairwise_map.mpr hdir)
  · intro n
    have hmem : n ∈ ns ↔ path n ∈ ns.map path :=
      ⟨List.mem_map_of_mem, fun h => by
        obtain ⟨m, hm, heq⟩ := List.mem_map.mp h
        exact hinj heq ▸ hm⟩
    rw [hmem, ← hns, List.mem_filter, his n]
    exact and_iff_left rfl

/-- `Open` accepts the file of that name. -/
def ValidTable (dir : Directory) (n : Nat) : Prop :=
  ∃ r, SSTableReader.open (getSstPath n) (dir.lookup (getSstPath n)) n = .ok (some r)

/-- **Opening valid tables** gives a reader for each, with its number, in their order. -/
theorem openTables_valid :
    ∀ (ns : List Nat), (∀ n ∈ ns, ValidTable dir n) →
      ∃ readers, openTables dir (ns.map getSstPath) = .ok readers
        ∧ readers.map SSTableReader.sequence = ns
        ∧ readers.map SSTableReader.filename = ns.map getSstPath := by
  intro ns
  induction ns with
  | nil =>
      intro _
      exact ⟨[], rfl, rfl, rfl⟩
  | cons n ns ih =>
      intro hvalid
      obtain ⟨readers, hrun, hseqs, hfiles⟩ := ih (fun m hm => hvalid m (List.mem_cons_of_mem _ hm))
      obtain ⟨r, hr⟩ := hvalid n List.mem_cons_self
      obtain ⟨hfile, hseq, -⟩ := open_eq_some hr
      refine ⟨r :: readers, ?_, by rw [List.map_cons, hseqs, hseq],
        by rw [List.map_cons, hfiles, hfile, List.map_cons]⟩
      simp only [List.map_cons, openTables, stoull_stem_getSstPath, Option.getD_some, hr, hrun,
        ok_bind]
      rfl

/-- **`LoadExistingSSTables`** opens the tables in the descending order of their
    names. -/
theorem loadTables_order (hdir : KeySorted dir)
    (hnames : ∀ name, Present dir name → isSstName name = true → ∃ n, name = getSstPath n)
    (hvalid : ∀ n, Present dir (getSstPath n) → ValidTable dir n) :
    ∃ readers, openTables dir (sstNames dir).reverse = .ok readers
      ∧ (∀ n, n ∈ readers.map SSTableReader.sequence ↔ Present dir (getSstPath n))
      ∧ ((readers.map SSTableReader.sequence).Pairwise (· > ·)
        ↔ CutsAbove (fun n => Present dir (getSstPath n))) := by
  obtain ⟨ns, hns, hsorted, hmem⟩ :=
    exists_numbers hdir hnames isSstName_getSstPath getSstPath_injective
  have hall : ∀ n ∈ ns.reverse, ValidTable dir n :=
    fun n hn => hvalid n ((hmem n).mp (List.mem_reverse.mp hn))
  obtain ⟨readers, hrun, hseqs, -⟩ := openTables_valid ns.reverse hall
  refine ⟨readers, ?_, ?_, ?_⟩
  · rw [sstNames, hns, ← List.map_reverse]
    exact hrun
  · intro n
    rw [hseqs, List.mem_reverse, hmem]
  · rw [hseqs, List.pairwise_reverse]
    have hiff := ascending_iff_cutsAbove getSstPath_lt_iff hsorted
    simp only [CutsAbove, hmem] at hiff
    exact hiff

/-- **`RecoverAllWals`** replays the logs in the order of their names. -/
theorem recoverAllWals_order (hdir : KeySorted dir)
    (hnames : ∀ name, Present dir name → isWalName name = true → ∃ n, name = getWalPath n) :
    ∃ ms : List Nat, walNames dir = ms.map getWalPath ∧ (∀ m, m ∈ ms ↔ Present dir (getWalPath m))
      ∧ (ms.Pairwise (· < ·) ↔ CutsAbove (fun m => Present dir (getWalPath m))) := by
  obtain ⟨ms, hms, hsorted, hmem⟩ :=
    exists_numbers hdir hnames isWalName_getWalPath getWalPath_injective
  refine ⟨ms, hms, hmem, ?_⟩
  have hiff := ascending_iff_cutsAbove getWalPath_lt_iff hsorted
  simp only [CutsAbove, hmem] at hiff
  exact hiff

/-- **Startup order is recency order** exactly while of two tables, and of two logs,
    the later one's number does not fall below the earlier one's when it is cut to
    as many digits. -/
theorem startup_order_iff (hdir : KeySorted dir)
    (hnames : ∀ name, Present dir name → (∃ n, name = getSstPath n) ∨ ∃ n, name = getWalPath n)
    (hvalid : ∀ n, Present dir (getSstPath n) → ValidTable dir n) :
    ∃ (readers : List SSTableReader) (ms : List Nat),
      openTables dir (sstNames dir).reverse = .ok readers
      ∧ (∀ n, n ∈ readers.map SSTableReader.sequence ↔ Present dir (getSstPath n))
      ∧ walNames dir = ms.map getWalPath ∧ (∀ m, m ∈ ms ↔ Present dir (getWalPath m))
      ∧ (∀ skiplist, recoverAllWals dir (walNames dir) skiplist
        = replay (ms.flatMap (fun m => WalLogger.recover ⟨getWalPath m, false⟩ dir)) skiplist)
      ∧ ((readers.map SSTableReader.sequence).Pairwise (· > ·) ∧ ms.Pairwise (· < ·)
        ↔ CutsAbove (fun n => Present dir (getSstPath n))
          ∧ CutsAbove (fun m => Present dir (getWalPath m))) := by
  have hsst : ∀ name, Present dir name → isSstName name = true → ∃ n, name = getSstPath n := by
    intro name hname his
    rcases hnames name hname with h | ⟨n, rfl⟩
    · exact h
    · rw [isSstName_getWalPath] at his
      cases his
  have hwal : ∀ name, Present dir name → isWalName name = true → ∃ n, name = getWalPath n := by
    intro name hname his
    rcases hnames name hname with ⟨n, rfl⟩ | h
    · rw [isWalName_getSstPath] at his
      cases his
    · exact h
  obtain ⟨readers, hrun, hseqs, htables⟩ := loadTables_order hdir hsst hvalid
  obtain ⟨ms, hms, hmem, hlogs⟩ := recoverAllWals_order hdir hwal
  refine ⟨readers, ms, hrun, hseqs, hms, hmem, ?_, and_congr htables hlogs⟩
  intro skiplist
  rw [hms, recoverAllWals_eq_replay, List.flatMap_map]

/-- A table of one entry. -/
def oneEntry : Bytes := fileOf [[([1], ⟨.kTypeValue, [7]⟩)]]

theorem tableFile_oneEntry :
    TableFile oneEntry [([1], ⟨.kTypeValue, [7]⟩)] [[([1], ⟨.kTypeValue, [7]⟩)]] where
  entries := rfl
  nonempty := by decide
  fits := by
    intro kv hkv
    obtain rfl := List.mem_singleton.mp hkv
    exact ⟨by decide, Or.inr ⟨rfl, by decide⟩⟩
  sorted := List.pairwise_singleton _ _
  some := by decide
  file := rfl
  length := by decide

/-- Two tables and a log, with numbers of few digits. -/
def smallDir : Directory :=
  [(getSstPath 8, oneEntry), (getSstPath 10, oneEntry), (getWalPath 9, [])]

theorem validTable_oneEntry {n : Nat} (h : dir.lookup (getSstPath n) = some oneEntry) :
    ValidTable dir n := by
  rw [ValidTable, h]
  exact ⟨_, open_tableFile tableFile_oneEntry (getSstPath n) n⟩

theorem startup_order_iff_smallDir :
    ∃ (readers : List SSTableReader) (ms : List Nat),
      openTables smallDir (sstNames smallDir).reverse = .ok readers
      ∧ (∀ n, n ∈ readers.map SSTableReader.sequence ↔ Present smallDir (getSstPath n))
      ∧ walNames smallDir = ms.map getWalPath ∧ (∀ m, m ∈ ms ↔ Present smallDir (getWalPath m))
      ∧ (∀ skiplist, recoverAllWals smallDir (walNames smallDir) skiplist
        = replay (ms.flatMap (fun m => WalLogger.recover ⟨getWalPath m, false⟩ smallDir)) skiplist)
      ∧ ((readers.map SSTableReader.sequence).Pairwise (· > ·) ∧ ms.Pairwise (· < ·)
        ↔ CutsAbove (fun n => Present smallDir (getSstPath n))
          ∧ CutsAbove (fun m => Present smallDir (getWalPath m))) := by
  have hpresent : ∀ name, Present smallDir name →
      name = getSstPath 8 ∨ name = getSstPath 10 ∨ name = getWalPath 9 := by
    intro name hname
    simpa [Present, smallDir] using hname
  refine startup_order_iff (by show List.Pairwise _ _; decide +kernel) ?_ ?_
  · intro name hname
    rcases hpresent name hname with rfl | rfl | rfl
    · exact Or.inl ⟨8, rfl⟩
    · exact Or.inl ⟨10, rfl⟩
    · exact Or.inr ⟨9, rfl⟩
  · intro n hname
    rcases hpresent _ hname with h | h | h
    · obtain rfl := getSstPath_injective h
      exact validTable_oneEntry (by decide +kernel)
    · obtain rfl := getSstPath_injective h
      exact validTable_oneEntry (by decide +kernel)
    · exact absurd h (getSstPath_ne_getWalPath n 9)

/-- Two tables and two logs around a million. -/
def millionDir : Directory :=
  [(getSstPath 1000000, oneEntry), (getSstPath 999999, oneEntry), (getWalPath 1000000, []),
    (getWalPath 999999, [])]

/-- **The millionth table** is loaded behind the one before it, as the oldest, and
    its log is replayed first. -/
theorem millionth_is_oldest :
    KeySorted millionDir
      ∧ Yields (openTables millionDir (sstNames millionDir).reverse)
        (fun readers => readers.map SSTableReader.sequence = [999999, 1000000])
      ∧ walNames millionDir = [getWalPath 1000000, getWalPath 999999] := by
  refine ⟨?_, ?_, ?_⟩
  · show List.Pairwise _ _
    decide +kernel
  · decide +kernel
  · decide +kernel

end KvStartup
