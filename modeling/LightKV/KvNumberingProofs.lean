import LightKV.KvFlushCrashProofs
import LightKV.KvInterleavingProofs

/-! # Fresh file numbers

    Table files get their numbers from a counter in memory, which a start sets to
    the largest number among the table names it finds; a log is numbered one
    above the counter.  Between a start and the next one compactions reserve
    numbers, create their files later, and delete older ones.

    What keeps the numbers apart (`Numbered`): no table on disk is numbered above
    the counter, no log more than one above the largest table, no two calls of
    `Compact` hold one number, and a table is only deleted by a call whose own
    file, or a later one, is on disk.  So no file that a flush or a compaction
    creates is there before (`creations_fresh`), whatever crashes came before. -/

namespace KvNumbering

open Execution KvBytes KvDirectory KvEngine KvFlushCrash KvInterleaving KvRecovery KvSession
open KvTable KvWal Overlay

/-! ## Runs with creations, crashes and restarts -/

/-- A call of `Compact`, with the time between the creation of its file and the
    file's completion as a stage of its own. -/
inductive Stage
  | call (c : CompactCall)
  /-- the new file is created, and being filled -/
  | created (old : List SSTableReader) (number : Nat)

/-- The next stage of a call. -/
def Stage.advance (e : KVEngine) : Stage → Except Fault (KVEngine × Stage)
  | .call (.reserved old number) =>
      pure ({ e with dir := upsert (getSstPath number) [] e.dir }, .created old number)
  | .call c => do
      let (e, c) ← c.advance e
      pure (e, .call c)
  | .created old number => do
      let (e, c) ← CompactCall.advance e (.reserved old number)
      pure (e, .call c)

/-- The first `n` bytes of a call's file reach the disk. -/
def Stage.fill (e : KVEngine) (n : Nat) : Stage → Except Fault KVEngine
  | .created old number => do
      let file ← mergeTables old
      pure { e with dir := upsert (getSstPath number) (file.take n) e.dir }
  | .call _ => pure e

/-- An engine and the calls of `Compact` on it. -/
structure Machine where
  engine : KVEngine
  stages : List Stage

/-- What can happen. -/
inductive Event
  | put (key value : Bytes)
  | erase (key : Bytes)
  | forceFlush
  /-- `Compact` is called -/
  | begin
  /-- call `i` goes on to its next stage -/
  | advance (i : Nat)
  /-- a part of the file of call `i` reaches the disk -/
  | fill (i n : Nat)
  /-- the process stops, or closes the engine, and the directory is opened again -/
  | restart (c : Config)
  /-- the process stops in the flush of `force_flush`, and so on -/
  | crashInFlush (p : CrashPoint) (c : Config)
  /-- the process stops behind the write of a `put`, or in its flush, and so on -/
  | crashInPut (key value : Bytes) (p : CrashPoint) (c : Config)

/-- Open a directory; no call of `Compact` outlives the process. -/
def boot (dir : Directory) (c : Config) : Except Fault Machine := do
  let e ← start dir c
  pure ⟨e, []⟩

/-- One event. -/
def Machine.step (s : Machine) : Event → Except Fault Machine
  | .put key value => do
      let e ← s.engine.put key value
      pure { s with engine := e }
  | .erase key => do
      let e ← s.engine.erase key
      pure { s with engine := e }
  | .forceFlush => do
      let e ← s.engine.forceFlush
      pure { s with engine := e }
  | .begin =>
      match s.engine.snapshot with
      | none => pure s
      | some old => pure { s with stages := s.stages ++ [.call (.snapped old)] }
  | .advance i =>
      match s.stages[i]? with
      | none => pure s
      | some stage => do
          let (e, stage) ← stage.advance s.engine
          pure ⟨e, s.stages.set i stage⟩
  | .fill i n =>
      match s.stages[i]? with
      | none => pure s
      | some stage => do
          let e ← stage.fill s.engine n
          pure { s with engine := e }
  | .restart c => boot s.engine.dir c
  | .crashInFlush p c => do
      let dir ← interruptFlush s.engine p
      boot dir c
  | .crashInPut key value p c => do
      let dir ← interruptPut s.engine key value p
      boot dir c

/-- The two files that `FlushMemTable` creates are not there when it creates them. -/
def FlushFresh (e : KVEngine) : Prop :=
  e.dir.lookup (getSstPath (e.sstCounter + 1)) = none
    ∧ ∀ e', e.writeTable = .ok e' → e'.dir.lookup (getWalPath (e'.sstCounter + 1)) = none

/-- **What an event creates is not there** when it is created. -/
def Fresh (s : Machine) : Event → Prop
  | .put key value | .crashInPut key value _ _ =>
      ∀ e, s.engine.write .PUT key value ⟨.kTypeValue, value⟩ = .ok e → FlushFresh e
  | .forceFlush | .crashInFlush _ _ => FlushFresh s.engine
  | .advance i => ∀ old number, s.stages[i]? = some (.call (.reserved old number)) →
      s.engine.dir.lookup (getSstPath number) = none
  | _ => True

/-! ## The numbers in a directory -/

/-- The table file of a number is there. -/
def HasSst (dir : Directory) (n : Nat) : Prop := (dir.lookup (getSstPath n)).isSome

/-- The log of a number is there. -/
def HasWal (dir : Directory) (n : Nat) : Prop := (dir.lookup (getWalPath n)).isSome

/-- Some table file has at least this number. -/
def Reaches (dir : Directory) (k : Nat) : Prop := ∃ m, HasSst dir m ∧ k ≤ m

/-- Every table name is one of the engine's. -/
def SstNamed (dir : Directory) : Prop :=
  ∀ name, (dir.lookup name).isSome → isSstName name = true → ∃ n, name = getSstPath n

/-- **A directory as a run leaves it**: no log is numbered more than one above
    the largest table. -/
structure Names (dir : Directory) : Prop where
  tables : SstNamed dir
  logs : ∀ w, HasWal dir (w + 1) → w = 0 ∨ Reaches dir w

theorem isSome_lookup_upsert {dir : Directory} {name : Bytes} (path file : Bytes) :
    ((upsert path file dir).lookup name).isSome ↔ name = path ∨ (dir.lookup name).isSome := by
  rw [lookup_upsert]
  by_cases h : name = path
  · simp [h]
  · simp [h]

theorem isSome_lookup_remove {dir : Directory} {name : Bytes} (path : Bytes) :
    ((remove dir path).lookup name).isSome ↔ name ≠ path ∧ (dir.lookup name).isSome := by
  rw [remove, lookup_discard]
  by_cases h : name = path
  · simp [h]
  · simp [h]

variable {dir : Directory}

theorem hasSst_upsert_sst {m n : Nat} (file : Bytes) :
    HasSst (upsert (getSstPath m) file dir) n ↔ n = m ∨ HasSst dir n := by
  rw [HasSst, isSome_lookup_upsert]
  exact or_congr_left ⟨getSstPath_injective, fun h => h ▸ rfl⟩

theorem hasSst_upsert_wal {w n : Nat} (file : Bytes) :
    HasSst (upsert (getWalPath w) file dir) n ↔ HasSst dir n := by
  rw [HasSst, isSome_lookup_upsert]
  exact or_iff_right (getSstPath_ne_getWalPath n w)

theorem hasSst_remove_wal {w n : Nat} : HasSst (remove dir (getWalPath w)) n ↔ HasSst dir n := by
  rw [HasSst, isSome_lookup_remove]
  exact and_iff_right (getSstPath_ne_getWalPath n w)

theorem hasSst_remove_sst {m n : Nat} :
    HasSst (remove dir (getSstPath m)) n ↔ n ≠ m ∧ HasSst dir n := by
  rw [HasSst, isSome_lookup_remove]
  exact and_congr_left' (not_congr ⟨getSstPath_injective, fun h => h ▸ rfl⟩)

theorem not_hasSst {n : Nat} : ¬ HasSst dir n ↔ dir.lookup (getSstPath n) = none := by
  rw [HasSst, Bool.not_eq_true, Option.isSome_eq_false_iff, Option.isNone_iff_eq_none]

theorem Reaches.mono {dir' : Directory} (h : ∀ n, HasSst dir n → HasSst dir' n) {k : Nat}
    (hr : Reaches dir k) : Reaches dir' k := by
  obtain ⟨m, hm, hk⟩ := hr
  exact ⟨m, h m hm, hk⟩

theorem SstNamed.upsert_sst (h : SstNamed dir) (m : Nat) (file : Bytes) :
    SstNamed (upsert (getSstPath m) file dir) := by
  intro name hname hsst
  rcases (isSome_lookup_upsert _ _).mp hname with heq | hold
  · exact ⟨m, heq⟩
  · exact h name hold hsst

theorem SstNamed.upsert_wal (h : SstNamed dir) (w : Nat) (file : Bytes) :
    SstNamed (upsert (getWalPath w) file dir) := by
  intro name hname hsst
  rcases (isSome_lookup_upsert _ _).mp hname with heq | hold
  · rw [heq, isSstName_getWalPath] at hsst
    cases hsst
  · exact h name hold hsst

theorem SstNamed.remove (h : SstNamed dir) (path : Bytes) : SstNamed (remove dir path) :=
  fun name hname => h name ((isSome_lookup_remove _).mp hname).2

/-- A table comes in. -/
theorem Names.upsert_sst (h : Names dir) (m : Nat) (file : Bytes) :
    Names (upsert (getSstPath m) file dir) where
  tables := h.tables.upsert_sst m file
  logs := by
    intro w hw
    have hold : HasWal dir (w + 1) := by
      rcases (isSome_lookup_upsert _ _).mp hw with heq | hold
      · exact absurd heq.symm (getSstPath_ne_getWalPath _ _)
      · exact hold
    exact (h.logs w hold).imp_right
      (Reaches.mono fun n hn => (hasSst_upsert_sst file).mpr (Or.inr hn))

/-- A log comes in, or is written to. -/
theorem Names.upsert_wal (h : Names dir) {m : Nat} (hm : HasWal dir m ∨ ∃ w, m = w + 1
    ∧ (w = 0 ∨ Reaches dir w)) (file : Bytes) : Names (upsert (getWalPath m) file dir) where
  tables := h.tables.upsert_wal m file
  logs := by
    intro w hw
    have hgoal : w = 0 ∨ Reaches dir w := by
      rcases (isSome_lookup_upsert _ _).mp hw with heq | hold
      · obtain rfl := getWalPath_injective heq
        rcases hm with hold | ⟨v, hv, hr⟩
        · exact h.logs w hold
        · obtain rfl : w = v := Nat.succ.inj hv
          exact hr
      · exact h.logs w hold
    exact hgoal.imp_right (Reaches.mono fun n hn => (hasSst_upsert_wal file).mpr hn)

/-- A log goes. -/
theorem Names.remove_wal (h : Names dir) (w : Nat) : Names (remove dir (getWalPath w)) where
  tables := h.tables.remove _
  logs v hv := (h.logs v ((isSome_lookup_remove _).mp hv).2).imp_right
    (Reaches.mono fun _ hn => hasSst_remove_wal.mpr hn)

/-- **A table goes below one that stays**: the largest number is still there. -/
theorem Reaches.remove_sst {k n m : Nat} (hr : Reaches dir k) (hm : Reaches dir m) (hnm : n < m) :
    Reaches (remove dir (getSstPath n)) k := by
  obtain ⟨p, hp, hkp⟩ := hr
  by_cases hpn : p = n
  · -- the witness itself goes, and the table above takes its place
    obtain ⟨q, hq, hmq⟩ := hm
    exact ⟨q, hasSst_remove_sst.mpr ⟨by omega, hq⟩, by omega⟩
  · exact ⟨p, hasSst_remove_sst.mpr ⟨hpn, hp⟩, hkp⟩

theorem Names.remove_sst (h : Names dir) {n m : Nat} (hm : Reaches dir m) (hnm : n < m) :
    Names (remove dir (getSstPath n)) where
  tables := h.tables.remove _
  logs w hw := (h.logs w ((isSome_lookup_remove _).mp hw).2).imp_right
    (fun hr => hr.remove_sst hm hnm)

theorem names_nil : Names [] :=
  ⟨fun _ h => (by cases h), fun _ h => (by cases h)⟩

/-! ## The numbers of an engine -/

/-- The readers' files are tables numbered below `k`. -/
def Below (readers : List SSTableReader) (k : Nat) : Prop :=
  ∀ r ∈ readers, ∃ n, r.filename = getSstPath n ∧ n < k

theorem Below.mono {readers : List SSTableReader} {k k' : Nat} (h : Below readers k)
    (hk : k ≤ k') : Below readers k' := by
  intro r hr
  obtain ⟨n, hn, hlt⟩ := h r hr
  exact ⟨n, hn, by omega⟩

/-- **The counter bounds the numbers** of an engine and its directory. -/
structure Counted (e : KVEngine) : Prop where
  names : Names e.dir
  le : ∀ n, HasSst e.dir n → n ≤ e.sstCounter
  tables : Below e.sstables (e.sstCounter + 1)
  log : ∃ w, e.currentWalPath = getWalPath w

/-- What a step of the engine keeps for the calls of `Compact`. -/
structure Grows (e e' : KVEngine) : Prop where
  counter : e.sstCounter ≤ e'.sstCounter
  reaches : ∀ {k}, Reaches e.dir k → Reaches e'.dir k
  fresh : ∀ {n}, n ≤ e.sstCounter → HasSst e'.dir n → HasSst e.dir n

theorem Grows.trans {e₁ e₂ e₃ : KVEngine} (h : Grows e₁ e₂) (h' : Grows e₂ e₃) : Grows e₁ e₃ where
  counter := h.counter.trans h'.counter
  reaches hr := h'.reaches (h.reaches hr)
  fresh hn hs := h.fresh hn (h'.fresh (hn.trans h.counter) hs)

variable {e e' : KVEngine}

/-- A step that changes neither the tables nor the counter. -/
theorem grows_of_same (hc : e'.sstCounter = e.sstCounter)
    (hs : ∀ n, HasSst e'.dir n ↔ HasSst e.dir n) : Grows e e' where
  counter := hc.symm.le
  reaches := Reaches.mono fun n hn => (hs n).mpr hn
  fresh _ hn := (hs _).mp hn

/-- Appending to a log creates no file. -/
theorem isSome_lookup_append (w : WalLogger) (dir : Directory) (op : OperationType)
    (key value name : Bytes) :
    ((w.append dir op key value).1.lookup name).isSome ↔ (dir.lookup name).isSome := by
  rw [WalLogger.append]
  split
  · exact Iff.rfl
  · cases hf : dir.lookup w.path with
    | none => exact Iff.rfl
    | some file =>
        simp only
        rw [isSome_lookup_upsert]
        refine or_iff_right_of_imp ?_
        rintro rfl
        rw [hf]
        rfl

/-- The front of `put` and `erase`. -/
theorem Counted.write (h : Counted e) {op : OperationType} {key value : Bytes} {tv : TableValue}
    (hrun : e.write op key value tv = .ok e') : Counted e' ∧ Grows e e' := by
  obtain ⟨skiplist, -, heq⟩ := bind_eq_ok.mp hrun
  obtain rfl := Except.ok.inj heq
  have hsame := isSome_lookup_append e.wal e.dir op key value
  have hsst : ∀ n, HasSst (e.wal.append e.dir op key value).1 n ↔ HasSst e.dir n :=
    fun n => hsame (getSstPath n)
  refine ⟨⟨⟨fun name hname => h.names.tables name ((hsame name).mp hname), ?_⟩,
    fun n hn => h.le n ((hsst n).mp hn), h.tables, h.log⟩, grows_of_same rfl hsst⟩
  intro w hw
  exact (h.names.logs w ((hsame _).mp hw)).imp_right (Reaches.mono fun n hn => (hsst n).mpr hn)

/-- A new table file. -/
theorem writeTable_eq_ok (hrun : e.writeTable = .ok e') :
    (∃ file, e'.dir = upsert (getSstPath (e.sstCounter + 1)) file e.dir)
      ∧ e'.sstCounter = e.sstCounter + 1 ∧ e'.currentWalPath = e.currentWalPath
      ∧ ∀ r ∈ e'.sstables, r ∈ e.sstables ∨ r.filename = getSstPath (e.sstCounter + 1) := by
  obtain ⟨allKv, -, hrun⟩ := bind_eq_ok.mp hrun
  obtain ⟨file, -, hrun⟩ := bind_eq_ok.mp hrun
  obtain ⟨reader, hopen, hrun⟩ := bind_eq_ok.mp hrun
  obtain rfl := Except.ok.inj hrun
  refine ⟨⟨file, rfl⟩, rfl, rfl, ?_⟩
  cases reader with
  | none => exact fun r hr => Or.inl hr
  | some reader =>
      intro r hr
      rcases List.mem_cons.mp hr with rfl | hr'
      · exact Or.inr (open_eq_some hopen).1
      · exact Or.inl hr'

/-- The counter goes on, and a table of the new number comes in. -/
theorem Counted.writeTable (h : Counted e) (hrun : e.writeTable = .ok e') :
    Counted e' ∧ Grows e e' ∧ Reaches e'.dir e'.sstCounter := by
  obtain ⟨⟨file, hdir⟩, hcounter, hlog, htables⟩ := writeTable_eq_ok hrun
  have hsst : ∀ n, HasSst e'.dir n ↔ n = e.sstCounter + 1 ∨ HasSst e.dir n := by
    intro n
    rw [hdir]
    exact hasSst_upsert_sst file
  refine ⟨⟨hdir ▸ h.names.upsert_sst _ file, ?_, ?_, ?_⟩, ⟨?_, ?_, ?_⟩, ?_⟩
  · intro n hn
    rcases (hsst n).mp hn with heq | hold
    · omega
    · have := h.le n hold
      omega
  · intro r hr
    rw [hcounter]
    rcases htables r hr with hold | hname
    · exact h.tables.mono (Nat.le_succ _) r hold
    · exact ⟨_, hname, Nat.lt_succ_self _⟩
  · rw [hlog]
    exact h.log
  · omega
  · exact Reaches.mono fun n hn => (hsst n).mpr (Or.inr hn)
  · intro n hn hs
    exact ((hsst n).mp hs).resolve_left (by omega)
  · exact ⟨e.sstCounter + 1, (hsst _).mpr (Or.inl rfl), by omega⟩

/-- `Open` of a log in a directory. -/
theorem names_open (h : Names dir) {w : Nat} (hw : w = 0 ∨ Reaches dir w) :
    Names (WalLogger.open dir (getWalPath (w + 1))).1
      ∧ ∀ n, HasSst (WalLogger.open dir (getWalPath (w + 1))).1 n ↔ HasSst dir n := by
  rw [WalLogger.open]
  cases dir.lookup (getWalPath (w + 1)) with
  | none => exact ⟨h.upsert_wal (Or.inr ⟨w, rfl, hw⟩) [], fun n => hasSst_upsert_wal []⟩
  | some file => exact ⟨h, fun n => Iff.rfl⟩

theorem Counted.rotateWal (h : Counted e) (hr : Reaches e.dir e.sstCounter) :
    Counted e.rotateWal ∧ Grows e e.rotateWal := by
  obtain ⟨hnames, hsst⟩ := names_open h.names (Or.inr hr)
  exact ⟨⟨hnames, fun n hn => h.le n ((hsst n).mp hn), h.tables, ⟨_, rfl⟩⟩,
    grows_of_same rfl hsst⟩

/-- `FlushMemTable`. -/
theorem Counted.flush (h : Counted e) (hrun : e.flushMemTable = .ok e') :
    Counted e' ∧ Grows e e' := by
  rw [KVEngine.flushMemTable] at hrun
  split at hrun
  · obtain rfl := Except.ok.inj hrun
    exact ⟨h, grows_of_same rfl fun _ => Iff.rfl⟩
  · obtain ⟨e₁, hwrite, hrun⟩ := bind_eq_ok.mp hrun
    obtain ⟨skiplist, -, hrun⟩ := bind_eq_ok.mp hrun
    obtain rfl := Except.ok.inj hrun
    obtain ⟨h₁, hg₁, hr₁⟩ := h.writeTable hwrite
    obtain ⟨h₂, hg₂⟩ := h₁.rotateWal hr₁
    obtain ⟨w, hw⟩ := h.log
    -- the old log is removed, which is not a table
    have hsst : ∀ n, HasSst (removeWalFile e₁.rotateWal.dir e.currentWalPath) n
        ↔ HasSst e₁.rotateWal.dir n := by
      intro n
      rw [hw]
      exact hasSst_remove_wal
    have hg₃ : Grows e₁.rotateWal { e₁.rotateWal with
        skiplist := skiplist, dir := removeWalFile e₁.rotateWal.dir e.currentWalPath } :=
      grows_of_same rfl hsst
    refine ⟨⟨?_, fun n hn => h₂.le n ((hsst n).mp hn), h₂.tables, h₂.log⟩,
      (hg₁.trans hg₂).trans hg₃⟩
    rw [hw]
    exact h₂.names.remove_wal w

theorem Counted.put (h : Counted e) {key value : Bytes} (hrun : e.put key value = .ok e') :
    Counted e' ∧ Grows e e' := by
  obtain ⟨e₁, hwrite, hrun⟩ := bind_eq_ok.mp hrun
  obtain ⟨h₁, hg₁⟩ := h.write hwrite
  split at hrun
  · obtain ⟨h₂, hg₂⟩ := h₁.flush hrun
    exact ⟨h₂, hg₁.trans hg₂⟩
  · obtain rfl := Except.ok.inj hrun
    exact ⟨h₁, hg₁⟩

/-- **Both files of a flush are new.** -/
theorem Counted.flushFresh (h : Counted e) : FlushFresh e := by
  constructor
  · refine not_hasSst.mp ?_
    intro hs
    have := h.le _ hs
    omega
  · intro e' hrun
    obtain ⟨⟨file, hdir⟩, hcounter, -, -⟩ := writeTable_eq_ok hrun
    rw [← Option.isNone_iff_eq_none, ← Option.isSome_eq_false_iff, Bool.eq_false_iff, hdir,
      hcounter]
    intro hw
    have hold : HasWal e.dir (e.sstCounter + 1 + 1) :=
      ((isSome_lookup_upsert _ _).mp hw).resolve_left
        (fun heq => getSstPath_ne_getWalPath _ _ heq.symm)
    rcases h.names.logs _ hold with hz | ⟨m, hm, hle⟩
    · omega
    · have := h.le m hm
      omega

/-! ## Starts and crashes -/

/-- The readers of a start are for the files it found. -/
theorem mem_openTables :
    ∀ {names : List Bytes} {readers : List SSTableReader},
      openTables dir names = .ok readers →
        ∀ r ∈ readers, r.filename ∈ names ∧ dir.lookup r.filename = some r.fd := by
  intro names
  induction names with
  | nil =>
      intro readers hrun r hr
      obtain rfl := Except.ok.inj hrun
      cases hr
  | cons name names ih =>
      intro readers hrun r hr
      obtain ⟨reader, hopen, hrun⟩ := bind_eq_ok.mp hrun
      obtain ⟨rest, hrest, hrun⟩ := bind_eq_ok.mp hrun
      have hlater : r ∈ rest → r.filename ∈ name :: names ∧ dir.lookup r.filename = some r.fd :=
        fun hr' => ⟨List.mem_cons_of_mem _ (ih hrest r hr').1, (ih hrest r hr').2⟩
      cases reader with
      | none =>
          obtain rfl := Except.ok.inj hrun
          exact hlater hr
      | some reader =>
          obtain rfl := Except.ok.inj hrun
          rcases List.mem_cons.mp hr with rfl | hr'
          · obtain ⟨hname, -, hfd⟩ := open_eq_some hopen
            rw [hname]
            exact ⟨List.mem_cons_self, hfd⟩
          · exact hlater hr'

/-- The table names of a directory are those of some numbers, and the counter of
    a start is the largest. -/
theorem sstNames_eq (h : SstNamed dir) : ∃ ns, sstNames dir = ns.map getSstPath
    ∧ maxNumber (sstNames dir) 0 = maxOf ns ∧ ∀ n, HasSst dir n ↔ n ∈ ns := by
  have hmem : ∀ name, name ∈ sstNames dir ↔ (dir.lookup name).isSome ∧ isSstName name = true := by
    intro name
    rw [sstNames, List.mem_filter, mem_map_fst_iff]
  obtain ⟨ns, hns⟩ := exists_map_eq (f := getSstPath) (l := sstNames dir)
    (fun name hname => h name ((hmem name).mp hname).1 ((hmem name).mp hname).2)
  refine ⟨ns, hns, ?_, ?_⟩
  · rw [hns, maxNumber_spec, maxOf]
  · intro n
    have hname : HasSst dir n ↔ getSstPath n ∈ sstNames dir := by
      rw [hmem, isSstName_getSstPath]
      exact (and_iff_left rfl).symm
    rw [hname, hns, List.mem_map]
    exact ⟨fun ⟨m, hm, heq⟩ => getSstPath_injective heq ▸ hm, fun hn => ⟨n, hn, rfl⟩⟩

/-- The tables of a start are numbered up to its counter. -/
theorem below_start (h : SstNamed dir) {c : Config} (hrun : start dir c = .ok e) :
    Below e.sstables (e.sstCounter + 1) := by
  obtain ⟨skiplist, sstables, htables, -, rfl⟩ := start_eq_ok hrun
  obtain ⟨ns, hns, hcounter, -⟩ := sstNames_eq h
  intro r hr
  have hfile := (mem_openTables htables r hr).1
  rw [List.mem_reverse, hns] at hfile
  obtain ⟨n, hn, heq⟩ := List.mem_map.mp hfile
  refine ⟨n, heq.symm, ?_⟩
  show n < maxNumber (sstNames dir) 0 + 1
  rw [hcounter]
  exact Nat.lt_succ_of_le (le_maxOf hn)

/-- **A start counts the tables** it finds. -/
theorem counted_start (h : Names dir) {c : Config} (hrun : start dir c = .ok e) : Counted e := by
  have htables := below_start h.tables hrun
  obtain ⟨skiplist, sstables, -, -, rfl⟩ := start_eq_ok hrun
  obtain ⟨ns, -, hcounter, hsst⟩ := sstNames_eq h.tables
  have htop : maxOf ns = 0 ∨ Reaches dir (maxOf ns) := by
    rcases maxOf_mem ns with hz | hm
    · exact Or.inl hz
    · exact Or.inr ⟨_, (hsst _).mpr hm, Nat.le_refl _⟩
  rw [← hcounter] at htop
  obtain ⟨hnames, hsame⟩ := names_open h htop
  refine ⟨hnames, ?_, htables, ⟨_, rfl⟩⟩
  intro n hn
  show n ≤ maxNumber (sstNames dir) 0
  rw [hcounter]
  exact le_maxOf ((hsst n).mp ((hsame n).mp hn))

/-- Wherever a flush is cut off, it leaves a directory as a run leaves it. -/
theorem Counted.interruptFlush (h : Counted e) {p : CrashPoint}
    (hrun : interruptFlush e p = .ok dir) : Names dir := by
  unfold KvFlushCrash.interruptFlush at hrun
  split at hrun
  · obtain rfl := Except.ok.inj hrun
    exact h.names
  · cases p with
    | before =>
        obtain rfl := Except.ok.inj hrun
        exact h.names
    | written n =>
        obtain ⟨allKv, -, hrun⟩ := bind_eq_ok.mp hrun
        obtain ⟨file, -, hrun⟩ := bind_eq_ok.mp hrun
        obtain rfl := Except.ok.inj hrun
        exact h.names.upsert_sst _ _
    | walOpened =>
        obtain ⟨e₁, hwrite, hrun⟩ := bind_eq_ok.mp hrun
        obtain rfl := Except.ok.inj hrun
        obtain ⟨h₁, -, hr₁⟩ := h.writeTable hwrite
        exact (h₁.rotateWal hr₁).1.names
    | walRemoved =>
        obtain ⟨e₁, hflush, hrun⟩ := bind_eq_ok.mp hrun
        obtain rfl := Except.ok.inj hrun
        exact (h.flush hflush).1.names

theorem Counted.interruptPut (h : Counted e) {key value : Bytes} {p : CrashPoint}
    (hrun : interruptPut e key value p = .ok dir) : Names dir := by
  obtain ⟨e₁, hwrite, hrun⟩ := bind_eq_ok.mp hrun
  have h₁ := (h.write hwrite).1
  split at hrun
  · exact h₁.interruptFlush hrun
  · obtain rfl := Except.ok.inj hrun
    exact h₁.names

/-! ## The calls of `Compact` -/

/-- The number a call holds and has not finished its file for. -/
def Stage.pending : Stage → Option Nat
  | .call (.reserved _ number) => some number
  | .created _ number => some number
  | _ => none

/-- **What is known of a call**: its number is above those of its snapshot; until
    its file is created there is none of its number, and from then on there is a
    table at least as high. -/
def StageOk (e : KVEngine) : Stage → Prop
  | .call (.snapped old) => Below old (e.sstCounter + 1)
  | .call (.reserved old number) =>
      Below old number ∧ number ≤ e.sstCounter ∧ ¬ HasSst e.dir number
  | .created old number => Below old number ∧ number ≤ e.sstCounter ∧ Reaches e.dir number
  | .call (.built old number reader) => Below old number ∧ number ≤ e.sstCounter
      ∧ Reaches e.dir number ∧ reader.filename = getSstPath number
  | .call (.deleting number paths) =>
      Reaches e.dir number ∧ ∀ path ∈ paths, ∃ n, path = getSstPath n ∧ n < number
  | .call .finished => True

/-- What is known of a call stays known while others go on. -/
theorem StageOk.grows {st : Stage} (h : StageOk e st) (hg : Grows e e') : StageOk e' st := by
  cases st with
  | created old number => exact ⟨h.1, h.2.1.trans hg.counter, hg.reaches h.2.2⟩
  | call c =>
      cases c with
      | snapped old => exact Below.mono h (Nat.succ_le_succ hg.counter)
      | reserved old number =>
          exact ⟨h.1, h.2.1.trans hg.counter, fun hs => h.2.2 (hg.fresh h.2.1 hs)⟩
      | built old number reader =>
          exact ⟨h.1, h.2.1.trans hg.counter, hg.reaches h.2.2.1, h.2.2.2⟩
      | deleting number paths => exact ⟨hg.reaches h.1, h.2⟩
      | finished => trivial

/-- **The numbers of a machine are kept apart.** -/
structure Numbered (s : Machine) : Prop where
  engine : Counted s.engine
  stages : ∀ (i : Nat) (st : Stage), s.stages[i]? = some st → StageOk s.engine st
  distinct : ∀ (i j n : Nat) (si sj : Stage), s.stages[i]? = some si → s.stages[j]? = some sj →
    si.pending = some n → sj.pending = some n → i = j

variable {s s' : Machine}

theorem numbered_boot (h : Names dir) {c : Config} (hrun : boot dir c = .ok s) : Numbered s := by
  obtain ⟨e, hstart, hrun⟩ := bind_eq_ok.mp hrun
  obtain rfl := Except.ok.inj hrun
  exact ⟨counted_start h hstart, by simp, by simp⟩

/-- A step of the engine alone. -/
theorem Numbered.engine_step (h : Numbered s) (he : Counted e') (hg : Grows s.engine e') :
    Numbered { s with engine := e' } :=
  ⟨he, fun i st hi => (h.stages i st hi).grows hg, h.distinct⟩

/-- **A step of one call**: the others keep what is known of them, and it holds
    no number but the one it held before, or a new one. -/
theorem Numbered.stage_step (h : Numbered s) {i : Nat} {st st' : Stage}
    (hi : s.stages[i]? = some st) (he : Counted e')
    (hothers : ∀ j sj, j ≠ i → s.stages[j]? = some sj → StageOk e' sj) (hst : StageOk e' st')
    (hpending : ∀ n, st'.pending = some n → st.pending = some n ∨ s.engine.sstCounter < n) :
    Numbered ⟨e', s.stages.set i st'⟩ := by
  have hlt : i < s.stages.length := (List.getElem?_eq_some_iff.mp hi).1
  have hget : ∀ j sj, (s.stages.set i st')[j]? = some sj →
      j = i ∧ sj = st' ∨ j ≠ i ∧ s.stages[j]? = some sj := by
    intro j sj hj
    rw [List.getElem?_set] at hj
    by_cases hij : i = j
    · rw [if_pos hij, if_pos hlt] at hj
      exact Or.inl ⟨hij.symm, (Option.some.inj hj).symm⟩
    · rw [if_neg hij] at hj
      exact Or.inr ⟨fun hc => hij hc.symm, hj⟩
  -- a number that another call holds is not the new one of this call
  have hother : ∀ j sj n, j ≠ i → s.stages[j]? = some sj → sj.pending = some n →
      st'.pending ≠ some n := by
    intro j sj n hji hj hn hn'
    rcases hpending n hn' with hold | hnew
    · exact hji (h.distinct j i n sj st hj hi hn hold)
    · have hok := h.stages j sj hj
      cases sj with
      | created old number =>
          obtain rfl := Option.some.inj hn
          exact absurd hok.2.1 (by omega)
      | call c =>
          cases c with
          | reserved old number =>
              obtain rfl := Option.some.inj hn
              exact absurd hok.2.1 (by omega)
          | snapped _ => cases hn
          | built _ _ _ => cases hn
          | deleting _ _ => cases hn
          | finished => cases hn
  -- this call is at its new stage, every other one where it was
  refine ⟨he, ?_, ?_⟩
  · intro j sj hj
    rcases hget j sj hj with ⟨-, rfl⟩ | ⟨hji, hj'⟩
    · exact hst
    · exact hothers j sj hji hj'
  · intro j k n sj sk hj hk hnj hnk
    rcases hget j sj hj with ⟨rfl, rfl⟩ | ⟨hji, hj'⟩
    · rcases hget k sk hk with ⟨rfl, -⟩ | ⟨hki, hk'⟩
      · rfl
      · exact absurd hnj (hother k sk n hki hk' hnk)
    · rcases hget k sk hk with ⟨rfl, rfl⟩ | ⟨hki, hk'⟩
      · exact absurd hnk (hother j sj n hji hj' hnj)
      · exact h.distinct j k n sj sk hj' hk' hnj hnk

/-! ## One stage of one call -/

theorem Counted.reserve (h : Counted e) : Counted e.reserve ∧ Grows e e.reserve where
  left := ⟨h.names, fun n hn => (h.le n hn).trans (Nat.le_succ _), h.tables.mono (Nat.le_succ _),
    h.log⟩
  right := ⟨Nat.le_succ _, fun hr => hr, fun _ hs => hs⟩

/-- A table file of a number that is taken comes in, or gets new bytes. -/
theorem Counted.upsert_sst (h : Counted e) {number : Nat} (hn : number ≤ e.sstCounter)
    (file : Bytes) : Counted { e with dir := upsert (getSstPath number) file e.dir } := by
  refine ⟨h.names.upsert_sst _ _, ?_, h.tables, h.log⟩
  intro n hs
  rcases (hasSst_upsert_sst file).mp hs with rfl | hold
  · exact hn
  · exact h.le n hold

/-- The other calls do not hold that number, and keep what is known of them. -/
theorem StageOk.upsert_sst {st : Stage} (h : StageOk e st) {number : Nat} (file : Bytes)
    (hne : st.pending ≠ some number) :
    StageOk { e with dir := upsert (getSstPath number) file e.dir } st := by
  have hreaches : ∀ {k}, Reaches e.dir k → Reaches (upsert (getSstPath number) file e.dir) k :=
    Reaches.mono fun n hn => (hasSst_upsert_sst file).mpr (Or.inr hn)
  cases st with
  | created old n => exact ⟨h.1, h.2.1, hreaches h.2.2⟩
  | call c =>
      cases c with
      | snapped old => exact h
      | reserved old n =>
          refine ⟨h.1, h.2.1, ?_⟩
          intro hs
          rcases (hasSst_upsert_sst file).mp hs with heq | hold
          · exact hne (congrArg some heq)
          · exact h.2.2 hold
      | built old n reader => exact ⟨h.1, h.2.1, hreaches h.2.2.1, h.2.2.2⟩
      | deleting n paths => exact ⟨hreaches h.1, h.2⟩
      | finished => trivial

theorem reaches_upsert_sst (number : Nat) (file : Bytes) :
    Reaches (upsert (getSstPath number) file dir) number :=
  ⟨number, (hasSst_upsert_sst file).mpr (Or.inl rfl), Nat.le_refl _⟩

/-- A table goes, below one that stays. -/
theorem Counted.remove_sst (h : Counted e) {n m : Nat} (hm : Reaches e.dir m) (hnm : n < m) :
    Counted { e with dir := remove e.dir (getSstPath n) }
      ∧ Grows e { e with dir := remove e.dir (getSstPath n) } where
  left := ⟨h.names.remove_sst hm hnm, fun k hk => h.le k (hasSst_remove_sst.mp hk).2, h.tables,
    h.log⟩
  right := ⟨Nat.le_refl _, fun hr => hr.remove_sst hm hnm, fun _ hs => (hasSst_remove_sst.mp hs).2⟩

/-- One turn of the deletion loop. -/
theorem Counted.deleteOld (h : Counted e) {n m : Nat} (hm : Reaches e.dir m) (hnm : n < m)
    (compactPath : Bytes) : Counted (e.deleteOld compactPath (getSstPath n))
      ∧ Grows e (e.deleteOld compactPath (getSstPath n)) := by
  rw [KVEngine.deleteOld]
  split
  · exact h.remove_sst hm hnm
  · exact ⟨h, grows_of_same rfl fun _ => Iff.rfl⟩

/-- The list is replaced; the directory stays. -/
theorem Counted.swap (h : Counted e) (old : List SSTableReader) {number : Nat}
    (hn : number ≤ e.sstCounter) {reader : SSTableReader}
    (hfile : reader.filename = getSstPath number) :
    Counted (e.swap old reader) ∧ Grows e (e.swap old reader) := by
  refine ⟨⟨h.names, h.le, ?_, h.log⟩, grows_of_same rfl fun _ => Iff.rfl⟩
  intro r hr
  rcases List.mem_cons.mp hr with rfl | hold
  · exact ⟨number, hfile, Nat.lt_succ_of_le hn⟩
  · exact h.tables r (List.mem_filter.mp hold).1

/-- What `writeMerged` leaves. -/
theorem writeMerged_eq_ok {number : Nat} {file : Bytes} {er : KVEngine × Option SSTableReader}
    (hrun : e.writeMerged number file = .ok er) :
    er.1 = { e with dir := upsert (getSstPath number) file e.dir }
      ∧ ∀ reader, er.2 = some reader → reader.filename = getSstPath number := by
  obtain ⟨reader, hopen, hrun⟩ := bind_eq_ok.mp hrun
  obtain rfl := Except.ok.inj hrun
  refine ⟨rfl, ?_⟩
  rintro r rfl
  exact (open_eq_some hopen).1

/-- The other calls while a call writes its file. -/
theorem Numbered.others (h : Numbered s) {i number : Nat} {st : Stage}
    (hi : s.stages[i]? = some st) (hp : st.pending = some number) (file : Bytes) (j : Nat)
    (sj : Stage) (hji : j ≠ i) (hj : s.stages[j]? = some sj) :
    StageOk { s.engine with dir := upsert (getSstPath number) file s.engine.dir } sj :=
  (h.stages j sj hj).upsert_sst file fun hn => hji (h.distinct j i number sj st hj hi hn hp)

/-- **One stage of a call** keeps the numbers apart. -/
theorem Numbered.advance (h : Numbered s) {i : Nat} {st st' : Stage}
    (hi : s.stages[i]? = some st) (hrun : st.advance s.engine = .ok (e', st')) :
    Numbered ⟨e', s.stages.set i st'⟩ := by
  have hok := h.stages i st hi
  -- a step that only grows keeps what is known of the other calls
  have hgrows : Grows s.engine e' → ∀ j sj, j ≠ i → s.stages[j]? = some sj → StageOk e' sj :=
    fun hg j sj _ hj => (h.stages j sj hj).grows hg
  cases st with
  | created old number =>
      obtain ⟨⟨e₁, c⟩, hadvance, hrun⟩ := bind_eq_ok.mp hrun
      obtain ⟨rfl, rfl⟩ := Prod.mk.inj (Except.ok.inj hrun)
      obtain ⟨file, -, hadvance⟩ := bind_eq_ok.mp hadvance
      obtain ⟨⟨e₂, reader⟩, hwrite, hadvance⟩ := bind_eq_ok.mp hadvance
      obtain ⟨rfl, hreader⟩ := writeMerged_eq_ok hwrite
      have hcounted := h.engine.upsert_sst hok.2.1 file
      have hothers := h.others hi rfl file
      -- a file that `Open` rejects ends the call, and stays on disk
      cases reader with
      | none =>
          obtain ⟨rfl, rfl⟩ := Prod.mk.inj (Except.ok.inj hadvance)
          exact h.stage_step hi hcounted hothers trivial (fun n hn => by cases hn)
      | some reader =>
          obtain ⟨rfl, rfl⟩ := Prod.mk.inj (Except.ok.inj hadvance)
          refine h.stage_step hi hcounted hothers ?_ (fun n hn => by cases hn)
          exact ⟨hok.1, hok.2.1, reaches_upsert_sst number file, hreader reader rfl⟩
  | call c =>
      cases c with
      | snapped old =>
          obtain ⟨rfl, rfl⟩ := Prod.mk.inj (Except.ok.inj hrun)
          obtain ⟨hcounted, hg⟩ := h.engine.reserve
          refine h.stage_step hi hcounted (hgrows hg) ⟨hok, Nat.le_refl _, ?_⟩ ?_
          · -- no table is numbered above the old counter
            intro hs
            exact absurd (h.engine.le _ hs) (Nat.not_succ_le_self _)
          · intro n hn
            obtain rfl := Option.some.inj hn
            exact Or.inr (Nat.lt_succ_self _)
      | reserved old number =>
          obtain ⟨rfl, rfl⟩ := Prod.mk.inj (Except.ok.inj hrun)
          -- the number was reserved, so the file is created under it
          exact h.stage_step hi (h.engine.upsert_sst hok.2.1 []) (h.others hi rfl [])
            ⟨hok.1, hok.2.1, reaches_upsert_sst number []⟩ (fun n hn => Or.inl hn)
      | built old number reader =>
          obtain ⟨rfl, rfl⟩ := Prod.mk.inj (Except.ok.inj hrun)
          -- the swap changes the list only; the paths to delete are those of the snapshot
          obtain ⟨hcounted, hg⟩ := h.engine.swap old hok.2.1 hok.2.2.2
          refine h.stage_step hi hcounted (hgrows hg) ⟨hok.2.2.1, ?_⟩ (fun n hn => by cases hn)
          intro path hpath
          obtain ⟨r, hr, rfl⟩ := List.mem_map.mp hpath
          exact hok.1 r hr
      | deleting number paths =>
          cases paths with
          | nil =>
              obtain ⟨rfl, rfl⟩ := Prod.mk.inj (Except.ok.inj hrun)
              exact h.stage_step hi h.engine (hgrows (grows_of_same rfl fun _ => Iff.rfl)) trivial
                (fun n hn => by cases hn)
          | cons path paths =>
              obtain ⟨rfl, rfl⟩ := Prod.mk.inj (Except.ok.inj hrun)
              -- the deleted file is numbered below the merged one, which stays
              obtain ⟨n, rfl, hlt⟩ := hok.2 path List.mem_cons_self
              obtain ⟨hcounted, hg⟩ := h.engine.deleteOld hok.1 hlt (getSstPath number)
              exact h.stage_step hi hcounted (hgrows hg) ⟨hg.reaches hok.1, fun path hpath =>
                hok.2 path (List.mem_cons_of_mem _ hpath)⟩ (fun n hn => by cases hn)
      | finished =>
          obtain ⟨rfl, rfl⟩ := Prod.mk.inj (Except.ok.inj hrun)
          exact h.stage_step hi h.engine (hgrows (grows_of_same rfl fun _ => Iff.rfl)) trivial
            (fun n hn => by cases hn)

/-- A part of a call's file reaches the disk. -/
theorem Numbered.fill (h : Numbered s) {i n : Nat} {st : Stage} (hi : s.stages[i]? = some st)
    (hrun : st.fill s.engine n = .ok e') : Numbered { s with engine := e' } := by
  cases st with
  | call c =>
      obtain rfl := Except.ok.inj hrun
      exact h
  | created old number =>
      obtain ⟨file, -, hrun⟩ := bind_eq_ok.mp hrun
      obtain rfl := Except.ok.inj hrun
      have hok := h.stages i _ hi
      refine ⟨h.engine.upsert_sst hok.2.1 _, ?_, h.distinct⟩
      intro j sj hj
      by_cases hji : j = i
      · -- the call itself only knows that its file is there
        obtain rfl : sj = .created old number := by
          rw [hji, hi] at hj
          exact (Option.some.inj hj).symm
        exact ⟨hok.1, hok.2.1, reaches_upsert_sst number _⟩
      · exact h.others hi rfl _ j sj hji hj

/-- A call of `Compact` begins with the tables of the engine. -/
theorem Numbered.begin (h : Numbered s) {old : List SSTableReader}
    (hold : s.engine.snapshot = some old) :
    Numbered { s with stages := s.stages ++ [.call (.snapped old)] } := by
  have hold' : old = s.engine.sstables := by
    rw [KVEngine.snapshot] at hold
    split at hold
    · cases hold
    · exact (Option.some.inj hold).symm
  have hget : ∀ (j : Nat) (sj : Stage), (s.stages ++ [Stage.call (.snapped old)])[j]? = some sj →
      s.stages[j]? = some sj ∨ sj = Stage.call (.snapped old) := by
    intro j sj hj
    rw [List.getElem?_append] at hj
    split at hj
    · exact Or.inl hj
    · exact Or.inr (List.mem_singleton.mp (List.mem_of_getElem? hj))
  refine ⟨h.engine, ?_, ?_⟩
  · intro j sj hj
    rcases hget j sj hj with hj' | rfl
    · exact h.stages j sj hj'
    · rw [hold']
      exact h.engine.tables
  · intro j k n sj sk hj hk hnj hnk
    rcases hget j sj hj with hj' | rfl
    · rcases hget k sk hk with hk' | rfl
      · exact h.distinct j k n sj sk hj' hk' hnj hnk
      · cases hnk
    · cases hnj

/-! ## Every run -/

/-- **One event** keeps the numbers apart. -/
theorem numbered_step (h : Numbered s) (ev : Event) (hrun : s.step ev = .ok s') :
    Numbered s' := by
  cases ev with
  | put key value =>
      obtain ⟨e, hput, hrun⟩ := bind_eq_ok.mp hrun
      obtain rfl := Except.ok.inj hrun
      obtain ⟨hcounted, hg⟩ := h.engine.put hput
      exact h.engine_step hcounted hg
  | erase key =>
      obtain ⟨e, herase, hrun⟩ := bind_eq_ok.mp hrun
      obtain rfl := Except.ok.inj hrun
      obtain ⟨hcounted, hg⟩ := h.engine.write herase
      exact h.engine_step hcounted hg
  | forceFlush =>
      obtain ⟨e, hflush, hrun⟩ := bind_eq_ok.mp hrun
      obtain rfl := Except.ok.inj hrun
      obtain ⟨hcounted, hg⟩ := h.engine.flush hflush
      exact h.engine_step hcounted hg
  | begin =>
      rw [Machine.step] at hrun
      split at hrun
      · obtain rfl := Except.ok.inj hrun
        exact h
      · obtain rfl := Except.ok.inj hrun
        exact h.begin ‹_›
  | advance i =>
      rw [Machine.step] at hrun
      split at hrun
      · obtain rfl := Except.ok.inj hrun
        exact h
      · obtain ⟨⟨e, st⟩, hadvance, hrun⟩ := bind_eq_ok.mp hrun
        obtain rfl := Except.ok.inj hrun
        exact h.advance ‹_› hadvance
  | fill i n =>
      rw [Machine.step] at hrun
      split at hrun
      · obtain rfl := Except.ok.inj hrun
        exact h
      · obtain ⟨e, hfill, hrun⟩ := bind_eq_ok.mp hrun
        obtain rfl := Except.ok.inj hrun
        exact h.fill ‹_› hfill
  | restart c => exact numbered_boot h.engine.names hrun
  | crashInFlush p c =>
      obtain ⟨dir, hcrash, hrun⟩ := bind_eq_ok.mp hrun
      exact numbered_boot (h.engine.interruptFlush hcrash) hrun
  | crashInPut key value p c =>
      obtain ⟨dir, hcrash, hrun⟩ := bind_eq_ok.mp hrun
      exact numbered_boot (h.engine.interruptPut hcrash) hrun

/-- What an event creates is new, where the numbers are kept apart. -/
theorem Numbered.fresh (h : Numbered s) (ev : Event) : Fresh s ev := by
  cases ev with
  | put key value =>
      intro e hwrite
      exact (h.engine.write hwrite).1.flushFresh
  | crashInPut key value p c =>
      intro e hwrite
      exact (h.engine.write hwrite).1.flushFresh
  | forceFlush => exact h.engine.flushFresh
  | crashInFlush p c => exact h.engine.flushFresh
  | advance i =>
      intro old number hi
      exact not_hasSst.mp (h.stages i _ hi).2.2
  | erase key => trivial
  | begin => trivial
  | fill i n => trivial
  | restart c => trivial

/-- **No file that a flush or a compaction creates is there before**, in any run
    from an empty directory, with crashes and restarts. -/
theorem creations_fresh (c : Config) (evs : List Event) :
    Ends (fun _ => True) (boot [] c >>= fun s => evs.foldlM Machine.step s)
      (fun s => ∀ ev, Fresh s ev) := by
  have hboot : Ends (fun _ => True) (boot [] c) Numbered := by
    cases hb : boot [] c with
    | error f => trivial
    | ok s => exact numbered_boot names_nil hb
  have hstep : ∀ {ev : Event} {_ : List Event} {s : Machine}, Numbered s → True →
      Ends (fun _ => True) (s.step ev) Numbered := by
    intro ev _ s hs _
    cases hrun : s.step ev with
    | error f => trivial
    | ok s' => exact numbered_step hs ev hrun
  refine hboot.bind fun s hs => ?_
  exact (ends_foldlM (fun _ => Numbered) @hstep evs (meets_of_forall (fun _ _ => trivial) evs s)
    hs).mono fun s' hs' ev => hs'.fresh ev

end KvNumbering
