import LightKV.KvReopenProofs

/-! # Crashes in a flush

    The process may stop between the file effects of `FlushMemTable`.  The old
    log is removed last, so whatever the directory then holds, the next engine
    reads every write that reached the log (`interruptFlush_spec`).  But the
    table file that is there already moves the next engine's log on, and the old
    one is never removed; a later flush leaves it behind, and the restart after
    that replays it over newer tables (`crash_revives_old_value`).  Reads stay
    right in every run whose completed flushes leave no log behind that
    disagrees with the memtable, and whose torn table files are not taken for
    tables (`get_after_crashes`). -/

namespace KvFlushCrash

open Execution KvBytes KvCompaction KvDirectory KvEngine KvFiles KvLogs KvRecovery KvReopen
open KvSession KvSkipList KvStore KvTable KvWal Overlay

/-! ## A flush that is cut off -/

/-- Where `FlushMemTable` stops. -/
inductive CrashPoint
  | before
  /-- the first `n` bytes of the table file are on disk -/
  | written (n : Nat)
  /-- the next log is open as well -/
  | walOpened
  /-- the old log is removed as well -/
  | walRemoved

/-- What `FlushMemTable` leaves on disk when it stops there. -/
def interruptFlush (e : KVEngine) (p : CrashPoint) : Except Fault Directory :=
  if e.skiplist.size = 0 then pure e.dir
  else match p with
    | .before => pure e.dir
    | .written n => do
        let allKv ← e.skiplist.dumpAll
        let file ← buildTable allKv
        pure (upsert (getSstPath (e.sstCounter + 1)) (file.take n) e.dir)
    | .walOpened => do
        let e ← e.writeTable
        pure e.rotateWal.dir
    | .walRemoved => do
        let e ← e.flushMemTable
        pure e.dir

/-- `Open` rejects a file of these bytes. -/
def Unopenable (file : Bytes) : Prop :=
  ∀ filename sequence, SSTableReader.open filename (some file) sequence = .ok none

/-- **The condition on a flush that is cut off**, in the state before it: a torn
    table file is none for `Open`, and a flush that removed its log was safe. -/
def CrashSafe (e : KVEngine) (p : CrashPoint) : Prop :=
  (∀ dir, interruptFlush e p = .ok dir → SortsByNumber dir)
    ∧ match p with
      | .written n => ∀ l file, e.skiplist.dumpAll = .ok l → buildTable l = .ok file →
          n < file.length → Unopenable (file.take n)
      | .walRemoved => FlushSafe e
      | _ => True

variable {g : Bytes → Option Bytes} {e : KVEngine} {s : Store}

/-- The whole table file is there, and the old log. -/
theorem restartable_written (hrep : Rep e s) (h : Durable g s) (hne : s.mem ≠ [])
    {dir : Directory} {logs : List (Nat × Bytes)} (hdir : DirRep dir s.writeTable.files logs)
    (hlogs : logs = s.logs ∨ logs = openLog (s.counter + 1 + 1) s.logs) :
    Restartable g dir { s.writeTable with logs := logs } := by
  have hfiled := h.filed.writeTable hne
  have hle : ∀ n, (s.logs.lookup n).isSome → n ≤ s.counter + 1 + 1 :=
    fun n hn => ((h.logged.last n hn).trans hrep.logLe).trans (Nat.le_succ _)
  have hreads : ∀ k, visible (((replayed s.logs).lookup k).or
      (overlay (s.writeTable.tables.map Table.entries) k)) = g k := by
    intro k
    refine h.reads_disk ?_
    intro hmem
    have hstored := storedLayer_of_fits h.agrees.fits
    rw [Store.writeTable, List.map_cons, overlay_cons, hstored, hmem, Option.none_or]
  refine ⟨hdir, ⟨hfiled.sorted, hfiled.descending, hfiled.tableFile, hfiled.fileTable,
    hfiled.fileLe, hfiled.top⟩, ?_, ?_, ?_⟩
  · intro n log hn
    rcases hlogs with rfl | rfl
    · exact h.logged.clean n log hn
    · simp only [lookup_openLog] at hn
      split at hn
      · obtain rfl := Option.some.inj hn
        cases hl : s.logs.lookup (s.counter + 1 + 1) with
        | none => exact clean_nil
        | some log => exact h.logged.clean _ log hl
      · exact h.logged.clean n log hn
  · intro n hn
    rcases hlogs with rfl | rfl
    · exact hle n hn
    · simp only [lookup_openLog] at hn
      split at hn
      · exact Nat.le_of_eq ‹_›
      · exact hle n hn
  · intro k
    rcases hlogs with rfl | rfl
    · exact hreads k
    · show visible (((replayed (openLog (s.counter + 1 + 1) s.logs)).lookup k).or _) = g k
      rw [lookup_replayed_openLog h.logged.sorted hle]
      exact hreads k

/-- A part of the table file is there that `Open` rejects, and the old log. -/
theorem restartable_torn (hrep : Rep e s) (h : Durable g s) {file : Bytes}
    (hfile : Unopenable file) :
    Restartable g (upsert (getSstPath (s.counter + 1)) file e.dir)
      { s with counter := s.counter + 1, files := upsert (s.counter + 1) [] s.files } where
  dir := hrep.dir.writeFile (Or.inl ⟨rfl, hfile⟩) _
  filed := h.filed.addEmpty rfl rfl rfl
  clean := h.logged.clean
  logLe n hn := ((h.logged.last n hn).trans hrep.logLe).trans (Nat.le_succ _)
  reads _ := h.reads_disk (fun _ => rfl)

/-- The store that the next engine finds when the flush of `s` is cut off. -/
inductive Left (s : Store) : Store → Prop
  | same : Left s s
  | torn : Left s { s with counter := s.counter + 1, files := upsert (s.counter + 1) [] s.files }
  | written (hne : s.mem ≠ []) : Left s { s.writeTable with logs := s.logs }
  | walOpened (hne : s.mem ≠ []) :
      Left s { s.writeTable with logs := openLog (s.counter + 1 + 1) s.logs }
  | flushed (hne : s.mem ≠ []) : Left s s.flush

/-- **What is on disk when a flush is cut off.** -/
theorem interruptFlush_left (hrep : Rep e s) (h : Durable g s) {p : CrashPoint}
    (hsafe : CrashSafe e p) :
    Runs (interruptFlush e p) (fun dir => ∃ s', Restartable g dir s' ∧ Left s s') := by
  have hsize := models_size hrep.mem
  unfold interruptFlush
  by_cases hzero : e.skiplist.size = 0
  · rw [if_pos hzero]
    exact ⟨s, h.restartable hrep, Left.same⟩
  have hne : s.mem ≠ [] := by
    intro hnil
    rw [hnil] at hsize
    exact hzero hsize
  rw [if_neg hzero]
  cases p with
  | before => exact ⟨s, h.restartable hrep, Left.same⟩
  | written n =>
      have hdump := models_dumpAll hrep.mem
      have hbuild := buildTable_spec hrep.storable hrep.mem.keySorted
      simp only [hdump, ok_bind]
      cases hrun : buildTable s.mem with
      | error f =>
          rw [hrun] at hbuild
          exact hbuild
      | ok file =>
          rw [hrun] at hbuild
          show ∃ s', Restartable g (upsert (getSstPath (e.sstCounter + 1)) (file.take n) e.dir) s' ∧ _
          rw [hrep.counter]
          rcases Nat.lt_or_ge n file.length with hlt | hge
          · exact ⟨_, restartable_torn hrep h (hsafe.2 s.mem file hdump hrun hlt), Left.torn⟩
          · rw [List.take_of_length_le hge]
            exact ⟨_, restartable_written hrep h hne (hrep.dir.writeFile hbuild _) (Or.inl rfl),
              Left.written hne⟩
  | walOpened =>
      refine (hrep.writeTable hne).bind ?_
      rintro e' ⟨hrep', -⟩
      exact ⟨_, restartable_written hrep h hne hrep'.rotateWal.dir (Or.inr rfl), Left.walOpened hne⟩
  | walRemoved =>
      refine hrep.flush.bind ?_
      intro e' hrep'
      exact ⟨s.flush, (durable_flush hrep h hsafe.2).restartable hrep', Left.flushed hne⟩

/-- **Whatever is on disk when a flush is cut off**, the next engine reads the same. -/
theorem interruptFlush_spec (hrep : Rep e s) (h : Durable g s) {p : CrashPoint}
    (hsafe : CrashSafe e p) :
    Runs (interruptFlush e p) (fun dir => ∃ s', Restartable g dir s') := by
  refine (interruptFlush_left hrep h hsafe).mono ?_
  rintro dir ⟨s', hr, -⟩
  exact ⟨s', hr⟩

/-! ## Runs with crashes -/

/-- What can happen, crashes included; each is followed by a restart. -/
inductive Incident
  | event (ev : Event)
  /-- the process stops in the flush of `force_flush` -/
  | crash (p : CrashPoint) (c : Config)
  /-- the process stops in the flush of a `put`, or behind it if there is none -/
  | putCrash (key value : Bytes) (p : CrashPoint) (c : Config)

/-- What a `put` that is cut off behind its write leaves on disk. -/
def interruptPut (e : KVEngine) (key value : Bytes) (p : CrashPoint) :
    Except Fault Directory := do
  let e ← e.write .PUT key value ⟨.kTypeValue, value⟩
  if e.skiplist.size ≥ e.maxMemNodes then interruptFlush e p else pure e.dir

/-- One incident. -/
def suffer (e : KVEngine) : Incident → Except Fault KVEngine
  | .event ev => happen e ev
  | .crash p c => do
      let dir ← interruptFlush e p
      start dir c
  | .putCrash key value p c => do
      let dir ← interruptPut e key value p
      start dir c

/-- The condition on each incident, in the state before it. -/
def SafeFrom (e : KVEngine) : Incident → Prop
  | .event ev => Safe e ev
  | .crash p _ => CrashSafe e p
  | .putCrash key value p _ => key.length < 2 ^ 32 ∧ value.length < 2 ^ 32
      ∧ ∀ e', e.write .PUT key value ⟨.kTypeValue, value⟩ = .ok e' →
        if e'.skiplist.size ≥ e'.maxMemNodes then CrashSafe e' p else SortsByNumber e'.dir

/-- What reached the log in an incident. -/
def logged (g : Bytes → Option Bytes) : Incident → Bytes → Option Bytes
  | .event (.op o) => effect g o
  | .putCrash key value _ _ => effect g (.put key value)
  | _ => g

/-- The last write of each key that reached its log. -/
def latestLogged (is : List Incident) : Bytes → Option Bytes := is.foldl logged (fun _ => none)

/-- **Every incident that is safe** keeps the engine durable. -/
theorem suffer_durable (hrep : Rep e s) (h : Durable g s) {i : Incident} (hsafe : SafeFrom e i) :
    Runs (suffer e i) (fun e' => ∃ s', Rep e' s' ∧ Durable (logged g i) s') := by
  have hstart : ∀ {g : Bytes → Option Bytes} {dir : Directory} {s : Store} (c : Config),
      Restartable g dir s → SortsByNumber dir →
      Runs (start dir c) (fun e' => ∃ s', Rep e' s' ∧ Durable g s') := by
    intro g dir s c hr hnames
    obtain ⟨e', s', hrun, hrep', hd'⟩ := start_durable hr hnames c
    exact ends_of_eq_ok hrun ⟨s', hrep', hd'⟩
  -- a crash leaves a directory, and a start is what follows
  have hcrash : ∀ {g : Bytes → Option Bytes} {e : KVEngine} {s : Store} {p : CrashPoint}
      (c : Config), Rep e s → Durable g s → CrashSafe e p →
      Runs (interruptFlush e p >>= fun dir => start dir c)
        (fun e' => ∃ s', Rep e' s' ∧ Durable g s') := by
    intro g e s p c hrep h hsafe
    have hrun := interruptFlush_spec hrep h hsafe
    cases hdir : interruptFlush e p with
    | error f =>
        rw [hdir] at hrun
        exact hrun
    | ok dir =>
        rw [hdir] at hrun
        obtain ⟨s', hr⟩ := hrun
        exact hstart c hr (hsafe.1 dir hdir)
  cases i with
  | event ev =>
      cases ev with
      | op o =>
          refine (execute_spec hrep (OpSafe.keyFits hsafe)).mono ?_
          rintro e' ⟨s', hs, hrep'⟩
          exact ⟨s', hrep', durable_step hrep h hsafe hs⟩
      | reopen c => exact hstart c (h.restartable hrep) hsafe
  | crash p c => exact hcrash c hrep h hsafe
  | putCrash key value p c =>
      obtain ⟨hkey, hvalue, hsafe'⟩ := hsafe
      obtain ⟨e', hrun, hrep'⟩ := hrep.write .PUT value ⟨.kTypeValue, value⟩ hkey (Or.inr rfl)
      have hw : Durable (effect g (.put key value))
          (s.write ⟨.PUT, key, value⟩ ⟨.kTypeValue, value⟩) :=
        durable_write h ⟨.PUT, key, value⟩ ⟨.kTypeValue, value⟩ (Or.inl ⟨rfl, rfl⟩)
          ⟨hkey, hvalue⟩ ⟨hkey, Or.inr ⟨rfl, hvalue⟩⟩
      have hcond := hsafe' e' hrun
      simp only [suffer, interruptPut, hrun, ok_bind]
      -- the put is logged before the flush can be cut
      by_cases hfull : e'.skiplist.size ≥ e'.maxMemNodes
      · rw [if_pos hfull] at hcond ⊢
        exact hcrash c hrep' hw hcond
      · rw [if_neg hfull] at hcond ⊢
        exact hstart c (hw.restartable hrep') hcond

/-- **Reads after crashes.**  In every run whose incidents are safe, `get`
    answers with the last write of its key that reached the log. -/
theorem get_after_crashes (c : Config) {is : List Incident}
    (hmeets : ∀ e, start [] c = .ok e → Meets suffer SafeFrom e is) :
    Runs (start [] c >>= fun e => is.foldlM suffer e)
      (fun e => ∀ key, e.get key = .ok (latestLogged is key)) := by
  obtain ⟨e, hrun, hrep⟩ := start_nil c
  let I : List Incident → KVEngine → Prop := fun rest e => ∃ s g, Rep e s ∧ Durable g s
    ∧ rest.foldl logged g = latestLogged is
  have hI : ∀ {i : Incident} {rest : List Incident} {e : KVEngine}, I (i :: rest) e →
      SafeFrom e i → Runs (suffer e i) (I rest) := by
    rintro i rest e ⟨s, g, hrep, hd, hg⟩ hsafe
    refine (suffer_durable hrep hd hsafe).mono ?_
    rintro e' ⟨s', hrep', hd'⟩
    exact ⟨s', _, hrep', hd', hg⟩
  rw [hrun, ok_bind]
  refine (ends_foldlM I hI is (hmeets e hrun)
    ⟨_, _, hrep, durable_fresh c.maxMemNodes, rfl⟩).mono ?_
  rintro e' ⟨s', g, hrep', hd', hg⟩ key
  rw [hrep'.get, hd'.agrees.reads, ← hg]
  rfl

/-- A test for `Unopenable`: name and sequence number do not matter. -/
def rejects (file : Bytes) : Bool :=
  match SSTableReader.open [] (some file) 0 with
  | .ok none => true
  | _ => false

theorem unopenable_of_rejects {file : Bytes} (h : rejects file = true) : Unopenable file := by
  intro filename sequence
  simp only [rejects, SSTableReader.open, SSTableReader.openUpTo] at h ⊢
  cases hf : readFooter file with
  | none => rfl
  | some footer =>
      rw [hf] at h
      simp only at h ⊢
      cases hp : pread wholeReads file footer.indexSize footer.indexOffset with
      | error f =>
          rw [hp] at h
          cases h
      | ok buffer =>
          cases buffer with
          | none => rfl
          | some buffer =>
              simp only [hp, ok_bind] at h
              cases hi : parseIndex buffer.length buffer with
              | error f =>
                  rw [hi] at h
                  cases h
              | ok index =>
                  rw [hi] at h
                  cases h

/-- A test for `CrashSafe`. -/
def crashTest (e : KVEngine) (p : CrashPoint) : Bool :=
  (match interruptFlush e p with
    | .ok dir => shortNames dir
    | .error _ => true)
  && match p with
    | .written n =>
        match e.skiplist.dumpAll >>= buildTable with
        | .ok file => file.length ≤ n || rejects (file.take n)
        | .error _ => true
    | .walRemoved => noStaleLog e
    | _ => true

theorem crashSafe_of_crashTest {e : KVEngine} {p : CrashPoint} (h : crashTest e p = true) :
    CrashSafe e p := by
  obtain ⟨hdir, htorn⟩ := Bool.and_eq_true_iff.mp h
  constructor
  · intro dir hrun
    rw [hrun] at hdir
    exact sortsByNumber_of_shortNames hdir
  · cases p with
    | before => trivial
    | walOpened => trivial
    | walRemoved => exact flushSafe_of_noStaleLog htorn
    | written n =>
        intro l file hdump hbuild hlt
        simp only [hdump, ok_bind, hbuild] at htorn
        rcases Bool.or_eq_true_iff.mp htorn with hle | hrej
        · exact absurd (of_decide_eq_true hle) (Nat.not_le_of_lt hlt)
        · exact unopenable_of_rejects hrej

/-- A test for `SafeFrom`. -/
def incidentTest (e : KVEngine) : Incident → Bool
  | .event ev => safeTest e ev
  | .crash p _ => crashTest e p
  | .putCrash key value p _ => key.length < 2 ^ 32 && value.length < 2 ^ 32
      && match e.write .PUT key value ⟨.kTypeValue, value⟩ with
        | .ok e' => crashTest e' p && shortNames e'.dir
        | .error _ => true

theorem safeFrom_of_incidentTest (e : KVEngine) (i : Incident) (h : incidentTest e i = true) :
    SafeFrom e i := by
  cases i with
  | event ev => exact safe_of_safeTest e ev h
  | crash p c => exact crashSafe_of_crashTest h
  | putCrash key value p c =>
      obtain ⟨hfits, htest⟩ := Bool.and_eq_true_iff.mp h
      obtain ⟨hkey, hvalue⟩ := Bool.and_eq_true_iff.mp hfits
      refine ⟨of_decide_eq_true hkey, of_decide_eq_true hvalue, ?_⟩
      intro e' hrun
      rw [hrun] at htest
      obtain ⟨hcrash, hnames⟩ := Bool.and_eq_true_iff.mp htest
      split
      · exact crashSafe_of_crashTest hcrash
      · exact sortsByNumber_of_shortNames hnames

/-- A crash before a flush's table file, and one while it is written. -/
def crashTwice : List Incident :=
  [.event (.op (.put [107] [1])), .crash .before plainConfig, .event (.op (.put [107] [2])),
    .event (.op .forceFlush), .putCrash [97] [1] .before plainConfig, .event (.op (.erase [107])),
    .crash (.written 30) plainConfig, .event (.op (.put [107] [3]))]

theorem get_after_crashes_plain :
    Runs (start [] plainConfig >>= fun e => crashTwice.foldlM suffer e)
      (fun e => ∀ key, e.get key = .ok (latestLogged crashTwice key)) := by
  refine get_after_crashes plainConfig ?_
  intro e he
  have hcheck : Yields (start [] plainConfig)
      (fun e => checkAll suffer incidentTest e crashTwice = true) := by
    decide +kernel
  exact meets_of_checkAll safeFrom_of_incidentTest (hcheck.of_eq_ok he)

/-- A crash when the table file was just created, an overwrite that is flushed,
    and a restart. -/
def crashThenFlush : List Incident :=
  [.event (.op (.put [107] [1])), .crash (.written 0) plainConfig,
    .event (.op (.put [107] [2])), .event (.op .forceFlush), .event (.reopen plainConfig)]

/-- **The log that the crash left behind is replayed over the newer table.** -/
theorem crash_revives_old_value :
    Yields (start [] plainConfig >>= fun e => crashThenFlush.foldlM suffer e)
        (fun e => e.get [107] = .ok (some [1]))
      ∧ latestLogged crashThenFlush [107] = some [2] := by
  refine ⟨?_, by decide⟩
  decide +kernel

end KvFlushCrash
