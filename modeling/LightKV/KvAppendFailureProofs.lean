import LightKV.KvSessionProofs

/-! # Appends that fail

    `put` and `erase` ignore what `Append` returns.  An append may write nothing
    or a part of its frame, and from then on the stream stays failed and every
    later append writes nothing; the memtable takes the write all the same.  So
    the memtable is what a replay of the log gives exactly as long as no append
    fails whose write the log does not already tell: in every run whose steps are
    `Backed` it stays so (`memtable_eq_replay`), and one lost frame is enough to
    part the two (`lost_frame_is_visible`). -/

namespace KvAppendFailure

open Execution KvBytes KvDirectory KvEngine KvRecovery KvSession KvSkipList KvStore KvTable KvWal
open Overlay

/-! ## A log whose stream may fail -/

/-- An engine, and whether `ofs_` is in a failed state. -/
structure Session where
  engine : KVEngine
  failed : Bool

/-- `none` for an append that succeeds, else the number of bytes of its frame
    that reach the file before the stream fails. -/
abbrev AppendFault := Option Nat

/-- What an append writes. -/
def written (failed : Bool) (fault : AppendFault) (r : ParsedLogRecord) : Bytes :=
  if failed then []
  else match fault with
    | none => encodeRecord r
    | some n => (encodeRecord r).take n

theorem written_failed (fault : AppendFault) (r : ParsedLogRecord) :
    written true fault r = [] := rfl

theorem written_good (r : ParsedLogRecord) : written false none r = encodeRecord r := rfl

/-- `Append`: the directory, and `ofs_.good()`. -/
def appendWith (w : WalLogger) (failed : Bool) (fault : AppendFault) (dir : Directory)
    (r : ParsedLogRecord) : Directory × Bool :=
  if !w.isOpen then (dir, false)
  else
    (match dir.lookup w.path with
      | none => dir
      | some file => upsert w.path (file ++ written failed fault r) dir,
      !failed && fault.isNone)

/-- The front of `put` and `erase`: what `Append` returns is ignored. -/
def Session.write (s : Session) (fault : AppendFault) (op : OperationType) (key value : Bytes)
    (tv : TableValue) : Except Fault Session := do
  let (dir, ok) := appendWith s.engine.wal s.failed fault s.engine.dir ⟨op, key, value⟩
  let skiplist ← s.engine.skiplist.put key tv
  pure ⟨{ s.engine with dir := dir, skiplist := skiplist }, !ok⟩

/-- A client's write. -/
inductive Write
  | put (key value : Bytes)
  | erase (key : Bytes)

/-- The record of a write. -/
def Write.record : Write → ParsedLogRecord
  | .put key value => ⟨.PUT, key, value⟩
  | .erase key => ⟨.ERASE, key, []⟩

/-- What a write puts into the memtable. -/
def Write.stores : Write → TableValue
  | .put _ value => ⟨.kTypeValue, value⟩
  | .erase _ => ⟨.kTypeDeletion, []⟩

/-- `put` and `erase`; a flush opens the next log, which clears the stream. -/
def Session.step (s : Session) : Write × AppendFault → Except Fault Session
  | (.put key value, fault) => do
      let s ← s.write fault .PUT key value ⟨.kTypeValue, value⟩
      if s.engine.skiplist.size ≥ s.engine.maxMemNodes then do
        let e ← s.engine.flushMemTable
        pure ⟨e, false⟩
      else pure s
  | (.erase key, fault) => s.write fault .ERASE key [] ⟨.kTypeDeletion, []⟩

/-- Open a directory. -/
def begin (dir : Directory) (c : Config) : Except Fault Session := do
  let e ← start dir c
  pure ⟨e, false⟩

/-- The operation of a write. -/
def Write.op : Write → Op
  | .put key value => .put key value
  | .erase key => .erase key

/-- **A write whose append succeeds**, on a good stream, is the engine's. -/
theorem step_good {e : KVEngine} (hopen : e.wal.isOpen = true)
    (hfile : (e.dir.lookup e.wal.path).isSome) (w : Write) :
    Session.step ⟨e, false⟩ (w, none) = (execute e w.op).map (fun e => ⟨e, false⟩) := by
  obtain ⟨file, hf⟩ := Option.isSome_iff_exists.mp hfile
  have hwrite : ∀ op key value tv, Session.write ⟨e, false⟩ none op key value tv
      = (e.write op key value tv).map (fun e => ⟨e, false⟩) := by
    intro op key value tv
    simp only [Session.write, KVEngine.write, lookup_append hopen hf, appendWith, hopen, hf]
    cases e.skiplist.put key tv with
    | error f => rfl
    | ok skiplist => rfl
  cases w with
  | erase key => exact hwrite .ERASE key [] ⟨.kTypeDeletion, []⟩
  | put key value =>
      simp only [Session.step, hwrite, Write.op, execute, KVEngine.put]
      cases e.write .PUT key value ⟨.kTypeValue, value⟩ with
      | error f => rfl
      | ok e₁ =>
          simp only [Except.map, ok_bind]
          split
          · cases e₁.flushMemTable with
            | error f => rfl
            | ok e₂ => rfl
          · rfl

/-! ## The memtable and the log -/

/-- **The memtable is what `RecoverAllWals` makes of the directory.** -/
def Replays (e : KVEngine) : Prop :=
  ∀ c : Config, ∃ skiplist l, recoverAllWals e.dir (walNames e.dir)
      (SkipList.empty c.maxLevel c.draws) = .ok skiplist
    ∧ skiplist.dumpAll = .ok l ∧ e.skiplist.dumpAll = .ok l

/-- A write's memtable is also what a replay of the bytes it wrote gives, over the
    memtable before it. -/
def Told (s : Session) (w : Write) (fault : AppendFault) : Prop :=
  (replay (recoverFile (written s.failed fault w.record)) s.engine.skiplist
      >>= fun skiplist => skiplist.dumpAll)
    = s.engine.skiplist.put w.record.key w.stores >>= fun skiplist => skiplist.dumpAll

/-- A write comes to no flush. -/
def NoFlush (s : Session) (w : Write) : Prop :=
  ∀ skiplist, s.engine.skiplist.put w.record.key w.stores = .ok skiplist →
    skiplist.size < s.engine.maxMemNodes

/-- **The condition on a write**, in the state before it: it comes to no flush,
    and either its frame is appended, with lengths that fit their fields, or what
    was written of the frame tells of the write all the same. -/
def Backed (s : Session) (wf : Write × AppendFault) : Prop :=
  NoFlush s wf.1
    ∧ if s.failed = false ∧ wf.2 = none then RecordFits wf.1.record else Told s wf.1 wf.2

/-- **The log tells the memtable**, and is well framed while the stream is good. -/
structure Held (s : Session) (log : Bytes) (mem : List Entry) : Prop where
  dir : s.engine.dir = [(getWalPath 1, log)]
  wal : s.engine.wal = ⟨getWalPath 1, true⟩
  memtable : Models s.engine.skiplist mem
  tells : replayLayer (recoverFile log) [] = mem
  clean : s.failed = false → ∃ rs, log = encodeAll rs ∧ ∀ r ∈ rs, RecordFits r

variable {s : Session} {log : Bytes} {mem : List Entry}

/-- What `Replays` says of a session's only log. -/
theorem replays_iff {e : KVEngine} (hdir : e.dir = [(getWalPath 1, log)])
    (hmem : Models e.skiplist mem) :
    Replays e ↔ replayLayer (recoverFile log) [] = mem := by
  have hrun : ∀ c : Config, ∃ skiplist, recoverAllWals e.dir (walNames e.dir)
      (SkipList.empty c.maxLevel c.draws) = .ok skiplist
        ∧ skiplist.dumpAll = .ok (replayLayer (recoverFile log) []) := by
    intro c
    obtain ⟨skiplist, hreplay, hsk⟩ :=
      replay_spec (recoverFile log) (models_empty c.one_le_maxLevel c.draws)
    refine ⟨skiplist, ?_, models_dumpAll hsk⟩
    have hnames : walNames e.dir = [getWalPath 1] := by
      rw [hdir, walNames, List.map_singleton, List.filter_singleton, isWalName_getWalPath]
      rfl
    have hrecover : WalLogger.recover ⟨getWalPath 1, false⟩ e.dir = recoverFile log := by
      rw [hdir, WalLogger.recover, List.lookup_cons_self]
    rw [hnames, recoverAllWals, hrecover, hreplay]
    rfl
  constructor
  · intro h
    obtain ⟨skiplist, hskip, hdump⟩ := hrun plainConfig
    obtain ⟨skiplist', l, hskip', hdump', hl⟩ := h plainConfig
    obtain rfl := Except.ok.inj (hskip.symm.trans hskip')
    obtain rfl := Except.ok.inj (hdump.symm.trans hdump')
    exact Except.ok.inj (hl.symm.trans (models_dumpAll hmem))
  · rintro rfl c
    obtain ⟨skiplist, hskip, hdump⟩ := hrun c
    exact ⟨skiplist, _, hskip, hdump, models_dumpAll hmem⟩

theorem held_begin (c : Config) : ∃ s, begin [] c = .ok s ∧ Held s [] [] :=
  ⟨_, rfl, rfl, rfl, models_empty c.one_le_maxLevel c.draws, rfl,
    fun _ => ⟨[], rfl, fun _ hr => by cases hr⟩⟩

/-- Replaying a write's own record. -/
theorem replayLayer_record (w : Write) (l : List Entry) :
    replayLayer [w.record] l = upsert w.record.key w.stores l := by
  cases w <;> rfl

/-- What `Told` says of the memtables. -/
theorem told_iff (h : Models s.engine.skiplist mem) (w : Write) (fault : AppendFault) :
    Told s w fault ↔ replayLayer (recoverFile (written s.failed fault w.record)) mem
      = upsert w.record.key w.stores mem := by
  obtain ⟨sk₁, hrun₁, h₁⟩ := replay_spec (recoverFile (written s.failed fault w.record)) h
  obtain ⟨sk₂, hrun₂, h₂, -⟩ := models_put h w.record.key w.stores
  rw [Told, hrun₁, hrun₂, ok_bind, ok_bind, models_dumpAll h₁, models_dumpAll h₂]
  exact ⟨Except.ok.inj, congrArg Except.ok⟩

/-- Recovering the log with what a write appended. -/
theorem replayLayer_append_written (h : Held s log mem) (fault : AppendFault)
    (r : ParsedLogRecord) :
    replayLayer (recoverFile (log ++ written s.failed fault r)) []
      = replayLayer (recoverFile (written s.failed fault r)) mem := by
  cases hfailed : s.failed with
  | true =>
      -- nothing is written any more
      rw [written_failed, List.append_nil, h.tells]
      rfl
  | false =>
      obtain ⟨rs, rfl, hrs⟩ := h.clean hfailed
      have htells := h.tells
      rw [← List.append_nil (encodeAll rs), recoverFile_encodeAll hrs, recoverFile_nil,
        List.append_nil] at htells
      rw [recoverFile_encodeAll hrs, replayLayer_append, htells]

/-- **The front of a write**, whatever becomes of its frame. -/
theorem Held.write (h : Held s log mem) (w : Write) (fault : AppendFault) :
    ∃ s', s.write fault w.record.op w.record.key w.record.value w.stores = .ok s'
      ∧ s'.engine.maxMemNodes = s.engine.maxMemNodes
      ∧ s.engine.skiplist.put w.record.key w.stores = .ok s'.engine.skiplist
      ∧ s'.engine.dir = [(getWalPath 1, log ++ written s.failed fault w.record)]
      ∧ s'.engine.wal = ⟨getWalPath 1, true⟩ ∧ s'.failed = !(!s.failed && fault.isNone)
      ∧ Models s'.engine.skiplist (upsert w.record.key w.stores mem) := by
  obtain ⟨skiplist, hput, hmem, -⟩ := models_put h.memtable w.record.key w.stores
  have happend : appendWith s.engine.wal s.failed fault s.engine.dir
      ⟨w.record.op, w.record.key, w.record.value⟩
      = ([(getWalPath 1, log ++ written s.failed fault w.record)], !s.failed && fault.isNone) := by
    rw [appendWith, h.wal, h.dir]
    simp only [Bool.not_true, Bool.false_eq_true, if_false, List.lookup_cons_self, upsert]
    simp
  refine ⟨⟨{ s.engine with
      dir := [(getWalPath 1, log ++ written s.failed fault w.record)], skiplist := skiplist },
    !(!s.failed && fault.isNone)⟩, ?_, rfl, hput, rfl, h.wal, rfl, hmem⟩
  simp only [Session.write, happend, hput, ok_bind]
  rfl

/-- A write that comes to no flush is its front. -/
theorem step_eq_write {w : Write} {fault : AppendFault} {s' : Session}
    (hrun : s.write fault w.record.op w.record.key w.record.value w.stores = .ok s')
    (hroom : s'.engine.skiplist.size < s'.engine.maxMemNodes) : s.step (w, fault) = .ok s' := by
  cases w with
  | erase key => exact hrun
  | put key value =>
      refine bind_eq_ok.mpr ⟨s', hrun, ?_⟩
      rw [if_neg (Nat.not_le_of_lt hroom)]
      rfl

/-- **A write whose append fails** leaves the memtable as the replay of the log
    exactly when what was written tells of it. -/
theorem replays_step_iff (h : Held s log mem) {w : Write} {fault : AppendFault}
    (hroom : NoFlush s w) :
    ∃ s', s.step (w, fault) = .ok s' ∧ (Replays s'.engine ↔ Told s w fault) := by
  obtain ⟨s', hrun, hmax, hput, hdir, -, -, hmem⟩ := h.write w fault
  refine ⟨s', step_eq_write hrun (hmax ▸ hroom _ hput), ?_⟩
  rw [replays_iff hdir hmem, replayLayer_append_written h, told_iff h.memtable]

/-- **One write** that is backed. -/
theorem held_step (h : Held s log mem) {wf : Write × AppendFault} (hback : Backed s wf) :
    ∃ s', s.step wf = .ok s' ∧ ∃ log' mem', Held s' log' mem' := by
  obtain ⟨w, fault⟩ := wf
  obtain ⟨hroom, hback⟩ : NoFlush s w ∧ if s.failed = false ∧ fault = none then
      RecordFits w.record else Told s w fault := hback
  obtain ⟨s', hrun, hmax, hput, hdir, hwal, hfailed, hmem⟩ := h.write w fault
  refine ⟨s', step_eq_write hrun (hmax ▸ hroom _ hput), _, _, hdir, hwal, hmem, ?_, ?_⟩
  · rw [replayLayer_append_written h]
    split at hback
    · rename_i hgood
      rw [hgood.1, hgood.2, written_good, ← List.append_nil (encodeRecord w.record),
        recoverFile_frame hback, recoverFile_nil, replayLayer_record]
    · exact (told_iff h.memtable w fault).mp hback
  · intro hgood
    rw [hfailed] at hgood
    obtain ⟨hf, hn⟩ : s.failed = false ∧ fault = none := by simpa using hgood
    rw [if_pos ⟨hf, hn⟩] at hback
    obtain ⟨rs, rfl, hrs⟩ := h.clean hf
    refine ⟨rs ++ [w.record], ?_, ?_⟩
    · rw [encodeAll_append, encodeAll_singleton, hf, hn, written_good]
    · intro r hr
      rcases List.mem_append.mp hr with hr' | hr'
      · exact hrs r hr'
      · rw [List.mem_singleton.mp hr']
        exact hback

/-- **The memtable is the replay of the log** in every state of a run without a
    flush, while every write is backed. -/
theorem memtable_eq_replay (c : Config) {ws : List (Write × AppendFault)}
    (hmeets : ∀ s, begin [] c = .ok s → Meets Session.step Backed s ws) :
    Ends (fun _ => False) (begin [] c >>= fun s => ws.foldlM Session.step s)
      (fun s => Replays s.engine) := by
  obtain ⟨s, hrun, h⟩ := held_begin c
  have hstep : ∀ {wf : Write × AppendFault} {_ : List (Write × AppendFault)} {s : Session},
      (∃ log mem, Held s log mem) → Backed s wf →
        Ends (fun _ => False) (s.step wf) (fun s => ∃ log mem, Held s log mem) := by
    rintro wf _ s ⟨log, mem, h⟩ hback
    obtain ⟨s', hrun, h'⟩ := held_step h hback
    exact ends_of_eq_ok hrun h'
  rw [hrun, ok_bind]
  refine (ends_foldlM (fun _ s => ∃ log mem, Held s log mem) @hstep ws (hmeets s hrun)
    ⟨[], [], h⟩).mono ?_
  rintro s' ⟨log, mem, h'⟩
  exact (replays_iff h'.dir h'.memtable).mpr h'.tells

/-- A test for `Backed`. -/
def backedTest (s : Session) (wf : Write × AppendFault) : Bool :=
  (match s.engine.skiplist.put wf.1.record.key wf.1.stores with
    | .ok skiplist => decide (skiplist.size < s.engine.maxMemNodes)
    | .error _ => true)
  && if s.failed = false ∧ wf.2 = none then
      decide (wf.1.record.key.length < 2 ^ 32 ∧ wf.1.record.value.length < 2 ^ 32)
    else decide ((replay (recoverFile (written s.failed wf.2 wf.1.record)) s.engine.skiplist
        >>= fun skiplist => skiplist.dumpAll)
      = s.engine.skiplist.put wf.1.record.key wf.1.stores >>= fun skiplist => skiplist.dumpAll)

theorem backed_of_backedTest (s : Session) (wf : Write × AppendFault)
    (h : backedTest s wf = true) : Backed s wf := by
  obtain ⟨hroom, hback⟩ := Bool.and_eq_true_iff.mp h
  constructor
  · intro skiplist hput
    rw [hput] at hroom
    exact of_decide_eq_true hroom
  · split
    · rename_i hgood
      rw [if_pos hgood] at hback
      have hfits := of_decide_eq_true hback
      exact hfits
    · rename_i hbad
      rw [if_neg hbad] at hback
      have htold := of_decide_eq_true hback
      exact htold

/-- A put, the same put again with a torn frame, and a third time. -/
def repeatedPut : List (Write × AppendFault) :=
  [(.put [107] [1], none), (.erase [97], none), (.put [107] [1], some 5), (.put [107] [1], none)]

theorem memtable_eq_replay_repeatedPut :
    Ends (fun _ => False) (begin [] plainConfig >>= fun s => repeatedPut.foldlM Session.step s)
      (fun s => Replays s.engine) := by
  refine memtable_eq_replay plainConfig ?_
  intro s hs
  have hcheck : Yields (begin [] plainConfig)
      (fun s => checkAll Session.step backedTest s repeatedPut = true) := by
    decide +kernel
  exact meets_of_checkAll backed_of_backedTest (hcheck.of_eq_ok hs)

/-- **A frame of which nothing is written**: `get` sees the value, and the replay
    of the log, which is what a restart starts from, does not. -/
theorem lost_frame_is_visible :
    Yields (begin [] plainConfig >>= fun s => s.step (.put [107] [1], some 0)) (fun s =>
      s.engine.get [107] = .ok (some [1])
        ∧ s.engine.skiplist.dumpAll = .ok [([107], ⟨.kTypeValue, [1]⟩)]
        ∧ Yields (recoverAllWals s.engine.dir (walNames s.engine.dir)
          (SkipList.empty plainConfig.maxLevel plainConfig.draws))
            (fun skiplist => skiplist.dumpAll = .ok [])) := by
  decide +kernel

end KvAppendFailure
