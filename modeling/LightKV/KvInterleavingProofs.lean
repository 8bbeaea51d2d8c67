import LightKV.KvSessionProofs

/-! # Compactions in flight

    `Compact` holds no lock while it merges, so other clients run between its
    stages.  A system is an engine and the calls of `Compact` on it, each at one
    of its stages; an action is one client operation or one stage of one call.
    Every action is a step of the store behind the engine (`step_spec`), where a
    call also remembers what was flushed when it took its snapshot. -/

namespace KvInterleaving

open Execution KvBytes KvCompaction KvDirectory KvEngine KvRecovery KvSession KvStore KvTable KvWal Overlay

/-! ## The system -/

/-- A call of `Compact`, by the stage it has reached. -/
inductive CompactCall
  /-- the snapshot is taken -/
  | snapped (old : List SSTableReader)
  /-- the file number is taken -/
  | reserved (old : List SSTableReader) (number : Nat)
  /-- the new file is complete and open -/
  | built (old : List SSTableReader) (number : Nat) (reader : SSTableReader)
  /-- the list is replaced, and these files are still to be deleted -/
  | deleting (number : Nat) (paths : List Bytes)
  | finished

instance (call : CompactCall) : Decidable (call = .finished) :=
  match call with
  | .finished => isTrue rfl
  | .snapped _ | .reserved _ _ | .built _ _ _ | .deleting _ _ => isFalse (fun h => by cases h)

/-- The next stage of a call.  `++sst_counter_` and the `GetSstPath` that reads it
    are one stage, though the source holds no lock from the one to the other. -/
def CompactCall.advance (e : KVEngine) : CompactCall → Except Fault (KVEngine × CompactCall)
  | .snapped old => pure (e.reserve, .reserved old e.reserve.sstCounter)
  | .reserved old number => do
      let file ← mergeTables old
      let (e, reader) ← e.writeMerged number file
      match reader with
      | none => pure (e, .finished)
      | some reader => pure (e, .built old number reader)
  | .built old number reader =>
      pure (e.swap old reader, .deleting number (old.map SSTableReader.filename))
  | .deleting _ [] => pure (e, .finished)
  | .deleting number (path :: paths) =>
      pure (e.deleteOld (getSstPath number) path, .deleting number paths)
  | .finished => pure (e, .finished)

/-- An engine and the calls of `Compact` on it. -/
structure System where
  engine : KVEngine
  calls : List CompactCall

/-- What can happen next. -/
inductive Action
  | put (key value : Bytes)
  | erase (key : Bytes)
  | forceFlush
  /-- `Compact` is called -/
  | begin
  /-- call `i` goes on to its next stage -/
  | advance (i : Nat)
  deriving DecidableEq

/-- One action. -/
def System.step (s : System) : Action → Except Fault System
  | .put key value => do
      let e ← s.engine.put key value
      pure { s with engine := e }
  | .erase key => do
      let e ← s.engine.erase key
      pure { s with engine := e }
  | .forceFlush => do
      let e ← s.engine.forceFlush
      pure { s with engine := e }
  | .begin =>
      match s.engine.snapshot with
      | none => pure s
      | some old => pure { s with calls := s.calls ++ [.snapped old] }
  | .advance i =>
      match s.calls[i]? with
      | none => pure s
      | some call => do
          let (e, call) ← call.advance s.engine
          pure ⟨e, s.calls.set i call⟩

/-- Keys and values that fit their length fields. -/
def Action.Fits : Action → Prop
  | .put key value => key.length < 2 ^ 32 ∧ value.length < 2 ^ 32
  | .erase key => key.length < 2 ^ 32
  | _ => True

instance : DecidablePred Action.Fits := fun a => by
  cases a <;> unfold Action.Fits <;> infer_instance

/-- What an action writes. -/
def Action.write (g : Bytes → Option Bytes) : Action → Bytes → Option Bytes
  | .put key value => fun k => if k = key then some value else g k
  | .erase key => fun k => if k = key then none else g k
  | _ => g

/-- The last write of each key. -/
def latestWrite (as : List Action) : Bytes → Option Bytes := as.foldl Action.write (fun _ => none)

/-! ### One call on its own -/

/-- A call goes on for a number of stages, alone. -/
def runCall : Nat → KVEngine × CompactCall → Except Fault (KVEngine × CompactCall)
  | 0, ec => pure ec
  | n + 1, (e, call) => do
      let ec ← call.advance e
      runCall n ec

theorem runCall_finished (n : Nat) (e : KVEngine) :
    runCall n (e, .finished) = .ok (e, .finished) := by
  induction n with
  | zero => rfl
  | succ n ih => exact ih

theorem runCall_deleting (number : Nat) :
    ∀ (paths : List Bytes) (e : KVEngine), runCall (paths.length + 1) (e, .deleting number paths)
      = .ok (e.deleteAll (getSstPath number) paths, .finished) := by
  intro paths
  induction paths with
  | nil =>
      intro e
      rfl
  | cons path paths ih =>
      intro e
      exact ih (e.deleteOld (getSstPath number) path)

/-- **`Compact` is its stages in a row**, when nobody comes in between. -/
theorem compact_eq_runCall {e : KVEngine} {old : List SSTableReader}
    (h : e.snapshot = some old) :
    e.compact = (runCall (old.length + 4) (e, .snapped old)).map Prod.fst := by
  have hreserve : runCall (old.length + 4) (e, .snapped old)
      = runCall (old.length + 3) (e.reserve, .reserved old e.reserve.sstCounter) := rfl
  have hbuild : runCall (old.length + 3) (e.reserve, .reserved old e.reserve.sstCounter)
      = CompactCall.advance e.reserve (.reserved old e.reserve.sstCounter)
          >>= runCall (old.length + 2) := rfl
  rw [hreserve, hbuild]
  simp only [KVEngine.compact, h, CompactCall.advance]
  cases mergeTables old with
  | error f => rfl
  | ok file =>
      simp only [ok_bind]
      cases e.reserve.writeMerged e.reserve.sstCounter file with
      | error f => rfl
      | ok p =>
          obtain ⟨e', reader⟩ := p
          cases reader with
          | none =>
              show _ = Except.map Prod.fst (runCall (old.length + 2) (e', .finished))
              rw [runCall_finished]
              rfl
          | some reader =>
              have hrest := runCall_deleting e.reserve.sstCounter
                (old.map SSTableReader.filename) (e'.swap old reader)
              rw [List.length_map] at hrest
              show _ = Except.map Prod.fst (runCall (old.length + 1) (e'.swap old reader,
                .deleting e.reserve.sstCounter (old.map SSTableReader.filename)))
              rw [hrest]
              rfl

/-! ## The store behind the system -/

/-- A call on the store.  `seen` is what had been flushed when it began. -/
inductive Call
  | snapped (old : List Table) (seen : Bytes → Option Bytes)
  | reserved (old : List Table) (seen : Bytes → Option Bytes) (number : Nat)
  | built (old : List Table) (seen : Bytes → Option Bytes) (number : Nat) (m : List Entry)
  | deleting (number : Nat) (numbers : List Nat)
  | finished

/-- A store, what has been written to it and what of that was flushed, and the
    calls on it. -/
structure Shared where
  store : Store
  written : Bytes → Option Bytes
  flushed : Bytes → Option Bytes
  calls : List Call

/-- **What an action does to the store.** -/
inductive SharedStep (s : Shared) : Action → Shared → Prop
  | put (key value : Bytes) {t : Store}
      (ht : t = s.store.write ⟨.PUT, key, value⟩ ⟨.kTypeValue, value⟩)
      (h : ¬ t.mem.length ≥ t.maxMemNodes) :
      SharedStep s (.put key value)
        { s with store := t, written := Action.write s.written (.put key value) }
  | putFlush (key value : Bytes) {t : Store}
      (ht : t = s.store.write ⟨.PUT, key, value⟩ ⟨.kTypeValue, value⟩)
      (h : t.mem.length ≥ t.maxMemNodes) :
      SharedStep s (.put key value)
        { s with
          store := t.flush
          written := Action.write s.written (.put key value)
          flushed := Action.write s.written (.put key value) }
  | erase (key : Bytes) :
      SharedStep s (.erase key)
        { s with
          store := s.store.erase key
          written := Action.write s.written (.erase key) }
  | forceFlush :
      SharedStep s .forceFlush { s with store := s.store.flush, flushed := s.written }
  | beginNone (h : s.store.tables.length ≤ 1) : SharedStep s .begin s
  | begin (h : 1 < s.store.tables.length) :
      SharedStep s .begin { s with calls := s.calls ++ [.snapped s.store.tables s.flushed] }
  | advanceNone {i : Nat} (h : s.calls[i]? = none) : SharedStep s (.advance i) s
  | reserve {i : Nat} {old : List Table} {seen : Bytes → Option Bytes}
      (h : s.calls[i]? = some (.snapped old seen)) :
      SharedStep s (.advance i)
        { s with
          store := s.store.reserve
          calls := s.calls.set i (.reserved old seen (s.store.counter + 1)) }
  | build {i : Nat} {old : List Table} {seen : Bytes → Option Bytes} {number : Nat}
      {m : List Entry} (h : s.calls[i]? = some (.reserved old seen number)) (hm : Merged old m)
      (hne : m ≠ []) :
      SharedStep s (.advance i)
        { s with
          store := s.store.writeMerged number m
          calls := s.calls.set i (.built old seen number m) }
  | buildEmpty {i : Nat} {old : List Table} {seen : Bytes → Option Bytes} {number : Nat}
      (h : s.calls[i]? = some (.reserved old seen number)) (hm : Merged old []) :
      SharedStep s (.advance i)
        { s with
          store := s.store.writeMerged number []
          calls := s.calls.set i .finished }
  | swap {i : Nat} {old : List Table} {seen : Bytes → Option Bytes} {number : Nat}
      {m : List Entry} (h : s.calls[i]? = some (.built old seen number m)) :
      SharedStep s (.advance i)
        { s with
          store := s.store.swap old ⟨number, 0, m⟩
          calls := s.calls.set i (.deleting number (old.map Table.number)) }
  | delete {i number n : Nat} {ns : List Nat}
      (h : s.calls[i]? = some (.deleting number (n :: ns))) :
      SharedStep s (.advance i)
        { s with
          store := s.store.deleteOld number n
          calls := s.calls.set i (.deleting number ns) }
  | deleteDone {i number : Nat} (h : s.calls[i]? = some (.deleting number [])) :
      SharedStep s (.advance i) { s with calls := s.calls.set i .finished }
  | idle {i : Nat} (h : s.calls[i]? = some .finished) :
      SharedStep s (.advance i) { s with calls := s.calls.set i .finished }

/-- A call of the engine stands for a call on the store. -/
def CallRep : CompactCall → Call → Prop
  | .snapped old, .snapped ts _ => List.Forall₂ ReaderOf old ts
  | .reserved old number, .reserved ts _ number' =>
      List.Forall₂ ReaderOf old ts ∧ number = number'
  | .built old number reader, .built ts _ number' m =>
      List.Forall₂ ReaderOf old ts ∧ number = number' ∧ m ≠ [] ∧ ReaderOf reader ⟨number, 0, m⟩
  | .deleting number paths, .deleting number' ns => number = number' ∧ paths = ns.map getSstPath
  | .finished, .finished => True
  | _, _ => False

/-- **The system `sys` stands for `s`.** -/
structure SystemRep (sys : System) (s : Shared) : Prop where
  rep : Rep sys.engine s.store
  calls : List.Forall₂ CallRep sys.calls s.calls

theorem map_filename_of_forall₂ {old : List SSTableReader} {ts : List Table}
    (h : List.Forall₂ ReaderOf old ts) :
    old.map SSTableReader.filename = (ts.map Table.number).map getSstPath := by
  induction h with
  | nil => rfl
  | @cons r t old ts hr _ ih => rw [List.map_cons, List.map_cons, List.map_cons, ih, hr.1]

variable {sys : System} {s : Shared}

/-- **One stage of a call is a step of the store.** -/
theorem advance_spec (h : SystemRep sys s) (i : Nat) :
    Runs (sys.step (.advance i))
      (fun sys' => ∃ s', SharedStep s (.advance i) s' ∧ SystemRep sys' s') := by
  have hlen := h.calls.length_eq
  cases hi : s.calls[i]? with
  | none =>
      have hi' : sys.calls[i]? = none := by
        rw [List.getElem?_eq_none_iff] at hi ⊢
        omega
      simp only [System.step, hi']
      exact ⟨s, SharedStep.advanceNone hi, h⟩
  | some call =>
      obtain ⟨ccall, hi', hcall⟩ := KvMerging.forall₂_exists h.calls hi
      have hset : ∀ {cc : CompactCall} {c : Call}, CallRep cc c →
          List.Forall₂ CallRep (sys.calls.set i cc) (s.calls.set i c) :=
        fun hc => KvMerging.forall₂_set h.calls i hc
      simp only [System.step, hi']
      -- a call and its abstract one are at the same stage
      cases ccall <;> cases call <;> try exact hcall.elim
      case snapped.snapped old ts seen =>
        have hnum : sys.engine.reserve.sstCounter = s.store.counter + 1 :=
          congrArg (· + 1) h.rep.counter
        exact ⟨_, SharedStep.reserve hi, rep_reserve h.rep, hset ⟨hcall, hnum⟩⟩
      case reserved.reserved old number ts seen number' =>
        obtain ⟨hold, rfl⟩ := hcall
        simp only [CompactCall.advance]
        refine Ends.bind (Ends.bind (mergeTables_spec hold) ?_) (R := _) (P := fun ec =>
          ∃ s' c', Rep ec.1 s' ∧ CallRep ec.2 c' ∧ SharedStep s (.advance i)
            { s with store := s', calls := s.calls.set i c' }) ?_
        · rintro file ⟨m, hm, hf⟩
          obtain ⟨e', reader, hrun, hrep, hreader⟩ := rep_writeMerged h.rep hf number
          simp only [hrun, ok_bind]
          rcases hreader with ⟨rfl, rfl⟩ | ⟨hne, r, rfl, hr⟩
          · exact ⟨_, .finished, hrep, trivial, SharedStep.buildEmpty hi hm⟩
          · exact ⟨_, .built ts seen number m, hrep, ⟨hold, rfl, hne, hr⟩,
              SharedStep.build hi hm hne⟩
        · rintro ⟨e', cc⟩ ⟨s', c', hrep, hc, hstep⟩
          exact ⟨_, hstep, hrep, hset hc⟩
      case built.built old number reader ts seen number' m =>
        obtain ⟨hold, rfl, hne, hr⟩ := hcall
        exact ⟨_, SharedStep.swap hi, rep_swap h.rep hold hr,
          hset ⟨rfl, map_filename_of_forall₂ hold⟩⟩
      case deleting.deleting number paths number' ns =>
        obtain ⟨rfl, rfl⟩ := hcall
        cases ns with
        | nil => exact ⟨_, SharedStep.deleteDone hi, h.rep, hset trivial⟩
        | cons n ns =>
            exact ⟨_, SharedStep.delete hi, rep_deleteOld h.rep number n, hset ⟨rfl, rfl⟩⟩
      case finished.finished => exact ⟨_, SharedStep.idle hi, h.rep, hset trivial⟩

/-- **Every action is a step of the store.** -/
theorem step_spec (h : SystemRep sys s) {a : Action} (ha : a.Fits) :
    Runs (sys.step a) (fun sys' => ∃ s', SharedStep s a s' ∧ SystemRep sys' s') := by
  cases a with
  | put key value =>
      refine (h.rep.put ha.1 value).bind ?_
      intro e' h'
      by_cases hfull : (s.store.write ⟨.PUT, key, value⟩ ⟨.kTypeValue, value⟩).mem.length
          ≥ (s.store.write ⟨.PUT, key, value⟩ ⟨.kTypeValue, value⟩).maxMemNodes
      · rw [Store.put, if_pos hfull] at h'
        exact ⟨_, SharedStep.putFlush key value rfl hfull, h', h.calls⟩
      · rw [Store.put, if_neg hfull] at h'
        exact ⟨_, SharedStep.put key value rfl hfull, h', h.calls⟩
  | erase key =>
      obtain ⟨e', hrun, h'⟩ := h.rep.erase ha
      simp only [System.step, hrun, ok_bind]
      exact ⟨_, SharedStep.erase key, h', h.calls⟩
  | forceFlush =>
      refine h.rep.flush.bind ?_
      intro e' h'
      exact ⟨_, SharedStep.forceFlush, h', h.calls⟩
  | begin =>
      rcases snapshot_spec h.rep with ⟨hle, hsnap⟩ | ⟨hlt, hsnap⟩
      · simp only [System.step, hsnap]
        exact ⟨s, SharedStep.beginNone hle, h⟩
      · simp only [System.step, hsnap]
        exact ⟨_, SharedStep.begin hlt, h.rep,
          List.rel_append h.calls (List.Forall₂.cons h.rep.tables List.Forall₂.nil)⟩
  | advance i => exact advance_spec h i

theorem written_step {a : Action} {s' : Shared} (h : SharedStep s a s') :
    s'.written = Action.write s.written a := by
  cases h <;> rfl

/-- **A run keeps what its steps keep**, while its condition holds.  `J` may
    look at the actions still to come. -/
theorem actions_spec (J : List Action → Shared → Prop) (ok : System → Action → Prop)
    (hstep : ∀ {sys : System} {s s' : Shared} {a : Action} {as : List Action},
      SystemRep sys s → J (a :: as) s → a.Fits → ok sys a → SharedStep s a s' → J as s')
    (as : List Action) {sys : System} {s : Shared} (hfits : ∀ a ∈ as, a.Fits)
    (hmeets : Meets System.step ok sys as) (hrep : SystemRep sys s) (hj : J as s) :
    Runs (as.foldlM System.step sys) (fun sys' => ∃ s', SystemRep sys' s'
      ∧ J [] s' ∧ s'.written = as.foldl Action.write s.written) := by
  let I : List Action → System → Prop := fun rest sys => (∀ a ∈ rest, a.Fits)
    ∧ ∃ s', SystemRep sys s' ∧ J rest s'
      ∧ rest.foldl Action.write s'.written = as.foldl Action.write s.written
  have hI : ∀ {a : Action} {rest : List Action} {sys : System}, I (a :: rest) sys → ok sys a →
      Runs (sys.step a) (I rest) := by
    rintro a rest sys ⟨hrest, s', h, hj, hw⟩ hok
    have ha := hrest a List.mem_cons_self
    refine (step_spec h ha).mono ?_
    rintro sys' ⟨s'', hs, h'⟩
    refine ⟨fun b hb => hrest b (List.mem_cons_of_mem _ hb), s'', h', hstep h hj ha hok hs, ?_⟩
    rw [written_step hs]
    exact hw
  refine (ends_foldlM I hI as hmeets ⟨hfits, s, hrep, hj, rfl⟩).mono ?_
  rintro sys' ⟨-, s', h', hj', hw⟩
  exact ⟨s', h', hj', hw⟩

/-- What a fresh store holds. -/
def freshShared (c : Config) : Shared :=
  ⟨opened [] [] [] [] c.maxMemNodes, fun _ => none, fun _ => none, []⟩

end KvInterleaving
