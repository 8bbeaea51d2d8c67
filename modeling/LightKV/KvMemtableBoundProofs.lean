import LightKV.KvFlushFailureProofs

/-! # How many entries the memtable holds

    `put` flushes a memtable that has reached `max_mem_nodes`.  `erase` puts its
    tombstone in without looking, and so does the replay of the logs when a
    directory is opened.  So the memtable stays below the bound exactly in the runs
    that leave these two enough room (`memtable_bound_iff`); a run of erases has no
    bound at all (`size_erases`). -/

namespace KvMemtableBound

open Execution KvBytes KvDirectory KvEngine KvFlushFailure KvRecovery KvReopen KvSession KvSkipList
open KvStore KvTable KvWal Overlay
open KvNumbering hiding Event

variable {e e' : KVEngine} {mem : List Entry}

/-! ## What is replayed -/

/-- A record that `RecoverAllWals` puts into the memtable. -/
def Replayed (r : ParsedLogRecord) : Prop := r.op = .PUT ∨ r.op = .ERASE

instance : DecidablePred Replayed := fun r => inferInstanceAs (Decidable (r.op = .PUT ∨ r.op = .ERASE))

/-- The keys that the logs of a directory tell of, each once. -/
def loggedKeys (dir : Directory) : List Bytes :=
  ((((walNames dir).flatMap (fun walPath => WalLogger.recover ⟨walPath, false⟩ dir)).filter
    (fun r => Replayed r)).map ParsedLogRecord.key).dedup

/-- The keys of a replay are those of the records, and those of before. -/
theorem isSome_lookup_replayLayer (rs : List ParsedLogRecord) (k : Bytes) :
    ∀ (l : List Entry), ((replayLayer rs l).lookup k).isSome
      ↔ (∃ r ∈ rs, Replayed r ∧ r.key = k) ∨ (l.lookup k).isSome := by
  induction rs with
  | nil =>
      intro l
      exact (or_iff_right (by rintro ⟨r, hr, -⟩; cases hr)).symm
  | cons r rs ih =>
      intro l
      have hup : ∀ tv : TableValue, ((upsert r.key tv l).lookup k).isSome
          ↔ r.key = k ∨ (l.lookup k).isSome := by
        intro tv
        rw [lookup_upsert]
        split
        case isTrue heq => exact iff_of_true rfl (Or.inl heq.symm)
        case isFalse hne => exact (or_iff_right fun heq => hne heq.symm).symm
      rw [List.exists_mem_cons_iff]
      rw [replayLayer]
      split
      case isTrue hput =>
          have hr : Replayed r := Or.inl hput
          rw [ih, hup, and_iff_right hr, or_left_comm, or_assoc]
      case isFalse hput =>
          split
          case isTrue herase =>
              have hr : Replayed r := Or.inr herase
              rw [ih, hup, and_iff_right hr, or_left_comm, or_assoc]
          case isFalse herase =>
              have hnot : ¬ Replayed r := fun hr => hr.elim hput herase
              rw [ih, or_iff_right (a := Replayed r ∧ r.key = k) fun h => hnot h.1]

/-- **Opening a directory** puts as many entries into the memtable as the logs tell
    of keys. -/
theorem size_start {dir : Directory} {c : Config} (hrun : start dir c = .ok e) :
    e.skiplist.size = (loggedKeys dir).length ∧ e.maxMemNodes = c.maxMemNodes := by
  obtain ⟨skiplist, sstables, -, hmem, rfl⟩ := start_eq_ok hrun
  refine ⟨?_, rfl⟩
  rw [models_size hmem]
  refine length_eq_of_keys hmem.keySorted (List.nodup_dedup _) fun k => ?_
  rw [isSome_lookup_replayLayer, loggedKeys, List.mem_dedup, List.mem_map]
  simp only [List.mem_filter, decide_eq_true_eq, List.lookup_nil, Option.isSome_none,
    Bool.false_eq_true, or_false, and_assoc]

/-! ## One step -/

/-- **The room that an event needs**, in the state before it. -/
def Room (e : KVEngine) : Event → Prop
  | .op (.erase key) => e.skiplist.get key ≠ .ok none ∨ e.skiplist.size + 1 < e.maxMemNodes
  | .op _ => True
  | .reopen c => (loggedKeys e.dir).length < c.maxMemNodes

/-- The bound of a run: every session has the same `max_mem_nodes`. -/
def SameBound (maxMemNodes : Nat) : Event → Prop
  | .op _ => True
  | .reopen c => c.maxMemNodes = maxMemNodes

theorem maxMemNodes_write {op : OperationType} {key value : Bytes} {tv : TableValue}
    (hrun : e.write op key value tv = .ok e') : e'.maxMemNodes = e.maxMemNodes := by
  obtain ⟨skiplist, -, hrun⟩ := bind_eq_ok.mp hrun
  obtain rfl := Except.ok.inj hrun
  rfl

theorem maxMemNodes_flush (hrun : e.flushMemTable = .ok e') : e'.maxMemNodes = e.maxMemNodes := by
  rw [KVEngine.flushMemTable] at hrun
  split at hrun
  · obtain rfl := Except.ok.inj hrun
    rfl
  · obtain ⟨e₁, hwrite, hrun⟩ := bind_eq_ok.mp hrun
    obtain ⟨skiplist, -, hrun⟩ := bind_eq_ok.mp hrun
    obtain rfl := Except.ok.inj hrun
    obtain ⟨l, -, hwrite⟩ := bind_eq_ok.mp hwrite
    obtain ⟨file, -, hwrite⟩ := bind_eq_ok.mp hwrite
    obtain ⟨reader, -, hwrite⟩ := bind_eq_ok.mp hwrite
    obtain rfl := Except.ok.inj hwrite
    rfl

theorem maxMemNodes_compact (hrun : e.compact = .ok e') : e'.maxMemNodes = e.maxMemNodes := by
  rw [KVEngine.compact] at hrun
  split at hrun
  · obtain rfl := Except.ok.inj hrun
    rfl
  · obtain ⟨file, -, hrun⟩ := bind_eq_ok.mp hrun
    obtain ⟨_, hwrite, hrun⟩ := bind_eq_ok.mp hrun
    obtain ⟨reader', -, hwrite⟩ := bind_eq_ok.mp hwrite
    obtain rfl := Except.ok.inj hwrite
    cases reader' with
    | none =>
        obtain rfl := Except.ok.inj hrun
        rfl
    | some reader =>
        obtain rfl := Except.ok.inj hrun
        obtain ⟨dir, hdir⟩ := exists_deleteAll_eq _ _ _
        rw [hdir]
        rfl

/-- An `erase` makes the memtable longer unless it holds the key. -/
theorem size_erase (h : Loaded e mem) {key : Bytes} (hrun : e.erase key = .ok e') :
    e'.skiplist.size
      = if e.skiplist.get key = .ok none then e.skiplist.size + 1 else e.skiplist.size := by
  rw [models_size (h.write hrun).mem, models_size h.mem, models_get h.mem,
    length_upsert h.mem.keySorted]
  cases mem.lookup key with
  | none => rfl
  | some tv => rfl

/-- **Erases are not bounded**: each new key adds a tombstone. -/
theorem size_erases :
    ∀ (keys : List Bytes) {e : KVEngine} {mem : List Entry}, Loaded e mem → keys.Nodup →
      (∀ key ∈ keys, mem.lookup key = none) →
      ∃ e', keys.foldlM KVEngine.erase e = .ok e'
        ∧ e'.skiplist.size = e.skiplist.size + keys.length := by
  intro keys
  induction keys with
  | nil => exact fun {e _} _ _ _ => ⟨e, rfl, rfl⟩
  | cons key keys ih =>
      intro e mem h hnodup hnew
      obtain ⟨hnot, hnodup'⟩ := List.nodup_cons.mp hnodup
      obtain ⟨e₁, hrun, -⟩ := write_of_models h.mem .ERASE key [] ⟨.kTypeDeletion, []⟩
      have hrest : ∀ k ∈ keys, (upsert key ⟨.kTypeDeletion, []⟩ mem).lookup k = none := by
        intro k hk
        rw [lookup_upsert, if_neg (ne_of_mem_of_not_mem hk hnot)]
        exact hnew k (List.mem_cons_of_mem _ hk)
      obtain ⟨e', hrun', hsize⟩ := ih (h.write hrun) hnodup' hrest
      have hone : e₁.skiplist.size = _ := size_erase h hrun
      rw [if_pos (by rw [models_get h.mem, hnew key List.mem_cons_self])] at hone
      refine ⟨e', ?_, ?_⟩
      · show (e.erase key >>= fun e => keys.foldlM KVEngine.erase e) = .ok e'
        rw [KVEngine.erase, hrun]
        exact hrun'
      · rw [hsize, hone, List.length_cons, Nat.add_right_comm, Nat.add_assoc]

/-- A run's states: they are loaded, and have its bound. -/
def Inv (maxMemNodes : Nat) (e : KVEngine) : Prop :=
  (∃ mem, Loaded e mem) ∧ e.maxMemNodes = maxMemNodes

/-- **One event** keeps the memtable below the bound exactly when it has the room. -/
theorem bound_step {maxMemNodes : Nat} (hmax : 1 ≤ maxMemNodes) {ev : Event}
    (hev : SameBound maxMemNodes ev) (h : Inv maxMemNodes e) (hsize : e.skiplist.size < maxMemNodes)
    (hrun : happen e ev = .ok e') :
    Inv maxMemNodes e' ∧ (e'.skiplist.size < maxMemNodes ↔ Room e ev) := by
  obtain ⟨⟨mem, hloaded⟩, rfl⟩ := h
  have hloaded' := undergo_loaded hloaded (.event ev) hrun
  -- a flushed memtable is empty
  have hflush : ∀ {e₁ mem₁}, Loaded e₁ mem₁ → e₁.flushMemTable = .ok e' →
      e'.skiplist.size < e.maxMemNodes := by
    intro e₁ mem₁ h₁ hrun₁
    rw [models_size (h₁.flush hrun₁).mem]
    exact hmax
  cases ev with
  | reopen c =>
      obtain ⟨hlen, hbound⟩ := size_start hrun
      refine ⟨⟨hloaded', hbound.trans hev⟩, ?_⟩
      rw [hlen, Room, hev]
      rfl
  | op o =>
      cases o with
      | put key value =>
          obtain ⟨e₁, hwrite, hrest⟩ := bind_eq_ok.mp hrun
          have hkeep := maxMemNodes_write hwrite
          split at hrest
          · exact ⟨⟨hloaded', (maxMemNodes_flush hrest).trans hkeep⟩,
              iff_of_true (hflush (hloaded.write hwrite) hrest) trivial⟩
          case isFalse hlt =>
              obtain rfl := Except.ok.inj hrest
              rw [hkeep] at hlt
              exact ⟨⟨hloaded', hkeep⟩, iff_of_true (Nat.lt_of_not_le hlt) trivial⟩
      | erase key =>
          refine ⟨⟨hloaded', maxMemNodes_write hrun⟩, ?_⟩
          rw [size_erase hloaded hrun, Room]
          split
          case isTrue hnew => exact ⟨Or.inr, fun hroom => hroom.resolve_left (fun hne => hne hnew)⟩
          case isFalse hold => exact iff_of_true hsize (Or.inl hold)
      | forceFlush => exact ⟨⟨hloaded', maxMemNodes_flush hrun⟩, iff_of_true (hflush hloaded hrun) trivial⟩
      | compact =>
          refine ⟨⟨hloaded', maxMemNodes_compact hrun⟩, iff_of_true ?_ trivial⟩
          rw [models_size (hloaded.compact hrun).mem, ← models_size hloaded.mem]
          exact hsize

/-! ## Every run -/

/-- **The memtable stays below `max_mem_nodes`**, in every state of a run over a
    fresh directory, exactly when every `erase` and every opening that returns had
    the room. -/
theorem memtable_bound_iff (c : Config) (hmax : 1 ≤ c.maxMemNodes) {evs : List Event}
    (hevs : ∀ ev ∈ evs, SameBound c.maxMemNodes ev) :
    ∃ e, start [] c = .ok e
      ∧ ((∀ e', Passes happen e evs e' → e'.skiplist.size < c.maxMemNodes)
        ↔ Meets happen (fun e ev => ∀ e', happen e ev = .ok e' → Room e ev) e evs) := by
  obtain ⟨e, hstart, -⟩ := start_nil c
  obtain ⟨hsize, hbound⟩ := size_start hstart
  have hempty : e.skiplist.size < c.maxMemNodes := by
    rw [hsize]
    exact hmax
  have hfresh : Inv c.maxMemNodes e := ⟨loaded_start names_nil.tables hstart, hbound⟩
  refine ⟨e, hstart, always_iff_meets ?_ evs hevs hfresh hempty⟩
  intro e e' ev hev hinv hsize hrun
  exact bound_step hmax hev hinv hsize hrun

/-- A bound of two, and a run that stays below it. -/
def twoNodes : Config := { plainConfig with maxMemNodes := 2 }

theorem memtable_bound_iff_twoNodes :
    ∃ e, start [] twoNodes = .ok e
      ∧ ((∀ e', Passes happen e [.op (.erase [97]), .reopen twoNodes, .op (.put [98] [1])] e' →
          e'.skiplist.size < 2)
        ↔ Meets happen (fun e ev => ∀ e', happen e ev = .ok e' → Room e ev) e
          [.op (.erase [97]), .reopen twoNodes, .op (.put [98] [1])]) := by
  refine memtable_bound_iff twoNodes (by decide) ?_
  intro ev hev
  rcases List.mem_cons.mp hev with rfl | hev
  · trivial
  · rcases List.mem_cons.mp hev with rfl | hev
    · rfl
    · rw [List.mem_singleton.mp hev]
      trivial

/-- **An erase takes the memtable to its bound**, and a log that a compaction has
    left behind does too, when it is replayed. -/
theorem memtable_reaches_bound :
    Yields (start [] twoNodes >>= fun e =>
        [Event.op (.erase [97]), .op (.erase [98])].foldlM happen e)
      (fun e => e.skiplist.size = 2 ∧ e.maxMemNodes = 2)
    ∧ Yields (start [] twoNodes >>= fun e =>
        [Event.op (.put [97] [1]), .op .forceFlush, .op (.put [98] [1]), .op .forceFlush,
          .op (.put [99] [1]), .op .compact, .reopen twoNodes, .op (.put [100] [1]),
          .op (.put [101] [1]), .reopen twoNodes].foldlM happen e)
      (fun e => e.skiplist.size = 2 ∧ e.maxMemNodes = 2) := by
  constructor
  · decide +kernel
  · decide +kernel

end KvMemtableBound
