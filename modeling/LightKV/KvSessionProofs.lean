import LightKV.KvCompactionProofs
import LightKV.KvRecoveryProofs

/-! # Sessions

    A session opens a directory and runs client operations one after the other.
    Each operation is a step of the store; a property of stores that the steps
    keep holds after every session (`session_spec`).  The tables of a session
    stay in the order of their sequence numbers (`tidy_step`), and so the engine
    is a map: `get` answers with the last write (`get_latest`). -/

namespace KvSession

open Execution KvBytes KvCompaction KvDirectory KvEngine KvRecovery KvStore KvTable KvWal Overlay

/-! ## Runs of one session -/

/-- The arguments of the constructor, and the draws of the skip list. -/
structure Config where
  maxMemNodes : Nat
  maxLevel : Nat
  draws : Nat → Bool
  one_le_maxLevel : 1 ≤ maxLevel

/-- A configuration with room in the memtable, and towers of height one. -/
def plainConfig : Config := ⟨100, 16, fun _ => false, by decide⟩

/-- Open a directory. -/
def start (dir : Directory) (c : Config) : Except Fault KVEngine :=
  KVEngine.open dir c.maxMemNodes c.maxLevel c.draws

/-- A client's operation. -/
inductive Op
  | put (key value : Bytes)
  | erase (key : Bytes)
  | forceFlush
  | compact

/-- Execute an operation. -/
def execute (e : KVEngine) : Op → Except Fault KVEngine
  | .put key value => e.put key value
  | .erase key => e.erase key
  | .forceFlush => e.forceFlush
  | .compact => e.compact

/-- Keys that fit the length fields of tables and logs. -/
def Op.KeyFits : Op → Prop
  | .put key _ => key.length < 2 ^ 32
  | .erase key => key.length < 2 ^ 32
  | _ => True

/-- Values that fit them as well. -/
def Op.ValueFits : Op → Prop
  | .put _ value => value.length < 2 ^ 32
  | _ => True

instance : DecidablePred Op.KeyFits := fun o => by
  cases o <;> unfold Op.KeyFits <;> infer_instance

instance : DecidablePred Op.ValueFits := fun o => by
  cases o <;> unfold Op.ValueFits <;> infer_instance

/-- **What a start that succeeds has read**: the tables, the memtable of the logs
    and the counter. -/
theorem start_eq_ok {dir : Directory} {c : Config} {e : KVEngine} (hrun : start dir c = .ok e) :
    ∃ skiplist sstables, openTables dir (sstNames dir).reverse = .ok sstables
      ∧ KvSkipList.Models skiplist (replayLayer
          ((walNames dir).flatMap (fun walPath => WalLogger.recover ⟨walPath, false⟩ dir)) [])
      ∧ e = ⟨skiplist, getWalPath (maxNumber (sstNames dir) 0 + 1),
          (WalLogger.open dir (getWalPath (maxNumber (sstNames dir) 0 + 1))).2, sstables,
          c.maxMemNodes, maxNumber (sstNames dir) 0,
          (WalLogger.open dir (getWalPath (maxNumber (sstNames dir) 0 + 1))).1⟩ := by
  obtain ⟨sstables, htables, hrun⟩ := bind_eq_ok.mp hrun
  obtain ⟨skiplist, hrecover, hrun⟩ := bind_eq_ok.mp hrun
  obtain ⟨_, hreplay, hmem⟩ := models_recoverAllWals dir (walNames dir)
    (KvSkipList.models_empty c.one_le_maxLevel c.draws)
  obtain rfl := Except.ok.inj (hreplay.symm.trans hrecover)
  exact ⟨_, sstables, htables, hmem, (Except.ok.inj hrun).symm⟩

/-! ## The steps of the store -/

/-- **What an operation does to the store.** -/
inductive Step (s : Store) : Op → Store → Prop
  | put (key value : Bytes) : Step s (.put key value) (s.put key value)
  | erase (key : Bytes) : Step s (.erase key) (s.erase key)
  | forceFlush : Step s .forceFlush s.flush
  | compactNone (h : s.tables.length ≤ 1) : Step s .compact s
  | compact (h : 1 < s.tables.length) {m : List Entry} (hm : Merged s.tables m) :
      Step s .compact (Store.compacted s m)

/-- **Every operation is a step.** -/
theorem execute_spec {e : KVEngine} {s : Store} (h : Rep e s) {o : Op} (ho : o.KeyFits) :
    Runs (execute e o) (fun e' => ∃ s', Step s o s' ∧ Rep e' s') := by
  cases o with
  | put key value => exact (h.put ho value).mono (fun e' h' => ⟨_, Step.put key value, h'⟩)
  | erase key =>
      obtain ⟨e', hrun, h'⟩ := h.erase ho
      exact ends_of_eq_ok hrun ⟨_, Step.erase key, h'⟩
  | forceFlush => exact h.flush.mono (fun e' h' => ⟨_, Step.forceFlush, h'⟩)
  | compact =>
      refine (rep_compact h).mono ?_
      rintro e' (⟨hle, h'⟩ | ⟨hlt, m, hm, h'⟩)
      · exact ⟨s, Step.compactNone hle, h'⟩
      · exact ⟨_, Step.compact hlt hm, h'⟩

/-- **A session keeps what its steps keep.**  `J` may follow the run through a
    state of its own, which `δ` moves. -/
theorem session_spec {G : Type} (J : G → Store → Prop) (δ : G → Op → G) (ok : Op → Prop)
    (hstep : ∀ {g : G} {e : KVEngine} {s s' : Store} {o : Op},
      Rep e s → J g s → ok o → Step s o s' → J (δ g o) s')
    (os : List Op) (g : G) {e : KVEngine} {s : Store} (hos : ∀ o ∈ os, o.KeyFits ∧ ok o)
    (hrep : Rep e s) (hj : J g s) :
    Runs (os.foldlM execute e) (fun e' => ∃ s', Rep e' s' ∧ J (os.foldl δ g) s') := by
  -- what is still to come leads from the state of `J` now to its last one
  let I : List Op → KVEngine → Prop := fun rest e => (∀ o ∈ rest, o.KeyFits ∧ ok o)
    ∧ ∃ s g', Rep e s ∧ J g' s ∧ rest.foldl δ g' = os.foldl δ g
  have hI : ∀ {o : Op} {rest : List Op} {e : KVEngine}, I (o :: rest) e → True →
      Runs (execute e o) (I rest) := by
    rintro o rest e ⟨hrest, s, g', h, hj, hg⟩ _
    obtain ⟨hkey, hok⟩ := hrest o List.mem_cons_self
    refine (execute_spec h hkey).mono ?_
    rintro e' ⟨s', hs', h'⟩
    exact ⟨fun x hx => hrest x (List.mem_cons_of_mem _ hx), s', δ g' o, h', hstep h hj hok hs', hg⟩
  refine (ends_foldlM I hI os (meets_of_forall (fun _ _ => trivial) os e)
    ⟨hos, s, g, hrep, hj, rfl⟩).mono ?_
  rintro e' ⟨-, s', g', h', hj', hg⟩
  exact ⟨s', h', hg ▸ hj'⟩

/-- **Every session is one of the abstract store.** -/
theorem session_rep (os : List Op) (hos : ∀ o ∈ os, o.KeyFits) {e : KVEngine} {s : Store}
    (hrep : Rep e s) : Runs (os.foldlM execute e) (fun e' => ∃ s', Rep e' s') := by
  refine (session_spec (fun (_ : Unit) _ => True) (fun g _ => g) (fun _ => True)
    (fun _ _ _ _ => trivial) os () (fun o ho => ⟨hos o ho, trivial⟩) hrep trivial).mono ?_
  rintro e' ⟨s', hs', -⟩
  exact ⟨s', hs'⟩

/-! ## Tables in order -/

/-- The tables' sequence numbers descend, and the next one is larger. -/
structure Tidy (s : Store) : Prop where
  ordered : s.tables.Pairwise (fun t u => u.sequence < t.sequence)
  below : ∀ t ∈ s.tables, t.sequence ≤ s.counter

theorem tidy_flush {s : Store} (h : Tidy s) : Tidy s.flush := by
  rw [Store.flush]
  split
  · exact h
  · refine ⟨List.pairwise_cons.mpr ⟨fun t ht => Nat.lt_succ_of_le (h.below t ht), h.ordered⟩, ?_⟩
    intro t ht
    rcases List.mem_cons.mp ht with rfl | ht'
    · exact Nat.le_refl _
    · exact Nat.le_succ_of_le (h.below t ht')

/-- **A reopened store is in order**, below a million files. -/
theorem tidy_opened {files : List (Nat × List Entry)} {ns : List Nat}
    (hf : KeySorted files) (hns : ns = files.map Prod.fst) (logs : List (Nat × Bytes))
    (ms : List Nat) (maxMemNodes : Nat) : Tidy (opened files logs ns ms maxMemNodes) := by
  have hasc : ns.Pairwise (· < ·) := by
    rw [hns]
    exact List.pairwise_map.mpr hf
  refine ⟨descending_loadTables files hasc, ?_⟩
  intro t ht
  obtain ⟨n, hn, hload⟩ := List.mem_filterMap.mp ht
  rw [(loadTable_eq_some hload).2.1]
  exact le_maxOf (List.mem_reverse.mp hn)

/-- Deleting a file changes nothing in memory. -/
theorem deleteOld_memory (s : Store) (n m : Nat) : (s.deleteOld n m).tables = s.tables
    ∧ (s.deleteOld n m).counter = s.counter ∧ (s.deleteOld n m).mem = s.mem := by
  rw [Store.deleteOld]
  split
  · exact ⟨rfl, rfl, rfl⟩
  · exact ⟨rfl, rfl, rfl⟩

theorem deleteAll_memory (n : Nat) (ns : List Nat) (s : Store) :
    (Store.deleteAll s n ns).tables = s.tables
      ∧ (Store.deleteAll s n ns).counter = s.counter ∧ (Store.deleteAll s n ns).mem = s.mem := by
  induction ns generalizing s with
  | nil => exact ⟨rfl, rfl, rfl⟩
  | cons m ns ih =>
      obtain ⟨h1, h2, h3⟩ := deleteOld_memory s n m
      obtain ⟨h1', h2', h3'⟩ := ih (s.deleteOld n m)
      exact ⟨h1'.trans h1, h2'.trans h2, h3'.trans h3⟩

/-- A swap that merged every table leaves only the new one. -/
theorem tables_swap_self (s : Store) (t : Table) : (s.swap s.tables t).tables = [t] := by
  have hnone : s.remaining s.tables = [] := by
    rw [Store.remaining, List.filter_eq_nil_iff]
    intro u hu
    have : (s.tables.map Table.number).contains u.number = true :=
      List.contains_iff_mem.mpr (List.mem_map_of_mem hu)
    simp only [this, Bool.not_true, Bool.false_eq_true, not_false_eq_true]
  rw [Store.swap, hnone]

/-- The tables after a compaction. -/
theorem tables_compacted (s : Store) (m : List Entry) :
    (Store.compacted s m).tables = if m = [] then s.tables else [⟨s.counter + 1, 0, m⟩] := by
  rw [Store.compacted]
  split
  · rfl
  · rw [(deleteAll_memory _ _ _).1]
    exact tables_swap_self (s.reserve.writeMerged (s.counter + 1) m) _

theorem counter_compacted (s : Store) (m : List Entry) :
    (Store.compacted s m).counter = s.counter + 1 := by
  rw [Store.compacted]
  split
  · rfl
  · rw [(deleteAll_memory _ _ _).2.1]
    rfl

theorem mem_compacted (s : Store) (m : List Entry) : (Store.compacted s m).mem = s.mem := by
  rw [Store.compacted]
  split
  · rfl
  · rw [(deleteAll_memory _ _ _).2.2]
    rfl

theorem logs_deleteAll (number : Nat) (ns : List Nat) :
    ∀ (s : Store), (Store.deleteAll s number ns).log = s.log
      ∧ (Store.deleteAll s number ns).logs = s.logs := by
  induction ns with
  | nil => exact fun s => ⟨rfl, rfl⟩
  | cons n ns ih =>
      intro s
      have hone : (s.deleteOld number n).log = s.log ∧ (s.deleteOld number n).logs = s.logs := by
        rw [Store.deleteOld]
        split
        · exact ⟨rfl, rfl⟩
        · exact ⟨rfl, rfl⟩
      obtain ⟨h1, h2⟩ := ih (s.deleteOld number n)
      exact ⟨h1.trans hone.1, h2.trans hone.2⟩

/-- A compaction does not touch the logs. -/
theorem logs_compacted (s : Store) (m : List Entry) :
    (Store.compacted s m).log = s.log ∧ (Store.compacted s m).logs = s.logs := by
  rw [Store.compacted]
  split
  · exact ⟨rfl, rfl⟩
  · exact logs_deleteAll _ _ _

theorem tidy_compacted {s : Store} (h : Tidy s) (m : List Entry) :
    Tidy (Store.compacted s m) := by
  constructor
  · rw [tables_compacted]
    split
    · exact h.ordered
    · exact List.pairwise_singleton _ _
  · rw [tables_compacted, counter_compacted]
    split
    · intro t ht
      exact Nat.le_succ_of_le (h.below t ht)
    · intro t ht
      rw [List.mem_singleton.mp ht]
      exact Nat.zero_le _

/-- **Every step keeps the tables in order.** -/
theorem tidy_step {s s' : Store} {o : Op} (h : Tidy s) (hs : Step s o s') : Tidy s' := by
  cases hs with
  | put key value =>
      rw [Store.put]
      split
      · exact tidy_flush ⟨h.ordered, h.below⟩
      · exact ⟨h.ordered, h.below⟩
  | erase key => exact ⟨h.ordered, h.below⟩
  | forceFlush => exact tidy_flush h
  | compactNone hle => exact h
  | compact hlt hm => exact tidy_compacted h _

/-! ## The engine as a map -/

/-- What an operation does to a map. -/
def effect (g : Bytes → Option Bytes) : Op → Bytes → Option Bytes
  | .put key value => fun k => if k = key then some value else g k
  | .erase key => fun k => if k = key then none else g k
  | _ => g

/-- The map that operations leave: the last put of each key that no erase follows. -/
def latest (os : List Op) : Bytes → Option Bytes := os.foldl effect (fun _ => none)

theorem view_write (s : Store) (r : ParsedLogRecord) (tv : TableValue) (k : Bytes) :
    (s.write r tv).view k = if k = r.key then some tv else s.view k := by
  simp only [Store.view, Store.write, overlay_cons, lookup_upsert]
  split
  · rfl
  · rfl

/-- Flushing a memtable that fits changes no read. -/
theorem view_flush {s : Store} (hfits : ∀ kv ∈ s.mem, Fits kv) (k : Bytes) :
    s.flush.view k = s.view k := by
  rw [Store.flush]
  split
  · rfl
  · show overlay ([] :: storedLayer s.mem :: s.tables.map Table.entries) k = _
    rw [storedLayer_of_fits hfits, overlay_cons]
    rfl

/-- What the tables read after a compaction. -/
theorem visible_tables_compacted {s : Store} (h : Tidy s) (hg : ∀ t ∈ s.tables, GoodTable t)
    {m : List Entry} (hm : Merged s.tables m) (k : Bytes) :
    visible (overlay ((Store.compacted s m).tables.map Table.entries) k)
      = visible (overlay (s.tables.map Table.entries) k) := by
  have hlook := lookup_merged_of_descending hm (fun t ht => (hg t ht).1) h.ordered k
  rw [tables_compacted]
  split
  · rfl
  · rw [List.map_singleton, overlay_cons, overlay_nil, Option.or_none, hlook, visible_live]

/-- **A compaction changes no read.** -/
theorem visible_compacted {s : Store} (h : Tidy s) (hg : ∀ t ∈ s.tables, GoodTable t)
    {m : List Entry} (hm : Merged s.tables m) (k : Bytes) :
    visible ((Store.compacted s m).view k) = visible (s.view k) := by
  rw [Store.view, Store.view, overlay_cons, overlay_cons, mem_compacted]
  cases s.mem.lookup k with
  | some tv => rfl
  | none => exact visible_tables_compacted h hg hm k

theorem good_of_rep {e : KVEngine} {s : Store} (h : Rep e s) : ∀ t ∈ s.tables, GoodTable t :=
  good_of_forall₂ h.tables

/-- The memtable's values fit their length fields. -/
def MemFits (s : Store) : Prop := ∀ kv ∈ s.mem, Fits kv

theorem memFits_write {s : Store} (h : MemFits s) {r : ParsedLogRecord} {tv : TableValue}
    (hf : Fits (r.key, tv)) : MemFits (s.write r tv) := by
  intro kv hkv
  rcases mem_upsert_key hkv with rfl | hkv'
  · exact hf
  · exact h kv hkv'

theorem memFits_flush {s : Store} (h : MemFits s) : MemFits s.flush := by
  rw [Store.flush]
  split
  · exact h
  · intro kv hkv
    cases hkv

/-- The store agrees with a map. -/
structure Agrees (g : Bytes → Option Bytes) (s : Store) : Prop where
  tidy : Tidy s
  fits : MemFits s
  reads : ∀ k, visible (s.view k) = g k

theorem agrees_flush {g : Bytes → Option Bytes} {s : Store} (h : Agrees g s) :
    Agrees g s.flush :=
  ⟨tidy_flush h.tidy, memFits_flush h.fits, fun k => by rw [view_flush h.fits, h.reads k]⟩

/-- A write, before the flush it may bring about. -/
theorem agrees_write {g : Bytes → Option Bytes} {s : Store} (h : Agrees g s)
    (r : ParsedLogRecord) (tv : TableValue) (hf : Fits (r.key, tv)) :
    Agrees (fun k => if k = r.key then visible (some tv) else g k) (s.write r tv) := by
  refine ⟨⟨h.tidy.ordered, h.tidy.below⟩, memFits_write h.fits hf, ?_⟩
  intro k
  rw [view_write]
  split
  · rfl
  · exact h.reads k

/-- **Every step is a step of the map.** -/
theorem agrees_step {g : Bytes → Option Bytes} {e : KVEngine} {s s' : Store} {o : Op}
    (hrep : Rep e s) (h : Agrees g s) (ho : o.KeyFits ∧ o.ValueFits) (hs : Step s o s') :
    Agrees (effect g o) s' := by
  cases hs with
  | put key value =>
      have hw := agrees_write h ⟨.PUT, key, value⟩ ⟨.kTypeValue, value⟩
        ⟨ho.1, Or.inr ⟨rfl, ho.2⟩⟩
      rw [Store.put]
      split
      · exact agrees_flush hw
      · exact hw
  | erase key => exact agrees_write h ⟨.ERASE, key, []⟩ ⟨.kTypeDeletion, []⟩ ⟨ho.1, Or.inl ⟨rfl, rfl⟩⟩
  | forceFlush => exact agrees_flush h
  | compactNone hle => exact h
  | compact hlt hm =>
      refine ⟨tidy_compacted h.tidy _, ?_, ?_⟩
      · intro kv hkv
        rw [mem_compacted] at hkv
        exact h.fits kv hkv
      · intro k
        rw [visible_compacted h.tidy (good_of_rep hrep) hm, h.reads k]
        rfl

/-- A directory that is opened for the first time. -/
theorem start_nil (c : Config) : ∃ e, start [] c = .ok e
    ∧ Rep e (opened [] [] [] [] c.maxMemNodes) := by
  obtain ⟨ns, ms, e, hperm, -, hms, hrun, hrep⟩ :=
    open_spec dirRep_nil c.maxMemNodes c.one_le_maxLevel c.draws
  have hns : ns = [] := List.Perm.eq_nil hperm
  have hms' : ms = [] := hms List.Pairwise.nil
  subst hns
  subst hms'
  exact ⟨e, hrun, hrep⟩

/-- **The engine is a map, over any session.**  On a fresh directory, after any
    operations, `get` answers with the last put of its key that no erase
    follows, and with nothing when there is none. -/
theorem get_latest (c : Config) {os : List Op} (hos : ∀ o ∈ os, o.KeyFits ∧ o.ValueFits) :
    Runs (start [] c >>= fun e => os.foldlM execute e)
      (fun e => ∀ k, e.get k = .ok (latest os k)) := by
  obtain ⟨e, hrun, hrep⟩ := start_nil c
  have hagrees : Agrees (fun _ => none) (opened [] [] [] [] c.maxMemNodes) := by
    refine ⟨⟨List.Pairwise.nil, ?_⟩, ?_, fun k => rfl⟩
    · intro t ht
      cases ht
    · intro kv hkv
      cases hkv
  have hstep := session_spec Agrees effect (fun o => o.KeyFits ∧ o.ValueFits)
    (fun h hj ho hs => agrees_step h hj ho hs) os (fun _ => none)
    (fun o ho => ⟨(hos o ho).1, hos o ho⟩) hrep hagrees
  rw [hrun, ok_bind]
  refine hstep.mono ?_
  rintro e' ⟨s', hrep', hagrees'⟩ k
  rw [hrep'.get k, hagrees'.reads k]
  rfl

/-- A session with an overwrite, a tombstone and a compaction. -/
def smallSession : List Op :=
  [.put [97] [1], .put [98] [2], .forceFlush, .put [97] [3], .erase [98], .forceFlush, .compact,
    .put [99] [4]]

theorem get_latest_plain :
    Yields (start [] plainConfig >>= fun e => smallSession.foldlM execute e)
      (fun e => ∀ k, e.get k = .ok (latest smallSession k)) :=
  Ends.yields (get_latest plainConfig (by decide))
    (show Yields _ (fun e => e.sstables.length = 1) by decide +kernel)

end KvSession
