import LightKV.KvDiskFilesProofs

/-! # What interleaved compactions leave on disk

    When every call has finished, the files on disk that are tables are those of
    the list, and a restart reads them by descending file number.  The number
    order is right in every run whose flushes do not overtake a call between its
    snapshot and its number, and whose snapshots see a value for every key that
    an older pending call carries, and no two merged tables that disagree
    (`readDisk_latest`).  Without that it is not (`flush_between_is_lost`). -/

namespace KvDiskOrder

open Execution KvBytes KvCompaction KvDirectory KvDiskFiles KvEngine KvInterleaving KvRecovery KvSession
open KvMerging KvSkipList KvStore KvTable KvTableOrder Overlay

/-! ## What a restart reads -/

/-- Reading the table files as the constructor lists them. -/
def readDisk (dir : Directory) (key : Bytes) : Except Fault (Option Bytes) := do
  let readers ← openTables dir (sstNames dir).reverse
  let found ← getFromTables key readers
  pure (visible found)

/-! ## The condition -/

/-- The snapshot of a call that has not taken its number. -/
def unnumbered : CompactCall → Option (List SSTableReader)
  | .snapped old => some old
  | _ => none

/-- The snapshot of a call that has not replaced the list. -/
def pendingSnapshot : CompactCall → Option (List SSTableReader)
  | .snapped old => some old
  | .reserved old _ => some old
  | .built old _ _ => some old
  | _ => none

/-- The entry of a key that a merge of some tables chooses: one of the highest
    sequence number. -/
def Chosen (readers : List SSTableReader) (key : Bytes) (tv : TableValue) : Prop :=
  ∃ r ∈ readers, r.get key = .ok (some tv)
    ∧ ∀ q ∈ readers, q.get key ≠ .ok none → q.sequence ≤ r.sequence

/-- A flush of this memtable overtakes no call: where a call without a number
    carries a value of a key of the memtable, the memtable has the same one. -/
def FlushOvertakesNone (e : KVEngine) (calls : List CompactCall) : Prop :=
  ∀ call ∈ calls, ∀ old, unnumbered call = some old → ∀ key tv tv', Chosen old key tv →
    visible (some tv) ≠ none → e.skiplist.get key = .ok (some tv') →
    visible (some tv') = visible (some tv)

/-- A snapshot now sees a value for every key that a pending call carries, and
    tables of sequence 0 that no other one covers agree. -/
def SnapshotIsWhole (e : KVEngine) (calls : List CompactCall) : Prop :=
  (∀ call ∈ calls, ∀ old, pendingSnapshot call = some old → ∀ key tv, Chosen old key tv →
      visible (some tv) ≠ none → ∃ tv', Chosen e.sstables key tv' ∧ visible (some tv') ≠ none)
    ∧ ∀ key, ∀ r ∈ e.sstables, ∀ r' ∈ e.sstables, r.sequence = 0 → r'.sequence = 0 →
      ∀ tv tv', r.get key = .ok (some tv) → r'.get key = .ok (some tv') →
      visible (some tv) = visible (some tv')
        ∨ ∃ q ∈ e.sstables, 0 < q.sequence ∧ q.get key ≠ .ok none

/-- **The condition on each action**, in the state before it. -/
def KeepsNumberOrder (sys : System) : Action → Prop
  | .forceFlush => FlushOvertakesNone sys.engine sys.calls
  | .put key value => ∀ e, sys.engine.write .PUT key value ⟨.kTypeValue, value⟩ = .ok e →
      e.skiplist.size ≥ e.maxMemNodes → FlushOvertakesNone e sys.calls
  | .begin => 1 < sys.engine.sstables.length → SnapshotIsWhole sys.engine sys.calls
  | _ => True

/-! ## Readers and tables -/

theorem get_ne_none {r : SSTableReader} {t : Table} (h : ReaderOf r t) (key : Bytes) :
    r.get key ≠ .ok none ↔ Holds t key := by
  rw [get_of_readerOf h, Holds, ne_eq, Except.ok.injEq]

/-- What a merge chooses is what decides. -/
theorem chosen_iff {readers : List SSTableReader} {ts : List Table}
    (h : List.Forall₂ ReaderOf readers ts) {key : Bytes} {tv : TableValue} :
    Chosen readers key tv ↔ Decides ts key tv := by
  constructor
  · rintro ⟨r, hr, hget, hmax⟩
    obtain ⟨t, ht, hrt⟩ := forall₂_mem_left h hr
    rw [get_of_readerOf hrt, Except.ok.injEq] at hget
    refine ⟨t, ht, hget, ?_⟩
    intro u hu hku
    obtain ⟨q, hq, hqu⟩ := forall₂_mem_right h hu
    have := hmax q hq ((get_ne_none hqu key).mpr hku)
    rwa [hqu.2.1, hrt.2.1] at this
  · rintro ⟨t, ht, hlook, hmax⟩
    obtain ⟨r, hr, hrt⟩ := forall₂_mem_right h ht
    refine ⟨r, hr, by rw [get_of_readerOf hrt, hlook], ?_⟩
    intro q hq hget
    obtain ⟨u, hu, hqu⟩ := forall₂_mem_left h hq
    rw [hqu.2.1, hrt.2.1]
    exact hmax u hu ((get_ne_none hqu key).mp hget)

/-- What a merge writes is what had been flushed at its snapshot. -/
theorem visible_merged {old : List Table} {seen : Bytes → Option Bytes} {m : List Entry}
    (hm : Merged old m) (hg : ∀ t ∈ old, GoodTable t)
    (hd : ∀ key tv, Decides old key tv → visible (some tv) = seen key)
    (ha : ∀ key, (∀ t ∈ old, ¬ Holds t key) → seen key = none) (key : Bytes) :
    visible (m.lookup key) = seen key := by
  rcases lookup_merged hm (fun t ht => (hg t ht).1) key with ⟨t, ht, tv, htv, hmax, hlook⟩ | ⟨hn, hl⟩
  · rw [hlook, visible_live]
    exact hd key tv ⟨t, ht, htv, hmax⟩
  · rw [hl, ha key (fun t ht hk => hk (hn t ht))]
    rfl

/-- A merge writes no tombstone. -/
theorem visible_merged_ne_none {old : List Table} {m : List Entry} (hm : Merged old m)
    (hg : ∀ t ∈ old, GoodTable t) (key : Bytes) (tv : TableValue) (h : m.lookup key = some tv) :
    visible (some tv) ≠ none := by
  have hne := ((good_of_merged hm hg).2 _ (mem_of_lookup h)).2
  rw [visible, if_neg hne]
  exact Option.some_ne_none _

/-! ## The condition on the store -/

/-- What a pending call has read stands for its snapshot. -/
theorem readers_of_pending {ccalls : List CompactCall} {calls : List Call}
    (h : List.Forall₂ CallRep ccalls calls) {i : Nat} {p : Pending} (hp : pendAt calls i = some p) :
    ∃ ccall ∈ ccalls, ∃ old, pendingSnapshot ccall = some old
      ∧ List.Forall₂ ReaderOf old p.old ∧ (p.number = none → unnumbered ccall = some old) := by
  obtain ⟨call, hi, hcall⟩ := pendAt_eq_some hp
  obtain ⟨ccall, hci, hrep⟩ := forall₂_exists h hi
  refine ⟨ccall, List.mem_of_getElem? hci, ?_⟩
  cases ccall <;> cases call <;> try exact hrep.elim
  case snapped.snapped old ts seen =>
    obtain rfl := Option.some.inj hcall
    exact ⟨old, rfl, hrep, fun _ => rfl⟩
  case reserved.reserved old number ts seen number' =>
    obtain rfl := Option.some.inj hcall
    exact ⟨old, rfl, hrep.1, fun hn => by cases hn⟩
  case built.built old number reader ts seen number' m =>
    obtain rfl := Option.some.inj hcall
    exact ⟨old, rfl, hrep.1, fun hn => by cases hn⟩
  case deleting.deleting number paths number' ns => cases hcall
  case finished.finished => cases hcall

/-- A value that had been flushed at a snapshot is in what its merge chooses. -/
theorem chosen_of_seen {tables : List Table} {counter : Nat} {flushed : Bytes → Option Bytes}
    {p : Pending} (h : PendingOk tables counter flushed p) {old : List SSTableReader}
    (hold : List.Forall₂ ReaderOf old p.old) {key : Bytes} (hseen : p.seen key ≠ none) :
    ∃ tv, Chosen old key tv ∧ visible (some tv) = p.seen key := by
  have hex : ∃ t ∈ p.old, Holds t key := by
    by_contra hno
    exact hseen (h.absent key (fun t ht hk => hno ⟨t, ht, hk⟩))
  obtain ⟨tv, hd⟩ := exists_decides hex
  exact ⟨tv, (chosen_iff hold).mpr hd, h.decides key tv hd⟩

section Condition

variable {e : KVEngine} {store : Store} {ccalls : List CompactCall} {calls : List Call}
  {flushed : Bytes → Option Bytes}

/-- What `FlushOvertakesNone` says of the store. -/
theorem overtakes_none (hrep : Rep e store) (hcalls : List.Forall₂ CallRep ccalls calls)
    (ho : Ordered store.tables store.counter flushed (pendAt calls))
    (h : FlushOvertakesNone e ccalls) :
    ∀ i p, pendAt calls i = some p → p.number = none → ∀ key tv, store.mem.lookup key = some tv →
      p.seen key ≠ none → visible (some tv) = p.seen key := by
  intro i p hp hn key tv hmem hseen
  obtain ⟨ccall, hcc, old, -, hold, hun⟩ := readers_of_pending hcalls hp
  obtain ⟨tv', hchosen, hvis⟩ := chosen_of_seen (ho.pending i p hp) hold hseen
  rw [← hvis]
  refine h ccall hcc old (hun hn) key tv' tv hchosen (hvis ▸ hseen) ?_
  rw [models_get hrep.mem, hmem]

/-- What `SnapshotIsWhole` says of the store. -/
theorem snapshot_is_whole (hrep : Rep e store) (hcalls : List.Forall₂ CallRep ccalls calls)
    (ho : Ordered store.tables store.counter flushed (pendAt calls))
    (h : SnapshotIsWhole e ccalls) :
    (∀ key, ∀ t ∈ store.tables, ∀ u ∈ store.tables, t.sequence = 0 → u.sequence = 0 →
      ∀ tv tv', t.entries.lookup key = some tv → u.entries.lookup key = some tv' →
      visible (some tv) = visible (some tv')
        ∨ ∃ w ∈ store.tables, 0 < w.sequence ∧ Holds w key)
    ∧ ∀ i p, pendAt calls i = some p → ∀ key, p.seen key ≠ none → flushed key ≠ none := by
  have hties : ∀ key, ∀ t ∈ store.tables, ∀ u ∈ store.tables, t.sequence = 0 → u.sequence = 0 →
      ∀ tv tv', t.entries.lookup key = some tv → u.entries.lookup key = some tv' →
      visible (some tv) = visible (some tv')
        ∨ ∃ w ∈ store.tables, 0 < w.sequence ∧ Holds w key := by
    intro key t ht u hu ht0 hu0 tv tv' htv htv'
    obtain ⟨r, hr, hrt⟩ := forall₂_mem_right hrep.tables ht
    obtain ⟨r', hr', hru⟩ := forall₂_mem_right hrep.tables hu
    rcases h.2 key r hr r' hr' (hrt.2.1.trans ht0) (hru.2.1.trans hu0) tv tv'
        (by rw [get_of_readerOf hrt, htv]) (by rw [get_of_readerOf hru, htv']) with
      heq | ⟨q, hq, hpos, hget⟩
    · exact Or.inl heq
    · obtain ⟨w, hw, hqw⟩ := forall₂_mem_left hrep.tables hq
      exact Or.inr ⟨w, hw, hqw.2.1 ▸ hpos, (get_ne_none hqw key).mp hget⟩
  refine ⟨hties, ?_⟩
  intro i p hp key hseen
  obtain ⟨ccall, hcc, old, hpend, hold, -⟩ := readers_of_pending hcalls hp
  obtain ⟨tv, hchosen, hvis⟩ := chosen_of_seen (ho.pending i p hp) hold hseen
  obtain ⟨tv', hchosen', hne⟩ := h.1 ccall hcc old hpend key tv hchosen (hvis ▸ hseen)
  rwa [← ho.visible_of_decides (hties key) ((chosen_iff hrep.tables).mp hchosen')]

end Condition

/-! ## Runs -/

/-- What a run keeps. -/
structure DiskOrder (s : Shared) : Prop where
  fits : MemFits s.store
  written : ∀ k, s.written k = flushOver s.store.mem s.flushed k
  ordered : Ordered s.store.tables s.store.counter s.flushed (pendAt s.calls)
  merged : ∀ (i : Nat) old seen n m, s.calls[i]? = some (Call.built old seen n m) → Merged old m
  disk : OnDisk s.store s.calls

/-- What a write does to what is written over what was flushed. -/
theorem flushOver_upsert (key : Bytes) (tv : TableValue) (mem : List Entry)
    (flushed : Bytes → Option Bytes) (k : Bytes) :
    flushOver (upsert key tv mem) flushed k
      = if k = key then visible (some tv) else flushOver mem flushed k := by
  rw [flushOver, lookup_upsert]
  split
  · rename_i tv' h
    split at h
    · obtain rfl := Option.some.inj h
      rw [if_pos ‹_›]
    · rw [if_neg ‹_›, flushOver, h]
  · rename_i h
    split at h
    · cases h
    · rw [if_neg ‹_›, flushOver, h]

/-- A write into the memtable. -/
theorem diskOrder_write {s : Shared} (h : DiskOrder s) (r : KvWal.ParsedLogRecord)
    (tv : TableValue) (hf : Fits (r.key, tv)) :
    DiskOrder { s with
      store := s.store.write r tv
      written := fun k => if k = r.key then visible (some tv) else s.written k } where
  fits := memFits_write h.fits hf
  written k := by
    show _ = flushOver (upsert r.key tv s.store.mem) s.flushed k
    rw [flushOver_upsert, ← h.written k]
  ordered := h.ordered
  merged := h.merged
  disk := ⟨h.disk.tableFile, h.disk.fileLe, h.disk.fileTable, h.disk.builtFile, h.disk.deleting⟩

/-- **A flush** that overtakes no call. -/
theorem diskOrder_flush {s : Shared} (h : DiskOrder s)
    (hsafe : ∀ i p, pendAt s.calls i = some p → p.number = none → ∀ key tv,
      s.store.mem.lookup key = some tv → p.seen key ≠ none → visible (some tv) = p.seen key) :
    DiskOrder { s with store := s.store.flush, flushed := s.written } := by
  have hw : flushOver s.store.mem s.flushed = s.written := funext (fun k => (h.written k).symm)
  rw [Store.flush]
  split
  · rename_i hnil
    have hsame : s.written = s.flushed := by
      rw [← hw, hnil]
      rfl
    exact ⟨h.fits, fun k => by rw [hnil]; rfl, by rw [hsame]; exact h.ordered, h.merged, h.disk⟩
  · rename_i hne
    have hstored := storedLayer_of_fits h.fits
    refine ⟨fun kv hkv => (by cases hkv), fun k => rfl, ?_, h.merged, ?_⟩
    · have := h.ordered.flush hsafe
      rw [hw] at this
      simpa only [Store.writeTable, Store.rotateWal, hstored] using this
    · refine h.disk.flush h.ordered hne rfl ?_ ?_
      · simp only [Store.writeTable, Store.rotateWal, hstored]
      · simp only [Store.writeTable, Store.rotateWal, hstored]

/-- The calls that have built their file, when one call changes. -/
theorem merged_set {calls : List Call}
    (h : ∀ (i : Nat) old seen n m, calls[i]? = some (Call.built old seen n m) → Merged old m)
    {i : Nat} {c call : Call} (hi : calls[i]? = some c)
    (hcall : ∀ old seen n m, call = Call.built old seen n m → Merged old m) :
    ∀ (j : Nat) old seen n m, (calls.set i call)[j]? = some (Call.built old seen n m) →
      Merged old m := by
  intro j old seen n m hj
  rw [getElem?_set_of hi] at hj
  split at hj
  · exact hcall old seen n m (Option.some.inj hj)
  · exact h j old seen n m hj

/-- **A call begins.** -/
theorem diskOrder_begin {sys : System} {s : Shared} (hrep : SystemRep sys s) (h : DiskOrder s)
    (hwhole : SnapshotIsWhole sys.engine sys.calls) :
    DiskOrder { s with calls := s.calls ++ [.snapped s.store.tables s.flushed] } := by
  obtain ⟨hties, hcarried⟩ := snapshot_is_whole hrep.rep hrep.calls h.ordered hwhole
  have hiff : ∀ (j : Nat) (c : Call), (∀ old seen, c ≠ Call.snapped old seen) →
      ((s.calls ++ [Call.snapped s.store.tables s.flushed])[j]? = some c
        ↔ s.calls[j]? = some c) := by
    intro j c hne
    rcases Nat.lt_or_ge j s.calls.length with hlt | hge
    · rw [List.getElem?_append_left hlt]
    · rw [List.getElem?_append_right hge, List.getElem?_eq_none hge]
      refine ⟨?_, fun hc => by cases hc⟩
      intro hc
      obtain rfl := List.mem_singleton.mp (List.mem_of_getElem? hc)
      exact absurd rfl (hne _ _)
  refine ⟨h.fits, h.written, ?_, ?_, ?_⟩
  · show Ordered _ _ _ (pendAt (s.calls ++ [Call.snapped s.store.tables s.flushed]))
    rw [pendAt_append]
    exact h.ordered.snapshot (fun j hj => pendAt_none hj) hties hcarried
  · intro j old seen n m hj
    exact h.merged j old seen n m ((hiff j _ (by simp)).mp hj)
  · refine h.disk.of_calls rfl rfl (Nat.le_refl _) (fun j old seen n m => hiff j _ (by simp))
      (fun j c n ns => hiff j _ (by simp)) ?_
    intro j p n hp hn _
    rw [pendAt_append] at hp
    dsimp only at hp
    split at hp
    · obtain rfl := Option.some.inj hp
      cases hn
    · exact ⟨p, hp, hn⟩

/-- **A call replaces the list.** -/
theorem diskOrder_swap {sys : System} {s : Shared} (hrep : SystemRep sys s) (h : DiskOrder s)
    {i n : Nat} {old : List Table} {seen : Bytes → Option Bytes} {m : List Entry}
    (hi : s.calls[i]? = some (.built old seen n m)) :
    DiskOrder { s with
      store := s.store.swap old ⟨n, 0, m⟩
      calls := s.calls.set i (.deleting n (old.map Table.number)) } := by
  have hp : pendAt s.calls i = some ⟨old, seen, some n⟩ := pendAt_of hi
  have hok := h.ordered.pending i _ hp
  obtain ⟨-, -, readers, -, hold, -⟩ := readers_of_pending hrep.calls hp
  have hg := good_of_forall₂ hold
  have hm := h.merged i old seen n m hi
  refine ⟨h.fits, h.written, ?_, merged_set h.merged hi (by simp), h.disk.swap h.ordered hi⟩
  show Ordered _ _ _ (pendAt (s.calls.set i _))
  rw [pendAt_set hi]
  exact h.ordered.swap hp (visible_merged hm hg hok.decides hok.absent)
    (visible_merged_ne_none hm hg)

/-- **Every action keeps the order** that a restart reads, under its condition. -/
theorem diskOrder_step {sys : System} {s s' : Shared} {a : Action} (hrep : SystemRep sys s)
    (h : DiskOrder s) (ha : a.Fits) (hok : KeepsNumberOrder sys a) (hs : SharedStep s a s') :
    DiskOrder s' := by
  cases hs with
  | put key value ht hfull =>
      subst ht
      exact diskOrder_write h ⟨.PUT, key, value⟩ ⟨.kTypeValue, value⟩ ⟨ha.1, Or.inr ⟨rfl, ha.2⟩⟩
  | putFlush key value ht hfull =>
      subst ht
      have hw := diskOrder_write h ⟨.PUT, key, value⟩ ⟨.kTypeValue, value⟩
        ⟨ha.1, Or.inr ⟨rfl, ha.2⟩⟩
      obtain ⟨e', hrun, hrep'⟩ :=
        hrep.rep.write .PUT value ⟨.kTypeValue, value⟩ ha.1 (Or.inr rfl)
      refine diskOrder_flush hw (overtakes_none hrep' hrep.calls hw.ordered (hok e' hrun ?_))
      rw [models_size hrep'.mem, hrep'.maxMemNodes]
      exact hfull
  | erase key => exact diskOrder_write h ⟨.ERASE, key, []⟩ ⟨.kTypeDeletion, []⟩ ⟨ha, Or.inl ⟨rfl, rfl⟩⟩
  | forceFlush => exact diskOrder_flush h (overtakes_none hrep.rep hrep.calls h.ordered hok)
  | beginNone hle => exact h
  | begin hlt =>
      refine diskOrder_begin hrep h (hok ?_)
      rw [hrep.rep.tables.length_eq]
      exact hlt
  | advanceNone hi => exact h
  | @reserve i old seen hi =>
      refine ⟨h.fits, h.written, ?_, merged_set h.merged hi (by simp), ?_⟩
      · show Ordered _ _ _ (pendAt (s.calls.set i _))
        rw [pendAt_set hi]
        exact h.ordered.reserve (pendAt_of hi)
      · have hquiet : Quiet (.reserved old seen (s.store.counter + 1)) := trivial
        refine h.disk.set_quiet hi trivial hquiet rfl rfl (Nat.le_succ _) ?_
        intro p n hp hn hle
        obtain rfl := Option.some.inj hp
        obtain rfl := Option.some.inj hn
        exact absurd hle (Nat.not_succ_le_self _)
  | @build i old seen number m hi hm hne =>
      refine ⟨h.fits, h.written, ordered_set_same h.ordered hi rfl, merged_set h.merged hi ?_,
        h.disk.build h.ordered hi (Or.inl ⟨hne, rfl⟩)⟩
      intro old' seen' n' m' heq
      simp only [Call.built.injEq] at heq
      obtain ⟨rfl, -, -, rfl⟩ := heq
      exact hm
  | @buildEmpty i old seen number hi hm =>
      refine ⟨h.fits, h.written, ?_, merged_set h.merged hi (by simp),
        h.disk.build h.ordered hi (Or.inr ⟨rfl, rfl⟩)⟩
      show Ordered _ _ _ (pendAt (s.calls.set i _))
      rw [pendAt_set hi]
      exact h.ordered.drop i
  | swap hi => exact diskOrder_swap hrep h hi
  | @delete i number n ns hi =>
      obtain ⟨h1, h2, h3⟩ := deleteOld_memory s.store number n
      refine ⟨?_, ?_, ?_, merged_set h.merged hi (by simp), h.disk.delete hi⟩
      · intro kv hkv
        rw [h3] at hkv
        exact h.fits kv hkv
      · intro k
        show _ = flushOver (s.store.deleteOld number n).mem s.flushed k
        rw [h3]
        exact h.written k
      · show Ordered (s.store.deleteOld number n).tables _ _ (pendAt (s.calls.set i _))
        rw [h1, h2]
        exact ordered_set_same h.ordered hi rfl
  | deleteDone hi =>
      exact ⟨h.fits, h.written, ordered_set_same h.ordered hi rfl, merged_set h.merged hi (by simp),
        h.disk.set_finished hi trivial⟩
  | idle hi =>
      exact ⟨h.fits, h.written, ordered_set_same h.ordered hi rfl, merged_set h.merged hi (by simp),
        h.disk.set_finished hi trivial⟩

/-! ## The disk after a run -/

/-- When no call has files of its own, the tables on disk are those of the list. -/
theorem loadTables_iff {store : Store} {calls : List Call} (h : OnDisk store calls)
    (hcalls : ∀ call ∈ calls, call = Call.finished) {ns : List Nat}
    (hns : ns = store.files.map Prod.fst) {t : Table} :
    t ∈ loadTables store.files ns.reverse
      ↔ ∃ u ∈ store.tables, t = ⟨u.number, u.number, u.entries⟩ := by
  rw [mem_loadTables]
  constructor
  · rintro ⟨-, hseq, hlook, hne⟩
    rcases h.fileTable _ _ hlook hne with ⟨u, hu, hun⟩ | ⟨i, old, seen, m, hi⟩ | ⟨i, k, ns, hi, -⟩
    · have hfile := (h.tableFile u hu).1
      rw [hun, hlook] at hfile
      refine ⟨u, hu, ?_⟩
      rw [hun, ← Option.some.inj hfile]
      cases t
      simp_all
    · cases hcalls _ (List.mem_of_getElem? hi)
    · cases hcalls _ (List.mem_of_getElem? hi)
  · rintro ⟨u, hu, rfl⟩
    obtain ⟨hfile, hne⟩ := h.tableFile u hu
    refine ⟨?_, rfl, hfile, hne⟩
    rw [List.mem_reverse, hns, mem_map_fst_iff, hfile]
    rfl

/-- **The first of the tables on disk** that holds a key holds what was flushed. -/
theorem overlay_of_newest {tables loaded : List Table} {key : Bytes} {v : Option Bytes}
    (hmem : ∀ t, t ∈ loaded ↔ ∃ u ∈ tables, t = ⟨u.number, u.number, u.entries⟩)
    (hd : loaded.Pairwise (fun t u => u.sequence < t.sequence)) (h : Newest tables key v) :
    visible (overlay (loaded.map Table.entries) key) = v := by
  rcases h with ⟨t, ht, tv, htv, hv, hmax⟩ | ⟨hnone, rfl⟩
  · have hw : Wins (loaded.map ranked) key tv := by
      refine ⟨_, List.mem_map_of_mem ((hmem _).mpr ⟨t, ht, rfl⟩), htv, ?_⟩
      intro r hr hne
      obtain ⟨w, hw, rfl⟩ := List.mem_map.mp hr
      obtain ⟨u, hu, rfl⟩ := (hmem w).mp hw
      exact WithTop.coe_le_coe.mpr (hmax u hu hne)
    rw [← map_snd_ranked, overlay_of_wins (pairwise_ranked hd) hw, hv]
  · have hno : overlay (loaded.map Table.entries) key = none := by
      rw [overlay_eq_none]
      intro l hl
      obtain ⟨w, hw, rfl⟩ := List.mem_map.mp hl
      obtain ⟨u, hu, rfl⟩ := (hmem w).mp hw
      by_contra hne
      exact hnone u hu hne
    rw [hno]
    rfl

/-- **What a restart reads**, when no call has files of its own. -/
theorem readDisk_spec {e : KVEngine} {store : Store} {calls : List Call}
    {flushed : Bytes → Option Bytes} (hrep : Rep e store)
    (ho : Ordered store.tables store.counter flushed (pendAt calls)) (hdisk : OnDisk store calls)
    (hcalls : ∀ call ∈ calls, call = Call.finished) (hlt : store.counter < 10 ^ 6) (key : Bytes) :
    readDisk e.dir key = .ok (flushed key) := by
  have hsorted := hrep.dir.filesSorted
  obtain ⟨ns, hnames, hperm, hord⟩ := sstNames_spec hrep.dir
  have hns : ns = store.files.map Prod.fst := by
    refine hord (namesInOrder_of_lt getSstPath_lt hsorted ?_)
    intro f hf
    exact Nat.lt_of_le_of_lt (hdisk.fileLe f.1 f.2 ((lookup_eq_some_iff hsorted).mpr hf)) hlt
  have hasc : ns.Pairwise (· < ·) := by
    rw [hns]
    exact List.pairwise_map.mpr hsorted
  obtain ⟨readers, hopen, hreaders⟩ := openTables_spec hrep.dir ns.reverse
    (fun n hn => hperm.mem_iff.mp (List.mem_reverse.mp hn))
  have hread := overlay_of_newest (fun t => loadTables_iff hdisk hcalls hns)
    (descending_loadTables store.files hasc) (ho.newest key)
  rw [readDisk, hnames, ← List.map_reverse, hopen, ok_bind, getFromTables_spec hreaders, ok_bind,
    hread]
  rfl

/-- **The order on disk is right after any interleaving** whose actions meet the
    condition: once every call has finished and the memtable is empty, a restart
    reads the last write of every key, below a million files. -/
theorem readDisk_latest (c : Config) {as : List Action} (hfits : ∀ a ∈ as, a.Fits)
    (hmeets : ∀ e, start [] c = .ok e → Meets System.step KeepsNumberOrder ⟨e, []⟩ as) :
    Runs (start [] c >>= fun e => as.foldlM System.step ⟨e, []⟩)
      (fun sys => (∀ call ∈ sys.calls, call = .finished) → sys.engine.skiplist.size = 0 →
        sys.engine.sstCounter < 10 ^ 6 →
        ∀ key, readDisk sys.engine.dir key = .ok (latestWrite as key)) := by
  obtain ⟨e, hrun, hrep⟩ := start_nil c
  have hfresh : DiskOrder (freshShared c) := by
    refine ⟨fun kv hkv => (by cases hkv), fun k => rfl, ordered_nil, fun i old seen n m hi => (by cases hi),
      ⟨fun t ht => (by cases ht), fun n es hn => (by cases hn), fun n es hn => (by cases hn),
        fun i old seen n m hi => (by cases hi), fun i c ns hi => (by cases hi)⟩⟩
  have hsys : SystemRep ⟨e, []⟩ (freshShared c) := ⟨hrep, List.Forall₂.nil⟩
  rw [hrun, ok_bind]
  refine (actions_spec (fun _ => DiskOrder) KeepsNumberOrder diskOrder_step as hfits
    (hmeets e hrun) hsys hfresh).mono ?_
  rintro sys' ⟨s', hrep', hj, hw⟩ hdone hsize hlt key
  have hcalls : ∀ call ∈ s'.calls, call = Call.finished := by
    intro call hcall
    obtain ⟨ccall, hcc, hr⟩ := forall₂_mem_right hrep'.calls hcall
    rw [hdone ccall hcc] at hr
    cases call <;> first | exact hr.elim | rfl
  have hnil : s'.store.mem = [] := by
    rw [models_size hrep'.rep.mem] at hsize
    exact List.length_eq_zero_iff.mp hsize
  have hread := readDisk_spec hrep'.rep hj.ordered hj.disk hcalls (hrep'.rep.counter ▸ hlt) key
  have hlast := hj.written key
  rw [hnil, hw] at hlast
  rw [hread]
  exact congrArg _ hlast.symm

/-- A test for `KeepsNumberOrder`: writes come when every call has a number,
    calls when none is pending, and one table at most is merged. -/
def noneOvertaken (sys : System) : Action → Bool
  | .forceFlush => sys.calls.all (fun call => (unnumbered call).isNone)
  | .put _ _ => sys.calls.all (fun call => (unnumbered call).isNone)
  | .begin => sys.calls.all (fun call => (pendingSnapshot call).isNone)
      && (sys.engine.sstables.filter (fun r => r.sequence == 0)).length ≤ 1
  | _ => true

theorem keepsNumberOrder_of_noneOvertaken (sys : System) (a : Action)
    (h : noneOvertaken sys a = true) : KeepsNumberOrder sys a := by
  have hflush : ∀ e : KVEngine, sys.calls.all (fun call => (unnumbered call).isNone) = true →
      FlushOvertakesNone e sys.calls := by
    intro e hall call hcall old hold
    have := List.all_eq_true.mp hall call hcall
    rw [hold] at this
    cases this
  cases a with
  | put key value => exact fun e _ _ => hflush e h
  | forceFlush => exact hflush sys.engine h
  | begin =>
      obtain ⟨hpend, hone⟩ := Bool.and_eq_true_iff.mp h
      intro _
      constructor
      · intro call hcall old hold
        have := List.all_eq_true.mp hpend call hcall
        rw [hold] at this
        cases this
      · intro key r hr r' hr' hz hz' tv tv' hget hget'
        have hmem : ∀ q ∈ sys.engine.sstables, q.sequence = 0 →
            q ∈ sys.engine.sstables.filter (fun r => r.sequence == 0) :=
          fun q hq hq0 => List.mem_filter.mpr ⟨hq, beq_iff_eq.mpr hq0⟩
        have heq : r = r' := by
          have h1 := hmem r hr hz
          have h2 := hmem r' hr' hz'
          have hle := of_decide_eq_true hone
          rcases hl : sys.engine.sstables.filter (fun r => r.sequence == 0) with _ | ⟨q, _ | ⟨q', qs⟩⟩
          · rw [hl] at h1
            cases h1
          · rw [hl] at h1 h2
            exact (List.mem_singleton.mp h1).trans (List.mem_singleton.mp h2).symm
          · rw [hl] at hle
            exact absurd hle (by simp)
        subst heq
        rw [hget] at hget'
        exact Or.inl (by rw [Option.some.inj (Except.ok.inj hget')])
  | erase key => trivial
  | advance i => trivial

/-- Two calls of `Compact`, with flushes between their stages. -/
def twoCalls : List Action :=
  [.put [107] [1], .forceFlush, .put [97] [1], .forceFlush, .begin, .advance 0, .put [107] [2],
    .forceFlush, .advance 0, .advance 0, .erase [97], .begin, .advance 1, .forceFlush, .advance 0,
    .advance 1, .advance 1, .advance 0, .advance 0, .advance 1, .advance 1, .advance 1]

theorem readDisk_latest_plain :
    Runs (start [] plainConfig >>= fun e => twoCalls.foldlM System.step ⟨e, []⟩)
      (fun sys => (∀ call ∈ sys.calls, call = .finished) → sys.engine.skiplist.size = 0 →
        sys.engine.sstCounter < 10 ^ 6 →
        ∀ key, readDisk sys.engine.dir key = .ok (latestWrite twoCalls key)) := by
  refine readDisk_latest plainConfig (by decide) ?_
  intro e he
  have hcheck : Yields (start [] plainConfig)
      (fun e => checkAll System.step noneOvertaken ⟨e, []⟩ twoCalls = true) := by
    decide +kernel
  exact meets_of_checkAll keepsNumberOrder_of_noneOvertaken (hcheck.of_eq_ok he)

/-- A key is overwritten and flushed between the snapshot and the file number. -/
def lateNumber : List Action :=
  [.put [107] [1], .forceFlush, .put [97] [1], .forceFlush, .begin, .put [107] [2], .forceFlush,
    .advance 0, .advance 0, .advance 0, .advance 0, .advance 0, .advance 0]

/-- **The merged file is numbered after a newer one**, and a restart reads it first. -/
theorem flush_between_is_lost :
    (∀ a ∈ lateNumber, a.Fits)
      ∧ Yields (start [] plainConfig >>= fun e => lateNumber.foldlM System.step ⟨e, []⟩)
        (fun sys => (∀ call ∈ sys.calls, call = .finished) ∧ sys.engine.skiplist.size = 0
          ∧ sys.engine.sstCounter < 10 ^ 6 ∧ readDisk sys.engine.dir [107] = .ok (some [1]))
      ∧ latestWrite lateNumber [107] = some [2] := by
  refine ⟨by decide, ?_, by decide⟩
  decide +kernel

end KvDiskOrder
