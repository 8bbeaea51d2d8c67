import LightKV.KvReadFailureProofs

/-! # Reads that fail

    `SSTableReader::Get` reports a data block that it cannot read as a key that is
    not in the table, and `KVEngine::get` goes on to the older tables: it answers
    with the first entry of the key that can be read.  That is right exactly when
    this entry is a tombstone, or is the newest one (`failed_read_iff`). -/

namespace KvStaleRead

open Execution KvBytes KvCompaction KvEngine KvFlushFailure KvReadFailure KvReopen KvSession KvSkipList
open KvStore KvTable KvTableIterator Overlay

/-- `get`, when block `j` of table `i` cannot be read for `fails i j`. -/
def KVEngine.getWith (e : KVEngine) (fails : Nat → Nat → Bool) (key : Bytes) :
    Except Fault (Option Bytes) := do
  let memVal ← e.skiplist.get key
  match memVal with
  | some tv => pure (visible (some tv))
  | none => do
      let found ← getFromTables key (e.sstables.mapIdx (fun i r => failing (fails i) r))
      pure (visible found)

/-- **Without failures** it is `get`. -/
theorem getWith_none (e : KVEngine) (key : Bytes) :
    KVEngine.getWith e (fun _ _ => false) key = e.get key := by
  simp only [KVEngine.getWith, failing_none, mapIdx_self]
  rfl

/-! ## One table -/

variable {r : SSTableReader} {bs : List (List Entry)}

/-- **`Get` over blocks of which some read as empty** is a lookup among the others. -/
theorem get_of_surviving (h : ReadsTable r bs.flatten bs) {r' : SSTableReader}
    {fails : Nat → Bool} (hb : Blocks r' (surviving fails bs))
    (hfind : ∀ t, r'.findBlockIndex t = r.findBlockIndex t) (key : Bytes) :
    r'.get key = .ok ((surviving fails bs).flatten.lookup key) := by
  have hsorted : KeySorted (surviving fails bs).flatten :=
    List.Pairwise.sublist (surviving_sublist bs fails) h.file.sorted
  rw [get_eq_search, hfind]
  rcases h.findBlockIndex_spec key with ⟨hidx, hnone⟩ | ⟨pre, b, post, rfl, hidx, hpre, hpost⟩
  · -- the index has no block for the key
    have hout : r'.indexEntries[bs.length]? = none := by
      rw [List.getElem?_eq_none_iff, ← length_surviving fails bs]
      exact hb.count.le
    rw [hidx, SSTableReader.readDataBlock, hout,
      lookup_eq_none_iff_forall.mpr fun kv hkv => hnone kv ((surviving_sublist bs fails).subset hkv)]
    rfl
  · have hpre' := fun kv hkv => hpre kv ((surviving_sublist pre fails).subset hkv)
    have hpost' := fun kv hkv =>
      hpost kv ((surviving_sublist post fun i => fails (i + 1 + pre.length)).subset hkv)
    have hsplit : surviving fails (pre ++ b :: post) = surviving fails pre
        ++ (if fails pre.length then [] else b)
          :: surviving (fun i => fails (i + 1 + pre.length)) post := by
      rw [surviving_append, surviving_cons, Nat.zero_add]
    have hread := hb.block _ _ _ hsplit
    rw [length_surviving] at hread
    have hgood := hb.fits
    rw [hsplit] at hgood hsorted ⊢
    rw [lookup_flatten_middle hpre' hpost', hidx, hread, ok_bind]
    rw [List.flatten_append, List.flatten_cons] at hgood hsorted
    exact searchInDataBlock_spec key _ _
      (fun kv hkv => hgood kv (List.mem_append_right _ (List.mem_append_left _ hkv)))
      (List.pairwise_append.mp (List.pairwise_append.mp hsorted).2.1).1 (Nat.le_refl _)

/-- **`Get` with failing reads** is a lookup among the entries that can be read. -/
theorem get_failing (h : ReadsTable r bs.flatten bs) (fails : Nat → Bool) (key : Bytes) :
    (failing fails r).get key = .ok ((surviving fails bs).flatten.lookup key) :=
  get_of_surviving h (searchable_failing h fails).blocks (findBlockIndex_failing fails r) key

/-! ## All tables -/

variable {e : KVEngine} {mem : List Entry} {ts : List BlockTable}

/-- The readers of `getWith` look up what can be read. -/
theorem readers_failing {readers : List SSTableReader} (h : List.Forall₂ Opens readers ts) :
    ∀ fails : Nat → Nat → Bool,
      List.Forall₂ (fun r t => ∀ key, r.get key = .ok (t.entries.lookup key))
        (readers.mapIdx (fun i r => failing (fails i) r)) (readables fails ts) := by
  induction h with
  | nil => exact fun _ => List.Forall₂.nil
  | cons hr _ ih =>
      intro fails
      rw [readables, List.mapIdx_cons, List.mapIdx_cons]
      exact List.Forall₂.cons (fun key => get_failing hr.2.2 (fails 0) key)
        (ih fun i => fails (i + 1))

/-- **`get` over failing reads** answers with the first entry that can be read. -/
theorem getWith_eq (hmem : Models e.skiplist mem) (htables : List.Forall₂ Opens e.sstables ts)
    (fails : Nat → Nat → Bool) (key : Bytes) :
    KVEngine.getWith e fails key = match mem.lookup key with
      | some tv => .ok (visible (some tv))
      | none => .ok (visible (overlay ((readables fails ts).map Table.entries) key)) := by
  simp only [KVEngine.getWith, models_get hmem key, ok_bind,
    getFromTables_overlay (readers_failing htables fails) key]
  cases mem.lookup key <;> rfl

/-- The two types that a builder is given. -/
def Typed (o : Option TableValue) : Prop :=
  ∀ tv, o = some tv → tv.type = .kTypeDeletion ∨ tv.type = .kTypeValue

/-- What the overlay of tables gives is a tombstone or a value. -/
theorem typed_overlay {us : List Table} (hg : ∀ t ∈ us, GoodTable t) (key : Bytes) :
    Typed (overlay (us.map Table.entries) key) := by
  induction us with
  | nil => exact fun tv h => by cases h
  | cons t us ih =>
      intro tv h
      rw [List.map_cons, overlay_cons] at h
      cases hl : t.entries.lookup key with
      | none =>
          rw [hl, Option.none_or] at h
          exact ih (fun u hu => hg u (List.mem_cons_of_mem _ hu)) tv h
      | some tv' =>
          rw [hl] at h
          obtain rfl := Option.some.inj h
          rcases ((hg t List.mem_cons_self).2 _ (mem_of_lookup hl)).2 with ⟨hd, -⟩ | ⟨hv, -⟩
          · exact Or.inl hd
          · exact Or.inr hv

theorem visible_eq_some_iff {o : Option TableValue} {v : Bytes} :
    visible o = some v ↔ ∃ tv, o = some tv ∧ tv.type ≠ .kTypeDeletion ∧ tv.value = v := by
  cases o with
  | none => simp [visible]
  | some tv =>
      by_cases hdel : tv.type = .kTypeDeletion
      · simp [visible, hdel]
      · simp [visible, hdel]

/-- **An answer that is never another value** comes from a tombstone, or from the
    entry that is to be read. -/
theorem shows_only_iff {read first : Option TableValue} (hread : Typed read)
    (hfirst : Typed first) :
    (∀ v, visible read = some v → visible first = some v)
      ↔ ∀ tv, read = some tv → tv.type = .kTypeDeletion ∨ first = some tv := by
  constructor
  · intro hsame tv htv
    by_cases hdel : tv.type = .kTypeDeletion
    · exact Or.inl hdel
    · -- two values that read the same are the same entry
      obtain ⟨tv', htv', hdel', hvalue⟩ :=
        visible_eq_some_iff.mp (hsame tv.value (visible_eq_some_iff.mpr ⟨tv, htv, hdel, rfl⟩))
      have htype : tv'.type = tv.type :=
        ((hfirst tv' htv').resolve_left hdel').trans ((hread tv htv).resolve_left hdel).symm
      refine Or.inr (htv'.trans (congrArg some ?_))
      cases tv
      cases tv'
      simp only at htype hvalue
      rw [htype, hvalue]
  · intro hentry v hv
    obtain ⟨tv, htv, hdel, -⟩ := visible_eq_some_iff.mp hv
    rw [(hentry tv htv).resolve_left hdel, ← htv]
    exact hv

/-- **The condition on the reads that fail**: the memtable holds the key, or the
    first entry of it that can be read, if there is one, is a tombstone or equal to
    the first entry of all. -/
def Shielded (mem : List Entry) (ts : List BlockTable) (fails : Nat → Nat → Bool)
    (key : Bytes) : Prop :=
  mem.lookup key ≠ none
    ∨ ∀ tv, overlay ((readables fails ts).map Table.entries) key = some tv →
      tv.type = .kTypeDeletion ∨ overlay (ts.map fun t => t.whole.entries) key = some tv

/-- What `get` answers over failing reads is what it answers without, or nothing,
    on shielded keys and on no others. -/
theorem getWith_spec (hmem : Models e.skiplist mem) (htables : List.Forall₂ Opens e.sstables ts)
    (fails : Nat → Nat → Bool) (key : Bytes) :
    ∃ o, KVEngine.getWith e fails key = .ok o
      ∧ ((∀ v, o = some v → e.get key = .ok (some v)) ↔ Shielded mem ts fails key) := by
  have hbefore := get_before hmem htables key
  have hafter := getWith_eq hmem htables fails key
  rw [Shielded]
  cases hkey : mem.lookup key with
  | some tv =>
      rw [hkey] at hbefore hafter
      refine ⟨_, hafter, iff_of_true ?_ (Or.inl (Option.some_ne_none tv))⟩
      rintro v hv
      rw [hbefore, ← hv]
  | none =>
      rw [hkey] at hbefore hafter
      have hread : Typed (overlay ((readables fails ts).map Table.entries) key) :=
        typed_overlay (good_of_readables htables fails) key
      have hfirst : Typed (overlay (ts.map fun t => t.whole.entries) key) := by
        have hwhole := typed_overlay (good_of_forall₂ (readerOf_of_opens htables)) key
        rw [List.map_map] at hwhole
        exact hwhole
      refine ⟨_, hafter, ?_⟩
      rw [hbefore, or_iff_right (fun h => h rfl), ← shows_only_iff hread hfirst]
      simp only [Except.ok.injEq]

/-- What is read of a shielded key is what the latest operations have left. -/
theorem shielded_iff (hmem : Models e.skiplist mem) (htables : List.Forall₂ Opens e.sstables ts)
    {g : Bytes → Option Bytes} (hg : ∀ key, e.get key = .ok (g key)) (fails : Nat → Nat → Bool)
    (key : Bytes) :
    ∃ o, KVEngine.getWith e fails key = .ok o
      ∧ ((∀ v, o = some v → g key = some v) ↔ Shielded mem ts fails key) := by
  obtain ⟨o, hrun, hiff⟩ := getWith_spec hmem htables fails key
  refine ⟨o, hrun, Iff.trans ?_ hiff⟩
  simp only [hg, Except.ok.injEq]

/-- What a session leaves is a store, and `get` answers with the last writes. -/
theorem session_latest (c : Config) {os : List Op} (hos : ∀ o ∈ os, o.KeyFits ∧ o.ValueFits) :
    Runs (start [] c >>= fun e => os.foldlM execute e)
      (fun e => (∃ s, Rep e s) ∧ ∀ key, e.get key = .ok (latest os key)) := by
  obtain ⟨e, hstart, hfresh⟩ := start_nil c
  have hsession := session_spec Agrees effect (fun o => o.KeyFits ∧ o.ValueFits)
    (fun h hj ho hs => agrees_step h hj ho hs) os (fun _ => none)
    (fun o ho => ⟨(hos o ho).1, hos o ho⟩) hfresh (durable_fresh c.maxMemNodes).agrees
  rw [hstart, ok_bind]
  refine hsession.mono ?_
  rintro e' ⟨s, hs, hagrees⟩
  refine ⟨⟨s, hs⟩, ?_⟩
  intro key
  rw [hs.get key, hagrees.reads key]
  rfl

/-- **A failed read exposes no older version** exactly of the keys that are
    shielded from it: in any state with any tables, where `g` is what `get` answers
    as long as all reads succeed, and after any operations on a fresh directory,
    where that is what the latest of them has left. -/
theorem failed_read_iff (fails : Nat → Nat → Bool) (key : Bytes) :
    (∀ {e : KVEngine} {mem : List Entry} {ts : List BlockTable}, Models e.skiplist mem →
      List.Forall₂ Opens e.sstables ts → ∀ {g : Bytes → Option Bytes},
      (∀ key, e.get key = .ok (g key)) →
        ∃ o, KVEngine.getWith e fails key = .ok o
          ∧ ((∀ v, o = some v → g key = some v) ↔ Shielded mem ts fails key))
      ∧ ∀ (c : Config) {os : List Op}, (∀ o ∈ os, o.KeyFits ∧ o.ValueFits) →
        Runs (start [] c >>= fun e => os.foldlM execute e) (fun e =>
          ∃ mem ts, Models e.skiplist mem ∧ List.Forall₂ Opens e.sstables ts
            ∧ ∃ o, KVEngine.getWith e fails key = .ok o
              ∧ ((∀ v, o = some v → latest os key = some v) ↔ Shielded mem ts fails key)) := by
  constructor
  · intro e mem ts hmem htables g hg
    exact shielded_iff hmem htables hg fails key
  · intro c os hos
    refine (session_latest c hos).mono ?_
    rintro e' ⟨⟨s, hs⟩, hget⟩
    obtain ⟨ts, hts, -⟩ := exists_opens hs.tables
    exact ⟨s.mem, ts, hs.mem, hts, shielded_iff hs.mem hts hget fails key⟩

/-- Two versions of a key, the newer one in a block that cannot be read. -/
theorem failed_read_iff_twoTables :
    ∃ e mem ts, (start [] plainConfig >>= fun e => twoTables.foldlM execute e) = .ok e
      ∧ Models e.skiplist mem ∧ List.Forall₂ Opens e.sstables ts
      ∧ ∃ o, KVEngine.getWith e (fun i _ => i == 0) [107] = .ok o
        ∧ ((∀ v, o = some v → latest twoTables [107] = some v)
          ↔ Shielded mem ts (fun i _ => i == 0) [107]) := by
  obtain ⟨e, s, he, hs, -, -⟩ := runs_twoTables
  obtain ⟨ts, hts, -⟩ := exists_opens hs.tables
  have hlatest : ∀ k, e.get k = .ok (latest twoTables k) :=
    ((session_latest plainConfig (by decide)).of_eq_ok he).2
  exact ⟨e, s.mem, ts, he, hs.mem, hts,
    (failed_read_iff (fun i _ => i == 0) [107]).1 hs.mem hts hlatest⟩

/-- **An unread block brings an overwritten value back**, and a deleted one. -/
theorem unread_block_exposes_old_value :
    Yields (start [] plainConfig >>= fun e => twoTables.foldlM execute e) (fun e =>
        e.get [107] = .ok (some [2]) ∧ KVEngine.getWith e (fun i _ => i == 0) [107] = .ok (some [1]))
      ∧ Yields (start [] plainConfig >>= fun e =>
          [Op.put [107] [1], .forceFlush, .erase [107], .forceFlush].foldlM execute e) (fun e =>
        e.get [107] = .ok none ∧ KVEngine.getWith e (fun i _ => i == 0) [107] = .ok (some [1])) := by
  constructor
  · decide +kernel
  · decide +kernel

end KvStaleRead
