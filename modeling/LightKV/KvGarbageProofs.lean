import LightKV.KvReadFailureProofs

/-! # What a compaction clears away

    `Compact` merges all tables into one of the values that are the newest
    versions of their keys, and deletes the old files.  When no newest version is
    a value the merged file is empty, `Open` rejects it, and `Compact` returns
    with every old table in place: the garbage is collected exactly when some key
    survives (`compact_collects_iff`). -/

namespace KvGarbage

open Execution KvBytes KvCompaction KvDirectory KvEngine KvMerging KvNumbering KvReadFailure
open KvRecovery KvReopen KvSession KvStore KvTable KvTableIterator Overlay

/-! ## The deletion loop -/

/-- A turn deletes its file, if it is not the new one. -/
theorem lookup_deleteOld (e : KVEngine) {compactPath path : Bytes} (hne : path ≠ [])
    (hcompact : path ≠ compactPath) (name : Bytes) :
    (e.deleteOld compactPath path).dir.lookup name
      = if name = path then none else e.dir.lookup name := by
  have htest : (!path.isEmpty && path != compactPath) = true := by
    rw [Bool.and_eq_true, Bool.not_eq_true', List.isEmpty_eq_false_iff, bne_iff_ne]
    exact ⟨hne, hcompact⟩
  rw [KVEngine.deleteOld, if_pos htest]
  exact lookup_discard _ _ _

/-- **The deletion loop** leaves none of its files. -/
theorem lookup_deleteAll (compactPath : Bytes) :
    ∀ {paths : List Bytes} (e : KVEngine), (∀ path ∈ paths, path ≠ [] ∧ path ≠ compactPath) →
      ∀ name, (name ∈ paths ∨ e.dir.lookup name = none) →
        (e.deleteAll compactPath paths).dir.lookup name = none := by
  intro paths
  induction paths with
  | nil =>
      rintro e - name (hname | hname)
      · cases hname
      · exact hname
  | cons path paths ih =>
      intro e hpaths name hname
      obtain ⟨hne, hcompact⟩ := hpaths path List.mem_cons_self
      refine ih (e.deleteOld compactPath path)
        (fun p hp => hpaths p (List.mem_cons_of_mem _ hp)) name ?_
      by_cases hmem : name ∈ paths
      · exact Or.inl hmem
      · refine Or.inr ?_
        rw [lookup_deleteOld e hne hcompact]
        split
        · rfl
        case isFalse hother =>
            rcases hname with hname | hname
            · exact absurd (List.mem_of_ne_of_mem hother hname) hmem
            · exact hname

/-! ## What `Compact` leaves -/

variable {e e' : KVEngine} {ts : List Table}

/-- **`Compact` with nothing beside it**: without a surviving value the tables stay,
    else one table of these is left, and no old file. -/
theorem compact_spec (htables : List.Forall₂ ReaderOf e.sstables ts) (hlen : 1 < ts.length)
    (hbelow : Below e.sstables (e.sstCounter + 1)) :
    Runs e.compact (fun e' => ∃ m, Merged ts m
      ∧ (m = [] ∧ e'.sstables = e.sstables
        ∨ m ≠ [] ∧ (∃ r bs, e'.sstables = [r] ∧ ReadsTable r m bs)
          ∧ ∀ r ∈ e.sstables, e'.dir.lookup r.filename = none)) := by
  have hcount : ¬ e.sstables.length ≤ 1 := by
    rw [htables.length_eq]
    exact Nat.not_le.mpr hlen
  simp only [KVEngine.compact, KVEngine.snapshot, if_neg hcount]
  refine (mergeTables_spec htables).bind ?_
  rintro file ⟨m, hm, hfile⟩
  rcases writeMerged_cases e.reserve hfile e.reserve.sstCounter with
    ⟨hnil, hwrite⟩ | ⟨hne, r, hwrite, -, -, bs, hreads⟩
  · -- `Open` rejects the empty file
    simp only [hwrite, ok_bind]
    exact ⟨m, hm, Or.inl ⟨hnil, rfl⟩⟩
  · simp only [hwrite, ok_bind]
    obtain ⟨hone, -⟩ := swap_merged
      { e.reserve with dir := upsert (getSstPath e.reserve.sstCounter) file e.reserve.dir } r
      (getSstPath e.reserve.sstCounter)
    refine ⟨m, hm, Or.inr ⟨hne, ⟨r, bs, hone, hreads⟩, ?_⟩⟩
    · -- every old path is one of a smaller number than the new one
      intro old hold
      refine lookup_deleteAll _ _ ?_ _ (Or.inl (List.mem_map_of_mem hold))
      intro path hpath
      obtain ⟨q, hq, rfl⟩ := List.mem_map.mp hpath
      obtain ⟨n, hn, hlt⟩ := hbelow q hq
      rw [hn]
      exact ⟨getSstPath_ne_nil n,
        fun heq => absurd (getSstPath_injective heq) (Nat.ne_of_lt hlt)⟩

/-! ## When garbage is collected -/

/-- The newest version of the key is a value. -/
def Survives (ts : List Table) (key : Bytes) : Prop :=
  (∃ tv, Newest ts key tv) ∧ ∀ tv, Newest ts key tv → tv.type = .kTypeValue

/-- **All garbage of the tables `ts` is gone**: at most one table is left, its
    entries are the values that are newest versions, all of them, and the files of
    before are deleted. -/
def Collected (e e' : KVEngine) (ts : List Table) : Prop :=
  (∃ es, (e'.sstables = [] ∧ es = [] ∨ ∃ r bs, e'.sstables = [r] ∧ ReadsTable r es bs)
    ∧ (∀ kv ∈ es, kv.2.type = .kTypeValue ∧ Newest ts kv.1 kv.2)
    ∧ ∀ key, Survives ts key → key ∈ es.map Prod.fst)
  ∧ ∀ r ∈ e.sstables, e'.dir.lookup r.filename = none

/-- What a merge keeps are newest versions, and values. -/
theorem newest_of_mem_merged {m : List Entry} (hm : Merged ts m) (hg : ∀ t ∈ ts, GoodTable t)
    {kv : Entry} (hkv : kv ∈ m) : kv.2.type = .kTypeValue ∧ Newest ts kv.1 kv.2 := by
  obtain ⟨hsorted, hvalues⟩ := good_of_merged hm hg
  obtain ⟨hfits, hvalue⟩ := hvalues kv hkv
  refine ⟨?_, ?_⟩
  · rcases hfits.2 with ⟨hdel, -⟩ | ⟨hval, -⟩
    · exact absurd hdel hvalue
    · exact hval
  · have hlook : m.lookup kv.1 = some kv.2 := (lookup_eq_some_iff hsorted).mpr hkv
    rcases merged_newest hm (fun t ht => (hg t ht).1) kv.1 with ⟨tv, hnew, heq⟩ | ⟨-, hnone⟩
    · rw [hlook, live] at heq
      split at heq
      · cases heq
      · obtain rfl := Option.some.inj heq
        exact hnew
    · rw [hlook] at hnone
      cases hnone

/-- A key that survives is in the merge. -/
theorem mem_merged_of_survives {m : List Entry} (hm : Merged ts m) (hg : ∀ t ∈ ts, GoodTable t)
    {key : Bytes} (h : Survives ts key) : key ∈ m.map Prod.fst := by
  obtain ⟨⟨tv₀, hnew₀⟩, hvalue⟩ := h
  rw [mem_map_fst_iff]
  rcases merged_newest hm (fun t ht => (hg t ht).1) key with ⟨tv, hnew, heq⟩ | ⟨hnone, -⟩
  · rw [heq, live, hvalue tv hnew, if_neg (by decide)]
    rfl
  · exact absurd hnone (not_none_of_newest hnew₀)

/-- **Compaction collects all garbage** when the newest version of some key is a
    value; and, where no two tables have the same sequence number, only then. -/
theorem compact_collects_iff (htables : List.Forall₂ ReaderOf e.sstables ts) (hlen : 1 < ts.length)
    (hbelow : Below e.sstables (e.sstCounter + 1)) :
    Runs e.compact (fun e' => ((∃ key, Survives ts key) → Collected e e' ts)
      ∧ ((ts.map Table.sequence).Nodup → (Collected e e' ts ↔ ∃ key, Survives ts key))) := by
  have hg := good_of_forall₂ htables
  refine (compact_spec htables hlen hbelow).mono ?_
  rintro e' ⟨m, hm, hcases⟩
  have henough : (∃ key, Survives ts key) → Collected e e' ts := by
    rintro ⟨key, hkey⟩
    rcases hcases with ⟨rfl, -⟩ | ⟨-, ⟨r, bs, hone, hreads⟩, hremoved⟩
    · exact absurd (mem_merged_of_survives hm hg hkey) List.not_mem_nil
    · exact ⟨⟨m, Or.inr ⟨r, bs, hone, hreads⟩, fun kv => newest_of_mem_merged hm hg,
        fun k => mem_merged_of_survives hm hg⟩, hremoved⟩
  refine ⟨henough, fun hseq => ⟨?_, henough⟩⟩
  rintro ⟨⟨es, hshape, -, -⟩, -⟩
  rcases hcases with ⟨-, hstay⟩ | ⟨hne, -, -⟩
  · -- the old tables are more than one
    exfalso
    rw [← htables.length_eq, ← hstay] at hlen
    rcases hshape with ⟨hnil, -⟩ | ⟨r, bs, hone, -⟩
    · rw [hnil] at hlen
      exact absurd hlen (by decide)
    · rw [hone] at hlen
      exact absurd hlen (Nat.lt_irrefl 1)
  · -- the key of any entry of the merge survives
    obtain ⟨kv, hkv⟩ := List.exists_mem_of_ne_nil m hne
    obtain ⟨hvalue, hnew⟩ := newest_of_mem_merged hm hg hkv
    refine ⟨kv.1, ⟨kv.2, hnew⟩, ?_⟩
    intro tv htv
    rw [newest_unique hseq htv hnew]
    exact hvalue

/-- Two versions of one key in two tables. -/
theorem compact_collects_iff_twoTables :
    ∃ e ts, (start [] plainConfig >>= fun e => twoTables.foldlM execute e) = .ok e
      ∧ Runs e.compact (fun e' => ((∃ key, Survives ts key) → Collected e e' ts)
        ∧ ((ts.map Table.sequence).Nodup → (Collected e e' ts ↔ ∃ key, Survives ts key))) := by
  obtain ⟨e, s, he, hs, hnames, hcounter⟩ := runs_twoTables
  have hlen : 1 < s.tables.length := by
    rw [← hs.tables.length_eq, ← List.length_map (f := SSTableReader.filename), hnames]
    decide
  have hbelow : Below e.sstables (e.sstCounter + 1) := by
    intro r hr
    have hmem := List.mem_map_of_mem (f := SSTableReader.filename) hr
    rw [hnames] at hmem
    rw [hcounter]
    rcases List.mem_cons.mp hmem with h | h
    · exact ⟨2, h, by decide⟩
    · exact ⟨1, List.mem_singleton.mp h, by decide⟩
  exact ⟨e, s.tables, he, compact_collects_iff hs.tables hlen hbelow⟩

/-- A key that is put, flushed, deleted, and flushed again. -/
def deletedKey : List Op := [.put [107] [1], .forceFlush, .erase [107], .forceFlush]

/-- **When only tombstones are left** a compaction leaves them, the superseded
    version and both files, and adds an empty file. -/
theorem garbage_stays :
    Yields (start [] plainConfig >>= fun e => deletedKey.foldlM execute e) (fun e =>
      e.sstables.length = 2 ∧ Yields e.compact (fun e' =>
        e'.sstables.map SSTableReader.filename = [getSstPath 2, getSstPath 1]
        ∧ (e'.dir.lookup (getSstPath 1)).isSome ∧ (e'.dir.lookup (getSstPath 2)).isSome
        ∧ e'.dir.lookup (getSstPath 3) = some [])) := by
  decide +kernel

end KvGarbage
