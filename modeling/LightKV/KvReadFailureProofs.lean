import LightKV.KvFlushFailureProofs

/-! # Compactions that cannot read

    A data block whose read fails looks to the merge of `Compact` like a block
    without entries.  The merge goes on with the entries it has, and the tables it
    came from are deleted.  So the result is right exactly when no value is lost
    to an entry behind it: nothing that could be read is a value, and the tables
    stay, or the newest entry that could be read of each key says what the newest
    one does (`compactWith_kept_iff`). -/

namespace KvReadFailure

open Execution KvBytes KvCompaction KvDirectory KvEngine KvFlushFailure KvIterators KvMerging
open KvRecovery KvReopen KvSession KvSkipList KvStore KvTable KvTableIterator KvWal Overlay

/-! ## Reads that fail -/

/-- A reader while the reads of some data blocks fail: their offset is moved to
    where `pread` returns an error. -/
def failing (fails : Nat → Bool) (r : SSTableReader) : SSTableReader :=
  { r with indexEntries :=
      r.indexEntries.mapIdx (fun i e => if fails i then { e with offset := 2 ^ 63 } else e) }

/-- `Compact`, when block `j` of table `i` cannot be read for `fails i j`. -/
def KVEngine.compactWith (e : KVEngine) (fails : Nat → Nat → Bool) : Except Fault KVEngine :=
  match e.snapshot with
  | none => pure e
  | some old => do
      let e := e.reserve
      let number := e.sstCounter
      let file ← mergeTables (old.mapIdx (fun i r => failing (fails i) r))
      let (e, reader) ← e.writeMerged number file
      match reader with
      | none => pure e
      | some reader =>
          let e := e.swap old reader
          pure (e.deleteAll (getSstPath number) (old.map SSTableReader.filename))

theorem mapIdx_self {A : Type} (l : List A) : l.mapIdx (fun _ a => a) = l :=
  List.mapIdx_eq_iff.mpr (fun i => by cases l[i]? <;> rfl)

theorem failing_none (r : SSTableReader) : failing (fun _ => false) r = r := by
  have hindex : r.indexEntries.mapIdx (fun i e =>
      if (fun _ => false) i = true then { e with offset := 2 ^ 63 } else e) = r.indexEntries :=
    mapIdx_self r.indexEntries
  rw [failing, hindex]

/-- **Without failures** it is `Compact`. -/
theorem compactWith_none (e : KVEngine) :
    KVEngine.compactWith e (fun _ _ => false) = e.compact := by
  rw [KVEngine.compactWith, KVEngine.compact]
  cases e.snapshot with
  | none => rfl
  | some old =>
      have hold : old.mapIdx (fun i r => failing ((fun _ _ => false) i) r) = old := by
        refine (List.mapIdx_eq_iff.mpr fun i => ?_)
        cases old[i]? with
        | none => rfl
        | some r => exact congrArg some (failing_none r).symm
      exact congrArg (fun readers => mergeTables readers >>= _) hold

/-! ## What can still be read -/

/-- The blocks as the iterator reads them. -/
def surviving (fails : Nat → Bool) (bs : List (List Entry)) : List (List Entry) :=
  bs.mapIdx (fun i b => if fails i then [] else b)

theorem surviving_cons (fails : Nat → Bool) (b : List Entry) (bs : List (List Entry)) :
    surviving fails (b :: bs)
      = (if fails 0 then [] else b) :: surviving (fun i => fails (i + 1)) bs :=
  List.mapIdx_cons

theorem surviving_append (fails : Nat → Bool) (bs cs : List (List Entry)) :
    surviving fails (bs ++ cs)
      = surviving fails bs ++ surviving (fun i => fails (i + bs.length)) cs :=
  List.mapIdx_append

theorem length_surviving (fails : Nat → Bool) (bs : List (List Entry)) :
    (surviving fails bs).length = bs.length := List.length_mapIdx

/-- Nothing is read that is not in the file. -/
theorem surviving_sublist :
    ∀ (bs : List (List Entry)) (fails : Nat → Bool), (surviving fails bs).flatten.Sublist bs.flatten := by
  intro bs
  induction bs with
  | nil => exact fun _ => List.Sublist.refl _
  | cons b bs ih =>
      intro fails
      rw [surviving_cons, List.flatten_cons, List.flatten_cons]
      refine List.Sublist.append ?_ (ih _)
      split
      · exact List.nil_sublist b
      · exact List.Sublist.refl b

/-- The search in the index does not look at the offsets. -/
theorem findBlockIndex_failing (fails : Nat → Bool) (r : SSTableReader) (t : Bytes) :
    (failing fails r).findBlockIndex t = r.findBlockIndex t := by
  have htest : (fun i : Nat => (failing fails r).indexEntries[i]?.any (fun e : IndexEntry => e.maxKey < t))
      = fun i : Nat => r.indexEntries[i]?.any (fun e : IndexEntry => e.maxKey < t) := by
    funext i
    rw [failing, List.getElem?_mapIdx]
    cases r.indexEntries[i]? with
    | none => rfl
    | some e =>
        show decide (IndexEntry.maxKey (if fails i then _ else _) < t) = _
        cases fails i <;> rfl
  have hlen : (failing fails r).indexEntries.length = r.indexEntries.length := List.length_mapIdx
  rw [SSTableReader.findBlockIndex, SSTableReader.findBlockIndex, htest, hlen]

variable {r : SSTableReader} {bs : List (List Entry)}

/-- **A block read that fails** gives nothing, and the others what they hold. -/
theorem readDataBlock_failing (h : ReadsTable r bs.flatten bs) (fails : Nat → Bool)
    {pre post : List (List Entry)} {b : List Entry} (hbs : bs = pre ++ b :: post) :
    (failing fails r).readDataBlock pre.length
      = .ok (encodeBlock (if fails pre.length then [] else b)) := by
  subst hbs
  have hget : (failing fails r).indexEntries[pre.length]? = some (if fails pre.length then
      ⟨maxKeyOf b, 2 ^ 63, (encodeBlock b).length⟩
      else ⟨maxKeyOf b, (blockBytes pre).length, (encodeBlock b).length⟩) := by
    simp only [failing, List.getElem?_mapIdx, h.index, getElem?_indexOf, Option.map_some,
      Nat.zero_add]
  have hsize : (encodeBlock b).length < 2 ^ 62 := by
    have hlen := h.file.length
    have hle : (encodeBlock b).length ≤ r.fd.length := by
      rw [h.file.file, fileOf, blockBytes_append]
      simp only [blockBytes, List.flatMap_cons, List.length_append]
      omega
    omega
  rw [SSTableReader.readDataBlock, hget]
  cases fails pre.length with
  | true =>
      have hnone : pread (failing fails r).maxRead (failing fails r).fd (encodeBlock b).length
          (2 ^ 63) = .ok none := by
        rw [pread, if_pos hsize]
        exact if_neg (fun hc => absurd hc.1 (Nat.lt_irrefl _))
      simp only [if_true, hnone, ok_bind]
      rfl
  | false =>
      simp only [Bool.false_eq_true, if_false]
      have hread := h.searchable.blocks.block pre b post rfl
      have hgetr : r.indexEntries[pre.length]?
          = some ⟨maxKeyOf b, (blockBytes pre).length, (encodeBlock b).length⟩ := by
        rw [h.index, getElem?_indexOf, Nat.zero_add]
      rw [SSTableReader.readDataBlock, hgetr] at hread
      exact hread

/-- **The iterator over a table with failing reads** goes through what survives. -/
theorem searchable_failing (h : ReadsTable r bs.flatten bs) (fails : Nat → Bool) :
    Searchable (failing fails r) (surviving fails bs).flatten (surviving fails bs) where
  blocks :=
    { fits := fun kv hkv => h.file.fits kv ((surviving_sublist bs fails).subset hkv)
      count := by
        rw [SSTableReader.getBlockCount, failing, List.length_mapIdx, length_surviving, h.index,
          length_indexOf]
      block := by
        intro pre b post heq
        -- what stands at this place when no read fails
        obtain ⟨pre', b', post', rfl, hpre, rfl⟩ : ∃ pre' b' post', bs = pre' ++ b' :: post'
            ∧ pre'.length = pre.length ∧ b = if fails pre.length then [] else b' := by
          have hb : (surviving fails bs)[pre.length]? = some b := by
            rw [heq, List.getElem?_append_right (Nat.le_refl _), Nat.sub_self]
            rfl
          rw [surviving, List.getElem?_mapIdx] at hb
          obtain ⟨b', hb', rfl⟩ := Option.map_eq_some_iff.mp hb
          obtain ⟨hlt, rfl⟩ := List.getElem?_eq_some_iff.mp hb'
          refine ⟨bs.take pre.length, bs[pre.length], bs.drop (pre.length + 1), ?_, ?_, rfl⟩
          · rw [← List.drop_eq_getElem_cons hlt, List.take_append_drop]
          · rw [List.length_take, Nat.min_eq_left hlt.le]
        rw [← hpre]
        exact readDataBlock_failing h fails rfl
      room := by
        have hsub := (surviving_sublist bs fails).length_le
        have hroom := h.searchable.blocks.room
        -- a failing read keeps the size that the index gives
        have hsame : (failing fails r).indexEntries.map IndexEntry.size
            = r.indexEntries.map IndexEntry.size := by
          rw [failing]
          refine List.ext_getElem? fun i => ?_
          rw [List.getElem?_map, List.getElem?_map, List.getElem?_mapIdx]
          cases r.indexEntries[i]? with
          | none => rfl
          | some e =>
              show some (IndexEntry.size (if fails i then _ else _)) = _
              cases fails i <;> rfl
        rw [hsame]
        exact hsub.trans hroom }
  entries := rfl
  sorted := List.Pairwise.sublist (surviving_sublist bs fails) h.file.sorted
  search t := by
    obtain ⟨pre, post, rfl, hidx, hbelow⟩ := h.searchable.search t
    refine ⟨surviving fails pre, _, surviving_append fails pre post, ?_, ?_⟩
    · rw [findBlockIndex_failing, length_surviving]
      exact hidx
    · exact fun kv hkv => hbelow kv ((surviving_sublist pre fails).subset hkv)

/-! ## A compaction over failing reads -/

/-- A table, by the blocks of its file. -/
structure BlockTable where
  number : Nat
  sequence : Nat
  blocks : List (List Entry)

/-- All its entries. -/
def BlockTable.whole (t : BlockTable) : Table := ⟨t.number, t.sequence, t.blocks.flatten⟩

/-- The entries that can be read. -/
def BlockTable.readable (fails : Nat → Bool) (t : BlockTable) : Table :=
  ⟨t.number, t.sequence, (surviving fails t.blocks).flatten⟩

/-- The reader has the file of the table open. -/
def Opens (r : SSTableReader) (t : BlockTable) : Prop :=
  r.filename = getSstPath t.number ∧ r.sequence = t.sequence
    ∧ ReadsTable r t.blocks.flatten t.blocks

/-- The tables as the merge reads them. -/
def readables (fails : Nat → Nat → Bool) (ts : List BlockTable) : List Table :=
  ts.mapIdx (fun i t => t.readable (fails i))

/-- The entry of a key with the highest sequence number. -/
def Newest (ts : List Table) (key : Bytes) (tv : TableValue) : Prop :=
  ∃ t ∈ ts, t.entries.lookup key = some tv
    ∧ ∀ u ∈ ts, u.entries.lookup key ≠ none → u.sequence ≤ t.sequence

variable {readers : List SSTableReader} {ts : List BlockTable}

theorem readerOf_of_opens (h : List.Forall₂ Opens readers ts) :
    List.Forall₂ ReaderOf readers (ts.map BlockTable.whole) :=
  List.forall₂_map_right_iff.mpr (h.imp fun _ t hr => ⟨hr.1, hr.2.1, t.blocks, hr.2.2⟩)

/-- The tables of a store have blocks. -/
theorem exists_opens {tables : List Table} (h : List.Forall₂ ReaderOf readers tables) :
    ∃ ts, List.Forall₂ Opens readers ts ∧ ts.map BlockTable.whole = tables := by
  induction h with
  | nil => exact ⟨[], List.Forall₂.nil, rfl⟩
  | @cons r t readers tables hr _ ih =>
      obtain ⟨ts, hts, rfl⟩ := ih
      obtain ⟨hname, hseq, bs, hreads⟩ := hr
      have hflat := hreads.file.entries
      refine ⟨⟨t.number, t.sequence, bs⟩ :: ts, List.Forall₂.cons ⟨hname, hseq, ?_⟩ hts, ?_⟩
      · show ReadsTable r bs.flatten bs
        rw [hflat]
        exact hreads
      · rw [List.map_cons, BlockTable.whole, hflat]

/-- The iterators of the merge. -/
theorem searches_readables (h : List.Forall₂ Opens readers ts) :
    ∀ fails : Nat → Nat → Bool,
      List.Forall₂ Searches (readers.mapIdx (fun i r => failing (fails i) r)) (readables fails ts) := by
  induction h with
  | nil => exact fun _ => List.Forall₂.nil
  | @cons r t readers ts hr _ ih =>
      intro fails
      rw [readables, List.mapIdx_cons, List.mapIdx_cons]
      exact List.Forall₂.cons ⟨hr.2.1, _, searchable_failing hr.2.2 (fails 0)⟩
        (ih fun i => fails (i + 1))

theorem good_of_readables (h : List.Forall₂ Opens readers ts) (fails : Nat → Nat → Bool) :
    ∀ t ∈ readables fails ts, GoodTable t := by
  intro t ht
  obtain ⟨i, hi, rfl⟩ := List.mem_mapIdx.mp ht
  obtain ⟨r, -, hr⟩ := forall₂_exists h (List.getElem?_eq_getElem hi)
  have hsub := surviving_sublist ts[i].blocks (fails i)
  exact ⟨List.Pairwise.sublist hsub hr.2.2.file.sorted,
    fun kv hkv => hr.2.2.file.fits kv (hsub.subset hkv)⟩

variable {e e' : KVEngine} {mem : List Entry}

/-- **`Compact` leaves everything in place.** -/
def InPlace (e e' : KVEngine) : Prop :=
  e'.sstables = e.sstables ∧ ∀ r ∈ e.sstables, e'.dir.lookup r.filename = e.dir.lookup r.filename

/-- **No record is dropped**: everything is in place, or every `get` is as before. -/
def Kept (e e' : KVEngine) : Prop := InPlace e e' ∨ ∀ key, e'.get key = e.get key

theorem deleteAll_fields (compactPath : Bytes) (paths : List Bytes) (e : KVEngine) :
    (e.deleteAll compactPath paths).sstables = e.sstables
      ∧ (e.deleteAll compactPath paths).skiplist = e.skiplist := by
  obtain ⟨dir, hdir⟩ := exists_deleteAll_eq compactPath paths e
  rw [hdir]
  exact ⟨rfl, rfl⟩

/-- After a merge of all tables there is none beside the new one. -/
theorem remaining_self (e : KVEngine) : e.remaining e.sstables = [] := by
  rw [KVEngine.remaining, List.filter_eq_nil_iff]
  intro r hr
  have hmem : (e.sstables.map SSTableReader.filename).contains r.filename = true :=
    List.contains_iff_mem.mpr (List.mem_map_of_mem hr)
  rw [hmem]
  exact Bool.false_ne_true

/-- After the swap and the deletions the merged table is the only one, and the memtable
    is as before. -/
theorem swap_merged (e : KVEngine) (reader : SSTableReader) (compactPath : Bytes) :
    ((e.swap e.sstables reader).deleteAll compactPath
        (e.sstables.map SSTableReader.filename)).sstables = [reader]
      ∧ ((e.swap e.sstables reader).deleteAll compactPath
        (e.sstables.map SSTableReader.filename)).skiplist = e.skiplist := by
  obtain ⟨hone, hskip⟩ := deleteAll_fields compactPath (e.sstables.map SSTableReader.filename)
    (e.swap e.sstables reader)
  exact ⟨hone.trans (congrArg (reader :: ·) (remaining_self e)), hskip⟩

/-- What an engine with one table reads. -/
theorem get_of_one (hmem : Models e.skiplist mem) {r : SSTableReader} (hone : e.sstables = [r])
    {n : Nat} {m : List Entry} (hreader : ReaderOf r ⟨n, 0, m⟩) (key : Bytes) :
    e.get key = match mem.lookup key with
      | some tv => .ok (visible (some tv))
      | none => .ok (visible (m.lookup key)) := by
  rw [get_eq hmem, hone, found,
    getFromTables_spec (List.Forall₂.cons hreader List.Forall₂.nil)]
  cases mem.lookup key with
  | some tv => rfl
  | none =>
      show Except.ok (visible (overlay [m] key)) = _
      rw [overlay_cons, overlay_nil, Option.or_none]

/-- **What a compaction leaves**, by the merge of what could be read: without a
    value everything is in place, else one table of its values. -/
theorem compactWith_spec (h : Loaded e mem) (htables : List.Forall₂ Opens e.sstables ts)
    (hlen : 1 < ts.length) (fails : Nat → Nat → Bool) :
    Runs (KVEngine.compactWith e fails) (fun e' => ∃ m, Merged (readables fails ts) m
      ∧ (m = [] ∧ InPlace e e' ∨ m ≠ [] ∧ ¬ InPlace e e' ∧ ∀ key, e'.get key
        = match mem.lookup key with
          | some tv => .ok (visible (some tv))
          | none => .ok (visible (m.lookup key)))) := by
  have hcount : ¬ e.sstables.length ≤ 1 := by
    rw [htables.length_eq]
    omega
  simp only [KVEngine.compactWith, KVEngine.snapshot, if_neg hcount]
  refine (mergeTables_of_searches (searches_readables htables fails)
    (good_of_readables htables fails)).bind ?_
  rintro file ⟨m, hm, hfile⟩
  rcases writeMerged_cases e.reserve hfile e.reserve.sstCounter with
    ⟨hnil, hwrite⟩ | ⟨hne, r, hwrite, hreader⟩
  · -- `Open` rejects the empty file
    simp only [hwrite, ok_bind]
    refine ⟨m, hm, Or.inl ⟨hnil, rfl, ?_⟩⟩
    intro r hr
    obtain ⟨n, hn, hlt⟩ := h.tables r hr
    refine (lookup_upsert _ _ _ _).trans (if_neg ?_)
    intro heq
    exact absurd (getSstPath_injective (hn.symm.trans heq)) (Nat.ne_of_lt hlt)
  -- the merged file replaces all tables
  · simp only [hwrite, ok_bind]
    obtain ⟨hone, hskip⟩ := swap_merged
      { e.reserve with dir := upsert (getSstPath e.reserve.sstCounter) file e.reserve.dir } r
      (getSstPath e.reserve.sstCounter)
    refine ⟨m, hm, Or.inr ⟨hne, ?_, ?_⟩⟩
    -- one table is not the list of before, which has at least two
    · rintro ⟨hsame, -⟩
      have heq : [r] = e.sstables := hone.symm.trans hsame
      rw [← heq] at hcount
      exact hcount (Nat.le_refl 1)
    · exact get_of_one (hskip ▸ h.mem) hone hreader

/-! ## When no record is dropped -/

/-- **The condition on the reads that fail**: no entry that the merge takes is a
    value, or each key outside the memtable reads in the entry that the merge takes
    for it, if there is one, as it does now. -/
def Harmless (mem : List Entry) (ts : List BlockTable) (fails : Nat → Nat → Bool) : Prop :=
  (∀ key tv, Newest (readables fails ts) key tv → tv.type = .kTypeDeletion)
    ∨ ∀ key, mem.lookup key = none →
      (∀ tv, Newest (readables fails ts) key tv →
        visible (some tv) = visible (overlay (ts.map fun t => t.whole.entries) key))
      ∧ ((∀ t ∈ readables fails ts, t.entries.lookup key = none) →
        visible (overlay (ts.map fun t => t.whole.entries) key) = none)

/-- What the engine reads before the compaction. -/
theorem get_before (hmem : Models e.skiplist mem) (htables : List.Forall₂ Opens e.sstables ts)
    (key : Bytes) : e.get key = match mem.lookup key with
      | some tv => .ok (visible (some tv))
      | none => .ok (visible (overlay (ts.map fun t => t.whole.entries) key)) := by
  rw [get_eq hmem, found, getFromTables_spec (readerOf_of_opens htables), List.map_map]
  rfl

theorem eq_nil_of_lookup {m : List Entry} (h : ∀ key, m.lookup key = none) : m = [] := by
  cases m with
  | nil => rfl
  | cons kv m =>
      have hkv := h kv.1
      rw [List.lookup_cons_self] at hkv
      cases hkv

/-- Tables of different sequence numbers have one newest entry for a key. -/
theorem newest_unique {ts : List Table} (hseq : (ts.map Table.sequence).Nodup) {key : Bytes}
    {tv tv' : TableValue} (h : Newest ts key tv) (h' : Newest ts key tv') : tv = tv' := by
  obtain ⟨t, ht, hlook, hmax⟩ := h
  obtain ⟨t', ht', hlook', hmax'⟩ := h'
  have hle := hmax t' ht' (by rw [hlook']; exact Option.some_ne_none tv')
  have hle' := hmax' t ht (by rw [hlook]; exact Option.some_ne_none tv)
  obtain rfl := List.inj_on_of_nodup_map hseq ht ht' (Nat.le_antisymm hle' hle)
  exact Option.some.inj (hlook.symm.trans hlook')

/-- A failing read does not change the number of a table. -/
theorem sequences_readables (fails : Nat → Nat → Bool) (ts : List BlockTable) :
    (readables fails ts).map Table.sequence = ts.map BlockTable.sequence := by
  refine List.ext_getElem? fun i => ?_
  rw [List.getElem?_map, List.getElem?_map, readables, List.getElem?_mapIdx]
  cases ts[i]? <;> rfl

/-- An entry that a key has among the readable ones is not missing there. -/
theorem not_none_of_newest {ts : List Table} {key : Bytes} {tv : TableValue}
    (h : Newest ts key tv) : ¬ ∀ t ∈ ts, t.entries.lookup key = none := by
  intro hnone
  obtain ⟨t, ht, hlook, -⟩ := h
  rw [hnone t ht] at hlook
  cases hlook

section Merge

variable {old : List Table} {m : List Entry}

/-- What a merge makes of a key: the newest entry, if it is a value. -/
theorem merged_newest (hm : Merged old m) (hs : ∀ t ∈ old, KeySorted t.entries) (key : Bytes) :
    (∃ tv, Newest old key tv ∧ m.lookup key = live (some tv))
      ∨ (∀ t ∈ old, t.entries.lookup key = none) ∧ m.lookup key = none := by
  rcases lookup_merged hm hs key with ⟨t, ht, tv, hlook, hmax, heq⟩ | hnone
  · exact Or.inl ⟨tv, ⟨t, ht, hlook, hmax⟩, heq⟩
  · exact Or.inr hnone

/-- A key of no table is not in the merge. -/
theorem lookup_of_missing (hm : Merged old m) (hs : ∀ t ∈ old, KeySorted t.entries) {key : Bytes}
    (hnone : ∀ t ∈ old, t.entries.lookup key = none) : m.lookup key = none := by
  rcases merged_newest hm hs key with ⟨tv, hnew, -⟩ | ⟨-, hlook⟩
  · exact absurd hnone (not_none_of_newest hnew)
  · exact hlook

/-- Without equal sequence numbers the newest entry of a key is the one that is taken. -/
theorem lookup_of_newest (hm : Merged old m) (hs : ∀ t ∈ old, KeySorted t.entries)
    (hseq : (old.map Table.sequence).Nodup) {key : Bytes} {tv : TableValue}
    (hnew : Newest old key tv) : m.lookup key = live (some tv) := by
  rcases merged_newest hm hs key with ⟨tv', hnew', hlook⟩ | ⟨hnone, -⟩
  · rw [hlook, newest_unique hseq hnew hnew']
  · exact absurd hnone (not_none_of_newest hnew)

/-- When every newest entry is a tombstone, the merge has none. -/
theorem merged_eq_nil (hm : Merged old m) (hs : ∀ t ∈ old, KeySorted t.entries)
    (hdead : ∀ key tv, Newest old key tv → tv.type = .kTypeDeletion) : m = [] := by
  refine eq_nil_of_lookup fun key => ?_
  rcases merged_newest hm hs key with ⟨tv, hnew, hlook⟩ | ⟨-, hlook⟩
  · rw [hlook, live, if_pos (hdead key tv hnew)]
  · exact hlook

end Merge

section Kept

variable {m : List Entry} {fails : Nat → Nat → Bool}

/-- After harmless failures the merge reads as the tables did. -/
theorem visible_merged_of_harmless (hm : Merged (readables fails ts) m)
    (hs : ∀ t ∈ readables fails ts, KeySorted t.entries) (hne : m ≠ [])
    (h : Harmless mem ts fails) {key : Bytes} (hkey : mem.lookup key = none) :
    visible (m.lookup key) = visible (overlay (ts.map fun t => t.whole.entries) key) := by
  rcases h with hdead | hsame
  · exact absurd (merged_eq_nil hm hs hdead) hne
  obtain ⟨hread, hmissing⟩ := hsame key hkey
  rcases merged_newest hm hs key with ⟨tv, hnew, hlook⟩ | ⟨hnone, hlook⟩
  · rw [hlook, visible_live]
    exact hread tv hnew
  · rw [hlook]
    exact (hmissing hnone).symm

/-- When the merge is empty, every entry that it took was a tombstone. -/
theorem harmless_of_eq_nil (hm : Merged (readables fails ts) [])
    (hs : ∀ t ∈ readables fails ts, KeySorted t.entries)
    (hseq : ((readables fails ts).map Table.sequence).Nodup) : Harmless mem ts fails := by
  refine Or.inl fun key tv hnew => ?_
  by_contra hlive
  have hlook := lookup_of_newest hm hs hseq hnew
  rw [live, if_neg hlive] at hlook
  cases hlook

/-- When the merge reads as the tables did, the failures were harmless. -/
theorem harmless_of_visible (hm : Merged (readables fails ts) m)
    (hs : ∀ t ∈ readables fails ts, KeySorted t.entries)
    (hseq : ((readables fails ts).map Table.sequence).Nodup)
    (hsame : ∀ key, mem.lookup key = none →
      visible (m.lookup key) = visible (overlay (ts.map fun t => t.whole.entries) key)) :
    Harmless mem ts fails := by
  refine Or.inr fun key hkey => ⟨?_, ?_⟩
  · intro tv hnew
    rw [← hsame key hkey, lookup_of_newest hm hs hseq hnew, visible_live]
  · intro hnone
    rw [← hsame key hkey, lookup_of_missing hm hs hnone]
    rfl

end Kept

/-- **A compaction drops no record** when the failing reads are harmless; and, where
    no two tables have the same sequence number, only then. -/
theorem compactWith_kept_iff (h : Loaded e mem) (htables : List.Forall₂ Opens e.sstables ts)
    (hlen : 1 < ts.length) (fails : Nat → Nat → Bool) :
    Runs (KVEngine.compactWith e fails) (fun e' => (Harmless mem ts fails → Kept e e')
      ∧ ((ts.map BlockTable.sequence).Nodup → Kept e e' → Harmless mem ts fails)) := by
  refine (compactWith_spec h htables hlen fails).mono ?_
  rintro e' ⟨m, hm, hcases⟩
  have hs : ∀ t ∈ readables fails ts, KeySorted t.entries :=
    fun t ht => (good_of_readables htables fails t ht).1
  have hbefore := get_before h.mem htables
  constructor
  · intro hharmless
    rcases hcases with ⟨-, hplace⟩ | ⟨hne, -, hafter⟩
    · exact Or.inl hplace
    · refine Or.inr fun key => ?_
      rw [hafter, hbefore]
      cases hkey : mem.lookup key with
      | some tv => rfl
      | none => exact congrArg Except.ok (visible_merged_of_harmless hm hs hne hharmless hkey)
  · intro hseq hkept
    rw [← sequences_readables fails ts] at hseq
    rcases hcases with ⟨rfl, -⟩ | ⟨-, hmoved, hafter⟩
    · exact harmless_of_eq_nil hm hs hseq
    · refine harmless_of_visible hm hs hseq fun key hkey => ?_
      have hget := (hkept.resolve_left hmoved) key
      rw [hafter, hbefore, hkey] at hget
      exact Except.ok.inj hget

/-- A key in two tables, with another value in the newer one. -/
def twoTables : List Op := [.put [107] [1], .forceFlush, .put [107] [2], .forceFlush]

/-- The run goes through and leaves two tables. -/
theorem runs_twoTables :
    ∃ e s, (start [] plainConfig >>= fun e => twoTables.foldlM execute e) = .ok e ∧ Rep e s
      ∧ e.sstables.map SSTableReader.filename = [getSstPath 2, getSstPath 1] ∧ e.sstCounter = 2 := by
  have htwo : Yields (start [] plainConfig >>= fun e => twoTables.foldlM execute e)
      (fun e => e.sstables.map SSTableReader.filename = [getSstPath 2, getSstPath 1]
        ∧ e.sstCounter = 2) := by
    decide +kernel
  have hrep : Runs (start [] plainConfig >>= fun e => twoTables.foldlM execute e)
      (fun e => ∃ s, Rep e s) := by
    obtain ⟨e₀, hstart, hrep₀⟩ := start_nil plainConfig
    rw [hstart, ok_bind]
    exact session_rep twoTables (by decide) hrep₀
  cases he : start [] plainConfig >>= fun e => twoTables.foldlM execute e with
  | error f =>
      rw [he] at htwo
      exact htwo.elim
  | ok e =>
      obtain ⟨s, hs⟩ := hrep.of_eq_ok he
      exact ⟨e, s, rfl, hs, htwo.of_eq_ok he⟩

theorem compactWith_kept_iff_twoTables :
    ∃ e mem ts, (start [] plainConfig >>= fun e => twoTables.foldlM execute e) = .ok e
      ∧ Runs (KVEngine.compactWith e (fun i _ => i == 1)) (fun e' =>
        (Harmless mem ts (fun i _ => i == 1) → Kept e e')
          ∧ ((ts.map BlockTable.sequence).Nodup → Kept e e' →
            Harmless mem ts (fun i _ => i == 1))) := by
  have hloaded := loaded_run plainConfig (twoTables.map fun o => .event (.op o))
  obtain ⟨e, s, he, hs, hnames, -⟩ := runs_twoTables
  obtain ⟨mem, h⟩ := hloaded.of_eq_ok he
  obtain ⟨ts, hts, -⟩ := exists_opens hs.tables
  have hlen : 1 < ts.length := by
    rw [← hts.length_eq, ← List.length_map (f := SSTableReader.filename), hnames]
    decide
  exact ⟨e, mem, ts, he, compactWith_kept_iff h hts hlen (fun i _ => i == 1)⟩

/-- **The newer table cannot be read, and the older value comes back** for good. -/
theorem unread_block_revives_old_value :
    Yields (start [] plainConfig >>= fun e => twoTables.foldlM execute e) (fun e =>
      e.get [107] = .ok (some [2]) ∧ e.sstables.length = 2
        ∧ Yields (KVEngine.compactWith e (fun i _ => i == 0)) (fun e' =>
          e'.get [107] = .ok (some [1]) ∧ e'.sstables.length = 1)) := by
  decide +kernel

end KvReadFailure
