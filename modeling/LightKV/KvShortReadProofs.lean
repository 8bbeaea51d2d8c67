import LightKV.KvStaleReadProofs
import LightKV.KvBlocksProofs

/-! # Reads that come short

    One `pread` moves `0x7ffff000` bytes at most, and the reader takes fewer bytes
    than it asked for as a read that failed.  So a table comes back from its file
    exactly when no block of it, nor its index, is longer than that: `Open` rejects
    a longer index, the iterator passes a longer block by (`table_round_trip_iff`),
    and `Get` does not find what is in it (`table_lookup_iff`).  In an engine the
    blocks that are too long are so many failing reads (`get_upTo`). -/

namespace KvShortRead

open Execution KvBlocks KvBytes KvEngine KvIterators KvReadFailure KvSkipList KvStaleRead KvStore
open KvTable KvTableIterator KWayMerge LittleEndian Overlay

/-! ## What comes back of a table -/

/-- What an iterator gives back of an entry that was added. -/
def readBack (sequence : Sequence) (kv : Entry) : IteratorEntry :=
  ⟨kv.1, if kv.2.type = .kTypeDeletion then [] else kv.2.value, kv.2.type, sequence⟩

theorem toEntry_storedLayer (sequence : Sequence) {l : List Entry}
    (hv : ∀ kv ∈ l, kv.2.value.length < 2 ^ 32) :
    (storedLayer l).map (toEntry sequence) = l.map (readBack sequence) := by
  rw [storedLayer, List.map_map]
  refine List.map_congr_left ?_
  intro kv hkv
  show toEntry sequence (kv.1, stored kv.2) = readBack sequence kv
  by_cases hd : kv.2.type = .kTypeDeletion
  · simp [toEntry, stored, readBack, hd]
  · have htake : kv.2.value.take (kv.2.value.length % 2 ^ 32) = kv.2.value := by
      rw [Nat.mod_eq_of_lt (hv kv hkv), List.take_length]
    simp only [toEntry, stored, readBack, if_neg hd, htake]

/-- **What a `pread` can move**: every block of the table of a layer, and its index. -/
def ReadWhole (maxRead blockSize : Nat) (l : List Entry) : Prop :=
  (∀ b ∈ blocksOf blockSize l, (encodeBlock b).length ≤ maxRead)
    ∧ (writeIndex (indexOf 0 (blocksOf blockSize l))).length ≤ maxRead

instance (maxRead blockSize : Nat) (l : List Entry) : Decidable (ReadWhole maxRead blockSize l) :=
  inferInstanceAs (Decidable (_ ∧ _))

/-- What holds of a table that a builder makes of a layer and a reader opens. -/
def Reopened (maxRead : Nat) (filename : Bytes) (fileSequence blockSize : Nat) (l : List Entry)
    (P : SSTableReader → Prop) : Prop :=
  ∃ built r, ((SSTableBuilder.new blockSize).addAll l).finish = .ok (built, true)
    ∧ SSTableReader.openUpTo maxRead filename (some built.file) fileSequence = .ok (some r) ∧ P r

/-- **The round trip of a table**: what was added comes back in order, a tombstone
    without its value, and `Seek` from anywhere leads to the entries at or above
    its target. -/
def RoundTrips (sequence : Sequence) (l : List Entry) (r : SSTableReader) : Prop :=
  ∃ it, SSTableIterator.new r sequence = .ok it ∧ Streams it (l.map (readBack sequence))
    ∧ ∀ (moves : List Move) (target : Bytes), ∃ it₁ it₂,
      moves.foldlM KvIterator.move it = .ok it₁ ∧ it₁.seek target = .ok it₂
        ∧ Streams it₂ ((l.filter (fun kv => target ≤ kv.1)).map (readBack sequence))

/-- **A point lookup is exact**: `Get` finds the keys that were added and no other,
    with the type and the value they were added with, and it finds what a scan of
    the table comes to. -/
def LooksUp (sequence : Sequence) (l : List Entry) (r : SSTableReader) : Prop :=
  ∃ it scanned, SSTableIterator.new r sequence = .ok it ∧ Streams it scanned
    ∧ ∀ key, ∃ found, r.get key = .ok found
      ∧ (found.isSome ↔ key ∈ l.map Prod.fst)
      ∧ (∀ kv ∈ l, kv.1 = key → found = some ⟨kv.2.type,
          if kv.2.type = .kTypeDeletion then [] else kv.2.value⟩)
      ∧ found = (scanned.find? (fun e => e.key = key)).map (fun e => ⟨e.type, e.value⟩)

/-- Entries as they were added come back from what the table keeps. -/
theorem roundTrips_of_readsTable {l : List Entry} {bs : List (List Entry)}
    (hv : ∀ kv ∈ l, kv.2.value.length < 2 ^ 32) (h : ReadsTable r (storedLayer l) bs)
    (sequence : Sequence) : RoundTrips sequence l r := by
  obtain ⟨it, hnew, hat⟩ := sstableIterator_at h.searchable sequence
  rw [toEntry_storedLayer sequence hv] at hat
  refine ⟨it, hnew, streams_of_at _ hat, ?_⟩
  intro moves target
  obtain ⟨it₁, it₂, hmoves, hseek, hs₂⟩ := seek_after_moves hat moves target
  refine ⟨it₁, it₂, hmoves, hseek, ?_⟩
  have hcut : dropBelow IteratorEntry.key target (l.map (readBack sequence))
      = (l.filter (fun kv => target ≤ kv.1)).map (readBack sequence) := by
    rw [(KvCursor.ascending hat).dropBelow_eq_filter target, List.filter_map]
    rfl
  rw [← hcut]
  exact hs₂

/-- The first entry of a key that a scan comes to is the one a lookup finds. -/
theorem find_map_toEntry (sequence : Sequence) (key : Bytes) (es : List Entry) :
    ((es.map (toEntry sequence)).find? (fun e => e.key = key)).map (fun e => ⟨e.type, e.value⟩)
      = es.lookup key := by
  induction es with
  | nil => rfl
  | cons kv es ih =>
      rw [List.map_cons, List.lookup_cons]
      by_cases hk : kv.1 = key
      · have hkey : decide ((toEntry sequence kv).key = key) = true := decide_eq_true hk
        rw [List.find?_cons, hkey, beq_iff_eq.mpr hk.symm]
        rfl
      · have hkey : decide ((toEntry sequence kv).key = key) = false := decide_eq_false hk
        rw [List.find?_cons, hkey, beq_eq_false_iff_ne.mpr (Ne.symm hk), ih]

/-- The keys of a table are those that were added. -/
theorem map_fst_storedLayer (l : List Entry) : (storedLayer l).map Prod.fst = l.map Prod.fst := by
  rw [storedLayer, List.map_map]
  rfl

/-- Lookups among what the table keeps find what was added. -/
theorem looksUp_of_readsTable {l : List Entry} {bs : List (List Entry)} (hs : KeySorted l)
    (hv : ∀ kv ∈ l, kv.2.value.length < 2 ^ 32) (h : ReadsTable r (storedLayer l) bs)
    (sequence : Sequence) : LooksUp sequence l r := by
  obtain ⟨it, hnew, hat⟩ := sstableIterator_at h.searchable sequence
  refine ⟨it, _, hnew, streams_of_at _ hat, ?_⟩
  intro key
  refine ⟨_, h.get key, ?_, ?_, (find_map_toEntry sequence key _).symm⟩
  · rw [← map_fst_storedLayer, ← Option.ne_none_iff_isSome, ne_eq, lookup_eq_none_iff_forall]
    simp only [List.mem_map, not_forall, not_not, exists_prop]
  · rintro kv hkv rfl
    have hmem : (kv.1, stored kv.2) ∈ storedLayer l := List.mem_map_of_mem hkv
    rw [(lookup_eq_some_iff (keySorted_storedLayer hs)).mpr hmem, stored,
      Nat.mod_eq_of_lt (hv kv hkv), List.take_length]
    split <;> rfl

/-! ## Short reads are failed reads -/

variable {r : SSTableReader} {l es : List Entry} {bs : List (List Entry)} {maxRead : Nat}

/-- The blocks that a `pread` does not move whole. -/
def short (maxRead : Nat) (bs : List (List Entry)) (i : Nat) : Bool :=
  bs[i]?.any (fun b => maxRead < (encodeBlock b).length)

theorem surviving_short (maxRead : Nat) (bs : List (List Entry)) :
    surviving (short maxRead bs) bs = bs.map (readable maxRead) := by
  refine List.ext_getElem? fun i => ?_
  rw [surviving, List.getElem?_mapIdx, List.getElem?_map, short]
  cases bs[i]? with
  | none => rfl
  | some b =>
      show some (if decide (maxRead < (encodeBlock b).length) = true then [] else b) = _
      refine congrArg some ?_
      rw [readable]
      by_cases hle : (encodeBlock b).length ≤ maxRead
      · rw [if_pos hle, if_neg (by simpa using hle)]
      · rw [if_neg hle, if_pos (by simpa using hle)]

/-- **`Get` on a table file** is a lookup among the entries of the blocks that are not
    too long. -/
theorem get_of_tableFile (h : TableFile r.fd es bs) (hidx : r.indexEntries = indexOf 0 bs)
    (key : Bytes) : r.get key = .ok ((bs.map (readable r.maxRead)).flatten.lookup key) := by
  have hwhole : ReadsTable (r.upTo wholeReads) bs.flatten bs := by
    obtain ⟨hblocks, -⟩ := h.le_wholeReads
    exact ⟨h.entries.symm ▸ h, hidx, hblocks⟩
  have hb := blocks_of_tableFile h hidx
  rw [← surviving_short] at hb ⊢
  exact get_of_surviving hwhole hb (fun _ => rfl) key

/-- **`get` under a limit** is `get` where the reads of the longer blocks fail. -/
theorem get_upTo {e : KVEngine} {mem : List Entry} {ts : List BlockTable}
    (hmem : Models e.skiplist mem) (htables : List.Forall₂ Opens e.sstables ts) (maxRead : Nat)
    (key : Bytes) :
    (e.upTo maxRead).get key
      = KVEngine.getWith e (fun i j => ts[i]?.any (fun t => short maxRead t.blocks j)) key := by
  have hreaders : ∀ {readers : List SSTableReader} {ts : List BlockTable},
      List.Forall₂ Opens readers ts →
      List.Forall₂ (fun r t => ∀ key, r.get key = .ok (t.entries.lookup key))
        (readers.map (SSTableReader.upTo maxRead))
        (readables (fun i j => ts[i]?.any (fun t => short maxRead t.blocks j)) ts) := by
    intro readers ts h
    induction h with
    | nil => exact List.Forall₂.nil
    | cons hr _ ih =>
        rw [readables, List.mapIdx_cons]
        refine List.Forall₂.cons (fun key => ?_) ih
        show SSTableReader.get _ key = .ok ((surviving (short maxRead _) _).flatten.lookup key)
        rw [surviving_short]
        exact get_of_tableFile (r := SSTableReader.upTo maxRead _) hr.2.2.file hr.2.2.index key
  rw [getWith_eq hmem htables]
  have hmem' : Models (e.upTo maxRead).skiplist mem := hmem
  simp only [KVEngine.get, models_get hmem' key, ok_bind]
  cases mem.lookup key with
  | some tv => rfl
  | none =>
      have htables' := getFromTables_overlay (hreaders htables) key
      simp only [KVEngine.upTo, htables', ok_bind]
      rfl

/-- **An engine without such blocks** reads under the limit as without it. -/
theorem get_upTo_of_le {e : KVEngine} {mem : List Entry} {ts : List BlockTable}
    (hmem : Models e.skiplist mem) (htables : List.Forall₂ Opens e.sstables ts)
    (hle : ∀ t ∈ ts, ∀ b ∈ t.blocks, (encodeBlock b).length ≤ maxRead) (key : Bytes) :
    (e.upTo maxRead).get key = e.get key := by
  have hnone : (fun i j : Nat => ts[i]?.any (fun t => short maxRead (BlockTable.blocks t) j))
      = fun _ _ => false := by
    funext i j
    cases hi : ts[i]? with
    | none => rfl
    | some t =>
        show short maxRead t.blocks j = false
        rw [short]
        cases hj : t.blocks[j]? with
        | none => rfl
        | some b =>
            have hb := hle t (List.mem_of_getElem? hi) b (List.mem_of_getElem? hj)
            exact decide_eq_false (Nat.not_lt.mpr hb)
  rw [get_upTo hmem htables, hnone, getWith_none]

/-! ## The table of a layer -/

/-- The reader that `Open` makes of the table of a layer. -/
def readerOf (maxRead : Nat) (filename : Bytes) (fileSequence blockSize : Nat) (l : List Entry) :
    SSTableReader :=
  ⟨filename, fileOf (blocksOf blockSize l), maxRead, indexOf 0 (blocksOf blockSize l), fileSequence⟩

/-- **A file built of a layer opens** when its index is no longer than a `pread`. -/
theorem reopened_iff (hne : l ≠ []) (hs : KeySorted l) (hl : ∀ kv ∈ l, Storable kv)
    (filename : Bytes) (fileSequence blockSize : Nat) (P : SSTableReader → Prop) :
    Reopened maxRead filename fileSequence blockSize l P
      ↔ (fileOf (blocksOf blockSize l)).length < 2 ^ 62
        ∧ (writeIndex (indexOf 0 (blocksOf blockSize l))).length ≤ maxRead
        ∧ P (readerOf maxRead filename fileSequence blockSize l) := by
  have hfin := finish_addAll blockSize (fun kv hkv => (hl kv hkv).1) hne
  by_cases hlen : (fileOf (blocksOf blockSize l)).length < 2 ^ 62
  · rw [if_pos hlen] at hfin
    obtain ⟨built, hrun, hfile⟩ := hfin
    have htab := tableFile_blocksOf blockSize hl hs hne hlen
    have hopen : (writeIndex (indexOf 0 (blocksOf blockSize l))).length ≤ maxRead →
        SSTableReader.openUpTo maxRead filename (some built.file) fileSequence
          = .ok (some (readerOf maxRead filename fileSequence blockSize l)) := by
      intro hmax
      rw [hfile]
      exact openUpTo_tableFile htab hmax filename fileSequence
    constructor
    · rintro ⟨built', r, hrun', hopen', hP⟩
      obtain rfl : built = built' := congrArg Prod.fst (Except.ok.inj (hrun.symm.trans hrun'))
      by_cases hmax : (writeIndex (indexOf 0 (blocksOf blockSize l))).length ≤ maxRead
      · obtain rfl := Option.some.inj (Except.ok.inj ((hopen hmax).symm.trans hopen'))
        exact ⟨hlen, hmax, hP⟩
      · -- the read of the index comes short
        have hshort : SSTableReader.openUpTo maxRead filename (some built.file) fileSequence
            = .ok none := by
          rw [hfile]
          exact open_layout_short hlen (Nat.lt_of_not_le hmax) filename fileSequence
        rw [hshort] at hopen'
        cases hopen'
    · rintro ⟨-, hmax, hP⟩
      exact ⟨built, _, hrun, hopen hmax, hP⟩
  · rw [if_neg hlen] at hfin
    constructor
    · rintro ⟨built, r, hrun, -⟩
      rw [hfin] at hrun
      cases hrun
    · exact fun h => absurd h.1 hlen

/-- Blocks and an index of so many bytes at most make no file that is too large. -/
theorem length_fileOf_lt (hblocks : ∀ b ∈ bs, (encodeBlock b).length ≤ linuxMaxRead)
    (hindex : (writeIndex (indexOf 0 bs)).length ≤ linuxMaxRead) : (fileOf bs).length < 2 ^ 62 := by
  have hbytes : ∀ {bs : List (List Entry)}, (∀ b ∈ bs, (encodeBlock b).length ≤ linuxMaxRead) →
      (blockBytes bs).length ≤ bs.length * linuxMaxRead := by
    intro bs
    induction bs with
    | nil => exact fun _ => Nat.zero_le _
    | cons b bs ih =>
        intro h
        have hfirst := h b List.mem_cons_self
        have hrest := ih (fun x hx => h x (List.mem_cons_of_mem _ hx))
        rw [blockBytes] at hrest
        rw [blockBytes, List.flatMap_cons, List.length_append, List.length_cons, Nat.succ_mul]
        omega
  have hcount : bs.length ≤ linuxMaxRead := by
    have hge := length_writeIndex_ge (indexOf 0 bs)
    rw [length_indexOf] at hge
    exact hge.trans hindex
  have htotal := (hbytes hblocks).trans (Nat.mul_le_mul_right linuxMaxRead hcount)
  have hlimit : linuxMaxRead * linuxMaxRead + linuxMaxRead + 24 < 2 ^ 62 := by
    norm_num [linuxMaxRead]
  simp only [fileOf, Footer.bytes, List.length_append, length_leBytes]
  omega

/-- Nothing is read that is not in the file. -/
theorem readable_sublist (maxRead : Nat) (bs : List (List Entry)) :
    (bs.map (readable maxRead)).flatten.Sublist bs.flatten := by
  rw [← surviving_short]
  exact surviving_sublist bs _

/-- A block that is passed by is missed. -/
theorem length_readable_lt {b : List Entry} (hb : b ∈ bs) (hne : b ≠ [])
    (hlong : maxRead < (encodeBlock b).length) :
    (bs.map (readable maxRead)).flatten.length < bs.flatten.length := by
  obtain ⟨pre, post, rfl⟩ := List.append_of_mem hb
  have hskip : readable maxRead b = [] := if_neg (Nat.not_le.mpr hlong)
  have hpos := List.length_pos_of_ne_nil hne
  have hpre := (readable_sublist maxRead pre).length_le
  have hpost := (readable_sublist maxRead post).length_le
  simp only [List.map_append, List.map_cons, List.flatten_append, List.flatten_cons,
    List.length_append, hskip, List.length_nil]
  omega

/-- And its keys are not found. -/
theorem lookup_readable {b : List Entry} {kv : Entry} (hb : b ∈ bs) (hkv : kv ∈ b)
    (hs : KeySorted bs.flatten) (hlong : maxRead < (encodeBlock b).length) :
    (bs.map (readable maxRead)).flatten.lookup kv.1 = none := by
  obtain ⟨pre, post, rfl⟩ := List.append_of_mem hb
  have hskip : readable maxRead b = [] := if_neg (Nat.not_le.mpr hlong)
  rw [List.flatten_append, List.flatten_cons] at hs
  obtain ⟨-, hsb, hpre⟩ := List.pairwise_append.mp hs
  have hpost := (List.pairwise_append.mp hsb).2.2
  rw [lookup_eq_none_iff_forall, List.map_append, List.map_cons, List.flatten_append,
    List.flatten_cons, hskip, List.nil_append]
  intro x hx
  rcases List.mem_append.mp hx with hx' | hx'
  · exact (hpre x ((readable_sublist maxRead pre).subset hx') kv (List.mem_append_left _ hkv)).ne
  · exact (hpost kv hkv x ((readable_sublist maxRead post).subset hx')).ne'

/-- **The iterator comes to all entries** exactly when no block is too long. -/
theorem roundTrips_iff (h : TableFile r.fd (storedLayer l) bs) (hidx : r.indexEntries = indexOf 0 bs)
    (hv : ∀ kv ∈ l, kv.2.value.length < 2 ^ 32) (sequence : Sequence) :
    RoundTrips sequence l r ↔ ∀ b ∈ bs, (encodeBlock b).length ≤ r.maxRead := by
  constructor
  · rintro ⟨it, hnew, hstream, -⟩ b hb
    by_contra hlong
    have hblocks := blocks_of_tableFile h hidx
    obtain ⟨it', hnew', hit⟩ := ahead_new hblocks sequence
    obtain rfl : it = it' := Except.ok.inj (hnew.symm.trans hnew')
    have heq := congrArg List.length ((streams_of_ahead hblocks hit).unique hstream)
    have hless := length_readable_lt hb (h.nonempty b hb) (Nat.lt_of_not_le hlong)
    rw [h.entries] at hless
    simp only [storedLayer, List.length_map] at heq hless
    omega
  · exact fun hmax => roundTrips_of_readsTable hv ⟨h, hidx, hmax⟩ sequence

/-- **`Get` finds all keys** exactly when no block is too long. -/
theorem looksUp_iff (h : TableFile r.fd (storedLayer l) bs) (hidx : r.indexEntries = indexOf 0 bs)
    (hs : KeySorted l) (hv : ∀ kv ∈ l, kv.2.value.length < 2 ^ 32) (sequence : Sequence) :
    LooksUp sequence l r ↔ ∀ b ∈ bs, (encodeBlock b).length ≤ r.maxRead := by
  constructor
  · rintro ⟨it, scanned, -, -, hlook⟩ b hb
    by_contra hlong
    -- `Get` does not find the first key of the block
    obtain ⟨kv, rest, rfl⟩ := List.exists_cons_of_ne_nil (h.nonempty b hb)
    have hget := get_of_tableFile h hidx kv.1
    obtain ⟨found, hfound, hiff, -⟩ := hlook kv.1
    rw [hfound, lookup_readable hb List.mem_cons_self (h.entries.symm ▸ h.sorted)
      (Nat.lt_of_not_le hlong)] at hget
    have hmem : kv.1 ∈ l.map Prod.fst := by
      rw [← map_fst_storedLayer, ← h.entries]
      exact List.mem_map_of_mem (List.mem_flatten_of_mem hb List.mem_cons_self)
    have hsome := hiff.mpr hmem
    rw [Except.ok.inj hget] at hsome
    cases hsome
  · exact fun hmax => looksUp_of_readsTable hs hv ⟨h, hidx, hmax⟩ sequence

/-! ## Tables that come back -/

/-- What holds of a table exactly when none of its blocks is too long. -/
theorem reopened_iff_readWhole (hne : l ≠ []) (hs : KeySorted l) (hl : ∀ kv ∈ l, Storable kv)
    {P : SSTableReader → Prop} {blockSize : Nat}
    (hP : ∀ {r}, TableFile r.fd (storedLayer l) (blocksOf blockSize l) →
      r.indexEntries = indexOf 0 (blocksOf blockSize l) →
      (P r ↔ ∀ b ∈ blocksOf blockSize l, (encodeBlock b).length ≤ r.maxRead))
    (filename : Bytes) (fileSequence : Nat) :
    Reopened linuxMaxRead filename fileSequence blockSize l P
      ↔ ReadWhole linuxMaxRead blockSize l := by
  have hreader := fun hlen => @hP (readerOf linuxMaxRead filename fileSequence blockSize l)
    (tableFile_blocksOf blockSize hl hs hne hlen) rfl
  rw [reopened_iff hne hs hl, ReadWhole]
  constructor
  · rintro ⟨hlen, hindex, hp⟩
    exact ⟨(hreader hlen).mp hp, hindex⟩
  · rintro ⟨hblocks, hindex⟩
    have hlen := length_fileOf_lt hblocks hindex
    exact ⟨hlen, hindex, (hreader hlen).mpr hblocks⟩

/-- **A table comes back whole** exactly when no read of it comes short. -/
theorem table_round_trip_iff (hne : l ≠ []) (hs : KeySorted l) (hl : ∀ kv ∈ l, Storable kv)
    (hv : ∀ kv ∈ l, kv.2.value.length < 2 ^ 32) (filename : Bytes) (fileSequence : Nat)
    (sequence : Sequence) (blockSize : Nat) :
    Reopened linuxMaxRead filename fileSequence blockSize l (RoundTrips sequence l)
      ↔ ReadWhole linuxMaxRead blockSize l :=
  reopened_iff_readWhole hne hs hl (fun h hidx => roundTrips_iff h hidx hv sequence) filename
    fileSequence

/-- A value and a tombstone. -/
def valueAndTombstone : List Entry := [([1], ⟨.kTypeValue, [7]⟩), ([3], ⟨.kTypeDeletion, [8]⟩)]

theorem table_round_trip_iff_two :
    Reopened linuxMaxRead [] 5 1 valueAndTombstone (RoundTrips 5 valueAndTombstone) :=
  (table_round_trip_iff (by decide) (by show List.Pairwise _ _; decide) (by decide) (by decide) []
    5 5 1).mpr (by decide)

/-- A value whose block is one byte longer than a `pread`. -/
@[irreducible] def longValue : Bytes := List.replicate 2147479543 0

/-- The one entry of the block. -/
def longEntries : List Entry := [([107], ⟨.kTypeValue, longValue⟩)]

theorem length_longValue : longValue.length = 2147479543 := by
  rw [longValue]
  exact List.length_replicate

/-- What a table of one entry that fits has of it. -/
theorem blocksOf_singleton {kv : Entry} (h : Fits kv) (blockSize : Nat) :
    blocksOf blockSize [kv] = [[kv]] := by
  have hstored : storedLayer [kv] = [kv] := storedLayer_of_fits (by
    intro x hx
    rw [List.mem_singleton.mp hx]
    exact h)
  rw [blocksOf, hstored]
  simp only [packed, List.nil_append]
  split <;> rfl

theorem fits_long : Fits ([107], ⟨.kTypeValue, longValue⟩) := by
  refine ⟨of_decide_eq_true rfl, Or.inr ⟨rfl, ?_⟩⟩
  rw [length_longValue]
  decide

theorem length_encodeBlock_long : (encodeBlock longEntries).length = 2147479553 := by
  rw [encodeBlock, longEntries, List.flatMap_singleton, encodeEntry]
  simp only [List.length_append, length_leBytes, List.length_singleton, length_longValue]

theorem length_index_long : (writeIndex (indexOf 0 [longEntries])).length = 21 := by
  have hkey : maxKeyOf longEntries = [107] := rfl
  simp only [indexOf, writeIndex, hkey, List.length_append, length_leBytes, List.length_nil]
  rfl

/-- Its table can be opened, and its block is too long to be read. -/
theorem reopened_long {P : SSTableReader → Prop} (hP : ∀ {r}, TableFile r.fd longEntries [longEntries] →
      r.indexEntries = indexOf 0 [longEntries] → r.maxRead < (encodeBlock longEntries).length → P r) :
    Reopened linuxMaxRead [] 1 4096 longEntries P := by
  have hne : longEntries ≠ [] := List.cons_ne_nil _ _
  have hs : KeySorted longEntries := List.pairwise_singleton _ _
  have hl : ∀ kv ∈ longEntries, Storable kv := by
    intro kv hkv
    rw [List.mem_singleton.mp hkv]
    exact ⟨of_decide_eq_true rfl, Or.inr rfl⟩
  have hblocks : blocksOf 4096 longEntries = [longEntries] := blocksOf_singleton fits_long 4096
  have hlen : (fileOf (blocksOf 4096 longEntries)).length < 2 ^ 62 := by
    rw [hblocks, fileOf, blockBytes, List.flatMap_singleton]
    simp only [Footer.bytes, List.length_append, length_leBytes, length_encodeBlock_long,
      length_index_long]
    decide
  have htab := tableFile_blocksOf 4096 hl hs hne hlen
  rw [hblocks, ← htab.entries] at htab
  refine (reopened_iff hne hs hl [] 1 4096 P).mpr ⟨hlen, ?_, hP ?_ ?_ ?_⟩
  · rw [hblocks, length_index_long]
    decide
  · show TableFile (fileOf (blocksOf 4096 longEntries)) longEntries [longEntries]
    rw [hblocks]
    exact htab
  · show indexOf 0 (blocksOf 4096 longEntries) = _
    rw [hblocks]
  · rw [length_encodeBlock_long]
    decide

/-- **Its iterator has nothing**: the one block is passed by. -/
theorem table_round_trip_long :
    Reopened linuxMaxRead [] 1 4096 longEntries (fun r =>
      (∃ it, SSTableIterator.new r 1 = .ok it ∧ Streams it []) ∧ ¬ RoundTrips 1 longEntries r) := by
  refine reopened_long ?_
  intro r h hidx hlong
  have hskip : readable r.maxRead longEntries = [] := if_neg (Nat.not_le.mpr hlong)
  have hblocks := blocks_of_tableFile h hidx
  obtain ⟨it, hnew, hit⟩ := ahead_new hblocks 1
  have hstream := streams_of_ahead hblocks hit
  simp only [List.map_cons, List.map_nil, hskip, List.flatten_cons, List.flatten_nil,
    List.append_nil] at hstream
  refine ⟨⟨it, hnew, hstream⟩, ?_⟩
  rintro ⟨it', hnew', hstream', -⟩
  obtain rfl : it = it' := Except.ok.inj (hnew.symm.trans hnew')
  cases hstream.unique hstream'

/-- **A lookup is exact** exactly when no read of the table comes short. -/
theorem table_lookup_iff (hne : l ≠ []) (hs : KeySorted l) (hl : ∀ kv ∈ l, Storable kv)
    (hv : ∀ kv ∈ l, kv.2.value.length < 2 ^ 32) (filename : Bytes) (fileSequence : Nat)
    (sequence : Sequence) (blockSize : Nat) :
    Reopened linuxMaxRead filename fileSequence blockSize l (LooksUp sequence l)
      ↔ ReadWhole linuxMaxRead blockSize l :=
  reopened_iff_readWhole hne hs hl (fun h hidx => looksUp_iff h hidx hs hv sequence) filename
    fileSequence

theorem table_lookup_iff_two :
    Reopened linuxMaxRead [] 5 1 valueAndTombstone (LooksUp 5 valueAndTombstone) :=
  (table_lookup_iff (by decide) (by show List.Pairwise _ _; decide) (by decide) (by decide) []
    5 5 1).mpr (by decide)

/-- **Its key is not found.** -/
theorem table_lookup_long :
    Reopened linuxMaxRead [] 1 4096 longEntries (fun r =>
      r.get [107] = .ok none ∧ ¬ LooksUp 1 longEntries r) := by
  refine reopened_long ?_
  intro r h hidx hlong
  have hskip : readable r.maxRead longEntries = [] := if_neg (Nat.not_le.mpr hlong)
  have hget : r.get [107] = .ok none := by
    rw [get_of_tableFile h hidx, List.map_cons, hskip]
    rfl
  refine ⟨hget, ?_⟩
  rintro ⟨it, scanned, -, -, hlook⟩
  obtain ⟨found, hfound, hiff, -⟩ := hlook [107]
  obtain rfl : none = found := Except.ok.inj (hget.symm.trans hfound)
  exact absurd (hiff.mpr List.mem_cons_self) Bool.false_ne_true

end KvShortRead
