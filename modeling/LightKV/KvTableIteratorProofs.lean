import LightKV.KvTableProofs
import LightKV.KvMergingProofs
import Mathlib.Data.List.TakeWhile

/-! # The iterator over a table

    `SSTableIterator` walks the blocks of a table file and decodes one entry at
    a time, with its own bounds checks.  Over a finished table file whose blocks it
    can read it is a lawful iterator through the table's entries
    (`sstableIterator_at`), and `Get` is a lookup among them (`ReadsTable.get`).
    `EngineIterator` is the `std::unique_ptr<Iterator>` that `KVEngine` puts under its
    merges. -/

namespace KvTableIterator

open LittleEndian KvBytes KvIterators KvTable KWayMerge KvMerging Overlay

/-! ## The code -/

/-- `SSTableIterator`. -/
structure SSTableIterator where
  reader : SSTableReader
  sequence : Sequence
  currentBlockIdx : Nat
  currentOffset : Nat
  currentBlockData : Bytes
  currentEntry : IteratorEntry
  valid : Bool

/-- The first loop of `ParseNextEntry`; `false` when there is no block left. -/
def SSTableIterator.skipBlocks :
    Nat → SSTableIterator → Except Fault (SSTableIterator × Bool)
  | 0, _ => .error .noProgress
  | fuel + 1, it =>
      if it.currentOffset ≥ it.currentBlockData.length then
        if it.currentBlockIdx + 1 ≥ it.reader.getBlockCount then
          pure ({ it with currentBlockIdx := it.currentBlockIdx + 1, valid := false }, false)
        else do
          let data ← it.reader.readDataBlock (it.currentBlockIdx + 1)
          SSTableIterator.skipBlocks fuel
            { it with
              currentBlockIdx := it.currentBlockIdx + 1
              currentBlockData := data
              currentOffset := 0 }
      else pure (it, true)

/-- The second half of `ParseNextEntry`: the entry at the current offset. -/
def SSTableIterator.parseEntry (it : SSTableIterator) : SSTableIterator :=
  let p := it.currentBlockData.drop it.currentOffset
  if p.length < 9 then { it with valid := false }
  else
    let type : ValueType := ⟨p.headD 0⟩
    let klen := leNat ((p.drop 1).take 4)
    let vlen := leNat ((p.drop 5).take 4)
    let p := p.drop 9
    if p.length < klen + vlen then { it with valid := false }
    else
      { it with
        currentEntry := ⟨p.take klen, (p.drop klen).take vlen, type, it.sequence⟩
        currentOffset := it.currentOffset + 9 + klen + vlen
        valid := true }

/-- `ParseNextEntry`. -/
def SSTableIterator.parseNextEntry (it : SSTableIterator) : Except Fault SSTableIterator := do
  let (it, found) ← it.skipBlocks (it.reader.getBlockCount + 1)
  if found then pure it.parseEntry else pure it

/-- The loop of `ParseCurrentBlock`. -/
def SSTableIterator.parseCurrentBlock : Nat → SSTableIterator → Except Fault SSTableIterator
  | 0, _ => .error .noProgress
  | fuel + 1, it =>
      if it.currentBlockIdx < it.reader.getBlockCount then do
        let data ← it.reader.readDataBlock it.currentBlockIdx
        let it := { it with currentBlockData := data, currentOffset := 0 }
        let it ← (if data.isEmpty then pure it else it.parseNextEntry)
        if it.valid then pure it
        else do
          let it := { it with currentBlockIdx := it.currentBlockIdx + 1 }
          SSTableIterator.parseCurrentBlock fuel it
      else pure it

/-- The constructor. -/
def SSTableIterator.new (reader : SSTableReader) (sequence : Sequence) :
    Except Fault SSTableIterator :=
  SSTableIterator.parseCurrentBlock (reader.getBlockCount + 1)
    ⟨reader, sequence, 0, 0, [], {}, false⟩

/-- `Next`. -/
def SSTableIterator.next (it : SSTableIterator) : Except Fault SSTableIterator :=
  if it.valid then it.parseNextEntry else pure it

/-- The bytes of all blocks: enough turns for a walk through the entries. -/
def SSTableIterator.fuel (it : SSTableIterator) : Nat :=
  (it.reader.indexEntries.map IndexEntry.size).sum + 1

/-- The loop of `Seek`. -/
def SSTableIterator.seekLoop (target : Bytes) :
    Nat → SSTableIterator → Except Fault SSTableIterator
  | 0, _ => .error .noProgress
  | fuel + 1, it => do
      let it ← it.parseNextEntry
      if !it.valid then pure it
      else if it.currentEntry.key ≥ target then pure it
      else SSTableIterator.seekLoop target fuel it

/-- `Seek`. -/
def SSTableIterator.seek (it : SSTableIterator) (target : Bytes) : Except Fault SSTableIterator :=
  if it.reader.getBlockCount = 0 then pure { it with valid := false }
  else
    let blockIdx := it.reader.findBlockIndex target
    if blockIdx ≥ it.reader.getBlockCount then pure { it with valid := false }
    else do
      let data ← it.reader.readDataBlock blockIdx
      SSTableIterator.seekLoop target it.fuel
        { it with
          currentBlockIdx := blockIdx
          currentBlockData := data
          currentOffset := 0
          valid := true }

instance : KvIterator SSTableIterator where
  valid := SSTableIterator.valid
  next := SSTableIterator.next
  entry := SSTableIterator.currentEntry
  seek := SSTableIterator.seek
  bound := SSTableIterator.fuel

/-! ## Reading the blocks of a table file -/

/-- **The reader's blocks** read as the entries `bs`. -/
structure Blocks (r : SSTableReader) (bs : List (List Entry)) : Prop where
  fits : ∀ kv ∈ bs.flatten, Fits kv
  count : r.getBlockCount = bs.length
  block : ∀ pre b post, bs = pre ++ b :: post →
    r.readDataBlock pre.length = .ok (encodeBlock b)
  room : bs.flatten.length ≤ (r.indexEntries.map IndexEntry.size).sum

/-- The entries `es` in blocks, with an index that skips no entry it should not. -/
structure Searchable (r : SSTableReader) (es : List Entry) (bs : List (List Entry)) : Prop where
  blocks : Blocks r bs
  entries : bs.flatten = es
  sorted : KeySorted es
  search : ∀ t, ∃ pre post, bs = pre ++ post ∧ r.findBlockIndex t = pre.length
    ∧ ∀ kv ∈ pre.flatten, kv.1 < t

/-- The reader has a table file of the entries `es` open. -/
structure ReadsTable (r : SSTableReader) (es : List Entry) (bs : List (List Entry)) : Prop where
  file : TableFile r.fd es bs
  index : r.indexEntries = indexOf 0 bs
  reads : ∀ b ∈ bs, (encodeBlock b).length ≤ r.maxRead

/-- The index of a table file ascends. -/
theorem ReadsTable.ascending {r : SSTableReader} {es : List Entry} {bs : List (List Entry)}
    (h : ReadsTable r es bs) : r.indexEntries.Pairwise (fun a b => a.maxKey < b.maxKey) := by
  have hs : KeySorted bs.flatten := h.file.entries ▸ h.file.sorted
  rw [h.index]
  exact ascending_maxKey h.file.nonempty hs 0

/-- The index search of `Seek` skips the blocks below the target. -/
theorem ReadsTable.findBlockIndex {r : SSTableReader} {es : List Entry} {bs : List (List Entry)}
    (h : ReadsTable r es bs) (target : Bytes) :
    r.findBlockIndex target = (bs.takeWhile (fun b => maxKeyOf b < target)).length := by
  have hkeys : ∀ {bs : List (List Entry)} (off : Nat),
      (indexOf off bs).findIdx (fun e => !decide (e.maxKey < target))
        = (bs.takeWhile (fun b => maxKeyOf b < target)).length := by
    intro bs
    induction bs with
    | nil => exact fun _ => rfl
    | cons b bs ih =>
        intro off
        rw [indexOf, List.findIdx_cons, ih]
        by_cases hlt : maxKeyOf b < target
        · simp [hlt]
        · simp [hlt]
  rw [findBlockIndex_eq_findIdx h.ascending, h.index, hkeys]

theorem length_le_encodeBlock (es : List Entry) : es.length ≤ (encodeBlock es).length := by
  induction es with
  | nil => exact Nat.le_refl _
  | cons e es ih =>
      simp only [encodeBlock, List.flatMap_cons, List.length_append, List.length_cons] at ih ⊢
      have : 1 ≤ (encodeEntry e).length := by simp [encodeEntry]
      omega

theorem sum_size_indexOf (bs : List (List Entry)) (off : Nat) :
    bs.flatten.length ≤ ((indexOf off bs).map IndexEntry.size).sum := by
  induction bs generalizing off with
  | nil => exact Nat.le_refl _
  | cons b bs ih =>
      have h1 := ih (off + (encodeBlock b).length)
      have h2 := length_le_encodeBlock b
      simp only [indexOf, List.map_cons, List.sum_cons, List.flatten_cons, List.length_append]
      omega

variable {r : SSTableReader} {es : List Entry} {bs : List (List Entry)}

/-- The blocks that the index search skips hold no entry at or above the target. -/
theorem lt_of_mem_takeWhile (hne : ∀ b ∈ bs, b ≠ []) (hs : KeySorted bs.flatten) (t : Bytes) :
    ∀ kv ∈ (bs.takeWhile (fun b => maxKeyOf b < t)).flatten, kv.1 < t := by
  intro kv hkv
  obtain ⟨b, hb, hkvb⟩ := List.mem_flatten.mp hkv
  have hbt : maxKeyOf b < t := by simpa using List.mem_takeWhile_imp hb
  have hbs : b ∈ bs := (List.takeWhile_sublist _).subset hb
  have hsb : KeySorted b := List.Pairwise.sublist (List.sublist_flatten_of_mem hbs) hs
  exact ((le_maxKeyOf (hne b hbs) hsb).1 kv hkvb).trans_lt hbt

/-- **A table file can be searched.** -/
theorem ReadsTable.searchable (h : ReadsTable r es bs) : Searchable r es bs where
  blocks :=
    { fits := h.file.entries ▸ h.file.fits
      count := by rw [SSTableReader.getBlockCount, h.index, length_indexOf]
      block := by
        rintro pre b post rfl
        rw [readDataBlock_tableFile h.file h.index, readable_of_le (h.reads b (List.mem_append_right _ List.mem_cons_self))]
      room := by
        rw [h.index]
        exact sum_size_indexOf bs 0 }
  entries := h.file.entries
  sorted := h.file.sorted
  search t := by
    refine ⟨bs.takeWhile (fun b => maxKeyOf b < t), bs.dropWhile (fun b => maxKeyOf b < t),
      List.takeWhile_append_dropWhile.symm, h.findBlockIndex t,
      lt_of_mem_takeWhile h.file.nonempty (h.file.entries.symm ▸ h.file.sorted) t⟩

/-! ## Looking up a key -/

/-- No block but the one that the index gives holds the key. -/
theorem ReadsTable.findBlockIndex_spec (h : ReadsTable r bs.flatten bs) (key : Bytes) :
    r.findBlockIndex key = bs.length ∧ (∀ kv ∈ bs.flatten, kv.1 ≠ key)
      ∨ ∃ pre b post, bs = pre ++ b :: post ∧ r.findBlockIndex key = pre.length
        ∧ (∀ kv ∈ pre.flatten, kv.1 ≠ key) ∧ ∀ kv ∈ post.flatten, kv.1 ≠ key := by
  obtain ⟨pre, post, hbs, hidx, hbelow⟩ := h.searchable.search key
  cases post with
  | nil =>
      rw [List.append_nil] at hbs
      rw [hbs]
      exact Or.inl ⟨hidx, fun kv hkv => (hbelow kv hkv).ne⟩
  | cons b post =>
      refine Or.inr ⟨pre, b, post, hbs, hidx, fun kv hkv => (hbelow kv hkv).ne, ?_⟩
      -- the index has found that the block's largest key is not below the key
      have hat : r.indexEntries[r.findBlockIndex key]?
          = some ⟨maxKeyOf b, (blockBytes pre).length, (encodeBlock b).length⟩ := by
        rw [hidx, h.index, hbs, getElem?_indexOf, Nat.zero_add]
      rw [findBlockIndex_eq_findIdx h.ascending] at hat
      have htest : !decide (maxKeyOf b < key) :=
        List.findIdx_of_getElem?_eq_some (p := fun e : IndexEntry => !decide (e.maxKey < key)) hat
      have hmax : key ≤ maxKeyOf b := by
        rw [Bool.not_eq_true', decide_eq_false_iff_not] at htest
        exact not_lt.mp htest
      have hsorted : KeySorted (pre.flatten ++ (b ++ post.flatten)) := by
        have hs := h.file.sorted
        rw [hbs, List.flatten_append, List.flatten_cons] at hs
        exact hs
      obtain ⟨hsb, -, hcross⟩ := List.pairwise_append.mp (List.pairwise_append.mp hsorted).2.1
      have hne : b ≠ [] := h.file.nonempty b (hbs ▸ List.mem_append_right _ List.mem_cons_self)
      obtain ⟨-, last, hlast, hkey⟩ := le_maxKeyOf hne hsb
      intro kv hkv
      have hlt := hcross last hlast kv hkv
      rw [hkey] at hlt
      exact (hmax.trans_lt hlt).ne'

/-- Entries of other keys do not count in a lookup. -/
theorem lookup_flatten_middle {pre post : List (List Entry)} {b : List Entry} {key : Bytes}
    (hpre : ∀ kv ∈ pre.flatten, kv.1 ≠ key) (hpost : ∀ kv ∈ post.flatten, kv.1 ≠ key) :
    (pre ++ b :: post).flatten.lookup key = b.lookup key := by
  rw [List.flatten_append, List.flatten_cons, lookup_append, lookup_append,
    lookup_eq_none_iff_forall.mpr hpre, lookup_eq_none_iff_forall.mpr hpost, Option.none_or,
    Option.or_none]

/-- **`Get`** on a reader of a table file is a lookup among its entries. -/
theorem ReadsTable.get (h : ReadsTable r es bs) (key : Bytes) : r.get key = .ok (es.lookup key) := by
  obtain rfl := h.file.entries
  rw [get_eq_search]
  rcases h.findBlockIndex_spec key with ⟨hidx, hnone⟩ | ⟨pre, b, post, rfl, hidx, hpre, hpost⟩
  · -- the index has no block for the key
    have hout : r.indexEntries[bs.length]? = none := by
      rw [List.getElem?_eq_none_iff, h.index, length_indexOf]
    rw [hidx, SSTableReader.readDataBlock, hout, lookup_eq_none_iff_forall.mpr hnone]
    rfl
  · have hfits := h.file.fits
    have hs := h.file.sorted
    rw [List.flatten_append, List.flatten_cons] at hfits hs
    rw [lookup_flatten_middle hpre hpost, hidx, readDataBlock_tableFile h.file h.index, ok_bind,
      readable_of_le (h.reads b (List.mem_append_right _ List.mem_cons_self))]
    exact searchInDataBlock_spec key b _
      (fun kv hkv => hfits kv (List.mem_append_right _ (List.mem_append_left _ hkv)))
      (List.pairwise_append.mp (List.pairwise_append.mp hs).2.1).1 (Nat.le_refl _)

/-! ## Where the iterator stands -/

/-- The iterator has still to decode the entries `rest`. -/
def Standing (it : SSTableIterator) (bs : List (List Entry)) (rest : List Entry) : Prop :=
  ∃ pre xs ys post, bs = pre ++ (xs ++ ys) :: post ∧ it.currentBlockIdx = pre.length
    ∧ it.currentBlockData = encodeBlock (xs ++ ys)
    ∧ it.currentOffset = (encodeBlock xs).length ∧ rest = ys ++ post.flatten

/-- What one decoding step leaves. -/
def Decoded (it it' : SSTableIterator) (bs : List (List Entry)) : List Entry → Prop
  | [] => it'.valid = false ∧ it'.reader = it.reader ∧ it'.sequence = it.sequence
  | kv :: rest => it'.valid = true ∧ it'.currentEntry = toEntry it.sequence kv
      ∧ Standing it' bs rest ∧ it'.reader = it.reader ∧ it'.sequence = it.sequence

/-- A decoding step only looks at the reader and the sequence of where it began. -/
theorem decoded_of_same {it₀ it it' : SSTableIterator} (hr : it.reader = it₀.reader)
    (hseq : it.sequence = it₀.sequence) {kvs : List Entry} (h : Decoded it it' bs kvs) :
    Decoded it₀ it' bs kvs := by
  cases kvs with
  | nil => exact ⟨h.1, h.2.1.trans hr, h.2.2.trans hseq⟩
  | cons kv kvs =>
      obtain ⟨hv, hc, hst, hr', hseq'⟩ := h
      exact ⟨hv, hc.trans (by rw [hseq]), hst, hr'.trans hr, hseq'.trans hseq⟩

/-- **Behind a header**, key and value are decoded when they are there. -/
theorem parseEntry_header {it : SSTableIterator} (type : ValueType) {kLen vLen : Nat} {body : Bytes}
    (hk : kLen < 2 ^ 32) (hv : vLen < 2 ^ 32)
    (hat : it.currentBlockData.drop it.currentOffset = entryHeader type kLen vLen ++ body) :
    it.parseEntry = if body.length < kLen + vLen then { it with valid := false }
      else { it with
        currentEntry := ⟨body.take kLen, (body.drop kLen).take vLen, type, it.sequence⟩
        currentOffset := it.currentOffset + 9 + kLen + vLen
        valid := true } := by
  have hkLen : leNat (leBytes 4 kLen) = kLen := leNat_leBytes_of_lt (by simpa using hk)
  have hvLen : leNat (leBytes 4 vLen) = vLen := leNat_leBytes_of_lt (by simpa using hv)
  have hp : it.currentBlockData.drop it.currentOffset
      = type.raw :: (leBytes 4 kLen ++ (leBytes 4 vLen ++ body)) := by
    rw [hat]
    simp [entryHeader]
  have hlong : ¬ (type.raw :: (leBytes 4 kLen ++ (leBytes 4 vLen ++ body))).length < 9 := by
    simp only [List.length_cons, List.length_append, length_leBytes]
    omega
  have hdrop5 : (leBytes 4 kLen ++ (leBytes 4 vLen ++ body)).drop 4 = leBytes 4 vLen ++ body :=
    drop_leBytes _ _ _
  have hdrop9 : (leBytes 4 kLen ++ (leBytes 4 vLen ++ body)).drop 8 = body := by
    rw [show (8 : Nat) = 4 + 4 from rfl, ← List.drop_drop, hdrop5, drop_leBytes]
  simp only [SSTableIterator.parseEntry, hp, if_neg hlong, List.drop_succ_cons, List.drop_zero,
    take_leBytes, hkLen, hdrop5, hvLen, hdrop9]
  rfl

/-- **An entry that is there in full** is decoded. -/
theorem parseEntry_entry {it : SSTableIterator} {kv : Entry} (hk : kv.1.length < 2 ^ 32)
    (hv : kv.2.value.length < 2 ^ 32) {after : Bytes}
    (hat : it.currentBlockData.drop it.currentOffset = encodeEntry kv ++ after) :
    it.parseEntry = { it with
      currentEntry := toEntry it.sequence kv
      currentOffset := it.currentOffset + (encodeEntry kv).length
      valid := true } := by
  obtain ⟨k, t, v⟩ := kv
  rw [← entryHeader_append] at hat
  have hfits : ¬ (k ++ (v ++ after)).length < k.length + v.length := by
    simp only [List.length_append]
    omega
  have hnext : it.currentOffset + 9 + k.length + v.length
      = it.currentOffset + (encodeEntry (k, ⟨t, v⟩)).length := by
    simp only [encodeEntry, List.length_append, List.length_singleton, length_leBytes]
    omega
  rw [parseEntry_header t hk hv hat, if_neg hfits, List.take_left, List.drop_left, List.take_left,
    hnext]
  rfl

/-- The entry at the current offset. -/
theorem parseEntry_spec {it : SSTableIterator} {pre post : List (List Entry)}
    {xs ys : List Entry} {kv : Entry} (hfit : Fits kv) (hidx : it.currentBlockIdx = pre.length)
    (hdata : it.currentBlockData = encodeBlock (xs ++ kv :: ys))
    (hoff : it.currentOffset = (encodeBlock xs).length) :
    Decoded it it.parseEntry (pre ++ (xs ++ kv :: ys) :: post) (kv :: (ys ++ post.flatten)) := by
  have hat : it.currentBlockData.drop it.currentOffset = encodeEntry kv ++ encodeBlock ys := by
    rw [hdata, hoff, encodeBlock_append, List.drop_left]
    rfl
  rw [parseEntry_entry hfit.1 hfit.valueLength hat]
  refine ⟨rfl, rfl, ⟨pre, xs ++ [kv], ys, post, by simp, hidx, ?_, ?_, rfl⟩, rfl, rfl⟩
  · simpa using hdata
  · rw [hoff, encodeBlock_append, List.length_append]
    simp [encodeBlock]

/-- Where the first loop of `ParseNextEntry` stops: at the next entry, or behind
    the last one. -/
def Skipped (it it' : SSTableIterator) (found : Bool) (bs : List (List Entry)) :
    List Entry → Prop
  | [] => it'.reader = it.reader ∧ it'.sequence = it.sequence ∧ found = false ∧ it'.valid = false
  | kv :: rest => it'.reader = it.reader ∧ it'.sequence = it.sequence ∧ found = true
      ∧ ∃ pre ys post, bs = pre ++ (kv :: ys) :: post ∧ it'.currentBlockIdx = pre.length
        ∧ it'.currentBlockData = encodeBlock (kv :: ys) ∧ it'.currentOffset = 0
        ∧ rest = ys ++ post.flatten

/-- Where the loop stops only looks at the reader and the sequence of where it began. -/
theorem skipped_of_same {it₀ it it' : SSTableIterator} {found : Bool}
    (hr : it.reader = it₀.reader) (hseq : it.sequence = it₀.sequence) {kvs : List Entry}
    (h : Skipped it it' found bs kvs) : Skipped it₀ it' found bs kvs := by
  cases kvs with
  | nil => exact ⟨h.1.trans hr, h.2.1.trans hseq, h.2.2⟩
  | cons kv rest => exact ⟨h.1.trans hr, h.2.1.trans hseq, h.2.2⟩

/-- The iterator at the start of a block it has read. -/
def SSTableIterator.atBlock (it : SSTableIterator) (idx : Nat) (data : Bytes) : SSTableIterator :=
  { it with currentBlockIdx := idx, currentBlockData := data, currentOffset := 0 }

/-- A turn of the loop at the end of a block that is not the last. -/
theorem skipBlocks_next {it : SSTableIterator} {pre post : List (List Entry)} {xs c : List Entry}
    (h : Blocks it.reader (pre ++ xs :: c :: post)) (hidx : it.currentBlockIdx = pre.length)
    (hge : it.currentOffset ≥ it.currentBlockData.length) (fuel : Nat) :
    SSTableIterator.skipBlocks (fuel + 1) it
      = SSTableIterator.skipBlocks fuel (it.atBlock (pre.length + 1) (encodeBlock c)) := by
  have hmore : ¬ it.currentBlockIdx + 1 ≥ it.reader.getBlockCount := by
    rw [h.count, hidx]
    simp
  have hsplit : pre ++ xs :: c :: post = (pre ++ [xs]) ++ c :: post := by simp
  have hread : it.reader.readDataBlock (it.currentBlockIdx + 1) = .ok (encodeBlock c) := by
    have hblock := h.block _ _ _ hsplit
    rw [hidx]
    simpa using hblock
  rw [SSTableIterator.skipBlocks, if_pos hge, if_neg hmore, hread, ok_bind, hidx]
  rfl

/-- **The first loop of `ParseNextEntry`**, from the end of a block on, over blocks
    that read as empty. -/
theorem skipBlocks_spec :
    ∀ (post pre : List (List Entry)) (xs : List Entry) (fuel : Nat) {it : SSTableIterator},
      Blocks it.reader (pre ++ xs :: post) → it.currentBlockIdx = pre.length →
      it.currentBlockData = encodeBlock xs → it.currentOffset = (encodeBlock xs).length →
      post.length < fuel →
      ∃ it' found, SSTableIterator.skipBlocks fuel it = .ok (it', found)
        ∧ Skipped it it' found (pre ++ xs :: post) post.flatten := by
  intro post
  induction post with
  | nil =>
      intro pre xs fuel it h hidx hdata hoff hfuel
      obtain ⟨fuel, rfl⟩ := Nat.exists_eq_succ_of_ne_zero (Nat.ne_of_gt hfuel)
      have hend : it.currentBlockIdx + 1 ≥ it.reader.getBlockCount := by
        rw [h.count, hidx]
        simp
      have hge : it.currentOffset ≥ it.currentBlockData.length := by rw [hoff, hdata]
      rw [SSTableIterator.skipBlocks, if_pos hge, if_pos hend]
      exact ⟨_, _, rfl, rfl, rfl, rfl, rfl⟩
  | cons c post ih =>
      intro pre xs fuel it h hidx hdata hoff hfuel
      rw [List.length_cons] at hfuel
      obtain ⟨fuel, rfl⟩ := Nat.exists_eq_succ_of_ne_zero (Nat.ne_of_gt (Nat.zero_lt_of_lt hfuel))
      have hge : it.currentOffset ≥ it.currentBlockData.length := by rw [hoff, hdata]
      have hsplit : pre ++ xs :: c :: post = (pre ++ [xs]) ++ c :: post := by simp
      have hlen : pre.length + 1 = (pre ++ [xs]).length := by simp
      rw [skipBlocks_next h hidx hge, hsplit]
      cases c with
      | nil =>
          -- this block has no entry either
          obtain ⟨it', found, hrun, hskip⟩ := @ih (pre ++ [xs]) [] fuel
            (it.atBlock (pre.length + 1) (encodeBlock [])) (hsplit ▸ h) hlen rfl rfl
            (Nat.lt_of_succ_lt_succ hfuel)
          refine ⟨it', found, hrun, ?_⟩
          rw [List.flatten_cons, List.nil_append]
          exact skipped_of_same rfl rfl hskip
      | cons kv ys =>
          obtain ⟨fuel, rfl⟩ := Nat.exists_eq_succ_of_ne_zero
            (Nat.ne_of_gt (Nat.zero_lt_of_lt (Nat.lt_of_succ_lt_succ hfuel)))
          have hlt : ¬ 0 ≥ (encodeBlock (kv :: ys)).length := by
            have := length_le_encodeBlock (kv :: ys)
            rw [List.length_cons] at this
            omega
          exact ⟨it.atBlock (pre.length + 1) (encodeBlock (kv :: ys)), true,
            if_neg hlt, rfl, rfl, rfl, pre ++ [xs], ys, post, rfl, hlen, rfl, rfl, rfl⟩

/-- **`ParseNextEntry`** decodes the next entry, across the end of a block. -/
theorem parseNextEntry_spec {it : SSTableIterator} (h : Blocks it.reader bs)
    {rest : List Entry} (hst : Standing it bs rest) :
    ∃ it', it.parseNextEntry = .ok it' ∧ Decoded it it' bs rest := by
  obtain ⟨pre, xs, ys, post, rfl, hidx, hdata, hoff, rfl⟩ := hst
  cases ys with
  | cons kv ys =>
      -- the block has an entry left
      have hlt : ¬ it.currentOffset ≥ it.currentBlockData.length := by
        rw [hoff, hdata, encodeBlock_append, List.length_append]
        have := length_le_encodeBlock (kv :: ys)
        rw [List.length_cons] at this
        omega
      refine ⟨it.parseEntry, ?_, parseEntry_spec (h.fits kv (by simp)) hidx hdata hoff⟩
      rw [SSTableIterator.parseNextEntry, SSTableIterator.skipBlocks, if_neg hlt]
      rfl
  | nil =>
      rw [List.append_nil] at h hdata ⊢
      have hfuel : post.length < it.reader.getBlockCount + 1 := by
        rw [h.count, List.length_append, List.length_cons]
        omega
      obtain ⟨it₁, found, hrun, hskip⟩ := skipBlocks_spec post pre xs _ h hidx hdata hoff hfuel
      simp only [SSTableIterator.parseNextEntry, hrun, ok_bind, List.nil_append]
      cases hflat : post.flatten with
      | nil =>
          rw [hflat] at hskip
          obtain ⟨hr, hseq, rfl, hv⟩ := hskip
          exact ⟨it₁, rfl, hv, hr, hseq⟩
      | cons kv rest =>
          rw [hflat] at hskip
          obtain ⟨hr, hseq, rfl, pre', ys, post', heq, hidx', hdata', hoff', rfl⟩ := hskip
          have hfit : Fits kv := h.fits kv (by rw [heq]; simp)
          have hdata₁ : it₁.currentBlockData = encodeBlock ([] ++ kv :: ys) := hdata'
          have hoff₁ : it₁.currentOffset = (encodeBlock []).length := hoff'
          have hdec := @parseEntry_spec it₁ pre' post' [] ys kv hfit hidx' hdata₁ hoff₁
          rw [List.nil_append, ← heq] at hdec
          exact ⟨it₁.parseEntry, rfl, decoded_of_same hr hseq hdec⟩

/-- The first block to be loaded, and what comes after it. -/
theorem standing_load {it : SSTableIterator} {pre post : List (List Entry)} {b : List Entry}
    (hidx : it.currentBlockIdx = pre.length)
    (hdata : it.currentBlockData = encodeBlock b) (hoff : it.currentOffset = 0) :
    Standing it (pre ++ b :: post) (b ++ post.flatten) :=
  ⟨pre, [], b, post, rfl, hidx, hdata, hoff, rfl⟩

/-- The loop of `Seek` stops at the first entry at or above the target. -/
theorem seekLoop_spec (target : Bytes) :
    ∀ (rest : List Entry) (fuel : Nat) {it : SSTableIterator}, Blocks it.reader bs →
      Standing it bs rest → rest.length < fuel →
      ∃ it', SSTableIterator.seekLoop target fuel it = .ok it'
        ∧ Decoded it it' bs (rest.dropWhile (fun kv => kv.1 < target)) := by
  intro rest
  induction rest with
  | nil =>
      intro fuel it h hst hfuel
      obtain ⟨it', hrun, hdec⟩ := parseNextEntry_spec h hst
      have hv : it'.valid = false := hdec.1
      cases fuel with
      | zero => omega
      | succ fuel =>
          refine ⟨it', ?_, hdec⟩
          simp only [SSTableIterator.seekLoop, hrun, ok_bind, hv, Bool.not_false, if_true]
          rfl
  | cons kv rest ih =>
      intro fuel it h hst hfuel
      obtain ⟨it₁, hrun, hv, hc, hst₁, hr, hseq⟩ := parseNextEntry_spec h hst
      have hkey : it₁.currentEntry.key = kv.1 := by rw [hc]; rfl
      cases fuel with
      | zero => omega
      | succ fuel =>
          simp only [SSTableIterator.seekLoop, hrun, ok_bind, hv, Bool.not_true,
            Bool.false_eq_true, if_false, hkey]
          by_cases hlt : kv.1 < target
          · obtain ⟨it₂, hrun₂, hdec₂⟩ := ih fuel (hr.symm ▸ h) hst₁ (by
              rw [List.length_cons] at hfuel
              omega)
            refine ⟨it₂, ?_, ?_⟩
            · rw [if_neg (not_le.mpr hlt)]
              exact hrun₂
            · rw [List.dropWhile_cons_of_pos (by simpa using hlt)]
              exact decoded_of_same hr hseq hdec₂
          · refine ⟨it₁, ?_, ?_⟩
            · rw [if_pos (not_lt.mp hlt)]
              rfl
            · rw [List.dropWhile_cons_of_neg (by simpa using hlt)]
              exact ⟨hv, hc, hst₁, hr, hseq⟩

/-- Where the iterator stands, its current entry taken out already. -/
def TableCurrent (it : SSTableIterator) (bs : List (List Entry)) : List IteratorEntry → Prop
  | [] => it.valid = false
  | e :: rest => it.valid = true ∧ it.currentEntry = e
      ∧ ∃ kvs, rest = kvs.map (toEntry it.sequence) ∧ Standing it bs kvs

/-- The iterator goes through a table's entries and has `rest` to come. -/
def TableAt (it : SSTableIterator) (all rest : List IteratorEntry) : Prop :=
  ∃ es bs, Searchable it.reader es bs ∧ all = es.map (toEntry it.sequence)
    ∧ rest <:+ all ∧ TableCurrent it bs rest

/-- One decoding step, seen in the entries of the iterator. -/
theorem tableCurrent_of_decoded {it it' : SSTableIterator} {kvs : List Entry}
    (h : Decoded it it' bs kvs) : it'.reader = it.reader ∧ it'.sequence = it.sequence
      ∧ TableCurrent it' bs (kvs.map (toEntry it.sequence)) := by
  cases kvs with
  | nil => exact ⟨h.2.1, h.2.2, h.1⟩
  | cons kv kvs =>
      obtain ⟨hv, hc, hst, hr, hseq⟩ := h
      exact ⟨hr, hseq, hv, hc, kvs, by rw [hseq], hst⟩

theorem dropBelow_map_toEntry (sequence : Sequence) (t : Bytes) (l : List Entry) :
    dropBelow IteratorEntry.key t (l.map (toEntry sequence))
      = (l.dropWhile (fun kv => kv.1 < t)).map (toEntry sequence) := by
  rw [dropBelow, List.dropWhile_map]
  rfl

/-- `Seek` from the block that the index search finds. -/
theorem seek_load {it : SSTableIterator} {pre post : List (List Entry)} {b : List Entry}
    (h : Blocks it.reader (pre ++ b :: post)) (t : Bytes)
    (hidx : it.reader.findBlockIndex t = pre.length) :
    ∃ it', it.seek t = .ok it' ∧ Decoded it it' (pre ++ b :: post)
      ((b ++ post.flatten).dropWhile (fun kv => kv.1 < t)) := by
  have hcount : it.reader.getBlockCount = pre.length + (post.length + 1) := by
    rw [h.count, List.length_append, List.length_cons]
  have hpos : it.reader.getBlockCount ≠ 0 := by omega
  have hlt : ¬ pre.length ≥ it.reader.getBlockCount := by omega
  have hread := h.block _ _ _ rfl
  obtain ⟨it₁, hit₁⟩ : ∃ it₁ : SSTableIterator, it₁ = { it with
      currentBlockIdx := pre.length
      currentBlockData := encodeBlock b
      currentOffset := 0
      valid := true } := ⟨_, rfl⟩
  have hst : Standing it₁ (pre ++ b :: post) (b ++ post.flatten) :=
    standing_load (by rw [hit₁]) (by rw [hit₁]) (by rw [hit₁])
  have hr₁ : it₁.reader = it.reader := by rw [hit₁]
  have hfuel : (b ++ post.flatten).length < it.fuel := by
    have hroom := h.room
    simp only [List.flatten_append, List.flatten_cons, List.length_append] at hroom
    rw [SSTableIterator.fuel, List.length_append]
    omega
  obtain ⟨it', hrun, hdec⟩ := seekLoop_spec t _ it.fuel (hr₁.symm ▸ h) hst hfuel
  refine ⟨it', ?_, ?_⟩
  · rw [SSTableIterator.seek, if_neg hpos]
    simp only [hidx, if_neg hlt, hread, ok_bind]
    rw [← hit₁]
    exact hrun
  · rw [hit₁] at hdec
    exact hdec

/-- **`Seek`** finds the first entry at or above the target. -/
theorem seek_spec {it : SSTableIterator} (h : Searchable it.reader es bs) (t : Bytes) :
    ∃ it', it.seek t = .ok it'
      ∧ Decoded it it' bs (es.dropWhile (fun kv => kv.1 < t)) := by
  obtain ⟨pre, post, rfl, hidx, hbelow⟩ := h.search t
  have hrest : es.dropWhile (fun kv => kv.1 < t)
      = post.flatten.dropWhile (fun kv => kv.1 < t) := by
    rw [← h.entries, List.flatten_append,
      List.dropWhile_append_of_pos (fun kv hkv => by simpa using hbelow kv hkv)]
  rw [hrest]
  cases post with
  | nil =>
      refine ⟨{ it with valid := false }, ?_, rfl, rfl, rfl⟩
      rw [SSTableIterator.seek]
      by_cases hz : it.reader.getBlockCount = 0
      · rw [if_pos hz]
        rfl
      · rw [if_neg hz]
        simp only [hidx, h.blocks.count, List.append_nil, ge_iff_le, Nat.le_refl, if_true]
        rfl
  | cons b post => exact seek_load h.blocks t hidx

instance : KvCursor SSTableIterator where
  At := TableAt
  ascending := by
    rintro it all rest ⟨es, bs, h, rfl, -⟩
    exact ascending_map_toEntry h.sorted it.sequence
  valid := by
    rintro it all rest ⟨es, bs, -, -, -, hcur⟩
    cases rest with
    | nil => exact hcur
    | cons e rest => exact hcur.1
  entry := by
    rintro it all e rest ⟨es, bs, -, -, -, hcur⟩
    exact hcur.2.1
  next := by
    rintro it all e rest ⟨es, bs, h, rfl, hsuf, hv, -, kvs, rfl, hst⟩
    obtain ⟨it', hrun, hdec⟩ := parseNextEntry_spec h.blocks hst
    obtain ⟨hr, hseq, hcur⟩ := tableCurrent_of_decoded hdec
    refine ⟨it', ?_, es, bs, hr.symm ▸ h, by rw [hseq],
      (List.suffix_cons _ _).trans hsuf, hcur⟩
    show it.next = _
    rw [SSTableIterator.next, if_pos hv]
    exact hrun
  stay := by
    rintro it all ⟨es, bs, h, hall, hsuf, hv⟩
    refine ⟨it, ?_, es, bs, h, hall, hsuf, hv⟩
    have hoff : ¬ it.valid = true := by simp [show it.valid = false from hv]
    show it.next = _
    rw [SSTableIterator.next, if_neg hoff]
    rfl
  seek := by
    rintro it all rest t ⟨es, bs, h, rfl, -⟩
    obtain ⟨it', hrun, hdec⟩ := seek_spec h t
    obtain ⟨hr, hseq, hcur⟩ := tableCurrent_of_decoded hdec
    rw [dropBelow_map_toEntry]
    exact ⟨it', hrun, es, bs, hr.symm ▸ h, by rw [hseq],
      (List.dropWhile_suffix _).map _, hcur⟩
  suffix := by
    rintro it all rest ⟨es, bs, -, -, hsuf, -⟩
    exact hsuf
  bound := by
    rintro it all rest ⟨es, bs, h, rfl, hsuf, -⟩
    show _ ≤ it.fuel
    have h1 := hsuf.length_le
    have h2 := h.blocks.room
    rw [h.entries] at h2
    rw [List.length_map] at h1
    rw [SSTableIterator.fuel]
    omega

/-- A turn of `ParseCurrentBlock` that reads a block. -/
theorem parseCurrentBlock_succ {it : SSTableIterator} {pre post : List (List Entry)} {c : List Entry}
    (h : Blocks it.reader (pre ++ c :: post)) (hidx : it.currentBlockIdx = pre.length)
    (fuel : Nat) :
    SSTableIterator.parseCurrentBlock (fuel + 1) it = (do
      let it := it.atBlock pre.length (encodeBlock c)
      let it ← (if it.currentBlockData.isEmpty then pure it else it.parseNextEntry)
      if it.valid then pure it
      else do
        let it := { it with currentBlockIdx := it.currentBlockIdx + 1 }
        SSTableIterator.parseCurrentBlock fuel it) := by
  have hmore : it.currentBlockIdx < it.reader.getBlockCount := by
    rw [h.count, hidx]
    simp
  have hread : it.reader.readDataBlock it.currentBlockIdx = .ok (encodeBlock c) :=
    hidx ▸ h.block _ _ _ rfl
  rw [SSTableIterator.parseCurrentBlock, if_pos hmore, hread, ok_bind, ← hidx]
  rfl

/-- A block with an entry ends the loop. -/
theorem parseCurrentBlock_found {it : SSTableIterator} {pre post : List (List Entry)} {kv : Entry}
    {ys : List Entry} (h : Blocks it.reader (pre ++ (kv :: ys) :: post))
    (hidx : it.currentBlockIdx = pre.length) (fuel : Nat) :
    ∃ it', SSTableIterator.parseCurrentBlock (fuel + 1) it = .ok it'
      ∧ Decoded it it' (pre ++ (kv :: ys) :: post) (kv :: (ys ++ post.flatten)) := by
  obtain ⟨it₁, hit₁⟩ : ∃ it₁ : SSTableIterator,
      it₁ = it.atBlock pre.length (encodeBlock (kv :: ys)) := ⟨_, rfl⟩
  have hr₁ : it₁.reader = it.reader := by rw [hit₁]; rfl
  have hseq₁ : it₁.sequence = it.sequence := by rw [hit₁]; rfl
  have hidx₁ : it₁.currentBlockIdx = pre.length := by rw [hit₁]; rfl
  have hdata₁ : it₁.currentBlockData = encodeBlock (kv :: ys) := by
    rw [hit₁]
    rfl
  have hoff₁ : it₁.currentOffset = 0 := by rw [hit₁]; rfl
  have hst : Standing it₁ (pre ++ (kv :: ys) :: post) (kv :: ys ++ post.flatten) :=
    standing_load hidx₁ hdata₁ hoff₁
  obtain ⟨it₂, hrun, hdec⟩ := parseNextEntry_spec (hr₁.symm ▸ h) hst
  have hfull : it₁.currentBlockData.isEmpty = false := by
    rw [hdata₁]
    rfl
  refine ⟨it₂, ?_, decoded_of_same hr₁ hseq₁ hdec⟩
  rw [parseCurrentBlock_succ h hidx, ← hit₁]
  simp only [hfull, Bool.false_eq_true, if_false, hrun, ok_bind, show it₂.valid = true from hdec.1,
    if_true]
  rfl

/-- A block that reads as empty is passed by. -/
theorem parseCurrentBlock_skip {it : SSTableIterator} {pre post : List (List Entry)}
    (h : Blocks it.reader (pre ++ [] :: post)) (hidx : it.currentBlockIdx = pre.length)
    (hv : it.valid = false) (fuel : Nat) :
    ∃ it', SSTableIterator.parseCurrentBlock (fuel + 1) it
        = SSTableIterator.parseCurrentBlock fuel it'
      ∧ it'.reader = it.reader ∧ it'.sequence = it.sequence
      ∧ it'.currentBlockIdx = pre.length + 1 ∧ it'.valid = false := by
  obtain ⟨it₁, hit₁⟩ : ∃ it₁ : SSTableIterator, it₁ = it.atBlock pre.length (encodeBlock []) :=
    ⟨_, rfl⟩
  have hv₁ : it₁.valid = false := by rw [hit₁]; exact hv
  have hdata₁ : it₁.currentBlockData.isEmpty = true := by rw [hit₁]; rfl
  refine ⟨{ it₁ with currentBlockIdx := it₁.currentBlockIdx + 1 }, ?_, ?_⟩
  · rw [parseCurrentBlock_succ h hidx, ← hit₁]
    simp only [hdata₁, if_true, pure_bind, hv₁, Bool.false_eq_true, if_false]
  · rw [hit₁]
    exact ⟨rfl, rfl, rfl, hv⟩

/-- **The loop of `ParseCurrentBlock`** stops at the first entry, over blocks that
    read as empty. -/
theorem parseCurrentBlock_spec :
    ∀ (post pre : List (List Entry)) (fuel : Nat) {it : SSTableIterator},
      Blocks it.reader (pre ++ post) → it.currentBlockIdx = pre.length → it.valid = false →
      post.length < fuel →
      ∃ it', SSTableIterator.parseCurrentBlock fuel it = .ok it'
        ∧ Decoded it it' (pre ++ post) post.flatten := by
  intro post
  induction post with
  | nil =>
      intro pre fuel it h hidx hv hfuel
      obtain ⟨fuel, rfl⟩ := Nat.exists_eq_succ_of_ne_zero (Nat.ne_of_gt hfuel)
      have hend : ¬ it.currentBlockIdx < it.reader.getBlockCount := by
        rw [h.count, hidx]
        simp
      refine ⟨it, ?_, hv, rfl, rfl⟩
      rw [SSTableIterator.parseCurrentBlock, if_neg hend]
      rfl
  | cons c post ih =>
      intro pre fuel it h hidx hv hfuel
      rw [List.length_cons] at hfuel
      obtain ⟨fuel, rfl⟩ := Nat.exists_eq_succ_of_ne_zero (Nat.ne_of_gt (Nat.zero_lt_of_lt hfuel))
      cases c with
      | cons kv ys => exact parseCurrentBlock_found h hidx fuel
      | nil =>
          obtain ⟨it₁, hskip, hr₁, hseq₁, hidx₁, hv₁⟩ := parseCurrentBlock_skip h hidx hv fuel
          have hsplit : pre ++ [] :: post = (pre ++ [[]]) ++ post := by simp
          have hidx' : it₁.currentBlockIdx = (pre ++ [[]]).length := by simp [hidx₁]
          rw [hsplit] at h
          obtain ⟨it', hrun, hdec⟩ :=
            ih (pre ++ [[]]) fuel (hr₁.symm ▸ h) hidx' hv₁ (Nat.lt_of_succ_lt_succ hfuel)
          refine ⟨it', hskip.trans hrun, ?_⟩
          rw [hsplit, List.flatten_cons, List.nil_append]
          exact decoded_of_same hr₁ hseq₁ hdec

/-- A new iterator decodes the first entry. -/
theorem new_spec (h : Blocks r bs) (sequence : Sequence) :
    ∃ it, SSTableIterator.new r sequence = .ok it
      ∧ Decoded ⟨r, sequence, 0, 0, [], {}, false⟩ it bs bs.flatten :=
  parseCurrentBlock_spec bs [] _ h rfl rfl (by rw [h.count]; exact Nat.lt_succ_self _)

/-- **A new iterator over a table** stands at the start of its entries. -/
theorem sstableIterator_at (h : Searchable r es bs) (sequence : Sequence) :
    ∃ it, SSTableIterator.new r sequence = .ok it
      ∧ KvCursor.At it (es.map (toEntry sequence)) (es.map (toEntry sequence)) := by
  obtain ⟨it, hrun, hdec⟩ := new_spec h.blocks sequence
  obtain ⟨hr, hseq, hcur⟩ := tableCurrent_of_decoded hdec
  rw [h.entries] at hcur
  exact ⟨it, hrun, es, bs, hr.symm ▸ h, by rw [hseq], List.suffix_rfl, hcur⟩

/-! ## The children of the engine's merges -/

/-- `std::unique_ptr<Iterator>` to one of the two leaf iterators. -/
inductive EngineIterator
  | skipList (it : SkipListIterator)
  | sstable (it : SSTableIterator)

instance : KvIterator EngineIterator where
  valid
    | .skipList it => KvIterator.valid it
    | .sstable it => KvIterator.valid it
  next
    | .skipList it => do
        let it ← KvIterator.next it
        pure (.skipList it)
    | .sstable it => do
        let it ← KvIterator.next it
        pure (.sstable it)
  entry
    | .skipList it => KvIterator.entry it
    | .sstable it => KvIterator.entry it
  seek
    | .skipList it, t => do
        let it ← KvIterator.seek it t
        pure (.skipList it)
    | .sstable it, t => do
        let it ← KvIterator.seek it t
        pure (.sstable it)
  bound
    | .skipList it => KvIterator.bound it
    | .sstable it => KvIterator.bound it

theorem next_sstable {it it' : SSTableIterator} (h : KvIterator.next it = .ok it') :
    KvIterator.next (EngineIterator.sstable it) = .ok (.sstable it') := by
  show (KvIterator.next it >>= fun it => pure (EngineIterator.sstable it)) = _
  rw [h]
  rfl

theorem leads_sstable {it : SSTableIterator} {out : List IteratorEntry} (h : Leads it out) :
    Leads (EngineIterator.sstable it) out := by
  induction h with
  | @last it hv => exact @Leads.last _ _ (EngineIterator.sstable it) hv
  | @more it it' out hv hn _ ih =>
      exact @Leads.more _ _ (.sstable it) _ _ hv (next_sstable hn) ih

instance : KvCursor EngineIterator where
  At
    | .skipList it => KvCursor.At it
    | .sstable it => KvCursor.At it
  ascending {it all rest} h := by
    cases it with
    | skipList it => exact @KvCursor.ascending _ _ _ it _ _ h
    | sstable it => exact @KvCursor.ascending _ _ _ it _ _ h
  valid {it all rest} h := by
    cases it with
    | skipList it => exact @KvCursor.valid _ _ _ it _ _ h
    | sstable it => exact @KvCursor.valid _ _ _ it _ _ h
  entry {it all e rest} h := by
    cases it with
    | skipList it => exact @KvCursor.entry _ _ _ it _ _ _ h
    | sstable it => exact @KvCursor.entry _ _ _ it _ _ _ h
  next {it all e rest} h := by
    cases it with
    | skipList it =>
        obtain ⟨it', hrun, h'⟩ := @KvCursor.next _ _ _ it _ _ _ h
        exact ⟨.skipList it', by simp only [KvIterator.next] at hrun ⊢; rw [hrun]; rfl, h'⟩
    | sstable it =>
        obtain ⟨it', hrun, h'⟩ := @KvCursor.next _ _ _ it _ _ _ h
        exact ⟨.sstable it', by simp only [KvIterator.next] at hrun ⊢; rw [hrun]; rfl, h'⟩
  stay {it all} h := by
    cases it with
    | skipList it =>
        obtain ⟨it', hrun, h'⟩ := @KvCursor.stay _ _ _ it _ h
        exact ⟨.skipList it', by simp only [KvIterator.next] at hrun ⊢; rw [hrun]; rfl, h'⟩
    | sstable it =>
        obtain ⟨it', hrun, h'⟩ := @KvCursor.stay _ _ _ it _ h
        exact ⟨.sstable it', next_sstable hrun, h'⟩
  seek {it all rest} t h := by
    cases it with
    | skipList it =>
        obtain ⟨it', hrun, h'⟩ := @KvCursor.seek _ _ _ it _ _ t h
        exact ⟨.skipList it', by simp only [KvIterator.seek] at hrun ⊢; rw [hrun]; rfl, h'⟩
    | sstable it =>
        obtain ⟨it', hrun, h'⟩ := @KvCursor.seek _ _ _ it _ _ t h
        exact ⟨.sstable it', by simp only [KvIterator.seek] at hrun ⊢; rw [hrun]; rfl, h'⟩
  suffix {it all rest} h := by
    cases it with
    | skipList it => exact @KvCursor.suffix _ _ _ it _ _ h
    | sstable it => exact @KvCursor.suffix _ _ _ it _ _ h
  bound {it all rest} h := by
    cases it with
    | skipList it => exact @KvCursor.bound _ _ _ it _ _ h
    | sstable it => exact @KvCursor.bound _ _ _ it _ _ h

end KvTableIterator
