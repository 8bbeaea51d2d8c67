import LightKV.KvStoreProofs
import LightKV.KvBlocksProofs

/-! # A key that does not fit its length field

    `Add` writes a key's length modulo `2 ^ 32` in front of the whole key, and
    `Finish` writes only so much of a block's last key to the index.  So a key of
    `2 ^ 32` bytes stands in the index as the empty string, among the keys of the
    blocks around it, and leads the binary search past the blocks in front of it:
    `Get` misses their keys (`Lost.get`), which an iterator goes through from the
    first on (`Lost.ahead_new`).  The long block need not be read for that, so it
    is the same however many bytes a `pread` moves. -/

namespace KvLongKey

open KWayMerge KvBlocks KvBytes KvDirectory KvEngine KvIterators KvMerging KvSkipList KvStore KvTable
open KvTableIterator KvWal LittleEndian Overlay

/-! ## The file -/

/-- An empty value. -/
abbrev emptyValue : TableValue := ⟨.kTypeValue, []⟩

/-- As much of a key as its length field counts. -/
def shown (key : Bytes) : Bytes := key.take (key.length % 2 ^ 32)

/-- The blocks, by as much of each key as the index on disk has. -/
def shownBlocks (cs : List (Bytes × List Entry)) : List (Bytes × List Entry) :=
  cs.map (fun c => (shown c.1, c.2))

theorem shown_of_lt {key : Bytes} (h : key.length < 2 ^ 32) : shown key = key := by
  rw [shown, Nat.mod_eq_of_lt h, List.take_length]

/-- The index on disk has only the shown part of a key. -/
theorem writeIndex_shownBlocks (cs : List (Bytes × List Entry)) (off : Nat) :
    writeIndex (indexWith off (shownBlocks cs)) = writeIndex (indexWith off cs) := by
  induction cs generalizing off with
  | nil => rfl
  | cons c cs ih =>
      have hlen : (shown c.1).length % 2 ^ 32 = c.1.length % 2 ^ 32 := by
        rw [shown, List.length_take, Nat.min_eq_left (Nat.mod_le _ _), Nat.mod_mod]
      have htake : (shown c.1).take (c.1.length % 2 ^ 32) = c.1.take (c.1.length % 2 ^ 32) := by
        rw [shown, List.take_take, Nat.min_self]
      have hrest := ih (off + (encodeBlock c.2).length)
      rw [shownBlocks] at hrest ⊢
      simp only [List.map_cons, indexWith, writeIndex, hlen, htake, hrest]

/-- An index is not much longer than blocks that are longer than their keys. -/
theorem length_writeIndex_indexWith {cs : List (Bytes × List Entry)}
    (h : ∀ c ∈ cs, c.1.length < (encodeBlock c.2).length) (off : Nat) :
    (writeIndex (indexWith off cs)).length ≤ 21 * (bytesOf cs).length := by
  induction cs generalizing off with
  | nil => exact Nat.zero_le _
  | cons c cs ih =>
      have hkey := h c List.mem_cons_self
      have htake := List.length_take_le' (c.1.length % 2 ^ 32) c.1
      have hrest := ih (fun x hx => h x (List.mem_cons_of_mem _ hx))
        (off + (encodeBlock c.2).length)
      simp only [bytesOf, List.map_cons, indexWith, writeIndex, blockBytes, List.flatMap_cons,
        List.length_append, length_leBytes] at hrest ⊢
      omega

/-! ## The builder, when every entry ends a block -/

/-- The builder has ended these blocks, and its buffer is empty. -/
structure Ended (b : SSTableBuilder) (cs : List (Bytes × List Entry)) : Prop where
  file : b.file = bytesOf cs
  offset : b.currentOffset = (bytesOf cs).length
  index : b.indexEntries = indexWith 0 cs
  buffer : b.blockBuffer = []
  finished : b.finished = false
  size : b.blockSize = blockSize

theorem ended_new : Ended (SSTableBuilder.new blockSize) [] := ⟨rfl, rfl, rfl, rfl, rfl, rfl⟩

variable {b : SSTableBuilder} {cs : List (Bytes × List Entry)}

/-- **`Add`** of an entry whose bytes, read as entries, fill a block. -/
theorem Ended.add (h : Ended b cs) {key value : Bytes} {type : ValueType} {es : List Entry}
    (hbytes : [type.raw] ++ leBytes 4 (key.length % 2 ^ 32)
        ++ leBytes 4 (if type = .kTypeDeletion then 0 else value.length % 2 ^ 32) ++ key
        ++ (if (if type = .kTypeDeletion then 0 else value.length % 2 ^ 32) > 0 then
              value.take (if type = .kTypeDeletion then 0 else value.length % 2 ^ 32)
            else [])
      = encodeBlock es)
    (hbig : blockSize ≤ (encodeBlock es).length) :
    Ended (b.add key value type) (cs ++ [(key, es)]) := by
  have hnil : (encodeBlock es).isEmpty = false := by
    rw [List.isEmpty_eq_false_iff]
    rintro heq
    rw [heq] at hbig
    exact absurd hbig (by decide)
  have hbytesOf : bytesOf (cs ++ [(key, es)]) = bytesOf cs ++ encodeBlock es := by
    rw [bytesOf_append]
    simp [bytesOf, blockBytes]
  rw [SSTableBuilder.add, if_neg (show ¬ b.finished = true by simp [h.finished])]
  simp only [h.buffer, List.nil_append, hbytes]
  rw [if_pos (h.size ▸ hbig), SSTableBuilder.flushBlock]
  simp only [hnil, Bool.false_eq_true, if_false]
  refine ⟨?_, ?_, ?_, rfl, h.finished, h.size⟩
  · rw [h.file, hbytesOf]
  · rw [h.offset, hbytesOf, List.length_append]
  · rw [indexWith_append, Nat.zero_add, h.index, h.offset]
    rfl

/-- An entry that fits, and fills a block. -/
def Big (kv : Entry) : Prop := Fits kv ∧ blockSize ≤ (encodeEntry kv).length

/-- Each of these entries is a block. -/
def single (l : List Entry) : List (Bytes × List Entry) := l.map (fun kv => (kv.1, [kv]))

theorem encodeBlock_singleton (kv : Entry) : encodeBlock [kv] = encodeEntry kv := by
  simp [encodeBlock]

theorem Ended.addAll {l : List Entry} (hl : ∀ kv ∈ l, Big kv) :
    ∀ {b : SSTableBuilder} {cs : List (Bytes × List Entry)}, Ended b cs →
      Ended (b.addAll l) (cs ++ single l) := by
  induction l with
  | nil =>
      intro b cs h
      rw [single, List.map_nil, List.append_nil]
      exact h
  | cons kv l ih =>
      intro b cs h
      obtain ⟨hfits, hbig⟩ := hl kv List.mem_cons_self
      have hbytes := encodeEntry_stored kv.1 kv.2 hfits.1
      rw [stored_of_fits hfits, ← encodeBlock_singleton] at hbytes
      have hone := h.add hbytes (by rwa [encodeBlock_singleton])
      have hrest := ih (fun x hx => hl x (List.mem_cons_of_mem _ hx)) hone
      rw [List.append_assoc] at hrest
      exact hrest

/-- **A key of `2 ^ 32` bytes**: its length field is zero, and its bytes read as the
    entries `es` behind an entry of the empty key. -/
def LongKey (key : Bytes) (es : List Entry) : Prop :=
  key = encodeBlock es ∧ key.length = 2 ^ 32 ∧ ∀ kv ∈ es, Fits kv

variable {key : Bytes} {es l₁ l₂ : List Entry}

theorem Ended.addLong (h : Ended b cs) (hkey : LongKey key es) :
    Ended (b.add key [] .kTypeValue) (cs ++ [(key, ([], emptyValue) :: es)]) := by
  obtain ⟨heq, hlen, -⟩ := hkey
  have hblock : encodeBlock (([], emptyValue) :: es) = encodeEntry ([], emptyValue) ++ key := by
    rw [heq]
    rfl
  refine h.add ?_ ?_
  · rw [hblock, hlen, Nat.mod_self]
    exact List.append_nil _
  · rw [hblock, List.length_append, hlen]
    exact Nat.le_trans (by norm_num [blockSize]) (Nat.le_add_left _ _)

/-- **`Finish`** writes the blocks, and an index of the keys as they are shown. -/
theorem Ended.finish (h : Ended b cs) (hne : cs ≠ [])
    (hlen : (layout (bytesOf cs) (indexWith 0 (shownBlocks cs))).length < 2 ^ 62) :
    ∃ b', b.finish = .ok (b', true)
      ∧ b'.file = layout (bytesOf cs) (indexWith 0 (shownBlocks cs)) := by
  have hfile : b.file ++ writeIndex b.indexEntries ++ Footer.bytes
      ⟨b.currentOffset, (writeIndex b.indexEntries).length, kSSTableMagicNumber⟩
      = layout (bytesOf cs) (indexWith 0 (shownBlocks cs)) := by
    rw [h.file, h.index, h.offset, layout, writeIndex_shownBlocks]
  have hidx : b.indexEntries.isEmpty = false := by
    rw [h.index]
    cases cs with
    | nil => exact absurd rfl hne
    | cons c cs => rfl
  have hbuf : b.blockBuffer.isEmpty = true := by
    rw [h.buffer]
    rfl
  simp only [SSTableBuilder.finish, h.finished, Bool.false_eq_true, if_false, hbuf, if_true, hidx,
    hfile]
  rw [if_pos hlen]
  exact ⟨_, rfl, rfl⟩

/-! ## The table of a long key among others -/

/-- The blocks of a long key among entries that fill a block each. -/
def lostBlocks (l₁ es l₂ : List Entry) : List (Bytes × List Entry) :=
  single l₁ ++ ([], ([], emptyValue) :: es) :: single l₂

/-- Its file. -/
def lostFile (l₁ es l₂ : List Entry) : Bytes :=
  layout (bytesOf (lostBlocks l₁ es l₂)) (indexWith 0 (lostBlocks l₁ es l₂))

theorem shownBlocks_single {l : List Entry} (hl : ∀ kv ∈ l, Fits kv) :
    shownBlocks (single l) = single l := by
  rw [shownBlocks, single, List.map_map]
  refine List.map_congr_left ?_
  intro kv hkv
  exact congrArg (·, [kv]) (shown_of_lt (hl kv hkv).1)

/-- What `Add` noted of the blocks, as it is shown. -/
theorem shownBlocks_lost (h₁ : ∀ kv ∈ l₁, Fits kv) (h₂ : ∀ kv ∈ l₂, Fits kv)
    (hlen : key.length = 2 ^ 32) :
    shownBlocks (single l₁ ++ (key, ([], emptyValue) :: es) :: single l₂)
      = lostBlocks l₁ es l₂ := by
  have hshown : shown key = [] := by rw [shown, hlen, Nat.mod_self, List.take_zero]
  have happ : ∀ cs ds, shownBlocks (cs ++ ds) = shownBlocks cs ++ shownBlocks ds :=
    fun cs ds => List.map_append
  have hcons : ∀ c cs, shownBlocks (c :: cs) = (shown c.1, c.2) :: shownBlocks cs :=
    fun c cs => List.map_cons
  rw [happ, hcons, shownBlocks_single h₁, shownBlocks_single h₂, hshown]
  rfl

theorem bytesOf_single (l : List Entry) : bytesOf (single l) = encodeBlock l := by
  rw [bytesOf, single, List.map_map, blockBytes, List.flatMap_map]
  exact List.flatMap_congr (fun kv _ => encodeBlock_singleton kv)

theorem bytesOf_lost : bytesOf (lostBlocks l₁ es l₂)
    = encodeBlock l₁ ++ (encodeBlock (([], emptyValue) :: es) ++ encodeBlock l₂) := by
  rw [lostBlocks, bytesOf_append, bytesOf_single, ← bytesOf_single l₂]
  rfl

/-- **The file is small enough** when the other entries are. -/
theorem length_lostFile (hkey : LongKey key es) (h₁ : (encodeBlock l₁).length < 2 ^ 56)
    (h₂ : (encodeBlock l₂).length < 2 ^ 56) : (lostFile l₁ es l₂).length < 2 ^ 62 := by
  have hmid : (encodeBlock (([], emptyValue) :: es)).length = 9 + 2 ^ 32 := by
    show (encodeEntry ([], emptyValue) ++ encodeBlock es).length = _
    rw [← hkey.1, List.length_append, hkey.2.1]
    rfl
  have hbytes : (bytesOf (lostBlocks l₁ es l₂)).length
      = (encodeBlock l₁).length + ((9 + 2 ^ 32) + (encodeBlock l₂).length) := by
    rw [bytesOf_lost, List.length_append, List.length_append, hmid]
  have hindex := @length_writeIndex_indexWith (lostBlocks l₁ es l₂) (by
    have hsingle : ∀ l, ∀ c ∈ single l, c.1.length < (encodeBlock c.2).length := by
      intro l c hc
      obtain ⟨kv, -, rfl⟩ := List.mem_map.mp hc
      rw [encodeBlock_singleton, encodeEntry]
      simp only [List.length_append, List.length_singleton]
      omega
    intro c hc
    rcases List.mem_append.mp hc with hc' | hc'
    · exact hsingle l₁ c hc'
    · rcases List.mem_cons.mp hc' with rfl | hc''
      · rw [hmid]
        exact Nat.succ_pos _
      · exact hsingle l₂ c hc'') 0
  rw [hbytes] at hindex
  simp only [lostFile, layout, Footer.bytes, List.length_append, length_leBytes, hbytes]
  omega

/-! ## Reading it -/

variable {r : SSTableReader}

/-- **The reader has the file open**, and the long block stands where the search
    looks first. -/
structure Lost (r : SSTableReader) (l₁ es l₂ : List Entry) : Prop where
  index : r.indexEntries = indexWith 0 (lostBlocks l₁ es l₂)
  file : r.fd = lostFile l₁ es l₂
  length : r.fd.length < 2 ^ 62
  fits : ∀ kv ∈ l₁ ++ es ++ l₂, Fits kv
  sorted : KeySorted (l₁ ++ l₂)
  middle : (l₁.length + (l₂.length + 1)) / 2 = l₁.length

theorem length_lostBlocks (l₁ es l₂ : List Entry) :
    (lostBlocks l₁ es l₂).length = l₁.length + (l₂.length + 1) := by
  rw [lostBlocks, List.length_append, List.length_cons, single, single, List.length_map,
    List.length_map]

/-- Its blocks. -/
theorem Lost.blocks (h : Lost r l₁ es l₂) :
    Blocks r (readBlocks r.maxRead (lostBlocks l₁ es l₂)) := by
  have hfd := h.file
  rw [lostFile, layout, List.append_assoc] at hfd
  refine blocks_indexWith h.index hfd h.length ?_
  have hsingle : ∀ l : List Entry, (∀ kv ∈ l, Fits kv) → ∀ c ∈ single l, ∀ kv ∈ c.2, Fits kv := by
    intro l hl c hc kv hkv
    obtain ⟨x, hx, rfl⟩ := List.mem_map.mp hc
    rw [List.mem_singleton.mp hkv]
    exact hl x hx
  have hfits := h.fits
  simp only [List.mem_append] at hfits
  intro c hc
  rcases List.mem_append.mp hc with hc' | hc'
  · exact hsingle l₁ (fun kv hkv => hfits kv (Or.inl (Or.inl hkv))) c hc'
  · rcases List.mem_cons.mp hc' with rfl | hc''
    · intro kv hkv
      rcases List.mem_cons.mp hkv with rfl | hkv'
      · exact ⟨by decide, Or.inr ⟨rfl, by decide⟩⟩
      · exact hfits kv (Or.inl (Or.inr hkv'))
    · exact hsingle l₂ (fun kv hkv => hfits kv (Or.inr hkv)) c hc''

/-- The key of a block in the index. -/
theorem Lost.key_at (h : Lost r l₁ es l₂) (i : Nat) :
    (r.indexEntries[i]?).map IndexEntry.maxKey
      = (l₁.map Prod.fst ++ [] :: l₂.map Prod.fst)[i]? := by
  have hkeys : ∀ (cs : List (Bytes × List Entry)) (off : Nat),
      (indexWith off cs).map IndexEntry.maxKey = cs.map Prod.fst := by
    intro cs
    induction cs with
    | nil => exact fun _ => rfl
    | cons c cs ih => exact fun off => congrArg (c.1 :: ·) (ih _)
  rw [← List.getElem?_map, h.index, hkeys, lostBlocks, List.map_append, List.map_cons, single,
    single, List.map_map, List.map_map]
  rfl

/-- Whether the search goes on behind a position. -/
theorem Lost.below (h : Lost r l₁ es l₂) (key : Bytes) (i : Nat) :
    r.indexEntries[i]?.any (fun e => e.maxKey < key)
      = ((l₁.map Prod.fst ++ [] :: l₂.map Prod.fst)[i]?).any (fun k => k < key) := by
  rw [← h.key_at, Option.any_map]

/-- **The search for the empty key** ends at the first block. -/
theorem findBlockIndex_nil (r : SSTableReader) : r.findBlockIndex [] = 0 := by
  have hnone : ∀ i : Nat, r.indexEntries[i]?.any (fun e => e.maxKey < []) = false := by
    intro i
    cases r.indexEntries[i]? with
    | none => rfl
    | some e => exact decide_eq_false (List.not_lt_nil e.maxKey)
  exact LowerBound.search_eq_of_split 0 _ (Nat.le_refl _) (Nat.zero_le _)
    (fun i _ hi => absurd hi (Nat.not_lt_zero i)) (fun i _ _ => hnone i)

/-- **The search for a key in front of the long one** ends behind it. -/
theorem Lost.findBlockIndex (h : Lost r l₁ es l₂) {kv : Entry} (hkv : kv ∈ l₁) (hne : kv.1 ≠ []) :
    r.findBlockIndex kv.1 = l₁.length + 1 := by
  have hlen : r.indexEntries.length = l₁.length + (l₂.length + 1) := by
    rw [h.index, length_indexWith, length_lostBlocks]
  have hlong : r.indexEntries[0 + r.indexEntries.length / 2]?.any (fun e => e.maxKey < kv.1) = true := by
    rw [h.below, hlen, h.middle, Nat.zero_add,
      List.getElem?_append_right (by rw [List.length_map]), List.length_map, Nat.sub_self]
    obtain ⟨b, tail, heq⟩ := List.exists_cons_of_ne_nil hne
    exact decide_eq_true (heq ▸ List.nil_lt_cons b tail)
  have hpos : r.indexEntries.length ≠ 0 := by omega
  -- behind the long block all keys are above
  have habove : ∀ i, l₁.length + 1 ≤ i →
      r.indexEntries[i]?.any (fun e => e.maxKey < kv.1) = false := by
    intro i hi
    rw [h.below, List.getElem?_append_right (by rw [List.length_map]; omega), List.length_map]
    obtain ⟨j, hj⟩ : ∃ j, i - l₁.length = j + 1 := ⟨i - l₁.length - 1, by omega⟩
    rw [hj, List.getElem?_cons_succ, List.getElem?_map]
    cases hl : l₂[j]? with
    | none => rfl
    | some kv' =>
        have hlt := (List.pairwise_append.mp h.sorted).2.2 kv hkv kv' (List.mem_of_getElem? hl)
        exact decide_eq_false (not_lt.mpr hlt.le)
  rw [SSTableReader.findBlockIndex, LowerBound.search, if_neg hpos, if_pos hlong, hlen, h.middle,
    Nat.zero_add]
  exact LowerBound.search_eq_of_split _ _ (Nat.le_refl _) (Nat.le_add_right _ _)
    (fun i hlow hi => absurd hi (Nat.not_lt.mpr hlow)) (fun i hi _ => habove i hi)

/-- **`Get` misses it**, whether or not the block behind the long one is read. -/
theorem Lost.get (h : Lost r l₁ es l₂) {kv : Entry} (hkv : kv ∈ l₁) (hne : kv.1 ≠ []) :
    r.get kv.1 = .ok none := by
  have hfind := h.findBlockIndex hkv hne
  rw [get_eq_search, hfind]
  cases l₂ with
  | nil =>
      have hout : r.indexEntries[l₁.length + 1]? = none := by
        rw [List.getElem?_eq_none_iff, h.index, length_indexWith, length_lostBlocks]
        exact Nat.le_refl _
      rw [SSTableReader.readDataBlock, hout]
      rfl
  | cons kv' l₂ =>
      have hblock := h.blocks.block
        (readBlocks r.maxRead (single l₁ ++ [([], ([], emptyValue) :: es)]))
        (readable r.maxRead [kv']) (readBlocks r.maxRead (single l₂)) (by
          simp [readBlocks, lostBlocks, single])
      have hlen : (readBlocks r.maxRead (single l₁ ++ [([], ([], emptyValue) :: es)])).length
          = l₁.length + 1 := by simp [readBlocks, single]
      rw [hlen] at hblock
      have hlt := (List.pairwise_append.mp h.sorted).2.2 kv hkv kv' List.mem_cons_self
      have hsub : ∀ x ∈ readable r.maxRead [kv'], x = kv' :=
        fun x hx => List.mem_singleton.mp (readable_subset hx)
      have hsorted : KeySorted (readable r.maxRead [kv']) := by
        rw [readable]
        split
        · exact List.pairwise_singleton _ _
        · exact List.Pairwise.nil
      rw [hblock, ok_bind, searchInDataBlock_spec kv.1 _ _ (by
        intro x hx
        rw [hsub x hx]
        exact h.fits kv' (by simp)) hsorted (Nat.le_refl _)]
      refine congrArg Except.ok (lookup_eq_none_iff_forall.mpr ?_)
      intro x hx
      rw [hsub x hx]
      exact hlt.ne'

/-! ## The iterator of the engine -/

/-- The iterator of an empty memtable is at its end, and stays there. -/
theorem skipList_end {skiplist : SkipList Bytes TableValue} (hmem : Models skiplist []) :
    ∃ mem mem', SkipListIterator.new skiplist ⊤ [] = .ok mem
      ∧ KvIterator.seek (EngineIterator.skipList mem) [] = .ok (EngineIterator.skipList mem')
      ∧ KvIterator.valid (EngineIterator.skipList mem) = false
      ∧ KvIterator.valid (EngineIterator.skipList mem') = false := by
  obtain ⟨mem, hnew, hat⟩ := skipListIterator_at hmem ⊤ []
  obtain ⟨mem', hseek, hat'⟩ := KvCursor.seek [] hat
  refine ⟨mem, mem', hnew, ?_, KvCursor.valid hat, KvCursor.valid hat'⟩
  simp only [KvIterator.seek] at hseek ⊢
  rw [hseek]
  rfl

/-- What is read of the blocks begins with the entries in front. -/
theorem flatten_readBlocks {maxRead : Nat} (hmax : ∀ kv ∈ l₁, (encodeEntry kv).length ≤ maxRead) :
    ∃ more, (readBlocks maxRead (lostBlocks l₁ es l₂)).flatten = l₁ ++ more := by
  refine ⟨(readBlocks maxRead (([], ([], emptyValue) :: es) :: single l₂)).flatten, ?_⟩
  have happ : ∀ cs ds, readBlocks maxRead (cs ++ ds) = readBlocks maxRead cs ++ readBlocks maxRead ds :=
    fun cs ds => List.map_append
  have hsingle : ∀ l : List Entry, (∀ kv ∈ l, (encodeEntry kv).length ≤ maxRead) →
      (readBlocks maxRead (single l)).flatten = l := by
    intro l
    induction l with
    | nil => exact fun _ => rfl
    | cons kv l ih =>
        intro hl
        have hone : readable maxRead [kv] = [kv] := readable_of_le (by
          rw [encodeBlock_singleton]
          exact hl kv List.mem_cons_self)
        have hrest := ih (fun x hx => hl x (List.mem_cons_of_mem _ hx))
        simp only [readBlocks, single, List.map_cons, List.flatten_cons, hone] at hrest ⊢
        rw [hrest]
        rfl
  rw [lostBlocks, happ, List.flatten_append, hsingle l₁ hmax]

/-- All but the last entry, when there are two and more. -/
theorem dropLast_map_cons {sequence : Sequence} {kv : Entry} {l : List Entry} (hne : l ≠ []) :
    ((kv :: l).map (toEntry sequence)).dropLast = (kv :: l.dropLast).map (toEntry sequence) := by
  rw [← List.map_dropLast, List.dropLast_cons_of_ne_nil hne]

/-- **A `Seek` to the empty key** brings a merge of the table and an empty memtable to
    the first entry, from wherever the table's iterator stands. -/
theorem Lost.seek {kv₁ kv₂ : Entry} {l : List Entry} (h : Lost r (kv₁ :: kv₂ :: l) es l₂)
    (hne : l ≠ []) (hmax : ∀ kv ∈ kv₁ :: kv₂ :: l, (encodeEntry kv).length ≤ r.maxRead)
    {mem mem' : SkipListIterator}
    (hmem : KvIterator.seek (EngineIterator.skipList mem) [] = .ok (.skipList mem'))
    (hend : KvIterator.valid (EngineIterator.skipList mem') = false) {c : SSTableIterator}
    (hr : c.reader = r) (hseq : c.sequence = (r.sequence : Sequence)) (x : IteratorEntry) :
    ∃ m', KvIterator.seek (lone (EngineIterator.skipList mem) (.sstable c) x) [] = .ok m'
      ∧ Leads m' ((kv₁ :: kv₂ :: l.dropLast).map (toEntry r.sequence)) := by
  have hb := h.blocks
  obtain ⟨more, hflat⟩ := @flatten_readBlocks es _ l₂ _ hmax
  obtain ⟨c', hrun, hc'⟩ := ahead_seek hb (findBlockIndex_nil r) hr hseq
  rw [lostBlocks] at hflat
  have hc : Ahead r r.sequence _ c' ((kv₁ :: kv₂ :: l) ++ more) := hflat ▸ hc'
  have hleads := leads_sstable (leads_of_ahead hb (List.cons_ne_nil kv₁ (kv₂ :: l)) hc)
  have hasc : Ascending IteratorEntry.key ((kv₁ :: kv₂ :: l).map (toEntry (r.sequence : Sequence))) :=
    ascending_map_toEntry (List.pairwise_append.mp h.sorted).1 _
  have hsst : KvIterator.seek (EngineIterator.sstable c) [] = .ok (.sstable c') := by
    show (c.seek [] >>= fun it => pure (EngineIterator.sstable it)) = _
    rw [hrun]
    rfl
  obtain ⟨c₁, hm, hml⟩ := leads_seek_lone hleads (by simp) hasc hmem hend hsst x
  rw [dropLast_map_cons hne] at hml
  exact ⟨_, hm, hml⟩

/-- **The engine's iterator goes through the entries in front of the long one**, new
    and after a `Seek` to the empty key, from its first entry and from its second. -/
theorem Lost.newIterator {kv₁ kv₂ : Entry} {l : List Entry} (h : Lost r (kv₁ :: kv₂ :: l) es l₂)
    (hne : l ≠ []) (hmax : ∀ kv ∈ kv₁ :: kv₂ :: l, (encodeEntry kv).length ≤ r.maxRead)
    {e : KVEngine} (hmem : Models e.skiplist []) (htables : e.sstables = [r]) :
    ∃ it it', e.newIterator = .ok it ∧ KvIterator.next it = .ok it'
      ∧ Leads it ((kv₁ :: kv₂ :: l.dropLast).map (toEntry r.sequence))
      ∧ Leads it' ((kv₂ :: l.dropLast).map (toEntry r.sequence))
      ∧ ∀ m, m = it ∨ m = it' → ∃ m', KvIterator.seek m [] = .ok m'
        ∧ Leads m' ((kv₁ :: kv₂ :: l.dropLast).map (toEntry r.sequence)) := by
  have hb := h.blocks
  obtain ⟨more, hflat⟩ := @flatten_readBlocks es _ l₂ _ hmax
  obtain ⟨mem, mem', hnewMem, hseekMem, hmemEnd, hmemEnd'⟩ := skipList_end hmem
  -- the iterator of the table, new and after one and two calls of `Next`
  obtain ⟨c, hnew, hc⟩ := ahead_new hb (r.sequence : Sequence)
  rw [hflat] at hc
  obtain ⟨c₁, hnext, hc₁⟩ := ahead_next hb hc
  obtain ⟨c₂, hnext₁, hc₂⟩ := ahead_next hb hc₁
  have hleads := leads_sstable (leads_of_ahead hb (List.cons_ne_nil kv₁ (kv₂ :: l)) hc)
  have hleads₁ := leads_sstable (@leads_of_ahead _ _ hb _ (kv₂ :: l) more _ (List.cons_ne_nil _ _) hc₁)
  have hleads₂ := leads_sstable (@leads_of_ahead _ _ hb _ l more _ hne hc₂)
  have hasc : Ascending IteratorEntry.key ((kv₁ :: kv₂ :: l).map (toEntry (r.sequence : Sequence))) :=
    ascending_map_toEntry (List.pairwise_append.mp h.sorted).1 _
  obtain ⟨hrun, hlead⟩ := leads_new_lone hleads (next_sstable hnext) hleads₁ hasc hmemEnd
  rw [dropLast_map_cons hne] at hlead
  have hstep := @next_lone _ _ (.sstable c₁) (.sstable c₂) (EngineIterator.skipList mem)
    (toEntry r.sequence kv₁) hleads₁.head.1
    (by rw [hleads₁.head.2]; exact (hasc.head_lt _ List.mem_cons_self).ne') (next_sstable hnext₁)
    (fun _ => by rw [hleads₁.head.2]; exact hleads₂.next_ne hasc.tail)
  rw [hleads₁.head.2] at hstep
  refine ⟨_, _, ?_, hstep, hlead, ?_, ?_⟩
  · simp only [KVEngine.newIterator, hnewMem, htables, tableIterators, hnew, ok_bind]
    exact hrun
  · have hmapped := @leads_lone _ _ _ (EngineIterator.skipList mem) _ hleads₂ _ hasc.tail
    rwa [← List.map_dropLast] at hmapped
  · rintro m (rfl | rfl)
    · exact h.seek hne hmax hseekMem hmemEnd' hc₁.1 hc₁.2.1 _
    · exact h.seek hne hmax hseekMem hmemEnd' hc₂.1 hc₂.2.1 _

/-- `get` of an engine with such a table. -/
theorem Lost.get_engine (h : Lost r l₁ es l₂) {e : KVEngine} (hmem : Models e.skiplist [])
    (htables : e.sstables = [r]) {kv : Entry} (hkv : kv ∈ l₁) (hne : kv.1 ≠ []) :
    e.get kv.1 = .ok none := by
  simp only [KVEngine.get, models_get hmem, List.lookup_nil, ok_bind, htables, getFromTables,
    h.get hkv hne]
  rfl

/-! ## Flushing it -/

theorem indexFits_indexWith {cs : List (Bytes × List Entry)} (h : ∀ c ∈ cs, c.1.length < 2 ^ 32)
    {off : Nat} (hlen : off + (bytesOf cs).length < 2 ^ 64) :
    ∀ e ∈ indexWith off cs, IndexFits e := by
  induction cs generalizing off with
  | nil => exact fun e he => absurd he List.not_mem_nil
  | cons c cs ih =>
      simp only [bytesOf, List.map_cons, blockBytes, List.flatMap_cons, List.length_append] at ih hlen
      intro e he
      rcases List.mem_cons.mp he with rfl | he'
      · exact ⟨h c List.mem_cons_self, by simp only; omega, by simp only; omega⟩
      · exact ih (fun x hx => h x (List.mem_cons_of_mem _ hx)) (by omega) e he'

/-- Entries that fill a block each, in order, around a long key. -/
structure Around (key : Bytes) (es l₁ l₂ : List Entry) : Prop where
  long : LongKey key es
  before : ∀ kv ∈ l₁, Big kv
  after : ∀ kv ∈ l₂, Big kv
  sorted : KeySorted (l₁ ++ (key, emptyValue) :: l₂)
  lengthBefore : (encodeBlock l₁).length < 2 ^ 56
  lengthAfter : (encodeBlock l₂).length < 2 ^ 56
  middle : (l₁.length + (l₂.length + 1)) / 2 = l₁.length

/-- **The table of such a memtable.** -/
theorem Around.buildTable (h : Around key es l₁ l₂) :
    KvEngine.buildTable (l₁ ++ (key, emptyValue) :: l₂) = .ok (lostFile l₁ es l₂) := by
  have hfits₁ : ∀ kv ∈ l₁, Fits kv := fun kv hkv => (h.before kv hkv).1
  have hfits₂ : ∀ kv ∈ l₂, Fits kv := fun kv hkv => (h.after kv hkv).1
  have hended := ((ended_new.addAll h.before).addLong h.long).addAll h.after
  rw [List.nil_append, List.append_assoc] at hended
  have hsplit : (SSTableBuilder.new blockSize).addAll (l₁ ++ (key, emptyValue) :: l₂)
      = (((SSTableBuilder.new blockSize).addAll l₁).add key [] .kTypeValue).addAll l₂ := by
    rw [SSTableBuilder.addAll, List.foldl_append]
    rfl
  have hbytes : bytesOf (single l₁ ++ (key, ([], emptyValue) :: es) :: single l₂)
      = bytesOf (lostBlocks l₁ es l₂) := by
    rw [lostBlocks, bytesOf_append, bytesOf_append]
    rfl
  have hfile : layout (bytesOf (single l₁ ++ ([(key, ([], emptyValue) :: es)] ++ single l₂)))
      (indexWith 0 (shownBlocks (single l₁ ++ ([(key, ([], emptyValue) :: es)] ++ single l₂))))
      = lostFile l₁ es l₂ := by
    rw [lostFile, ← hbytes, ← shownBlocks_lost hfits₁ hfits₂ h.long.2.1]
    rfl
  obtain ⟨b, hfinish, hb⟩ := hended.finish (by simp)
    (hfile ▸ length_lostFile h.long h.lengthBefore h.lengthAfter)
  rw [hfile] at hb
  simp only [KvEngine.buildTable, hsplit, hfinish, ok_bind, ← hb]
  rfl

/-- The reader of its file. -/
theorem Around.lost (h : Around key es l₁ l₂) (filename : Bytes) (maxRead sequence : Nat) :
    Lost ⟨filename, lostFile l₁ es l₂, maxRead, indexWith 0 (lostBlocks l₁ es l₂), sequence⟩
      l₁ es l₂ where
  index := rfl
  file := rfl
  length := length_lostFile h.long h.lengthBefore h.lengthAfter
  fits := by
    intro kv hkv
    simp only [List.mem_append] at hkv
    rcases hkv with (hkv' | hkv') | hkv'
    · exact (h.before kv hkv').1
    · exact h.long.2.2 kv hkv'
    · exact (h.after kv hkv').1
  sorted := by
    obtain ⟨hs₁, hs₂, hcross⟩ := List.pairwise_append.mp h.sorted
    exact List.pairwise_append.mpr ⟨hs₁, (List.pairwise_cons.mp hs₂).2,
      fun a ha b hb => hcross a ha b (List.mem_cons_of_mem _ hb)⟩
  middle := h.middle

/-- **`Open`** accepts the file. -/
theorem Around.open (h : Around key es l₁ l₂) (filename : Bytes) (sequence : Nat) :
    SSTableReader.open filename (some (lostFile l₁ es l₂)) sequence = .ok (some
      ⟨filename, lostFile l₁ es l₂, wholeReads, indexWith 0 (lostBlocks l₁ es l₂), sequence⟩) := by
  have hlen := length_lostFile h.long h.lengthBefore h.lengthAfter
  have hparts := hlen
  simp only [lostFile, layout, List.length_append] at hparts
  refine open_layout (indexFits_indexWith ?_ (by omega)) hlen (by rw [wholeReads]; omega) filename
    sequence
  have hsingle : ∀ l : List Entry, (∀ kv ∈ l, Big kv) → ∀ c ∈ single l, c.1.length < 2 ^ 32 := by
    intro l hl c hc
    obtain ⟨kv, hkv, rfl⟩ := List.mem_map.mp hc
    exact (hl kv hkv).1.1
  intro c hc
  rcases List.mem_append.mp hc with hc' | hc'
  · exact hsingle l₁ h.before c hc'
  · rcases List.mem_cons.mp hc' with rfl | hc''
    · exact of_decide_eq_true rfl
    · exact hsingle l₂ h.after c hc''

/-- **A flush of such a memtable** leaves a table that misses the keys in front of
    the long one. -/
theorem Around.flush (h : Around key es l₁ l₂) {e : KVEngine}
    (hmem : Models e.skiplist (l₁ ++ (key, emptyValue) :: l₂)) :
    ∃ e' r, e.flushMemTable = .ok e' ∧ Models e'.skiplist [] ∧ e'.sstables = r :: e.sstables
      ∧ r.maxRead = wholeReads ∧ ∀ maxRead, Lost (r.upTo maxRead) l₁ es l₂ := by
  have hpos : ¬ e.skiplist.size = 0 := by
    rw [models_size hmem]
    simp
  have hlook : (upsert (getSstPath (e.sstCounter + 1)) (lostFile l₁ es l₂) e.dir).lookup
      (getSstPath (e.sstCounter + 1)) = some (lostFile l₁ es l₂) := by
    rw [lookup_upsert, if_pos rfl]
  obtain ⟨skiplist, hclear, hnil, -⟩ := models_clear hmem
  -- `Open` accepts the file, so the flush inserts its reader
  have hwrite : ∃ e₁, e.writeTable = .ok e₁ ∧ e₁.skiplist = e.skiplist
      ∧ e₁.sstables = ⟨getSstPath (e.sstCounter + 1), lostFile l₁ es l₂, wholeReads,
          indexWith 0 (lostBlocks l₁ es l₂), e.sstCounter + 1⟩ :: e.sstables := by
    simp only [KVEngine.writeTable, models_dumpAll hmem, ok_bind, h.buildTable, hlook, h.open]
    exact ⟨_, rfl, rfl, rfl⟩
  obtain ⟨e₁, hrun, hskip, htables⟩ := hwrite
  have hskip' : e₁.rotateWal.skiplist = e.skiplist := hskip
  refine ⟨{ e₁.rotateWal with
    skiplist := skiplist, dir := removeWalFile e₁.rotateWal.dir e.currentWalPath }, _, ?_, hnil,
    htables, rfl, fun maxRead => h.lost _ maxRead _⟩
  simp only [KVEngine.flushMemTable, if_neg hpos, hrun, ok_bind, hskip', hclear]
  rfl

/-! ## Writing it -/

/-- A put, as the memtable holds it. -/
def entryOf (kv : Bytes × Bytes) : Entry := (kv.1, ⟨.kTypeValue, kv.2⟩)

/-- Short keys around the long one, which begins with `[1, 0, 128, 0, 0, 247]`. -/
def fillerKey (a b : UInt8) (i : Nat) : Bytes :=
  [1, 0, 128, a, 0, b, UInt8.ofNat (i / 256), UInt8.ofNat i]

/-- Puts of such keys, with values that fill a block. -/
def fillers (a b : UInt8) (n : Nat) : List (Bytes × Bytes) :=
  (List.range n).map (fun i => (fillerKey a b i, List.replicate blockSize 0))

/-- What a key of `2 ^ 32` bytes reads as: a key and a value of its own. -/
@[irreducible] def longEntry : Entry :=
  (List.replicate 32768 255, ⟨.kTypeValue, List.replicate (2 ^ 32 - 32777) 0⟩)

/-- That key. -/
@[irreducible] def longKey : Bytes := encodeBlock [longEntry]

/-- Puts of the long key among others. -/
@[irreducible] def lostPuts (p q : Nat) : List (Bytes × Bytes) :=
  fillers 0 1 p ++ (longKey, []) :: fillers 1 0 q

theorem longEntry_eq : longEntry.1 = List.replicate 32768 255
    ∧ longEntry.2.type = .kTypeValue ∧ longEntry.2.value.length = 2 ^ 32 - 32777 := by
  rw [longEntry]
  exact ⟨rfl, rfl, List.length_replicate⟩

theorem length_longEntry : longEntry.1.length = 32768 := by
  rw [longEntry_eq.1]
  exact List.length_replicate

/-- Its fields, and then its key and its value. -/
theorem longKey_bytes : longKey
    = [1, 0, 128, 0, 0, 247, 127, 255, 255] ++ longEntry.1 ++ longEntry.2.value := by
  obtain ⟨-, htype, hvalue⟩ := longEntry_eq
  have hfields : [ValueType.kTypeValue.raw] ++ leBytes 4 32768 ++ leBytes 4 (2 ^ 32 - 32777)
      = [1, 0, 128, 0, 0, 247, 127, 255, 255] := by decide
  rw [longKey, encodeBlock_singleton, encodeEntry, length_longEntry, hvalue, htype, hfields]

theorem longKey_long : LongKey longKey [longEntry] := by
  obtain ⟨-, htype, hvalue⟩ := longEntry_eq
  refine ⟨by rw [longKey], ?_, ?_⟩
  · have hfields : ([1, 0, 128, 0, 0, 247, 127, 255, 255] : Bytes).length = 9 := rfl
    rw [longKey_bytes, List.length_append, List.length_append, hfields, length_longEntry, hvalue]
    omega
  · intro kv hkv
    rw [List.mem_singleton.mp hkv]
    exact ⟨by rw [length_longEntry]; omega, Or.inr ⟨htype, by rw [hvalue]; omega⟩⟩

/-- **The long key's first bytes.** -/
theorem longKey_eq : ∃ rest, longKey = [1, 0, 128, 0, 0, 247, 127, 255, 255, 255] ++ rest := by
  refine ⟨List.replicate 32767 255 ++ longEntry.2.value, ?_⟩
  rw [longKey_bytes, longEntry_eq.1, List.replicate_succ]
  simp only [List.cons_append, List.nil_append]

theorem fillerKey_lt {a b : UInt8} {i j : Nat} (hij : i < j) (hj : j < 65536) :
    fillerKey a b i < fillerKey a b j := by
  have hhigh : ∀ {k}, k < 65536 → (UInt8.ofNat (k / 256)).toNat = k / 256 := by
    intro k hk
    rw [UInt8.toNat_ofNat']
    omega
  have hlow : ∀ k, (UInt8.ofNat k).toNat = k % 256 := fun k => UInt8.toNat_ofNat'
  -- the keys differ in their last two bytes
  have hbytes : [UInt8.ofNat (i / 256), UInt8.ofNat i] < [UInt8.ofNat (j / 256), UInt8.ofNat j] := by
    rw [List.cons_lt_cons_iff]
    rcases (Nat.div_le_div_right (c := 256) hij.le).lt_or_eq with hlt | heq
    · refine Or.inl (UInt8.lt_iff_toNat_lt.mpr ?_)
      rw [hhigh (hij.trans hj), hhigh hj]
      exact hlt
    · refine Or.inr ⟨by rw [heq], List.cons_lt_cons_iff.mpr (Or.inl (UInt8.lt_iff_toNat_lt.mpr ?_))⟩
      rw [hlow, hlow]
      omega
  simpa only [fillerKey, List.cons_lt_cons_self] using hbytes

theorem fillers_succ (a b : UInt8) (n : Nat) :
    fillers a b (n + 1) = fillers a b n ++ [(fillerKey a b n, List.replicate blockSize 0)] := by
  rw [fillers, List.range_succ, List.map_append, ← fillers]
  rfl

/-- The first two of the fillers. -/
theorem fillers_two (a b : UInt8) (n : Nat) : ∃ l : List Entry, l.length = n
    ∧ (fillers a b (n + 2)).map entryOf
      = entryOf (fillerKey a b 0, List.replicate blockSize 0)
        :: entryOf (fillerKey a b 1, List.replicate blockSize 0) :: l := by
  refine ⟨(List.range n).map
    (fun i => entryOf (fillerKey a b (i + 2), List.replicate blockSize 0)), by simp, ?_⟩
  rw [fillers, List.range_succ_eq_map, List.range_succ_eq_map]
  simp only [List.map_cons, List.map_map]
  rfl

/-- What holds of every filler. -/
theorem forall_fillers {P : Entry → Prop} {a b : UInt8} {n : Nat}
    (h : ∀ i, i < n → P (fillerKey a b i, ⟨.kTypeValue, List.replicate blockSize 0⟩)) :
    ∀ kv ∈ (fillers a b n).map entryOf, P kv := by
  intro kv hkv
  obtain ⟨x, hx, rfl⟩ := List.mem_map.mp hkv
  obtain ⟨i, hi, rfl⟩ := List.mem_map.mp hx
  exact h i (List.mem_range.mp hi)

theorem length_encodeEntry_filler (a b : UInt8) (i : Nat) :
    (encodeEntry (fillerKey a b i, ⟨.kTypeValue, List.replicate blockSize 0⟩)).length
      = blockSize + 17 := by
  simp only [encodeEntry, fillerKey, List.length_append, List.length_cons, List.length_nil,
    length_leBytes, List.length_replicate]
  omega

/-- A filler is read whole when a `pread` moves a block of the usual size. -/
theorem small_fillers (a b : UInt8) (n : Nat) {maxRead : Nat} (hmax : 2 ^ 13 ≤ maxRead) :
    ∀ kv ∈ (fillers a b n).map entryOf, (encodeEntry kv).length ≤ maxRead := by
  refine forall_fillers ?_
  intro i _
  rw [length_encodeEntry_filler]
  exact Nat.le_trans (by decide) hmax

theorem length_encodeBlock_fillers (a b : UInt8) (n : Nat) :
    (encodeBlock ((fillers a b n).map entryOf)).length = (blockSize + 17) * n := by
  induction n with
  | zero => rfl
  | succ n ih =>
      rw [fillers_succ, List.map_append, encodeBlock_append, List.length_append, ih, Nat.mul_succ]
      refine congrArg ((blockSize + 17) * n + ·) ?_
      rw [List.map_singleton, encodeBlock_singleton]
      exact length_encodeEntry_filler a b n

theorem big_fillers (a b : UInt8) (n : Nat) : ∀ kv ∈ (fillers a b n).map entryOf, Big kv := by
  refine forall_fillers ?_
  intro i _
  refine ⟨⟨of_decide_eq_true rfl, Or.inr ⟨rfl, ?_⟩⟩, ?_⟩
  · show (List.replicate blockSize (0 : UInt8)).length < 2 ^ 32
    rw [List.length_replicate]
    decide
  · rw [length_encodeEntry_filler]
    exact Nat.le_add_right _ _

theorem keySorted_fillers {a b : UInt8} {n : Nat} (hn : n ≤ 65536) :
    KeySorted ((fillers a b n).map entryOf) := by
  rw [fillers, List.map_map]
  refine List.pairwise_map.mpr (List.pairwise_lt_range.imp_of_mem ?_)
  intro i j _ hj hij
  exact fillerKey_lt hij (Nat.lt_of_lt_of_le (List.mem_range.mp hj) hn)

/-- **The long key stands among the others.** -/
theorem keySorted_lostPuts {p q : Nat} (hp : p ≤ 65536) (hq : q ≤ 65536) :
    KeySorted ((lostPuts p q).map entryOf) := by
  obtain ⟨rest, hlong⟩ := longKey_eq
  have hbelow : ∀ kv ∈ (fillers 0 1 p).map entryOf, kv.1 < longKey := by
    refine forall_fillers ?_
    intro i _
    rw [hlong]
    simp only [fillerKey, List.cons_append, List.cons_lt_cons_self]
    exact List.cons_lt_cons_iff.mpr (Or.inl (by decide))
  have habove : ∀ kv ∈ (fillers 1 0 q).map entryOf, longKey < kv.1 := by
    refine forall_fillers ?_
    intro i _
    rw [hlong]
    simp only [fillerKey, List.cons_append, List.cons_lt_cons_self]
    exact List.cons_lt_cons_iff.mpr (Or.inl (by decide))
  rw [lostPuts, List.map_append, List.map_cons]
  refine List.pairwise_append.mpr ⟨keySorted_fillers hp,
    List.pairwise_cons.mpr ⟨habove, keySorted_fillers hq⟩, ?_⟩
  intro kv hkv kv' hkv'
  rcases List.mem_cons.mp hkv' with rfl | hkv''
  · exact hbelow kv hkv
  · exact (hbelow kv hkv).trans (habove kv' hkv'')

theorem around_lostPuts {p q : Nat} (hp : p ≤ 65536) (hq : q ≤ 65536)
    (hmiddle : (p + (q + 1)) / 2 = p) :
    Around longKey [longEntry] ((fillers 0 1 p).map entryOf) ((fillers 1 0 q).map entryOf) where
  long := longKey_long
  before := big_fillers 0 1 p
  after := big_fillers 1 0 q
  sorted := by
    have hs := keySorted_lostPuts hp hq
    rw [lostPuts, List.map_append, List.map_cons] at hs
    exact hs
  lengthBefore := by
    rw [length_encodeBlock_fillers, blockSize]
    omega
  lengthAfter := by
    rw [length_encodeBlock_fillers, blockSize]
    omega
  middle := by
    simp only [List.length_map, fillers, List.length_range]
    exact hmiddle

/-- **A put behind the other keys** appends to the memtable, before the flush it may
    bring about. -/
theorem write_append {e : KVEngine} {l : List Entry} (hmem : Models e.skiplist l)
    {kv : Bytes × Bytes} (hlast : ∀ a ∈ l, a.1 < kv.1) :
    ∃ e', e.write .PUT kv.1 kv.2 ⟨.kTypeValue, kv.2⟩ = .ok e'
      ∧ Models e'.skiplist (l ++ [entryOf kv]) ∧ e'.sstables = e.sstables
      ∧ e'.maxMemNodes = e.maxMemNodes := by
  obtain ⟨e', hwrite, hmem', htables, hmax⟩ := write_of_models hmem .PUT kv.1 kv.2 ⟨.kTypeValue, kv.2⟩
  have happ := @upsert_append_of_lt _ _ _ kv.1 ⟨.kTypeValue, kv.2⟩ l [] hlast
  rw [List.append_nil] at happ
  exact ⟨e', hwrite, happ ▸ hmem', htables, hmax⟩

/-- **Ascending puts** below the bound of the memtable append to it. -/
theorem puts_append : ∀ {kvs : List (Bytes × Bytes)} {e : KVEngine} {l : List Entry},
    Models e.skiplist l → KeySorted (l ++ kvs.map entryOf) →
    l.length + kvs.length < e.maxMemNodes →
    ∃ e', kvs.foldlM (fun e kv => e.put kv.1 kv.2) e = .ok e'
      ∧ Models e'.skiplist (l ++ kvs.map entryOf) ∧ e'.sstables = e.sstables
      ∧ e'.maxMemNodes = e.maxMemNodes := by
  intro kvs
  induction kvs with
  | nil =>
      intro e l hmem _ _
      rw [List.map_nil, List.append_nil]
      exact ⟨e, rfl, hmem, rfl, rfl⟩
  | cons kv kvs ih =>
      intro e l hmem hs hroom
      rw [List.length_cons] at hroom
      obtain ⟨e₁, hwrite, hmem₁, htables₁, hmax₁⟩ := write_append hmem
        (fun a ha => (List.pairwise_append.mp hs).2.2 a ha _ List.mem_cons_self)
      have hput : e.put kv.1 kv.2 = .ok e₁ := by
        have hsize : ¬ e₁.skiplist.size ≥ e₁.maxMemNodes := by
          rw [models_size hmem₁, hmax₁, List.length_append, List.length_singleton]
          omega
        simp only [KVEngine.put, hwrite, ok_bind, if_neg hsize]
        rfl
      have hsplit : l ++ (kv :: kvs).map entryOf = (l ++ [entryOf kv]) ++ kvs.map entryOf := by
        simp
      obtain ⟨e', hrun, hmem', htables', hmax'⟩ := ih hmem₁ (hsplit ▸ hs) (by
        rw [hmax₁, List.length_append, List.length_singleton]
        omega)
      refine ⟨e', ?_, hsplit ▸ hmem', htables'.trans htables₁, hmax'.trans hmax₁⟩
      rw [List.foldlM_cons, hput]
      exact hrun

theorem lostPuts_succ (p q : Nat) :
    lostPuts p (q + 1) = lostPuts p q ++ [(fillerKey 1 0 q, List.replicate blockSize 0)] := by
  rw [lostPuts, lostPuts, fillers_succ, List.append_assoc]
  rfl

theorem length_lostPuts (p q : Nat) : (lostPuts p q).length = p + (q + 1) := by
  rw [lostPuts, List.length_append, List.length_cons, fillers, fillers, List.length_map,
    List.length_map, List.length_range, List.length_range]

/-- **The last put** flushes the memtable. -/
theorem puts_lost {e : KVEngine} {p q : Nat} (hmem : Models e.skiplist [])
    (hmax : e.maxMemNodes = p + (q + 2)) (hp : p ≤ 65536) (hq : q + 1 ≤ 65536)
    (hmiddle : (p + (q + 2)) / 2 = p) :
    ∃ e' r, (lostPuts p (q + 1)).foldlM (fun e kv => e.put kv.1 kv.2) e = .ok e'
      ∧ Models e'.skiplist [] ∧ e'.sstables = r :: e.sstables ∧ r.maxRead = wholeReads
      ∧ ∀ maxRead, Lost (r.upTo maxRead) ((fillers 0 1 p).map entryOf) [longEntry]
          ((fillers 1 0 (q + 1)).map entryOf) := by
  have hs := keySorted_lostPuts hp hq
  rw [lostPuts_succ, List.map_append] at hs
  obtain ⟨hsorted, -, hlast⟩ := List.pairwise_append.mp hs
  obtain ⟨e₁, hrun, hmem₁, htables₁, hmax₁⟩ := @puts_append (lostPuts p q) e [] hmem hsorted (by
    rw [length_lostPuts, hmax, List.length_nil]
    omega)
  obtain ⟨e₂, hwrite, hmem₂, htables₂, hmax₂⟩ :=
    @write_append e₁ _ hmem₁ (fillerKey 1 0 q, List.replicate blockSize 0)
      (fun a ha => hlast a ha _ List.mem_cons_self)
  have hfull : e₂.skiplist.size ≥ e₂.maxMemNodes := by
    rw [models_size hmem₂, hmax₂, hmax₁, hmax, List.nil_append, List.length_append, List.length_map,
      length_lostPuts]
    exact Nat.le_refl _
  have hentries : [] ++ (lostPuts p q).map entryOf ++ [entryOf (fillerKey 1 0 q, List.replicate blockSize 0)]
      = (fillers 0 1 p).map entryOf ++ (longKey, emptyValue) :: (fillers 1 0 (q + 1)).map entryOf := by
    rw [lostPuts, fillers_succ, List.map_append, List.map_append, List.nil_append, List.append_assoc]
    rfl
  rw [hentries] at hmem₂
  obtain ⟨e', r, hflush, hmem', htables', hwhole, hlost⟩ := (around_lostPuts hp hq hmiddle).flush hmem₂
  refine ⟨e', r, ?_, hmem', by rw [htables', htables₂, htables₁], hwhole, hlost⟩
  rw [lostPuts_succ, List.foldlM_append, hrun, ok_bind, List.foldlM_cons]
  simp only [KVEngine.put, hwrite, ok_bind, if_pos hfull, hflush]
  rfl

end KvLongKey
