import LightKV.KvBytesProofs
import LightKV.LowerBoundProofs
import LightKV.OverlayProofs

/-! # Sorted tables on disk

    `SSTableBuilder` packs entries into blocks, writes an index of the blocks'
    largest keys behind them, and a footer behind that; `SSTableReader` opens
    such a file and looks keys up in it.  The code of both comes first, then the
    layout of a finished file as a list of blocks.

    Results: a builder fed entries whose lengths fit their four byte fields
    writes a file of that layout (`build_tableFile`), `Open` accepts it
    (`open_tableFile`), and `Get` searches the block that the binary search in the
    index leads to (`get_eq_search`), the first at or above its key where the index
    ascends (`findBlockIndex_eq_findIdx`). -/

namespace KvTable

open LittleEndian KvBytes Overlay

/-! ## `SSTableBuilder` -/

/-- `kSSTableMagicNumber`. -/
def kSSTableMagicNumber : Nat := 0xdb4775248b80fb57

/-- `Footer`. -/
structure Footer where
  indexOffset : Nat
  indexSize : Nat
  magicNumber : Nat

/-- `IndexEntry`. -/
structure IndexEntry where
  maxKey : Bytes
  offset : Nat
  size : Nat
  deriving DecidableEq

/-- `SSTableBuilder`; `file` is what has been written to `file_`. -/
structure SSTableBuilder where
  file : Bytes
  blockSize : Nat
  currentOffset : Nat
  blockBuffer : Bytes
  lastKeyInBlock : Bytes
  indexEntries : List IndexEntry
  finished : Bool

/-- The constructor, which truncates the file. -/
def SSTableBuilder.new (blockSize : Nat) : SSTableBuilder := ⟨[], blockSize, 0, [], [], [], false⟩

/-- `FlushBlock`. -/
def SSTableBuilder.flushBlock (b : SSTableBuilder) : SSTableBuilder :=
  if b.blockBuffer.isEmpty then b
  else
    { b with
      file := b.file ++ b.blockBuffer
      indexEntries := b.indexEntries ++ [⟨b.lastKeyInBlock, b.currentOffset, b.blockBuffer.length⟩]
      currentOffset := b.currentOffset + b.blockBuffer.length
      blockBuffer := [] }

/-- `Add`. -/
def SSTableBuilder.add (b : SSTableBuilder) (key value : Bytes) (type : ValueType) :
    SSTableBuilder :=
  if b.finished then b
  else
    let kLen := key.length % 2 ^ 32
    let vLen := if type = .kTypeDeletion then 0 else value.length % 2 ^ 32
    let b := { b with
      blockBuffer := b.blockBuffer ++ ([type.raw] ++ leBytes 4 kLen ++ leBytes 4 vLen ++ key
        ++ if vLen > 0 then value.take vLen else [])
      lastKeyInBlock := key }
    if b.blockBuffer.length ≥ b.blockSize then b.flushBlock else b

/-- The loop of `Finish` over the index entries. -/
def writeIndex : List IndexEntry → Bytes
  | [] => []
  | e :: es =>
      let kLen := e.maxKey.length % 2 ^ 32
      leBytes 4 kLen ++ e.maxKey.take kLen ++ leBytes 8 e.offset ++ leBytes 8 e.size ++ writeIndex es

/-- The bytes of a `Footer`. -/
def Footer.bytes (f : Footer) : Bytes :=
  leBytes 8 f.indexOffset ++ leBytes 8 f.indexSize ++ leBytes 8 f.magicNumber

/-- `Finish`. -/
def SSTableBuilder.finish (b : SSTableBuilder) : Except Fault (SSTableBuilder × Bool) :=
  if b.finished then pure (b, false)
  else
    let b := if b.blockBuffer.isEmpty then b else b.flushBlock
    if b.indexEntries.isEmpty then pure ({ b with finished := true }, false)
    else
      let index := writeIndex b.indexEntries
      let footer : Footer := ⟨b.currentOffset, index.length, kSSTableMagicNumber⟩
      let file := b.file ++ index ++ footer.bytes
      if file.length < 2 ^ 62 then
        pure ({ b with
          file := file
          currentOffset := b.currentOffset + index.length
          finished := true }, true)
      else .error .fileTooLarge

/-! ## `SSTableReader` -/

/-- `SSTableReader`; `fd` is the file it has open, by its contents, and `maxRead` the
    most bytes that one `pread` on it moves. -/
structure SSTableReader where
  filename : Bytes
  fd : Bytes
  maxRead : Nat
  indexEntries : List IndexEntry
  sequence : Nat

/-- The most bytes that one `pread` of Linux moves. -/
def linuxMaxRead : Nat := 0x7ffff000

/-- No `std::string` is longer: a `pread` that may move so many bytes moves all the
    bytes it is asked for. -/
def wholeReads : Nat := 2 ^ 62

/-- A `std::string` of `size` bytes filled by `pread`; `none` when not as many bytes
    as asked for come back. -/
def pread (maxRead : Nat) (fd : Bytes) (size offset : Nat) : Except Fault (Option Bytes) :=
  if size < 2 ^ 62 then
    let bytesRead := min (min size maxRead) (fd.length - offset)
    if offset < 2 ^ 63 ∧ bytesRead = size then pure (some ((fd.drop offset).take size))
    else pure none
  else .error .badAlloc

/-- `ReadFooter`. -/
def readFooter (fd : Bytes) : Option Footer :=
  if fd.length < 24 then none
  else
    let buf := fd.drop (fd.length - 24)
    let footer : Footer :=
      ⟨leNat (buf.take 8), leNat ((buf.drop 8).take 8), leNat ((buf.drop 16).take 8)⟩
    if footer.magicNumber = kSSTableMagicNumber then some footer else none

/-- The loop of `LoadIndexBlock`. -/
def parseIndex : Nat → Bytes → Except Fault (List IndexEntry)
  | _, [] => pure []
  | 0, _ :: _ => .error .noProgress
  | fuel + 1, mem => do
      let keyLen ← readBytes mem 4
      let mem := mem.drop 4
      let maxKey ← readBytes mem (leNat keyLen)
      let mem := mem.drop (leNat keyLen)
      let offset ← readBytes mem 8
      let mem := mem.drop 8
      let size ← readBytes mem 8
      let rest ← parseIndex fuel (mem.drop 8)
      pure (⟨maxKey, leNat offset, leNat size⟩ :: rest)

/-- `Open`, where a `pread` moves at most `maxRead` bytes; `file` is what the path
    names, if anything. -/
def SSTableReader.openUpTo (maxRead : Nat) (filename : Bytes) (file : Option Bytes)
    (sequence : Nat) : Except Fault (Option SSTableReader) :=
  match file with
  | none => pure none
  | some fd =>
      match readFooter fd with
      | none => pure none
      | some footer => do
          let buffer ← pread maxRead fd footer.indexSize footer.indexOffset
          match buffer with
          | none => pure none
          | some buffer => do
              let indexEntries ← parseIndex buffer.length buffer
              pure (some ⟨filename, fd, maxRead, indexEntries, sequence⟩)

/-- `Open`, where every `pread` moves the bytes it is asked for. -/
def SSTableReader.open (filename : Bytes) (file : Option Bytes) (sequence : Nat) :
    Except Fault (Option SSTableReader) :=
  SSTableReader.openUpTo wholeReads filename file sequence

/-- `Slice(a) < Slice(b)` on whole strings. -/
def sliceLt (a b : Bytes) : Bool := sliceOrder a b < 0

/-- `SearchInDataBlock`: what `Get` writes to its two out parameters. -/
def searchInDataBlock (key : Bytes) : Nat → Bytes → Except Fault (Option TableValue)
  | _, [] => pure none
  | 0, _ :: _ => .error .noProgress
  | fuel + 1, mem => do
      let rawType ← readBytes mem 1
      let mem := mem.drop 1
      let kLen ← readBytes mem 4
      let mem := mem.drop 4
      let vLen ← readBytes mem 4
      let mem := mem.drop 4
      let currentKey : Slice := ⟨mem, leNat kLen⟩
      let mem := mem.drop (leNat kLen)
      let currentVal : Slice := ⟨mem, leNat vLen⟩
      let mem := mem.drop (leNat vLen)
      let order ← currentKey.compare (.ofString key)
      let type : ValueType := ⟨rawType.headD 0⟩
      if order = 0 then
        if type = .kTypeValue then do
          let value ← currentVal.toString
          pure (some ⟨type, value⟩)
        else pure (some ⟨type, []⟩)
      else if order > 0 then pure none
      else searchInDataBlock key fuel mem

/-- `Get`. -/
def SSTableReader.get (r : SSTableReader) (key : Bytes) : Except Fault (Option TableValue) :=
  let it := LowerBound.search (fun i => r.indexEntries[i]?.any (fun e => sliceLt e.maxKey key)) 0
    r.indexEntries.length
  match r.indexEntries[it]? with
  | none => pure none
  | some e => do
      let blockData ← pread r.maxRead r.fd e.size e.offset
      match blockData with
      | none => pure none
      | some blockData => searchInDataBlock key blockData.length blockData

/-- `GetBlockCount`. -/
def SSTableReader.getBlockCount (r : SSTableReader) : Nat := r.indexEntries.length

/-- `ReadDataBlock`. -/
def SSTableReader.readDataBlock (r : SSTableReader) (index : Nat) : Except Fault Bytes :=
  match r.indexEntries[index]? with
  | none => pure []
  | some e => do
      let blockData ← pread r.maxRead r.fd e.size e.offset
      pure (blockData.getD [])

/-- `FindBlockIndex`. -/
def SSTableReader.findBlockIndex (r : SSTableReader) (target : Bytes) : Nat :=
  LowerBound.search (fun i => r.indexEntries[i]?.any (fun e => e.maxKey < target)) 0
    r.indexEntries.length

/-- The reader where a `pread` moves at most `maxRead` bytes. -/
def SSTableReader.upTo (maxRead : Nat) (r : SSTableReader) : SSTableReader :=
  { r with maxRead := maxRead }

/-! ## The layout of a finished file -/

/-- An entry of a layer. -/
abbrev Entry := Bytes × TableValue

/-- What a table keeps of a value: nothing of a tombstone's, and of another the
    bytes its length field counts. -/
def stored (tv : TableValue) : TableValue :=
  if tv.type = .kTypeDeletion then ⟨tv.type, []⟩
  else ⟨tv.type, tv.value.take (tv.value.length % 2 ^ 32)⟩

/-- An entry that a table keeps as it is. -/
def Fits (kv : Entry) : Prop :=
  kv.1.length < 2 ^ 32 ∧ (kv.2.type = .kTypeDeletion ∧ kv.2.value = []
    ∨ kv.2.type = .kTypeValue ∧ kv.2.value.length < 2 ^ 32)

/-- Its value fits the length field. -/
theorem Fits.valueLength {kv : Entry} (h : Fits kv) : kv.2.value.length < 2 ^ 32 := by
  rcases h.2 with ⟨-, hv⟩ | ⟨-, hv⟩
  · rw [hv]
    decide
  · exact hv

/-- The bytes of an entry. -/
def encodeEntry (kv : Entry) : Bytes :=
  [kv.2.type.raw] ++ leBytes 4 kv.1.length ++ leBytes 4 kv.2.value.length ++ kv.1 ++ kv.2.value

/-- The bytes of a block. -/
def encodeBlock (es : List Entry) : Bytes := es.flatMap encodeEntry

/-- The key of the last entry of a block. -/
def maxKeyOf (es : List Entry) : Bytes := ((es.map Prod.fst).getLast?).getD []

/-- The index of blocks that start at an offset. -/
def indexOf : Nat → List (List Entry) → List IndexEntry
  | _, [] => []
  | off, b :: bs =>
      ⟨maxKeyOf b, off, (encodeBlock b).length⟩
        :: indexOf (off + (encodeBlock b).length) bs

/-- The bytes of the blocks. -/
def blockBytes (bs : List (List Entry)) : Bytes := bs.flatMap encodeBlock

/-- The entries of a buffer that `Finish` has still to write, as blocks. -/
def lastBlocks (cur : List Entry) : List (List Entry) := if cur = [] then [] else [cur]

/-- **The blocks that entries are packed into**, behind those in the buffer: a block
    ends with the entry that brings it to the block size. -/
def packed (blockSize : Nat) : List Entry → List Entry → List (List Entry)
  | cur, [] => lastBlocks cur
  | cur, kv :: l =>
      if (encodeBlock (cur ++ [kv])).length ≥ blockSize then
        (cur ++ [kv]) :: packed blockSize [] l
      else packed blockSize (cur ++ [kv]) l

/-- The whole file. -/
def fileOf (bs : List (List Entry)) : Bytes :=
  blockBytes bs ++ writeIndex (indexOf 0 bs)
    ++ Footer.bytes ⟨(blockBytes bs).length, (writeIndex (indexOf 0 bs)).length, kSSTableMagicNumber⟩

/-- **A table file** of the entries `es`, in some blocks. -/
structure TableFile (fd : Bytes) (es : List Entry) (bs : List (List Entry)) : Prop where
  entries : bs.flatten = es
  nonempty : ∀ b ∈ bs, b ≠ []
  fits : ∀ kv ∈ es, Fits kv
  sorted : KeySorted es
  some : es ≠ []
  file : fd = fileOf bs
  length : fd.length < 2 ^ 62

theorem fits_stored {kv : Entry} (hk : kv.1.length < 2 ^ 32)
    (ht : kv.2.type = .kTypeDeletion ∨ kv.2.type = .kTypeValue) : Fits (kv.1, stored kv.2) := by
  refine ⟨hk, ?_⟩
  by_cases hd : kv.2.type = .kTypeDeletion
  · left
    simp [stored, hd]
  · right
    have hv := ht.resolve_left hd
    have hlt : kv.2.value.length % 2 ^ 32 < 2 ^ 32 := Nat.mod_lt _ (by decide)
    simp only [stored, if_neg hd, List.length_take]
    exact ⟨hv, by omega⟩

/-- A table keeps an entry that fits. -/
theorem stored_of_fits {kv : Entry} (h : Fits kv) : stored kv.2 = kv.2 := by
  obtain ⟨k, t, v⟩ := kv
  rcases h.2 with ⟨ht, hv⟩ | ⟨ht, hv⟩
  · simp only at ht hv
    subst ht
    subst hv
    rfl
  · simp only at ht hv
    have hne : t ≠ .kTypeDeletion := by
      rw [ht]
      decide
    simp only [stored, if_neg hne, Nat.mod_eq_of_lt hv, List.take_length]

/-- The bytes `Add` appends are those of the entry as it is kept. -/
theorem encodeEntry_stored (key : Bytes) (tv : TableValue) (hk : key.length < 2 ^ 32) :
    [tv.type.raw] ++ leBytes 4 (key.length % 2 ^ 32)
        ++ leBytes 4 (if tv.type = .kTypeDeletion then 0 else tv.value.length % 2 ^ 32) ++ key
        ++ (if (if tv.type = .kTypeDeletion then 0 else tv.value.length % 2 ^ 32) > 0 then
              tv.value.take (if tv.type = .kTypeDeletion then 0 else tv.value.length % 2 ^ 32)
            else [])
      = encodeEntry (key, stored tv) := by
  have hmod : tv.value.length % 2 ^ 32 ≤ tv.value.length := Nat.mod_le _ _
  rw [Nat.mod_eq_of_lt hk]
  by_cases hd : tv.type = .kTypeDeletion
  · simp [encodeEntry, stored, hd]
  · simp only [encodeEntry, stored, if_neg hd, List.length_take, Nat.min_eq_left hmod]
    by_cases hz : tv.value.length % 2 ^ 32 = 0
    · rw [hz]
      rfl
    · rw [if_pos (Nat.pos_of_ne_zero hz)]

theorem encodeEntry_ne_nil (kv : Entry) : encodeEntry kv ≠ [] := by simp [encodeEntry]

theorem encodeBlock_eq_nil {es : List Entry} : encodeBlock es = [] ↔ es = [] := by
  cases es with
  | nil => simp [encodeBlock]
  | cons e es => simp [encodeBlock, encodeEntry_ne_nil]

theorem encodeBlock_append (es fs : List Entry) :
    encodeBlock (es ++ fs) = encodeBlock es ++ encodeBlock fs := by simp [encodeBlock]

theorem blockBytes_append (bs cs : List (List Entry)) :
    blockBytes (bs ++ cs) = blockBytes bs ++ blockBytes cs := by simp [blockBytes]

/-- A block is part of the blocks' bytes. -/
theorem length_encodeBlock_le {bs : List (List Entry)} {b : List Entry} (hb : b ∈ bs) :
    (encodeBlock b).length ≤ (blockBytes bs).length := by
  obtain ⟨pre, post, rfl⟩ := List.append_of_mem hb
  rw [blockBytes_append, blockBytes, blockBytes, List.flatMap_cons]
  simp only [List.length_append]
  omega

theorem indexOf_append_singleton (bs : List (List Entry)) (c : List Entry) (off : Nat) :
    indexOf off (bs ++ [c]) = indexOf off bs
      ++ [⟨maxKeyOf c, off + (blockBytes bs).length, (encodeBlock c).length⟩] := by
  induction bs generalizing off with
  | nil => simp [indexOf, blockBytes]
  | cons b bs ih =>
      rw [List.cons_append, indexOf, ih, indexOf, List.cons_append]
      simp only [blockBytes, List.flatMap_cons, List.length_append, Nat.add_assoc]

theorem length_indexOf (bs : List (List Entry)) (off : Nat) :
    (indexOf off bs).length = bs.length := by
  induction bs generalizing off with
  | nil => rfl
  | cons b bs ih => rw [indexOf, List.length_cons, ih, List.length_cons]

theorem getElem?_indexOf (pre post : List (List Entry)) (b : List Entry) (off : Nat) :
    (indexOf off (pre ++ b :: post))[pre.length]?
      = some ⟨maxKeyOf b, off + (blockBytes pre).length, (encodeBlock b).length⟩ := by
  induction pre generalizing off with
  | nil => simp [indexOf, blockBytes]
  | cons c pre ih =>
      rw [List.cons_append, indexOf, List.length_cons, List.getElem?_cons_succ, ih]
      simp [blockBytes, Nat.add_assoc]

theorem map_maxKey_indexOf (bs : List (List Entry)) (off : Nat) :
    (indexOf off bs).map IndexEntry.maxKey = bs.map maxKeyOf := by
  induction bs generalizing off with
  | nil => rfl
  | cons b bs ih => rw [indexOf, List.map_cons, List.map_cons, ih]

/-! ## What a builder has written -/

theorem flatten_lastBlocks (cur : List Entry) : (lastBlocks cur).flatten = cur := by
  rw [lastBlocks]
  split
  · rename_i hnil
    rw [hnil]
    rfl
  · exact List.append_nil cur

theorem flatten_packed (blockSize : Nat) (cur l : List Entry) :
    (packed blockSize cur l).flatten = cur ++ l := by
  induction l generalizing cur with
  | nil => rw [packed, flatten_lastBlocks, List.append_nil]
  | cons kv l ih =>
      rw [packed]
      split
      · rw [List.flatten_cons, ih, List.nil_append, List.append_assoc]
        rfl
      · rw [ih, List.append_assoc]
        rfl

/-- No block is empty. -/
theorem ne_nil_of_mem_packed {blockSize : Nat} {cur l b : List Entry}
    (hb : b ∈ packed blockSize cur l) : b ≠ [] := by
  induction l generalizing cur with
  | nil =>
      rw [packed, lastBlocks] at hb
      split at hb
      · cases hb
      · rw [List.mem_singleton.mp hb]
        assumption
  | cons kv l ih =>
      rw [packed] at hb
      split at hb
      · rcases List.mem_cons.mp hb with rfl | hb'
        · exact List.append_ne_nil_of_right_ne_nil _ (List.cons_ne_nil _ _)
        · exact ih hb'
      · exact ih hb

/-- The builder has written the blocks `bs` and holds the entries `cur` in its
    buffer. -/
structure Built (blockSize : Nat) (b : SSTableBuilder) (bs : List (List Entry))
    (cur : List Entry) : Prop where
  file : b.file = blockBytes bs
  offset : b.currentOffset = (blockBytes bs).length
  index : b.indexEntries = indexOf 0 bs
  buffer : b.blockBuffer = encodeBlock cur
  last : cur ≠ [] → b.lastKeyInBlock = maxKeyOf cur
  finished : b.finished = false
  size : b.blockSize = blockSize

theorem built_new (blockSize : Nat) : Built blockSize (SSTableBuilder.new blockSize) [] [] :=
  ⟨rfl, rfl, rfl, rfl, fun h => absurd rfl h, rfl, rfl⟩

variable {blockSize : Nat} {b : SSTableBuilder} {bs : List (List Entry)} {cur : List Entry}

/-- `FlushBlock` makes the buffer a block. -/
theorem Built.flushBlock (h : Built blockSize b bs cur) (hne : cur ≠ []) :
    Built blockSize b.flushBlock (bs ++ [cur]) [] := by
  have hbuf : b.blockBuffer.isEmpty = false := by
    rw [h.buffer]
    simpa using mt encodeBlock_eq_nil.mp hne
  simp only [SSTableBuilder.flushBlock, hbuf, Bool.false_eq_true, if_false]
  refine ⟨?_, ?_, ?_, rfl, fun hc => absurd rfl hc, h.finished, h.size⟩
  · simp [h.file, h.buffer, blockBytes]
  · simp [h.offset, h.buffer, blockBytes]
  · rw [indexOf_append_singleton, h.index, h.offset, h.buffer, h.last hne, Nat.zero_add]

/-- **`Add`** keeps one more entry, and ends the block when that fills it. -/
theorem Built.add (h : Built blockSize b bs cur) {key : Bytes} (tv : TableValue)
    (hk : key.length < 2 ^ 32) :
    if (encodeBlock (cur ++ [(key, stored tv)])).length ≥ blockSize then
      Built blockSize (b.add key tv.value tv.type) (bs ++ [cur ++ [(key, stored tv)]]) []
    else Built blockSize (b.add key tv.value tv.type) bs (cur ++ [(key, stored tv)]) := by
  obtain rfl := h.size
  have hbuf : b.blockBuffer ++ encodeEntry (key, stored tv)
      = encodeBlock (cur ++ [(key, stored tv)]) := by
    rw [encodeBlock_append, h.buffer]
    simp [encodeBlock]
  -- the builder after the append, before the check of the block size
  have h' : Built b.blockSize { b with
      blockBuffer := encodeBlock (cur ++ [(key, stored tv)])
      lastKeyInBlock := key } bs (cur ++ [(key, stored tv)]) :=
    ⟨h.file, h.offset, h.index, rfl, fun _ => by simp [maxKeyOf], h.finished, rfl⟩
  rw [SSTableBuilder.add, if_neg (show ¬ b.finished = true by simp [h.finished])]
  simp only [encodeEntry_stored key tv hk, hbuf]
  split
  · exact h'.flushBlock (by simp)
  · exact h'

/-- `Add` for every entry of a layer. -/
def SSTableBuilder.addAll (b : SSTableBuilder) (l : List Entry) : SSTableBuilder :=
  l.foldl (fun b kv => b.add kv.1 kv.2.value kv.2.type) b

/-- **All entries** are packed. -/
theorem Built.addAll (h : Built blockSize b bs cur) {l : List Entry}
    (hk : ∀ kv ∈ l, kv.1.length < 2 ^ 32) :
    ∃ bs' cur', Built blockSize (b.addAll l) bs' cur' ∧ bs' ++ lastBlocks cur'
      = bs ++ packed blockSize cur (l.map (fun kv => (kv.1, stored kv.2))) := by
  induction l generalizing b bs cur with
  | nil => exact ⟨bs, cur, h, rfl⟩
  | cons kv l ih =>
      have h₁ := h.add kv.2 (hk kv List.mem_cons_self)
      have hl := fun x hx => hk x (List.mem_cons_of_mem _ hx)
      rw [List.map_cons, packed]
      split at h₁
      · rename_i hfull
        obtain ⟨bs₂, cur₂, h₂, heq⟩ := ih h₁ hl
        rw [if_pos hfull]
        exact ⟨bs₂, cur₂, h₂, by rw [heq, List.append_assoc]; rfl⟩
      · rename_i hroom
        rw [if_neg hroom]
        exact ih h₁ hl

/-- A builder that was given nothing leaves an empty file. -/
theorem Built.finish_nil (h : Built blockSize b [] []) :
    b.finish = .ok ({ b with finished := true }, false) := by
  have hb : b.blockBuffer = [] := h.buffer
  have hi : b.indexEntries = [] := h.index
  simp [SSTableBuilder.finish, h.finished, hb, hi, pure, Except.pure]

/-- **`Finish`** writes the file of the blocks, unless it gets too large. -/
theorem Built.finish (h : Built blockSize b bs cur) (hne : bs ++ lastBlocks cur ≠ []) :
    if (fileOf (bs ++ lastBlocks cur)).length < 2 ^ 62 then
      ∃ b', b.finish = .ok (b', true) ∧ b'.file = fileOf (bs ++ lastBlocks cur)
    else b.finish = .error .fileTooLarge := by
  -- after the last flush there is no entry in the buffer
  obtain ⟨b₁, hb₁, h₁⟩ : ∃ b₁, (if b.blockBuffer.isEmpty then b else b.flushBlock) = b₁
      ∧ Built blockSize b₁ (bs ++ lastBlocks cur) [] := by
    by_cases hcur : cur = []
    · subst hcur
      have hbuf : b.blockBuffer = [] := h.buffer
      refine ⟨b, by simp [hbuf], ?_⟩
      rw [lastBlocks, if_pos rfl, List.append_nil]
      exact h
    · have hbuf : b.blockBuffer.isEmpty = false := by
        rw [h.buffer]
        simpa using mt encodeBlock_eq_nil.mp hcur
      refine ⟨b.flushBlock, by simp [hbuf], ?_⟩
      rw [lastBlocks, if_neg hcur]
      exact h.flushBlock hcur
  obtain ⟨bs₁, hbs₁⟩ : ∃ bs₁, bs₁ = bs ++ lastBlocks cur := ⟨_, rfl⟩
  rw [← hbs₁] at hne h₁ ⊢
  have hidx : b₁.indexEntries.isEmpty = false := by
    rw [h₁.index]
    cases bs₁ with
    | nil => exact absurd rfl hne
    | cons c cs => rfl
  have hfile : b₁.file ++ writeIndex b₁.indexEntries ++ Footer.bytes
      ⟨b₁.currentOffset, (writeIndex b₁.indexEntries).length, kSSTableMagicNumber⟩
      = fileOf bs₁ := by
    rw [h₁.file, h₁.index, h₁.offset]
    rfl
  simp only [SSTableBuilder.finish, h.finished, Bool.false_eq_true, if_false, hb₁, hidx, hfile]
  split
  · exact ⟨_, rfl, rfl⟩
  · rfl

/-- A layer as its table keeps it. -/
def storedLayer (l : List Entry) : List Entry := l.map (fun kv => (kv.1, stored kv.2))

theorem keySorted_storedLayer {l : List Entry} (h : KeySorted l) : KeySorted (storedLayer l) := by
  rw [KeySorted, storedLayer, List.pairwise_map]
  exact h

theorem storedLayer_of_fits {l : List Entry} (h : ∀ kv ∈ l, Fits kv) : storedLayer l = l := by
  have hid : ∀ kv ∈ l, (kv.1, stored kv.2) = kv := by
    intro kv hkv
    rw [stored_of_fits (h kv hkv)]
  exact (List.map_congr_left hid).trans (List.map_id l)

/-- Entries a memtable can hold: keys that fit their length field, and one of the
    two value types. -/
def Storable (kv : Entry) : Prop :=
  kv.1.length < 2 ^ 32 ∧ (kv.2.type = .kTypeDeletion ∨ kv.2.type = .kTypeValue)

instance : DecidablePred Storable := fun _ => inferInstanceAs (Decidable (_ ∧ _))

theorem fits_storedLayer {l : List Entry} (h : ∀ kv ∈ l, Storable kv) :
    ∀ kv ∈ storedLayer l, Fits kv := by
  intro kv hkv
  obtain ⟨kv', hkv', rfl⟩ := List.mem_map.mp hkv
  exact fits_stored (h kv' hkv').1 (h kv' hkv').2

/-- The blocks of the table of a layer. -/
def blocksOf (blockSize : Nat) (l : List Entry) : List (List Entry) :=
  packed blockSize [] (storedLayer l)

theorem flatten_blocksOf (blockSize : Nat) (l : List Entry) :
    (blocksOf blockSize l).flatten = storedLayer l := flatten_packed blockSize [] _

/-- **A layer that is not empty** becomes the file of its blocks, and `Finish` fails
    only when that has `2 ^ 62` bytes or more. -/
theorem finish_addAll (blockSize : Nat) {l : List Entry} (hl : ∀ kv ∈ l, kv.1.length < 2 ^ 32)
    (hne : l ≠ []) :
    if (fileOf (blocksOf blockSize l)).length < 2 ^ 62 then
      ∃ b, ((SSTableBuilder.new blockSize).addAll l).finish = .ok (b, true)
        ∧ b.file = fileOf (blocksOf blockSize l)
    else ((SSTableBuilder.new blockSize).addAll l).finish = .error .fileTooLarge := by
  obtain ⟨bs, cur, hb, heq⟩ := (built_new blockSize).addAll hl
  rw [List.nil_append] at heq
  have hblocks : bs ++ lastBlocks cur = blocksOf blockSize l := heq
  rw [← hblocks]
  refine hb.finish ?_
  intro hnil
  have hflat := flatten_blocksOf blockSize l
  rw [← hblocks, hnil] at hflat
  exact hne (List.map_eq_nil_iff.mp hflat.symm)

/-- The file of the blocks of a sorted layer. -/
theorem tableFile_blocksOf (blockSize : Nat) {l : List Entry} (hl : ∀ kv ∈ l, Storable kv)
    (hs : KeySorted l) (hne : l ≠ []) (hlen : (fileOf (blocksOf blockSize l)).length < 2 ^ 62) :
    TableFile (fileOf (blocksOf blockSize l)) (storedLayer l) (blocksOf blockSize l) where
  entries := flatten_blocksOf blockSize l
  nonempty _ hb := ne_nil_of_mem_packed hb
  fits := fits_storedLayer hl
  sorted := keySorted_storedLayer hs
  some := by simpa [storedLayer] using hne
  file := rfl
  length := hlen

/-- A sorted layer that is not empty becomes a table file, unless that gets too
    large. -/
theorem finish_tableFile (blockSize : Nat) {l : List Entry} (hl : ∀ kv ∈ l, Storable kv)
    (hs : KeySorted l) (hne : l ≠ []) :
    ((SSTableBuilder.new blockSize).addAll l).finish = .error .fileTooLarge
      ∨ ∃ b, ((SSTableBuilder.new blockSize).addAll l).finish = .ok (b, true)
        ∧ TableFile b.file (storedLayer l) (blocksOf blockSize l) := by
  have hfin := finish_addAll blockSize (fun kv hkv => (hl kv hkv).1) hne
  split at hfin
  · rename_i hlen
    obtain ⟨b, hrun, hfile⟩ := hfin
    exact Or.inr ⟨b, hrun, hfile ▸ tableFile_blocksOf blockSize hl hs hne hlen⟩
  · exact Or.inl hfin

/-- **Building a table** from a sorted layer: an empty file for an empty layer,
    and otherwise a table file of the layer as it is kept, unless the file gets
    too large. -/
theorem build_tableFile (blockSize : Nat) {l : List Entry} (hl : ∀ kv ∈ l, Storable kv)
    (hs : KeySorted l) :
    ((SSTableBuilder.new blockSize).addAll l).finish = .error .fileTooLarge
      ∨ ∃ b ok, ((SSTableBuilder.new blockSize).addAll l).finish = .ok (b, ok)
        ∧ (l = [] ∧ b.file = [] ∨ ∃ bs, TableFile b.file (storedLayer l) bs) := by
  by_cases hne : l = []
  · subst hne
    refine Or.inr ⟨_, _, (built_new blockSize).finish_nil, Or.inl ⟨rfl, rfl⟩⟩
  · rcases finish_tableFile blockSize hl hs hne with herr | ⟨b', hrun, htab⟩
    · exact Or.inl herr
    · exact Or.inr ⟨b', true, hrun, Or.inr ⟨_, htab⟩⟩

/-! ## Opening a table file -/

theorem readBytes_leBytes (w n : Nat) (rest : Bytes) :
    readBytes (leBytes w n ++ rest) w = .ok (leBytes w n) :=
  readBytes_of_length (length_leBytes w n)

theorem drop_leBytes (w n : Nat) (rest : Bytes) : (leBytes w n ++ rest).drop w = rest :=
  List.drop_left' (length_leBytes w n)

theorem take_leBytes (w n : Nat) (rest : Bytes) : (leBytes w n ++ rest).take w = leBytes w n :=
  List.take_left' (length_leBytes w n)

/-- An index entry whose fields fit. -/
def IndexFits (e : IndexEntry) : Prop :=
  e.maxKey.length < 2 ^ 32 ∧ e.offset < 2 ^ 64 ∧ e.size < 2 ^ 64

/-- **The index block reads back.** -/
theorem parseIndex_writeIndex :
    ∀ (es : List IndexEntry) (fuel : Nat), (∀ e ∈ es, IndexFits e) → es.length ≤ fuel →
      parseIndex fuel (writeIndex es) = .ok es := by
  intro es
  induction es with
  | nil =>
      intro fuel _ _
      cases fuel <;> rfl
  | cons e es ih =>
      intro fuel hfits hfuel
      obtain ⟨hk, ho, hsz⟩ := hfits e List.mem_cons_self
      have hlen : leNat (leBytes 4 e.maxKey.length) = e.maxKey.length :=
        leNat_leBytes_of_lt (by simpa using hk)
      have hoff : leNat (leBytes 8 e.offset) = e.offset :=
        leNat_leBytes_of_lt (by simpa using ho)
      have hsize : leNat (leBytes 8 e.size) = e.size :=
        leNat_leBytes_of_lt (by simpa using hsz)
      cases fuel with
      | zero => simp at hfuel
      | succ fuel =>
          have hrest := ih fuel (fun x hx => hfits x (List.mem_cons_of_mem _ hx))
            (by simpa using hfuel)
          simp only [writeIndex, Nat.mod_eq_of_lt hk, List.take_length, List.append_assoc]
          rw [parseIndex]
          · simp only [readBytes_leBytes, ok_bind, drop_leBytes, hlen, readBytes_append,
              List.drop_left, hoff, hsize, hrest]
            rfl
          · intro hnil
            simpa using congrArg List.length hnil

theorem length_writeIndex_ge (es : List IndexEntry) : es.length ≤ (writeIndex es).length := by
  induction es with
  | nil => exact Nat.le_refl _
  | cons e es ih =>
      simp only [writeIndex, List.length_append, length_leBytes, List.length_cons]
      omega

/-- **The footer reads back.** -/
theorem readFooter_append (body : Bytes) {f : Footer} (ho : f.indexOffset < 2 ^ 64)
    (hs : f.indexSize < 2 ^ 64) (hm : f.magicNumber = kSSTableMagicNumber) :
    readFooter (body ++ f.bytes) = some f := by
  have hlen : f.bytes.length = 24 := by simp [Footer.bytes]
  have hdrop : (body ++ f.bytes).drop ((body ++ f.bytes).length - 24) = f.bytes := by
    rw [List.length_append, hlen, Nat.add_sub_cancel]
    exact List.drop_left
  have h1 : leNat (f.bytes.take 8) = f.indexOffset := by
    rw [Footer.bytes, List.append_assoc, take_leBytes]
    exact leNat_leBytes_of_lt (by simpa using ho)
  have h2 : leNat ((f.bytes.drop 8).take 8) = f.indexSize := by
    rw [Footer.bytes, List.append_assoc, drop_leBytes, take_leBytes]
    exact leNat_leBytes_of_lt (by simpa using hs)
  have h3 : leNat ((f.bytes.drop 16).take 8) = f.magicNumber := by
    have h16 : f.bytes.drop 16 = leBytes 8 f.magicNumber ++ [] := by
      rw [List.append_nil]
      exact List.drop_left' (by simp)
    rw [h16, take_leBytes]
    exact leNat_leBytes_of_lt (by rw [hm]; decide)
  have hlong : ¬ (body ++ f.bytes).length < 24 := by
    rw [List.length_append, hlen]
    omega
  simp only [readFooter, if_neg hlong, hdrop, h1, h2, h3, hm, if_true]
  rw [← hm]

/-- The largest key of a nonempty sorted block bounds its keys, and is one. -/
theorem le_maxKeyOf {es : List Entry} (hne : es ≠ []) (hs : KeySorted es) :
    (∀ kv ∈ es, kv.1 ≤ maxKeyOf es) ∧ ∃ kv ∈ es, kv.1 = maxKeyOf es := by
  obtain ⟨init, last, rfl⟩ : ∃ init last, es = init ++ [last] :=
    ⟨_, _, (List.dropLast_concat_getLast hne).symm⟩
  have hmax : maxKeyOf (init ++ [last]) = last.1 := by simp [maxKeyOf]
  rw [hmax]
  refine ⟨?_, last, by simp, rfl⟩
  intro kv hkv
  rcases List.mem_append.mp hkv with h | h
  · exact ((List.pairwise_append.mp hs).2.2 kv h last (List.mem_singleton_self _)).le
  · rw [List.mem_singleton.mp h]

theorem indexFits_indexOf {bs : List (List Entry)} :
    ∀ {off : Nat}, (∀ b ∈ bs, b ≠ []) → KeySorted bs.flatten → (∀ kv ∈ bs.flatten, Fits kv) →
      off + (blockBytes bs).length < 2 ^ 64 → ∀ e ∈ indexOf off bs, IndexFits e := by
  induction bs with
  | nil =>
      intro off _ _ _ _ e he
      cases he
  | cons b bs ih =>
      intro off hne hs hfits hlen e he
      rw [List.flatten_cons] at hs hfits
      obtain ⟨hsb, hsbs, -⟩ := List.pairwise_append.mp hs
      simp only [blockBytes, List.flatMap_cons, List.length_append] at hlen
      rcases List.mem_cons.mp he with heq | he'
      · subst heq
        obtain ⟨kv, hkv, hmax⟩ := (le_maxKeyOf (hne b List.mem_cons_self) hsb).2
        refine ⟨?_, by show off < _; omega, by show (encodeBlock b).length < _; omega⟩
        show (maxKeyOf b).length < _
        rw [← hmax]
        exact (hfits kv (List.mem_append_left _ hkv)).1
      · refine ih (fun x hx => hne x (List.mem_cons_of_mem _ hx)) hsbs
          (fun kv hkv => hfits kv (List.mem_append_right _ hkv)) ?_ e he'
        simp only [blockBytes]
        omega

variable {fd : Bytes} {es : List Entry}

theorem TableFile.length_fileOf (h : TableFile fd es bs) :
    (blockBytes bs).length + (writeIndex (indexOf 0 bs)).length + 24 < 2 ^ 62 := by
  have := h.length
  rw [h.file, fileOf] at this
  simpa [Footer.bytes, Nat.add_assoc] using this

theorem TableFile.indexFits (h : TableFile fd es bs) : ∀ e ∈ indexOf 0 bs, IndexFits e := by
  have hlen := h.length_fileOf
  exact indexFits_indexOf h.nonempty (h.entries ▸ h.sorted) (h.entries ▸ h.fits) (by omega)

/-- No read of a block or of the index asks for more than whole reads move. -/
theorem TableFile.le_wholeReads (h : TableFile fd es bs) :
    (∀ b ∈ bs, (encodeBlock b).length ≤ wholeReads)
      ∧ (writeIndex (indexOf 0 bs)).length ≤ wholeReads := by
  have hlen := h.length_fileOf
  rw [wholeReads]
  refine ⟨?_, by omega⟩
  intro b hb
  have hle := length_encodeBlock_le hb
  omega

/-- **`pread` inside a file**, of as many bytes as it moves. -/
theorem pread_append {maxRead : Nat} {a b c : Bytes} (h : (a ++ (b ++ c)).length < 2 ^ 62)
    (hmax : b.length ≤ maxRead) :
    pread maxRead (a ++ (b ++ c)) b.length a.length = .ok (some b) := by
  simp only [List.length_append] at h
  have hfit : a.length < 2 ^ 63
      ∧ min (min b.length maxRead) ((a ++ (b ++ c)).length - a.length) = b.length := by
    simp only [List.length_append]
    omega
  rw [pread, if_pos (by omega)]
  simp only [if_pos hfit, List.drop_left, List.take_left]
  rfl

/-- **A `pread` comes short** when it is asked for more than it moves. -/
theorem pread_short {maxRead size : Nat} (h : maxRead < size) (hsize : size < 2 ^ 62) (fd : Bytes)
    (offset : Nat) : pread maxRead fd size offset = .ok none := by
  have hless : ¬ (offset < 2 ^ 63 ∧ min (min size maxRead) (fd.length - offset) = size) := by
    omega
  rw [pread, if_pos hsize]
  simp only [if_neg hless]
  rfl

/-- Blocks, an index whose fields fit, and the footer. -/
def layout (body : Bytes) (index : List IndexEntry) : Bytes :=
  body ++ writeIndex index ++ Footer.bytes ⟨body.length, (writeIndex index).length, kSSTableMagicNumber⟩

section Layout

variable {body : Bytes} {index : List IndexEntry} {maxRead : Nat}

theorem readFooter_layout (hlen : (layout body index).length < 2 ^ 62) :
    readFooter (layout body index)
      = some ⟨body.length, (writeIndex index).length, kSSTableMagicNumber⟩ := by
  simp only [layout, List.length_append] at hlen
  exact readFooter_append _ (by simp only; omega) (by simp only; omega) rfl

/-- **`Open`** reads the index of such a file. -/
theorem open_layout (hfits : ∀ e ∈ index, IndexFits e)
    (hlen : (layout body index).length < 2 ^ 62) (hmax : (writeIndex index).length ≤ maxRead)
    (filename : Bytes) (sequence : Nat) :
    SSTableReader.openUpTo maxRead filename (some (layout body index)) sequence
      = .ok (some ⟨filename, layout body index, maxRead, index, sequence⟩) := by
  have hfooter := readFooter_layout hlen
  have hread : pread maxRead (layout body index) (writeIndex index).length body.length
      = .ok (some (writeIndex index)) := by
    rw [layout, List.append_assoc] at hlen ⊢
    exact pread_append hlen hmax
  have hindex := parseIndex_writeIndex index (writeIndex index).length hfits
    (length_writeIndex_ge _)
  simp only [SSTableReader.openUpTo, hfooter, hread, ok_bind, hindex]
  rfl

/-- **`Open` rejects** such a file when the read of the index comes short. -/
theorem open_layout_short (hlen : (layout body index).length < 2 ^ 62)
    (hmax : maxRead < (writeIndex index).length) (filename : Bytes) (sequence : Nat) :
    SSTableReader.openUpTo maxRead filename (some (layout body index)) sequence = .ok none := by
  have hfooter := readFooter_layout hlen
  have hindex : (writeIndex index).length < 2 ^ 62 := by
    simp only [layout, List.length_append] at hlen
    omega
  simp only [SSTableReader.openUpTo, hfooter, pread_short hmax hindex, ok_bind]
  rfl

end Layout

/-- **`Open` accepts a table file** whose index it can read. -/
theorem openUpTo_tableFile (h : TableFile fd es bs) {maxRead : Nat}
    (hmax : (writeIndex (indexOf 0 bs)).length ≤ maxRead) (filename : Bytes) (sequence : Nat) :
    SSTableReader.openUpTo maxRead filename (some fd) sequence
      = .ok (some ⟨filename, fd, maxRead, indexOf 0 bs, sequence⟩) := by
  have hfile : fd = layout (blockBytes bs) (indexOf 0 bs) := h.file
  have hlen := h.length
  rw [hfile] at hlen ⊢
  exact open_layout h.indexFits hlen hmax filename sequence

/-- **`Open` accepts a table file.** -/
theorem open_tableFile (h : TableFile fd es bs) (filename : Bytes) (sequence : Nat) :
    SSTableReader.open filename (some fd) sequence
      = .ok (some ⟨filename, fd, wholeReads, indexOf 0 bs, sequence⟩) :=
  openUpTo_tableFile h h.le_wholeReads.2 filename sequence

/-- An empty file is no table. -/
theorem open_nil (filename : Bytes) (sequence : Nat) :
    SSTableReader.open filename (some []) sequence = .ok none := rfl

/-- A reader is for the file that its path names, with the number `Open` was given. -/
theorem open_eq_some {filename : Bytes} {file : Option Bytes} {sequence : Nat}
    {r : SSTableReader} (h : SSTableReader.open filename file sequence = .ok (some r)) :
    r.filename = filename ∧ r.sequence = sequence ∧ file = some r.fd := by
  cases file with
  | none => cases h
  | some fd =>
      simp only [SSTableReader.open, SSTableReader.openUpTo] at h
      cases hf : readFooter fd with
      | none =>
          rw [hf] at h
          cases h
      | some footer =>
          rw [hf] at h
          obtain ⟨buffer, -, h⟩ := bind_eq_ok.mp h
          cases buffer with
          | none => cases h
          | some buffer =>
              obtain ⟨index, -, h⟩ := bind_eq_ok.mp h
              cases h
              exact ⟨rfl, rfl, rfl⟩

/-! ## Looking up a key -/

/-- The fields in front of an entry's key. -/
def entryHeader (type : ValueType) (kLen vLen : Nat) : Bytes :=
  [type.raw] ++ leBytes 4 kLen ++ leBytes 4 vLen

theorem entryHeader_append (type : ValueType) (k v rest : Bytes) :
    entryHeader type k.length v.length ++ (k ++ (v ++ rest)) = encodeEntry (k, ⟨type, v⟩) ++ rest := by
  simp [encodeEntry, entryHeader]

/-- **One turn of the search**, behind a header. -/
theorem searchInDataBlock_header (key : Bytes) (fuel : Nat) (type : ValueType) {kLen vLen : Nat}
    (hk : kLen < 2 ^ 32) (hv : vLen < 2 ^ 32) (body : Bytes) :
    searchInDataBlock key (fuel + 1) (entryHeader type kLen vLen ++ body) = (do
      let order ← Slice.compare ⟨body, kLen⟩ (.ofString key)
      if order = 0 then
        if type = .kTypeValue then do
          let value ← Slice.toString ⟨body.drop kLen, vLen⟩
          pure (some ⟨type, value⟩)
        else pure (some ⟨type, []⟩)
      else if order > 0 then pure none
      else searchInDataBlock key fuel ((body.drop kLen).drop vLen)) := by
  have hkLen : leNat (leBytes 4 kLen) = kLen := leNat_leBytes_of_lt (by simpa using hk)
  have hvLen : leNat (leBytes 4 vLen) = vLen := leNat_leBytes_of_lt (by simpa using hv)
  have hmem : entryHeader type kLen vLen ++ body
      = [type.raw] ++ (leBytes 4 kLen ++ (leBytes 4 vLen ++ body)) := by
    simp [entryHeader]
  have hraw : readBytes ([type.raw] ++ (leBytes 4 kLen ++ (leBytes 4 vLen ++ body))) 1
      = .ok [type.raw] := readBytes_append [type.raw] _
  have hdrop : ([type.raw] ++ (leBytes 4 kLen ++ (leBytes 4 vLen ++ body))).drop 1
      = leBytes 4 kLen ++ (leBytes 4 vLen ++ body) := rfl
  rw [hmem, searchInDataBlock]
  · simp only [hraw, ok_bind, hdrop, readBytes_leBytes, drop_leBytes, hkLen, hvLen]
    rfl
  · intro hnil
    simpa using congrArg List.length hnil

/-- **One turn of the search**, at a key that is there in full. -/
theorem searchInDataBlock_key (key : Bytes) (fuel : Nat) (type : ValueType) {k : Bytes} {vLen : Nat}
    (hk : k.length < 2 ^ 32) (hv : vLen < 2 ^ 32) (rest : Bytes) :
    searchInDataBlock key (fuel + 1) (entryHeader type k.length vLen ++ (k ++ rest))
      = if k = key then
          if type = .kTypeValue then do
            let value ← Slice.toString ⟨rest, vLen⟩
            pure (some ⟨type, value⟩)
          else pure (some ⟨type, []⟩)
        else if key < k then .ok none
        else searchInDataBlock key fuel (rest.drop vLen) := by
  have hcmp : Slice.compare ⟨k ++ rest, k.length⟩ (Slice.ofString key)
      = .ok (sliceOrder k key) := by
    have hc := compare_of_take (m := k ++ rest) (n := key) (i := k.length) (j := key.length)
      (by simp) (Nat.le_refl _)
    rwa [List.take_left, List.take_length] at hc
  rw [searchInDataBlock_header key fuel type hk hv, hcmp, ok_bind]
  simp only [List.drop_left, sliceOrder_eq_zero, gt_iff_lt, sliceOrder_pos]
  rfl

/-- **One turn of the search**, at an entry that is there in full. -/
theorem searchInDataBlock_entry (key : Bytes) (fuel : Nat) {kv : Entry}
    (hk : kv.1.length < 2 ^ 32) (hv : kv.2.value.length < 2 ^ 32) (rest : Bytes) :
    searchInDataBlock key (fuel + 1) (encodeEntry kv ++ rest)
      = if kv.1 = key then
          .ok (some ⟨kv.2.type, if kv.2.type = .kTypeValue then kv.2.value else []⟩)
        else if key < kv.1 then .ok none
        else searchInDataBlock key fuel rest := by
  obtain ⟨k, t, v⟩ := kv
  have hval : Slice.toString ⟨v ++ rest, v.length⟩ = .ok v := readBytes_append v rest
  rw [← entryHeader_append, searchInDataBlock_key key fuel t hk hv, hval, List.drop_left, ok_bind]
  split
  · split
    · rfl
    · rfl
  · rfl

/-- **The search in a block** is a lookup among its entries. -/
theorem searchInDataBlock_spec (key : Bytes) :
    ∀ (es : List Entry) (fuel : Nat), (∀ kv ∈ es, Fits kv) → KeySorted es →
      (encodeBlock es).length ≤ fuel →
      searchInDataBlock key fuel (encodeBlock es) = .ok (es.lookup key) := by
  intro es
  induction es with
  | nil =>
      intro fuel _ _ _
      cases fuel <;> rfl
  | cons kv es ih =>
      intro fuel hfits hs hfuel
      obtain ⟨k, t, v⟩ := kv
      have hfit := hfits _ List.mem_cons_self
      have hmem : encodeBlock ((k, ⟨t, v⟩) :: es) = encodeEntry (k, ⟨t, v⟩) ++ encodeBlock es := rfl
      rw [hmem] at hfuel ⊢
      cases fuel with
      | zero => simp [encodeEntry] at hfuel
      | succ fuel =>
          have hrest := ih fuel (fun x hx => hfits x (List.mem_cons_of_mem _ hx)) hs.tail (by
            simp only [encodeEntry, List.length_append, List.length_singleton] at hfuel
            omega)
          rw [searchInDataBlock_entry key fuel hfit.1 hfit.valueLength, List.lookup_cons]
          by_cases heq : k = key
          · rw [if_pos heq, beq_iff_eq.mpr heq.symm]
            rcases hfit.2 with ⟨ht, hv'⟩ | ⟨ht, -⟩
            · simp only at ht hv'
              subst ht
              subst hv'
              rfl
            · simp only at ht
              subst ht
              rfl
          · rw [if_neg heq, beq_false_of_ne (Ne.symm heq)]
            by_cases hlt : key < k
            · rw [if_pos hlt]
              have hnone : es.lookup key = none :=
                lookup_eq_none_of_lt (fun b hb => hlt.trans ((keySorted_cons.mp hs).1 b hb))
              rw [hnone]
            · rw [if_neg hlt]
              exact hrest

/-- The entries of a block that a `pread` moves whole, and none of a longer one. -/
def readable (maxRead : Nat) (b : List Entry) : List Entry :=
  if (encodeBlock b).length ≤ maxRead then b else []

theorem readable_of_le {maxRead : Nat} {b : List Entry} (h : (encodeBlock b).length ≤ maxRead) :
    readable maxRead b = b := if_pos h

/-- **`ReadDataBlock`** gives a block, or nothing when its read comes short. -/
theorem readDataBlock_eq {r : SSTableReader} {pre post : List (List Entry)} {b : List Entry}
    {rest key : Bytes} (hfd : r.fd = blockBytes (pre ++ b :: post) ++ rest)
    (hlen : r.fd.length < 2 ^ 62) (hidx : r.indexEntries[pre.length]?
      = some ⟨key, (blockBytes pre).length, (encodeBlock b).length⟩) :
    r.readDataBlock pre.length = .ok (encodeBlock (readable r.maxRead b)) := by
  have hbytes : r.fd = blockBytes pre ++ (encodeBlock b ++ (blockBytes post ++ rest)) := by
    rw [hfd]
    simp [blockBytes]
  rw [SSTableReader.readDataBlock, hidx, readable]
  by_cases hle : (encodeBlock b).length ≤ r.maxRead
  · rw [hbytes] at hlen
    simp only [hbytes, pread_append hlen hle, if_pos hle, ok_bind]
    rfl
  · have hsize : (encodeBlock b).length < 2 ^ 62 := by
      rw [hbytes] at hlen
      simp only [List.length_append] at hlen
      omega
    simp only [pread_short (Nat.lt_of_not_le hle) hsize, if_neg hle, ok_bind]
    rfl

/-- A block of a table file. -/
theorem readDataBlock_tableFile {r : SSTableReader} {pre post : List (List Entry)}
    {b : List Entry} (h : TableFile r.fd es (pre ++ b :: post))
    (hidx : r.indexEntries = indexOf 0 (pre ++ b :: post)) :
    r.readDataBlock pre.length = .ok (encodeBlock (readable r.maxRead b)) := by
  have hfd : r.fd = blockBytes (pre ++ b :: post)
      ++ (writeIndex (indexOf 0 (pre ++ b :: post)) ++ Footer.bytes
        ⟨(blockBytes (pre ++ b :: post)).length, (writeIndex (indexOf 0 (pre ++ b :: post))).length,
          kSSTableMagicNumber⟩) := by
    rw [h.file, fileOf, List.append_assoc]
  have hget : r.indexEntries[pre.length]?
      = some ⟨maxKeyOf b, (blockBytes pre).length, (encodeBlock b).length⟩ := by
    rw [hidx, getElem?_indexOf, Nat.zero_add]
  exact readDataBlock_eq hfd h.length hget

/-- The largest keys of a table's blocks ascend. -/
theorem ascending_maxKey {bs : List (List Entry)} (hne : ∀ b ∈ bs, b ≠ [])
    (hs : KeySorted bs.flatten) (off : Nat) :
    (indexOf off bs).Pairwise (fun a b => a.maxKey < b.maxKey) := by
  have hblocks : bs.Pairwise (fun b c => maxKeyOf b < maxKeyOf c) := by
    refine (List.pairwise_flatten.mp hs).2.imp_of_mem ?_
    intro b c hb hc hcross
    have hsorted := (List.pairwise_flatten.mp hs).1
    obtain ⟨kv, hkv, hmax⟩ := (le_maxKeyOf (hne b hb) (hsorted b hb)).2
    obtain ⟨kv', hkv', hmax'⟩ := (le_maxKeyOf (hne c hc) (hsorted c hc)).2
    rw [← hmax, ← hmax']
    exact hcross kv hkv kv' hkv'
  rw [← List.pairwise_map, map_maxKey_indexOf, List.pairwise_map]
  exact hblocks

/-- **On an ascending index** the binary search finds the first entry at or above the
    target. -/
theorem findBlockIndex_eq_findIdx {r : SSTableReader}
    (h : r.indexEntries.Pairwise (fun a b => a.maxKey < b.maxKey)) (target : Bytes) :
    r.findBlockIndex target = r.indexEntries.findIdx (fun e => !decide (e.maxKey < target)) :=
  LowerBound.search_lt_eq_findIdx h target

/-- `Get` searches the block that `FindBlockIndex` and `ReadDataBlock` give. -/
theorem get_eq_search (r : SSTableReader) (key : Bytes) :
    r.get key = r.readDataBlock (r.findBlockIndex key)
      >>= fun data => searchInDataBlock key data.length data := by
  have hpred : (fun e : IndexEntry => sliceLt e.maxKey key) = fun e => decide (e.maxKey < key) := by
    funext e
    rw [sliceLt, decide_eq_decide.mpr sliceOrder_lt_zero]
  simp only [SSTableReader.get, hpred]
  rw [SSTableReader.readDataBlock, SSTableReader.findBlockIndex]
  cases r.indexEntries[LowerBound.search
      (fun i => r.indexEntries[i]?.any (fun e => e.maxKey < key)) 0 r.indexEntries.length]? with
  | none => rfl
  | some e =>
      simp only [bind_assoc]
      refine congrArg _ (funext fun data => ?_)
      cases data with
      | none => rfl
      | some data => rfl

end KvTable
