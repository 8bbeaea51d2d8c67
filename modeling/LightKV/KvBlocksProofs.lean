import LightKV.KvTableIteratorProofs

/-! # Blocks under any index

    Where the blocks of a file stand is one thing, and which keys its index has of
    them another.  Whatever the keys are, the iterator goes through the blocks in
    order, and passes those by whose reads come short (`blocks_indexWith`,
    `leads_of_ahead`, `streams_of_ahead`). -/

namespace KvBlocks

open KWayMerge KvBytes KvIterators KvTable KvTableIterator LittleEndian Overlay

/-! ## The index -/

variable {r : SSTableReader} {es : List Entry} {bs : List (List Entry)}
  {cs : List (Bytes × List Entry)}

/-- The index of blocks, by the key that was noted of each. -/
def indexWith : Nat → List (Bytes × List Entry) → List IndexEntry
  | _, [] => []
  | off, c :: cs =>
      ⟨c.1, off, (encodeBlock c.2).length⟩ :: indexWith (off + (encodeBlock c.2).length) cs

/-- Their bytes. -/
def bytesOf (cs : List (Bytes × List Entry)) : Bytes := blockBytes (cs.map Prod.snd)

theorem bytesOf_append (cs ds : List (Bytes × List Entry)) :
    bytesOf (cs ++ ds) = bytesOf cs ++ bytesOf ds := by
  rw [bytesOf, List.map_append, blockBytes_append, bytesOf, bytesOf]

theorem length_indexWith (cs : List (Bytes × List Entry)) (off : Nat) :
    (indexWith off cs).length = cs.length := by
  induction cs generalizing off with
  | nil => rfl
  | cons c cs ih => rw [indexWith, List.length_cons, ih, List.length_cons]

theorem indexWith_append (cs ds : List (Bytes × List Entry)) (off : Nat) :
    indexWith off (cs ++ ds) = indexWith off cs ++ indexWith (off + (bytesOf cs).length) ds := by
  induction cs generalizing off with
  | nil => rfl
  | cons c cs ih =>
      rw [List.cons_append, indexWith, ih, indexWith, List.cons_append]
      simp only [bytesOf, List.map_cons, blockBytes, List.flatMap_cons, List.length_append,
        Nat.add_assoc]

theorem getElem?_indexWith (cs ds : List (Bytes × List Entry)) (c : Bytes × List Entry)
    (off : Nat) : (indexWith off (cs ++ c :: ds))[cs.length]?
      = some ⟨c.1, off + (bytesOf cs).length, (encodeBlock c.2).length⟩ := by
  rw [indexWith_append, List.getElem?_append_right (by rw [length_indexWith]), length_indexWith,
    Nat.sub_self]
  rfl

/-! ## Reading the blocks -/

theorem readable_subset {maxRead : Nat} {b : List Entry} : readable maxRead b ⊆ b := by
  rw [readable]
  split
  · exact fun _ hkv => hkv
  · exact List.nil_subset b

/-- What is read of the blocks. -/
def readBlocks (maxRead : Nat) (cs : List (Bytes × List Entry)) : List (List Entry) :=
  cs.map (fun c => readable maxRead c.2)

theorem room_indexWith (maxRead : Nat) (cs : List (Bytes × List Entry)) (off : Nat) :
    (readBlocks maxRead cs).flatten.length
      ≤ ((indexWith off cs).map IndexEntry.size).sum := by
  induction cs generalizing off with
  | nil => exact Nat.le_refl _
  | cons c cs ih =>
      have hrest := ih (off + (encodeBlock c.2).length)
      have hlen : (readable maxRead c.2).length ≤ (encodeBlock c.2).length := by
        have hle := length_le_encodeBlock c.2
        rw [readable]
        split
        · exact hle
        · exact Nat.zero_le _
      simp only [readBlocks, List.map_cons, List.flatten_cons, List.length_append, indexWith,
        List.sum_cons] at hrest ⊢
      omega

/-- **The blocks are read** as the index says where they stand, whatever its keys. -/
theorem blocks_indexWith {rest : Bytes} (hidx : r.indexEntries = indexWith 0 cs)
    (hfd : r.fd = bytesOf cs ++ rest) (hlen : r.fd.length < 2 ^ 62)
    (hfits : ∀ c ∈ cs, ∀ kv ∈ c.2, Fits kv) :
    Blocks r (readBlocks r.maxRead cs) where
  fits := by
    intro kv hkv
    obtain ⟨b, hb, hkvb⟩ := List.mem_flatten.mp hkv
    obtain ⟨c, hc, rfl⟩ := List.mem_map.mp hb
    exact hfits c hc kv (readable_subset hkvb)
  count := by rw [SSTableReader.getBlockCount, hidx, length_indexWith, readBlocks, List.length_map]
  block := by
    intro pre b post heq
    obtain ⟨cs₁, cs', rfl, rfl, hcs'⟩ := List.map_eq_append_iff.mp heq
    obtain ⟨c, cs₂, rfl, rfl, rfl⟩ := List.map_eq_cons_iff.mp hcs'
    have hat := getElem?_indexWith cs₁ cs₂ c 0
    have hbytes : r.fd = blockBytes (cs₁.map Prod.snd ++ c.2 :: cs₂.map Prod.snd) ++ rest := by
      rw [hfd, bytesOf, List.map_append, List.map_cons]
    have hcount : (cs₁.map Prod.snd).length = cs₁.length := List.length_map _
    rw [← hidx, Nat.zero_add, bytesOf, ← hcount] at hat
    rw [List.length_map, ← hcount]
    exact readDataBlock_eq hbytes hlen hat
  room := by
    rw [hidx]
    exact room_indexWith r.maxRead cs 0

/-- **The blocks of a table file**, those left out that are longer than a `pread`. -/
theorem blocks_of_tableFile (h : TableFile r.fd es bs) (hidx : r.indexEntries = indexOf 0 bs) :
    Blocks r (bs.map (readable r.maxRead)) := by
  have hkeyed : ∀ (bs : List (List Entry)) (off : Nat),
      indexOf off bs = indexWith off (bs.map (fun b => (maxKeyOf b, b))) := by
    intro bs
    induction bs with
    | nil => exact fun _ => rfl
    | cons b bs ih => exact fun off => congrArg (_ :: ·) (ih _)
  have hsnd : (bs.map (fun b => (maxKeyOf b, b))).map Prod.snd = bs := by
    rw [List.map_map]
    exact List.map_id bs
  have hfd := h.file
  rw [fileOf, List.append_assoc] at hfd
  have hb := @blocks_indexWith r (bs.map (fun b => (maxKeyOf b, b))) _ (hidx.trans (hkeyed bs 0))
    (by rw [bytesOf, hsnd]; exact hfd) h.length (by
      intro c hc kv hkv
      obtain ⟨b, hb, rfl⟩ := List.mem_map.mp hc
      exact h.fits kv (h.entries ▸ List.mem_flatten_of_mem hb hkv))
  rwa [readBlocks, List.map_map] at hb

/-! ## The iterator -/

/-- An iterator over the reader, at the first of the entries that it has to come. -/
def Ahead (r : SSTableReader) (sequence : Sequence) (bs : List (List Entry)) (it : SSTableIterator)
    (kvs : List Entry) : Prop :=
  it.reader = r ∧ it.sequence = sequence ∧ TableCurrent it bs (kvs.map (toEntry sequence))

/-- A new iterator. -/
theorem ahead_new (h : Blocks r bs) (sequence : Sequence) :
    ∃ it, SSTableIterator.new r sequence = .ok it ∧ Ahead r sequence bs it bs.flatten := by
  obtain ⟨it, hnew, hdec⟩ := new_spec h sequence
  exact ⟨it, hnew, tableCurrent_of_decoded hdec⟩

/-- `Next`. -/
theorem ahead_next (h : Blocks r bs) {sequence : Sequence} {it : SSTableIterator} {kv : Entry}
    {kvs : List Entry} (hit : Ahead r sequence bs it (kv :: kvs)) :
    ∃ it', KvIterator.next it = .ok it' ∧ Ahead r sequence bs it' kvs := by
  obtain ⟨rfl, rfl, hv, -, kvs', heq, hst⟩ := hit
  obtain ⟨it', hrun, hdec⟩ := parseNextEntry_spec h hst
  obtain ⟨hr, hseq, hcur⟩ := tableCurrent_of_decoded hdec
  refine ⟨it', ?_, hr, hseq, heq ▸ hcur⟩
  show it.next = _
  rw [SSTableIterator.next, if_pos hv]
  exact hrun

/-- `Seek` to the empty key, where the index search ends at the first block. -/
theorem ahead_seek {b : List Entry} (h : Blocks r (b :: bs)) (hfind : r.findBlockIndex [] = 0)
    {sequence : Sequence} {it : SSTableIterator} (hr : it.reader = r) (hseq : it.sequence = sequence) :
    ∃ it', it.seek [] = .ok it' ∧ Ahead r sequence (b :: bs) it' (b :: bs).flatten := by
  subst hr
  obtain ⟨it', hseek, hdec⟩ := @seek_load it [] bs b h [] hfind
  have hall : (b ++ bs.flatten).dropWhile (fun kv => kv.1 < []) = (b :: bs).flatten := by
    rw [List.dropWhile_eq_self_iff.mpr (fun _ => by simp), List.flatten_cons]
  rw [hall] at hdec
  obtain ⟨hr, hseq', hcur⟩ := tableCurrent_of_decoded hdec
  exact ⟨it', hseek, hr, hseq'.trans hseq, hseq ▸ hcur⟩

/-- **Whatever the index says**, the iterator begins with the entries it has to come. -/
theorem leads_of_ahead (h : Blocks r bs) {sequence : Sequence} :
    ∀ {kvs more : List Entry} {it : SSTableIterator}, kvs ≠ [] →
      Ahead r sequence bs it (kvs ++ more) → Leads it (kvs.map (toEntry sequence)) := by
  intro kvs more
  induction kvs with
  | nil => exact fun hne => absurd rfl hne
  | cons kv kvs ih =>
      intro it _ hit
      obtain ⟨-, -, hv, hentry, -⟩ := id hit
      rw [List.map_cons, ← show KvIterator.entry it = toEntry sequence kv from hentry]
      by_cases hnil : kvs = []
      · rw [hnil]
        exact Leads.last hv
      · obtain ⟨it', hnext, hit'⟩ := ahead_next h hit
        exact Leads.more hv hnext (ih hnil hit')

/-- It streams them all. -/
theorem streams_of_ahead (h : Blocks r bs) {sequence : Sequence} :
    ∀ {kvs : List Entry} {it : SSTableIterator}, Ahead r sequence bs it kvs →
      Streams it (kvs.map (toEntry sequence)) := by
  intro kvs
  induction kvs with
  | nil => exact fun hit => Streams.done hit.2.2
  | cons kv kvs ih =>
      intro it hit
      obtain ⟨-, -, hv, hentry, -⟩ := id hit
      obtain ⟨it', hnext, hit'⟩ := ahead_next h hit
      rw [List.map_cons, ← show KvIterator.entry it = toEntry sequence kv from hentry]
      exact Streams.more hv hnext (ih hit')

end KvBlocks
