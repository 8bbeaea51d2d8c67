import LightKV.KvTableIteratorProofs

/-! # Tables that are not what a builder writes

    `LoadIndexBlock` and `SearchInDataBlock` take the lengths they find in a file
    at their word; only the magic number of the footer is checked.  So `Open`
    stays inside its buffer exactly on an index block of whole entries, and a
    search stays inside its block exactly when no entry is cut where the search
    reads it (`reads_inside_iff`).  `ParseNextEntry`, which decodes the same bytes,
    compares with the end of the block first, and always does. -/

namespace KvMalformed

open Execution LittleEndian KvBytes KvIterators KvTable KvTableIterator Overlay

/-! ## Fields of a buffer -/

/-- A field that is read lies at the front of the buffer. -/
theorem readBytes_spec (mem : Bytes) (n : Nat) :
    Ends (fun f => f = .outOfBounds) (readBytes mem n)
      (fun bs => ∃ rest, mem = bs ++ rest ∧ bs.length = n ∧ mem.drop n = rest) := by
  rw [readBytes]
  split
  case isTrue hle =>
      exact ⟨mem.drop n, (List.take_append_drop n mem).symm, List.length_take_of_le hle, rfl⟩
  case isFalse => exact rfl

/-- The first bytes of a buffer that has as many. -/
theorem exists_field {n : Nat} {mem : Bytes} (h : n ≤ mem.length) :
    ∃ bs rest, mem = bs ++ rest ∧ n = bs.length :=
  ⟨mem.take n, mem.drop n, (List.take_append_drop n mem).symm, (List.length_take_of_le h).symm⟩

/-- A number that is read fits its field, and is what stands there. -/
theorem leNat_field {w : Nat} {bs : Bytes} (h : bs.length = w) :
    leNat bs < 256 ^ w ∧ leBytes w (leNat bs) = bs := by
  subst h
  exact ⟨leNat_lt bs, leBytes_leNat bs⟩

/-! ## The index block -/

/-- **The loop of `LoadIndexBlock`** decodes a block of whole entries, or leaves the
    buffer. -/
theorem parseIndex_spec :
    ∀ (fuel : Nat) (mem : Bytes), mem.length ≤ fuel →
      Ends (fun f => f = .outOfBounds) (parseIndex fuel mem)
        (fun es => mem = writeIndex es ∧ ∀ e ∈ es, IndexFits e) := by
  intro fuel
  induction fuel with
  | zero =>
      intro mem hlen
      obtain rfl := List.length_eq_zero_iff.mp (Nat.le_zero.mp hlen)
      exact ⟨rfl, by simp⟩
  | succ fuel ih =>
      intro mem hlen
      cases mem with
      | nil => exact ⟨rfl, by simp⟩
      | cons b mem =>
          rw [parseIndex]
          swap
          · exact List.cons_ne_nil b mem
          refine (readBytes_spec _ 4).bind ?_
          rintro keyLen ⟨rest₁, h₁, hl₁, hd₁⟩
          refine (readBytes_spec _ _).bind ?_
          rintro maxKey ⟨rest₂, h₂, hl₂, hd₂⟩
          refine (readBytes_spec _ 8).bind ?_
          rintro offset ⟨rest₃, h₃, hl₃, hd₃⟩
          refine (readBytes_spec _ 8).bind ?_
          rintro size ⟨rest₄, h₄, hl₄, hd₄⟩
          obtain ⟨hkLt, hkBytes⟩ := leNat_field hl₁
          obtain ⟨hoLt, hoBytes⟩ := leNat_field hl₃
          obtain ⟨hsLt, hsBytes⟩ := leNat_field hl₄
          rw [hd₁] at h₂ hd₂
          rw [hd₁, hd₂] at h₃ hd₃
          rw [hd₁, hd₂, hd₃] at h₄ hd₄
          rw [hd₁, hd₂, hd₃, hd₄]
          have hwhole : b :: mem = keyLen ++ (maxKey ++ (offset ++ (size ++ rest₄))) := by
            rw [h₁, h₂, h₃, h₄]
          refine (ih rest₄ ?_).bind ?_
          · have hall := congrArg List.length hwhole
            simp only [List.length_append, hl₁] at hall
            omega
          · rintro es ⟨hrest, hfits⟩
            have hmax : maxKey.length < 2 ^ 32 := by
              rw [hl₂]
              exact hkLt
            refine ⟨?_, List.forall_mem_cons.mpr ⟨⟨hmax, hoLt, hsLt⟩, hfits⟩⟩
            rw [hwhole, hrest, writeIndex, Nat.mod_eq_of_lt hmax, List.take_length, hl₂, hkBytes,
              hoBytes, hsBytes]
            simp only [List.append_assoc]

/-- Whole entries, and nothing else. -/
def WholeEntries (buffer : Bytes) (es : List IndexEntry) : Prop :=
  buffer = writeIndex es ∧ ∀ e ∈ es, IndexFits e

theorem parseIndex_of_wholeEntries {buffer : Bytes} {es : List IndexEntry}
    (h : WholeEntries buffer es) : parseIndex buffer.length buffer = .ok es := by
  rw [h.1]
  exact parseIndex_writeIndex es _ h.2 (length_writeIndex_ge es)

/-- **The bytes that a file's footer points to**, which `LoadIndexBlock` decodes: as
    many as it says are behind the offset, and one `pread` moves them. -/
def IndexBytes (maxRead : Nat) (file buffer : Bytes) : Prop :=
  ∃ body f, file = body ++ Footer.bytes f ∧ f.magicNumber = kSSTableMagicNumber
    ∧ f.indexOffset < 2 ^ 63 ∧ f.indexSize < 2 ^ 62
    ∧ f.indexSize ≤ min maxRead (file.length - f.indexOffset)
    ∧ buffer = (file.drop f.indexOffset).take f.indexSize

/-- A footer that is accepted stands at the end of its file. -/
theorem readFooter_eq_some {file : Bytes} {f : Footer} (h : readFooter file = some f) :
    ∃ body, file = body ++ f.bytes ∧ f.magicNumber = kSSTableMagicNumber := by
  rw [readFooter] at h
  split at h
  · cases h
  case isFalse hlong =>
      simp only at h
      split at h
      case isFalse => cases h
      case isTrue hmagic =>
          obtain rfl := Option.some.inj h
          refine ⟨file.take (file.length - 24), ?_, hmagic⟩
          have hlen : (file.drop (file.length - 24)).length = 24 := by
            rw [List.length_drop]
            omega
          obtain ⟨buf, hbuf⟩ : ∃ buf, buf = file.drop (file.length - 24) := ⟨_, rfl⟩
          rw [← hbuf] at hlen ⊢
          have hfield : ∀ i, i + 8 ≤ 24 → leBytes 8 (leNat ((buf.drop i).take 8)) = (buf.drop i).take 8 :=
            fun i hi => (leNat_field (by rw [List.length_take, List.length_drop]; omega)).2
          have h0 := hfield 0 (by decide)
          rw [List.drop_zero] at h0
          have hbytes : buf.take 8 ++ (buf.drop 8).take 8 ++ (buf.drop 16).take 8 = buf := by
            have h16 : (buf.drop 16).take 8 = buf.drop 16 :=
              List.take_of_length_le (by rw [List.length_drop]; omega)
            have h8 : (buf.drop 8).drop 8 = buf.drop 16 := List.drop_drop
            rw [h16, ← h8, List.append_assoc, List.take_append_drop, List.take_append_drop]
          rw [Footer.bytes, h0, hfield 8 (by decide), hfield 16 (by decide), hbytes, hbuf,
            List.take_append_drop]

/-- **`Open`** on a file: without an index it returns null, unless the buffer cannot be
    allocated; with one, it returns what `LoadIndexBlock` decodes. -/
theorem open_cases (maxRead : Nat) (filename file : Bytes) (sequence : Nat) :
    ((∀ buffer, ¬ IndexBytes maxRead file buffer)
        ∧ (SSTableReader.openUpTo maxRead filename (some file) sequence = .ok none
          ∨ SSTableReader.openUpTo maxRead filename (some file) sequence = .error .badAlloc))
      ∨ ∃ buffer, IndexBytes maxRead file buffer
        ∧ (∀ buffer', IndexBytes maxRead file buffer' → buffer' = buffer)
        ∧ SSTableReader.openUpTo maxRead filename (some file) sequence
          = parseIndex buffer.length buffer
            >>= fun es => pure (some ⟨filename, file, maxRead, es, sequence⟩) := by
  -- the footer of a file is the one that is read
  have hunique : ∀ {buffer}, IndexBytes maxRead file buffer → ∃ f, readFooter file = some f
      ∧ f.indexOffset < 2 ^ 63 ∧ f.indexSize < 2 ^ 62
      ∧ f.indexSize ≤ min maxRead (file.length - f.indexOffset)
      ∧ buffer = (file.drop f.indexOffset).take f.indexSize := by
    rintro buffer ⟨body, f, hfile, hmagic, ho, hs, hle, hbuffer⟩
    exact ⟨f, hfile ▸ readFooter_append body (by omega) (by omega) hmagic, ho, hs, hle, hbuffer⟩
  rw [SSTableReader.openUpTo]
  cases hf : readFooter file with
  | none =>
      refine Or.inl ⟨fun buffer hb => ?_, Or.inl rfl⟩
      obtain ⟨f, hsome, -⟩ := hunique hb
      rw [hf] at hsome
      cases hsome
  | some f =>
      have hsame : ∀ {buffer}, IndexBytes maxRead file buffer → f.indexOffset < 2 ^ 63
          ∧ f.indexSize < 2 ^ 62 ∧ f.indexSize ≤ min maxRead (file.length - f.indexOffset)
          ∧ buffer = (file.drop f.indexOffset).take f.indexSize := by
        intro buffer hb
        obtain ⟨f', hsome, hrest⟩ := hunique hb
        obtain rfl := Option.some.inj (hf.symm.trans hsome)
        exact hrest
      simp only [pread]
      by_cases hs : f.indexSize < 2 ^ 62
      · rw [if_pos hs]
        by_cases ho : f.indexOffset < 2 ^ 63
            ∧ min (min f.indexSize maxRead) (file.length - f.indexOffset) = f.indexSize
        · rw [if_pos ho]
          obtain ⟨body, hfile, hmagic⟩ := readFooter_eq_some hf
          exact Or.inr ⟨_, ⟨body, f, hfile, hmagic, ho.1, hs, by omega, rfl⟩,
            fun buffer' hb => (hsame hb).2.2.2, rfl⟩
        · rw [if_neg ho]
          refine Or.inl ⟨fun buffer hb => ho ⟨(hsame hb).1, ?_⟩, Or.inl rfl⟩
          have hle := (hsame hb).2.2.1
          omega
      · rw [if_neg hs]
        exact Or.inl ⟨fun buffer hb => hs (hsame hb).2.1, Or.inr rfl⟩

/-- **`Open` reads inside its buffer**, and decodes it whole, exactly when the bytes
    that the footer points to are whole entries. -/
theorem open_inside_iff (maxRead : Nat) (filename file : Bytes) (sequence : Nat) :
    Ends (fun f => f = .badAlloc)
        (SSTableReader.openUpTo maxRead filename (some file) sequence)
        (fun reader => ∀ r, reader = some r →
          ∃ buffer, IndexBytes maxRead file buffer ∧ WholeEntries buffer r.indexEntries)
      ↔ ∀ buffer, IndexBytes maxRead file buffer → ∃ es, WholeEntries buffer es := by
  rcases open_cases maxRead filename file sequence with
    ⟨hnone, hopen⟩ | ⟨buffer, hb, hunique, hopen⟩
  · refine iff_of_true ?_ (fun buffer hb => absurd hb (hnone buffer))
    rcases hopen with hopen | hopen
    · exact ends_of_eq_ok hopen (fun r hr => by cases hr)
    · rw [hopen]
      exact rfl
  · have hspec := parseIndex_spec buffer.length buffer (Nat.le_refl _)
    rw [hopen]
    constructor
    · intro hends buffer' hb'
      obtain rfl := hunique buffer' hb'
      cases hrun : parseIndex buffer'.length buffer' with
      | error f =>
          rw [hrun] at hspec hends
          obtain rfl := hspec
          cases hends
      | ok es => exact ⟨es, hspec.of_eq_ok hrun⟩
    · intro hwhole
      obtain ⟨es, hes⟩ := hwhole buffer hb
      rw [parseIndex_of_wholeEntries hes]
      rintro r hr
      obtain rfl := Option.some.inj hr
      exact ⟨buffer, hb, hes⟩

/-! ## A data block -/

/-- The lengths of an entry that is there in full. -/
def LengthsFit (kv : Entry) : Prop := kv.1.length < 2 ^ 32 ∧ kv.2.value.length < 2 ^ 32

/-- **A rest that ends where the search reads on**: in the header, in the part of the
    key that is compared with the one sought, or in the value that is copied out. -/
inductive Cut (key : Bytes) : Bytes → Prop
  | header {rest : Bytes} (hne : rest ≠ []) (hlt : rest.length < 9) : Cut key rest
  | key (type : ValueType) {kLen vLen : Nat} {part : Bytes} (hk : kLen < 2 ^ 32)
      (hv : vLen < 2 ^ 32) (hlt : part.length < min kLen key.length) :
      Cut key (entryHeader type kLen vLen ++ part)
  | value {vLen : Nat} {part : Bytes} (hk : key.length < 2 ^ 32) (hv : vLen < 2 ^ 32)
      (hlt : part.length < vLen) :
      Cut key (entryHeader .kTypeValue key.length vLen ++ (key ++ part))

theorem ne_nil_of_cut {key rest : Bytes} (h : Cut key rest) : rest ≠ [] := by
  cases h with
  | header hne hlt => exact hne
  | key type hk hv hlt => exact List.cons_ne_nil _ _
  | value hk hv hlt => exact List.cons_ne_nil _ _

/-- **A block that the search runs out of**: behind whole entries of smaller keys, the
    next one is cut. -/
def Overrun (key block : Bytes) : Prop :=
  ∃ es rest, block = encodeBlock es ++ rest ∧ (∀ kv ∈ es, LengthsFit kv ∧ kv.1 < key)
    ∧ Cut key rest

/-- Nine bytes are a header. -/
theorem exists_header {block : Bytes} (h : ¬ block.length < 9) :
    ∃ type kLen vLen body, kLen < 2 ^ 32 ∧ vLen < 2 ^ 32
      ∧ block = entryHeader type kLen vLen ++ body := by
  cases block with
  | nil => exact absurd (Nat.zero_lt_succ 8) h
  | cons b block =>
      rw [List.length_cons] at h
      have hkField : (block.take 4).length = 4 := List.length_take_of_le (by omega)
      have hvField : ((block.drop 4).take 4).length = 4 := by
        rw [List.length_take, List.length_drop]
        omega
      obtain ⟨hkLt, hkBytes⟩ := leNat_field hkField
      obtain ⟨hvLt, hvBytes⟩ := leNat_field hvField
      refine ⟨⟨b⟩, _, _, (block.drop 4).drop 4, hkLt, hvLt, ?_⟩
      rw [entryHeader, hkBytes, hvBytes, List.append_assoc, List.append_assoc,
        List.take_append_drop, List.take_append_drop]
      rfl

/-- A key that leaves the block is compared over the sought key's length, and is not
    that key. -/
theorem compare_long {part key : Bytes} {kLen : Nat} (hlong : part.length < kLen)
    (hkey : key.length ≤ part.length) :
    ∃ order, Slice.compare ⟨part, kLen⟩ (.ofString key) = .ok order ∧ order ≠ 0 := by
  have hnot : ¬ kLen < key.length := by omega
  have hgt : kLen > key.length := by omega
  show ∃ order, Slice.compare ⟨part, kLen⟩ ⟨key, key.length⟩ = .ok order ∧ order ≠ 0
  simp only [Slice.compare, if_neg hnot, if_pos hgt, readBytes, if_pos hkey, Nat.le_refl, if_true,
    ok_bind]
  split
  · exact ⟨1, rfl, by decide⟩
  case isFalse hr => exact ⟨_, rfl, hr⟩

/-- A key whose compared part leaves the block is not compared. -/
theorem compare_cut {part key : Bytes} {kLen : Nat} (h : part.length < min kLen key.length) :
    Slice.compare ⟨part, kLen⟩ (.ofString key) = .error .outOfBounds := by
  have hmin : (if kLen < key.length then kLen else key.length) = min kLen key.length := by
    split <;> omega
  show Slice.compare ⟨part, kLen⟩ ⟨key, key.length⟩ = .error .outOfBounds
  simp only [Slice.compare, hmin, readBytes, if_neg (Nat.not_le.mpr h), error_bind]

/-- What ends in no value ends in an error that is allowed. -/
theorem ends_error {α : Type} {f : Fault} {x : Except Fault α}
    (h : Ends (fun g => g = f) x (fun _ => False)) : x = .error f := by
  cases x with
  | error g => exact congrArg Except.error h
  | ok a => exact h.elim

/-- **One turn at a cut entry** leaves the block. -/
theorem searchInDataBlock_cut {key rest : Bytes} (h : Cut key rest) (fuel : Nat) :
    searchInDataBlock key (fuel + 1) rest = .error .outOfBounds := by
  cases h with
  | header hne hlt =>
      rw [searchInDataBlock]
      swap
      · exact hne
      -- three fields of nine bytes in all
      refine ends_error ((readBytes_spec _ 1).bind ?_)
      rintro rawType ⟨rest₁, h₁, hl₁, hd₁⟩
      refine (readBytes_spec _ 4).bind ?_
      rintro kLen ⟨rest₂, h₂, hl₂, hd₂⟩
      refine (readBytes_spec _ 4).bind ?_
      rintro vLen ⟨rest₃, h₃, hl₃, -⟩
      rw [hd₁] at h₂ hd₂
      rw [hd₁, hd₂] at h₃
      rw [h₁, h₂, h₃] at hlt
      simp only [List.length_append] at hlt
      omega
  | @key type kLen vLen part hk hv hlt =>
      rw [searchInDataBlock_header key fuel type hk hv, compare_cut hlt]
      rfl
  | @value vLen part hk hv hlt =>
      rw [searchInDataBlock_key key fuel .kTypeValue hk hv, if_pos rfl, if_pos rfl, Slice.toString,
        readBytes, if_neg (Nat.not_le.mpr hlt)]
      rfl

/-- Behind the end of a block, a search finds nothing. -/
theorem searchInDataBlock_nil (key : Bytes) (fuel : Nat) :
    searchInDataBlock key fuel [] = .ok none := by
  cases fuel <;> rfl

/-- A key that leaves the block, but whose compared part does not, ends the search. -/
theorem searchInDataBlock_longKey (key : Bytes) (fuel : Nat) (type : ValueType) {kLen vLen : Nat}
    {body : Bytes} (hk : kLen < 2 ^ 32) (hv : vLen < 2 ^ 32) (hlong : body.length < kLen)
    (hkey : key.length ≤ body.length) :
    searchInDataBlock key (fuel + 1) (entryHeader type kLen vLen ++ body) = .ok none := by
  obtain ⟨order, hcmp, hne⟩ := compare_long hlong hkey
  rw [searchInDataBlock_header key fuel type hk hv, hcmp, ok_bind, if_neg hne,
    List.drop_of_length_le (Nat.le_of_lt hlong), List.drop_nil, searchInDataBlock_nil]
  split
  · rfl
  · rfl

/-- So does a value that leaves the block, when it is not copied out. -/
theorem searchInDataBlock_longValue (key : Bytes) (fuel : Nat) (type : ValueType) {k rest : Bytes}
    {vLen : Nat} (hk : k.length < 2 ^ 32) (hv : vLen < 2 ^ 32) (hlong : rest.length < vLen)
    (hskip : ¬ (k = key ∧ type = .kTypeValue)) :
    ∃ o, searchInDataBlock key (fuel + 1) (entryHeader type k.length vLen ++ (k ++ rest)) = .ok o := by
  rw [searchInDataBlock_key key fuel type hk hv, List.drop_of_length_le (Nat.le_of_lt hlong),
    searchInDataBlock_nil]
  by_cases heq : k = key
  · rw [if_pos heq, if_neg (fun htype => hskip ⟨heq, htype⟩)]
    exact ⟨_, rfl⟩
  · rw [if_neg heq, ite_self]
    exact ⟨none, rfl⟩

/-- **One turn elsewhere** ends the search, or passes an entry that is there in full. -/
theorem searchInDataBlock_turn {key block : Bytes} (hne : block ≠ []) (hcut : ¬ Cut key block)
    (fuel : Nat) :
    (∃ o, searchInDataBlock key (fuel + 1) block = .ok o)
      ∨ ∃ kv rest, block = encodeEntry kv ++ rest ∧ LengthsFit kv ∧ kv.1 < key
        ∧ searchInDataBlock key (fuel + 1) block = searchInDataBlock key fuel rest := by
  obtain ⟨type, kLen, vLen, body, hk, hv, rfl⟩ :=
    exists_header (fun hlt => hcut (Cut.header hne hlt))
  have hkey : min kLen key.length ≤ body.length :=
    not_lt.mp (fun hlt => hcut (Cut.key type hk hv hlt))
  by_cases hlong : body.length < kLen
  · have hwhole : key.length ≤ body.length := by omega
    exact Or.inl ⟨none, searchInDataBlock_longKey key fuel type hk hv hlong hwhole⟩
  obtain ⟨k, rest, rfl, rfl⟩ := exists_field (not_lt.mp hlong)
  by_cases hshort : rest.length < vLen
  · refine Or.inl (searchInDataBlock_longValue key fuel type hk hv hshort ?_)
    rintro ⟨rfl, rfl⟩
    exact hcut (Cut.value hk hv hshort)
  obtain ⟨v, rest, rfl, rfl⟩ := exists_field (not_lt.mp hshort)
  -- the entry is there in full
  have hfit : LengthsFit (k, ⟨type, v⟩) := ⟨hk, hv⟩
  rw [entryHeader_append, searchInDataBlock_entry key fuel hfit.1 hfit.2]
  rcases lt_trichotomy k key with hlt | heq | hgt
  · rw [if_neg hlt.ne, if_neg hlt.not_gt]
    exact Or.inr ⟨(k, ⟨type, v⟩), rest, rfl, hfit, hlt, rfl⟩
  · exact Or.inl ⟨_, if_pos heq⟩
  · rw [if_neg hgt.ne']
    exact Or.inl ⟨none, if_pos hgt⟩

/-- **`SearchInDataBlock`** returns, unless the block is one that it runs out of. -/
theorem searchInDataBlock_total (key : Bytes) :
    ∀ (fuel : Nat) (block : Bytes), block.length ≤ fuel → ¬ Overrun key block →
      ∃ o, searchInDataBlock key fuel block = .ok o := by
  intro fuel
  induction fuel with
  | zero =>
      intro block hlen _
      obtain rfl := List.length_eq_zero_iff.mp (Nat.le_zero.mp hlen)
      exact ⟨none, rfl⟩
  | succ fuel ih =>
      intro block hlen hrun
      by_cases hne : block = []
      · subst hne
        exact ⟨none, rfl⟩
      · have hcut : ¬ Cut key block := fun h => hrun ⟨[], block, rfl, by simp, h⟩
        rcases searchInDataBlock_turn hne hcut fuel with hdone | ⟨kv, rest, rfl, hfit, hlt, hturn⟩
        · exact hdone
        · rw [hturn]
          refine ih rest ?_ ?_
          · simp only [encodeEntry, List.length_append, List.length_singleton] at hlen
            omega
          · rintro ⟨es, rest', rfl, hes, hcut'⟩
            refine hrun ⟨kv :: es, rest', ?_, List.forall_mem_cons.mpr ⟨⟨hfit, hlt⟩, hes⟩, hcut'⟩
            exact (List.append_assoc _ _ _).symm

/-- **A block that the search runs out of** is left. -/
theorem searchInDataBlock_overrun {key rest : Bytes} (hcut : Cut key rest) :
    ∀ (es : List Entry) (fuel : Nat), (∀ kv ∈ es, LengthsFit kv ∧ kv.1 < key) →
      (encodeBlock es ++ rest).length ≤ fuel →
      searchInDataBlock key fuel (encodeBlock es ++ rest) = .error .outOfBounds := by
  intro es
  induction es with
  | nil =>
      intro fuel _ hlen
      cases fuel with
      | zero =>
          have hnil : rest = [] := List.length_eq_zero_iff.mp (Nat.le_zero.mp hlen)
          exact absurd hnil (ne_nil_of_cut hcut)
      | succ fuel => exact searchInDataBlock_cut hcut fuel
  | cons kv es ih =>
      intro fuel hes hlen
      obtain ⟨hfit, hlt⟩ := hes kv List.mem_cons_self
      have hsplit : encodeBlock (kv :: es) ++ rest = encodeEntry kv ++ (encodeBlock es ++ rest) :=
        List.append_assoc _ _ _
      rw [hsplit] at hlen ⊢
      cases fuel with
      | zero => simp [encodeEntry] at hlen
      | succ fuel =>
          rw [searchInDataBlock_entry key fuel hfit.1 hfit.2, if_neg hlt.ne, if_neg hlt.not_gt]
          refine ih fuel (fun b hb => hes b (List.mem_cons_of_mem _ hb)) ?_
          simp only [encodeEntry, List.length_append, List.length_singleton] at hlen ⊢
          omega

/-- **A search reads inside its block** exactly when it does not run out of it. -/
theorem searchInDataBlock_inside_iff (key block : Bytes) :
    (∃ o, searchInDataBlock key block.length block = .ok o) ↔ ¬ Overrun key block := by
  constructor
  · rintro ⟨o, ho⟩ ⟨es, rest, rfl, hes, hcut⟩
    rw [searchInDataBlock_overrun hcut es _ hes (Nat.le_refl _)] at ho
    cases ho
  · exact searchInDataBlock_total key block.length block (Nat.le_refl _)

/-! ## `ParseNextEntry` -/

/-- Too few bytes for a header. -/
theorem parseEntry_short {it : SSTableIterator}
    (h : (it.currentBlockData.drop it.currentOffset).length < 9) :
    it.parseEntry = { it with valid := false } := by
  rw [SSTableIterator.parseEntry]
  exact if_pos h

/-- **An iterator decodes inside its block**: an entry that is there in full, or none. -/
theorem parseEntry_inside (it : SSTableIterator) :
    it.parseEntry = { it with valid := false }
      ∨ ∃ kv rest, it.currentBlockData.drop it.currentOffset = encodeEntry kv ++ rest
        ∧ it.parseEntry = { it with
          currentEntry := toEntry it.sequence kv
          currentOffset := it.currentOffset + (encodeEntry kv).length
          valid := true } := by
  by_cases hshort : (it.currentBlockData.drop it.currentOffset).length < 9
  · exact Or.inl (parseEntry_short hshort)
  obtain ⟨type, kLen, vLen, body, hk, hv, hat⟩ := exists_header hshort
  by_cases hlt : body.length < kLen + vLen
  · refine Or.inl ?_
    rw [parseEntry_header type hk hv hat, if_pos hlt]
  have hkey : kLen ≤ body.length := by omega
  obtain ⟨k, rest, rfl, rfl⟩ := exists_field hkey
  have hval : vLen ≤ rest.length := by
    rw [List.length_append] at hlt
    omega
  obtain ⟨v, rest, rfl, rfl⟩ := exists_field hval
  have hfit : LengthsFit (k, ⟨type, v⟩) := ⟨hk, hv⟩
  have hentry := hat.trans (entryHeader_append type k v rest)
  exact Or.inr ⟨_, rest, hentry, parseEntry_entry hfit.1 hfit.2 hentry⟩

/-- **Where the search leaves the block**, the iterator stops. -/
theorem parseEntry_of_cut {it : SSTableIterator} {key rest : Bytes} (h : Cut key rest)
    (hat : it.currentBlockData.drop it.currentOffset = rest) :
    it.parseEntry = { it with valid := false } := by
  cases h with
  | header hne hlt => exact parseEntry_short (hat ▸ hlt)
  | key type hk hv hlt =>
      rw [parseEntry_header type hk hv hat, if_pos (by omega)]
  | value hk hv hlt =>
      rw [parseEntry_header _ hk hv hat, if_pos (by rw [List.length_append]; omega)]

/-- **Malformed tables are read inside the buffers** by `Open` exactly when the index
    bytes are whole entries, by `SearchInDataBlock` exactly when it does not run out
    of the block, and by `ParseNextEntry` always. -/
theorem reads_inside_iff (maxRead : Nat) (filename file : Bytes) (sequence : Nat)
    (key block : Bytes) (it : SSTableIterator) :
    (Ends (fun f => f = .badAlloc)
        (SSTableReader.openUpTo maxRead filename (some file) sequence)
        (fun reader => ∀ r, reader = some r →
          ∃ buffer, IndexBytes maxRead file buffer ∧ WholeEntries buffer r.indexEntries)
      ↔ ∀ buffer, IndexBytes maxRead file buffer → ∃ es, WholeEntries buffer es)
    ∧ ((∃ o, searchInDataBlock key block.length block = .ok o) ↔ ¬ Overrun key block)
    ∧ (it.parseEntry = { it with valid := false }
      ∨ ∃ kv rest, it.currentBlockData.drop it.currentOffset = encodeEntry kv ++ rest
        ∧ it.parseEntry = { it with
          currentEntry := toEntry it.sequence kv
          currentOffset := it.currentOffset + (encodeEntry kv).length
          valid := true }) :=
  ⟨open_inside_iff maxRead filename file sequence, searchInDataBlock_inside_iff key block,
    parseEntry_inside it⟩

/-- A file of one block of one byte, which its index gives as such. -/
def oneByteBlock : Bytes :=
  [0] ++ writeIndex [⟨[107], 0, 1⟩] ++ Footer.bytes ⟨1, 21, kSSTableMagicNumber⟩

/-- **An index of one byte is read past its end**, and a block of one byte is. -/
theorem one_byte_runs_out :
    SSTableReader.openUpTo linuxMaxRead [] (some ([1] ++ Footer.bytes ⟨0, 1, kSSTableMagicNumber⟩)) 0
        = .error .outOfBounds
      ∧ Yields (SSTableReader.openUpTo linuxMaxRead [] (some oneByteBlock) 0)
        (fun reader => reader.map (fun r => r.get [107]) = some (.error .outOfBounds)) := by
  constructor
  · rfl
  · decide +kernel

end KvMalformed
