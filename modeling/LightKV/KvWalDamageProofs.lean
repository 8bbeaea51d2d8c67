import LightKV.KvWalProofs
import LightKV.CrcProofs

/-! # Damaged logs

    The checksum of a frame is CRC-32, however its bytes are passed on
    (`calculateChecksum_eq_crc32`).

    What `Recover` makes of a log whose bytes were cut off or changed.  A frame
    with its lengths and its stored checksum untouched is rejected exactly when
    the run of its checksum over the rest of it comes out different
    (`rejected_iff`).

    A cut inside a record is noticed exactly when it falls into the header, or
    when the missing bytes do not run from zero to zero (`recover_truncated_iff`).
    A change within four consecutive bytes is always noticed, in a log of records
    whose lengths fit their fields (`detectsBursts`). -/

namespace KvWalDamage

open LittleEndian KvBytes KvDirectory KvWal Overlay

/-! ## The checksum is a run -/

/-- The polynomial of `init_crc32`. -/
def crcPoly : UInt32 := 0xEDB88320

theorem two_pow_le_crcPoly : 2 ^ 31 ≤ crcPoly.toNat := by decide

theorem crcBits_eq_shifts (n : Nat) (crc : UInt32) : crcBits n crc = Crc.shifts crcPoly n crc := by
  induction n generalizing crc with
  | zero => rfl
  | succ n ih => exact ih _

/-- `compute_crc32` is a run of the register. -/
theorem computeCrc32_eq_run (data : Bytes) (crc : UInt32) :
    computeCrc32 data crc = Crc.run crcPoly data crc := by
  induction data generalizing crc with
  | nil => rfl
  | cons b data ih =>
      have hstep : (crc >>> 8) ^^^ crc32Table ((crc ^^^ b.toUInt32) &&& 0xFF).toUInt8
          = Crc.update crcPoly crc b := by
        rw [crc32Table, crcBits_eq_shifts]
        rfl
      show computeCrc32 data ((crc >>> 8) ^^^ _) = Crc.run crcPoly data _
      rw [hstep, ih]

/-- The register behind the first twelve bytes of a header, its checksum zeroed. -/
def behindLengths (keyLen valueLen : Nat) : UInt32 :=
  computeCrc32 (leBytes 4 0 ++ leBytes 4 keyLen ++ leBytes 4 valueLen) 0xFFFFFFFF

theorem computeCrc32_append (a b : Bytes) (crc : UInt32) :
    computeCrc32 (a ++ b) crc = computeCrc32 b (computeCrc32 a crc) := List.foldl_append

/-- The three pieces of `CalculateChecksum` are one. -/
theorem calculateChecksum_eq_run (h : LogHeader) (key value : Bytes) :
    calculateChecksum h key value
      = computeCrc32 (({ h with checksum := 0 } : LogHeader).bytes ++ key ++ value) 0xFFFFFFFF
          ^^^ 0xFFFFFFFF := by
  rw [computeCrc32_append, computeCrc32_append]
  rfl

/-- They go on from the register behind the lengths. -/
theorem calculateChecksum_eq (h : LogHeader) (key value : Bytes) :
    calculateChecksum h key value
      = computeCrc32 (h.opType.raw :: (key ++ value)) (behindLengths h.keyLen h.valueLen)
          ^^^ 0xFFFFFFFF := by
  have hbytes : ({ h with checksum := 0 } : LogHeader).bytes ++ key ++ value
      = (leBytes 4 0 ++ leBytes 4 h.keyLen ++ leBytes 4 h.valueLen)
        ++ h.opType.raw :: (key ++ value) := by
    simp [LogHeader.bytes]
  rw [calculateChecksum_eq_run, hbytes, computeCrc32_append, behindLengths]

/-! ## The checksum is CRC-32 -/

/-- CRC-32: the bits of a message go into a register of ones, lowest first, and
    the register is turned over at the end. -/
def crc32 (message : Bytes) : UInt32 :=
  Crc.serial 0xEDB88320 message 0xFFFFFFFF ^^^ 0xFFFFFFFF

/-- One call of `compute_crc32` in `CalculateChecksum`; an empty slice is skipped. -/
def addSlice (crc : UInt32) (slice : Bytes) : UInt32 :=
  if slice.isEmpty then crc else computeCrc32 slice crc

/-- `CalculateChecksum` over any slices. -/
def checksumOf (slices : List Bytes) : UInt32 :=
  slices.foldl addSlice 0xFFFFFFFF ^^^ 0xFFFFFFFF

/-- The register goes on where the slice before left it. -/
theorem foldl_addSlice (slices : List Bytes) (crc : UInt32) :
    slices.foldl addSlice crc = computeCrc32 slices.flatten crc := by
  induction slices generalizing crc with
  | nil => rfl
  | cons slice slices ih =>
      have hstep : addSlice crc slice = computeCrc32 slice crc := by
        cases slice with
        | nil => rfl
        | cons b slice => rfl
      rw [List.foldl_cons, hstep, ih, List.flatten_cons, computeCrc32_append]

/-- **The table-driven run is the bit-serial one.** -/
theorem crc32_eq_run (message : Bytes) :
    crc32 message = computeCrc32 message 0xFFFFFFFF ^^^ 0xFFFFFFFF := by
  rw [computeCrc32_eq_run, crc32, Crc.serial_eq_run]
  rfl

/-- **However a message is cut up**, its slices give its CRC-32. -/
theorem checksumOf_eq_crc32 (slices : List Bytes) : checksumOf slices = crc32 slices.flatten := by
  rw [checksumOf, foldl_addSlice, crc32_eq_run]

/-- The check value of CRC-32, over the digits from one to nine. -/
example : crc32 [49, 50, 51, 52, 53, 54, 55, 56, 57] = 0xCBF43926 := by decide +kernel

/-- **`CalculateChecksum` is CRC-32** of the header with its checksum zeroed, the
    key and the value, and so is every other way to pass on these bytes in slices. -/
theorem calculateChecksum_eq_crc32 (header : LogHeader) (key value : Bytes) :
    ({ header with checksum := 0 } : LogHeader).bytes.length = 13
      ∧ calculateChecksum header key value
          = crc32 (({ header with checksum := 0 } : LogHeader).bytes ++ key ++ value)
      ∧ calculateChecksum header key value
          = checksumOf [({ header with checksum := 0 } : LogHeader).bytes, key, value]
      ∧ ∀ slices : List Bytes,
          slices.flatten = ({ header with checksum := 0 } : LogHeader).bytes ++ key ++ value →
          checksumOf slices = calculateChecksum header key value := by
  obtain ⟨zeroed, hz⟩ : ∃ zeroed : LogHeader, zeroed = { header with checksum := 0 } := ⟨_, rfl⟩
  have hcrc : calculateChecksum header key value = crc32 (zeroed.bytes ++ key ++ value) := by
    rw [calculateChecksum_eq_run, ← hz, crc32_eq_run]
  rw [← hz]
  refine ⟨length_header zeroed, hcrc, ?_, ?_⟩
  · rw [hcrc, checksumOf_eq_crc32]
    simp
  · intro slices hslices
    rw [checksumOf_eq_crc32, hslices, hcrc]

/-! ## A frame with its lengths and checksum in place -/

variable {r : ParsedLogRecord}

/-- The header of a record's frame, with another operation byte. -/
def headerWith (r : ParsedLogRecord) (op : UInt8) : LogHeader := { headerOf r with opType := ⟨op⟩ }

theorem bytes_headerWith (r : ParsedLogRecord) (op : UInt8) :
    (headerWith r op).bytes = (headerOf r).bytes.take 12 ++ [op] := by
  have hlen : (leBytes 4 (headerOf r).checksum.toNat ++ leBytes 4 (headerOf r).keyLen
      ++ leBytes 4 (headerOf r).valueLen).length = 12 := by
    simp
  rw [LogHeader.bytes, LogHeader.bytes, List.take_left' hlen]
  rfl

/-- **When such a frame is rejected**: its operation byte and body, completed by
    zeros, run to another register than the record's do. -/
theorem rejected_iff (h : RecordFits r) (op : UInt8) (body : Bytes) :
    Rejected ((headerWith r op).bytes ++ body) ↔
      computeCrc32 (op :: (padBody body (r.key.length + r.value.length)).take
          (r.key.length + r.value.length)) (behindLengths r.key.length r.value.length)
        ≠ computeCrc32 (r.op.raw :: (r.key ++ r.value))
            (behindLengths r.key.length r.value.length) := by
  obtain ⟨file, hfile⟩ : ∃ file, file = (headerWith r op).bytes ++ body := ⟨_, rfl⟩
  have hparse : parseHeader (file.take 13) = headerWith r op := by
    rw [hfile, List.take_left' (length_header _)]
    exact parseHeader_bytes h.1 h.2
  have hdrop : file.drop 13 = body := by
    rw [hfile]
    exact List.drop_left' (length_header _)
  have hlong : ¬ file.length < 13 := by
    rw [hfile, List.length_append, length_header]
    omega
  -- the two reads of the body, put together again
  have hkv : (frameRecord file).key ++ (frameRecord file).value
      = (padBody body (r.key.length + r.value.length)).take (r.key.length + r.value.length) := by
    simp only [frameRecord, hparse, hdrop]
    exact List.take_add.symm
  rw [← hfile, Rejected, or_iff_right hlong, hparse, calculateChecksum_eq, hkv]
  show (calculateChecksum _ r.key r.value ≠ _) ↔ _
  rw [calculateChecksum_eq]
  constructor
  · intro hne heq
    refine hne ?_
    show computeCrc32 (r.op.raw :: (r.key ++ r.value))
      (behindLengths r.key.length r.value.length) ^^^ _ = _
    rw [← heq]
    rfl
  · intro hne heq
    exact hne (UInt32.xor_left_inj _ |>.mp heq).symm

/-- The log that a session on an absent path leaves. -/
theorem held_session {logPath : Bytes} {dir : Directory} (habs : dir.lookup logPath = none)
    (rs : List ParsedLogRecord) :
    held (session logPath dir rs).1 logPath = encodeAll rs := by
  rw [held, lookup_session, held, habs]
  rfl

/-- The frames before record `i`, its own, and those behind it. -/
theorem encodeAll_split {rs : List ParsedLogRecord} {i : Nat} (hi : rs[i]? = some r) :
    encodeAll rs
      = encodeAll (rs.take i) ++ (encodeRecord r ++ encodeAll (rs.drop (i + 1))) := by
  obtain ⟨hlt, hget⟩ := List.getElem?_eq_some_iff.mp hi
  have hrs : rs = rs.take i ++ ([r] ++ rs.drop (i + 1)) := by
    rw [List.singleton_append, ← hget, ← List.drop_eq_getElem_cons hlt, List.take_append_drop]
  conv_lhs => rw [hrs, encodeAll_append, encodeAll_append, encodeAll_singleton]

/-- Recovery stops behind whole frames exactly when what follows is rejected. -/
theorem recover_upsert_eq_iff {rs : List ParsedLogRecord} (h : ∀ r ∈ rs, RecordFits r)
    (logPath : Bytes) (dir : Directory) (rest : Bytes) :
    WalLogger.recover ⟨logPath, false⟩ (upsert logPath (encodeAll rs ++ rest) dir) = rs
      ↔ Rejected rest := by
  have hlook : (upsert logPath (encodeAll rs ++ rest) dir).lookup logPath
      = some (encodeAll rs ++ rest) := by rw [lookup_upsert, if_pos rfl]
  simp only [WalLogger.recover, hlook]
  rw [recoverFile_encodeAll h, List.append_right_eq_self, recoverFile_eq_nil]

/-! ## A log cut short -/

/-- A frame cut off behind its header is rejected exactly when its missing bytes
    do not run from zero to zero. -/
theorem rejected_take_iff (h : RecordFits r) {c : Nat} (hc : 13 ≤ c)
    (hlt : c < (encodeRecord r).length) :
    Rejected ((encodeRecord r).take c) ↔ computeCrc32 ((encodeRecord r).drop c) 0 ≠ 0 := by
  obtain ⟨n, rfl⟩ := Nat.exists_eq_add_of_le hc
  obtain ⟨kv, hkv⟩ : ∃ kv, kv = r.key ++ r.value := ⟨_, rfl⟩
  have hlen : kv.length = r.key.length + r.value.length := by rw [hkv, List.length_append]
  have hn : n ≤ kv.length := by
    rw [length_encodeRecord] at hlt
    omega
  have henc : encodeRecord r = (headerWith r r.op.raw).bytes ++ kv := by
    rw [encodeRecord_eq h, hkv]
    rfl
  have htake : (encodeRecord r).take (13 + n) = (headerWith r r.op.raw).bytes ++ kv.take n := by
    rw [henc, ← length_header (headerWith r r.op.raw), List.take_length_add_append]
  have hdrop : (encodeRecord r).drop (13 + n) = kv.drop n := by
    rw [henc, ← length_header (headerWith r r.op.raw), List.drop_length_add_append]
  -- what is left of the body, and zeros for the rest of it
  have hpad : (padBody (kv.take n) kv.length).take kv.length
      = kv.take n ++ List.replicate (kv.drop n).length 0 := by
    have hmin : (kv.take n).length = n := List.length_take_of_le hn
    rw [padBody, hmin, List.length_drop, List.take_of_length_le]
    rw [List.length_append, hmin, List.length_replicate]
    omega
  have hwhole : r.op.raw :: kv = (r.op.raw :: kv.take n) ++ kv.drop n := by
    rw [List.cons_append, List.take_append_drop]
  rw [htake, hdrop, rejected_iff h, ← hlen, hpad, ← hkv]
  conv_lhs => rw [hwhole]
  rw [← List.cons_append, computeCrc32_append, computeCrc32_append]
  simp only [computeCrc32_eq_run]
  exact ne_comm.trans (not_congr (Crc.run_eq_run_zeros (kv.drop n) _))

/-- **A truncated log** is recovered up to the cut record exactly when the cut
    falls into the record's header, or when the register, run over the missing
    bytes from zero, does not end in zero. -/
theorem recover_truncated_iff {logPath : Bytes} {dir : Directory}
    (habs : dir.lookup logPath = none) {rs : List ParsedLogRecord}
    (hfits : ∀ r ∈ rs, r.key.length < 2 ^ 32 ∧ r.value.length < 2 ^ 32) {i : Nat}
    (hi : rs[i]? = some r) {c : Nat} (hlt : c < (encodeRecord r).length) :
    WalLogger.recover ⟨logPath, false⟩ (upsert logPath
        ((held (session logPath dir rs).1 logPath).take ((encodeAll (rs.take i)).length + c))
        (session logPath dir rs).1) = rs.take i
      ↔ c < 13 ∨ computeCrc32 ((encodeRecord r).drop c) 0 ≠ 0 := by
  have hr : RecordFits r := hfits r (List.mem_of_getElem? hi)
  have hbefore : ∀ x ∈ rs.take i, RecordFits x := fun x hx => hfits x (List.mem_of_mem_take hx)
  have hcut : (encodeAll rs).take ((encodeAll (rs.take i)).length + c)
      = encodeAll (rs.take i) ++ (encodeRecord r).take c := by
    rw [encodeAll_split hi, List.take_length_add_append, List.take_append_of_le_length hlt.le]
  rw [held_session habs, hcut, recover_upsert_eq_iff hbefore]
  by_cases hc : c < 13
  · have hshort : ((encodeRecord r).take c).length < 13 := by
      rw [List.length_take_of_le hlt.le]
      exact hc
    exact ⟨fun _ => Or.inl hc, fun _ => Or.inl hshort⟩
  · rw [or_iff_right hc]
    exact rejected_take_iff hr (Nat.le_of_not_lt hc) hlt

/-- A whole log, cut inside the key of its second record. -/
theorem recover_truncated_key :
    WalLogger.recover ⟨getWalPath 1, false⟩ (upsert (getWalPath 1)
        ((held (session (getWalPath 1) [] [⟨.ERASE, [97], []⟩, ⟨.PUT, [107, 108], []⟩]).1
          (getWalPath 1)).take ((encodeAll [⟨.ERASE, [97], []⟩]).length + 14))
        (session (getWalPath 1) [] [⟨.ERASE, [97], []⟩, ⟨.PUT, [107, 108], []⟩]).1)
        = [⟨.ERASE, [97], []⟩]
      ↔ 14 < 13 ∨ computeCrc32 ((encodeRecord ⟨.PUT, [107, 108], []⟩).drop 14) 0 ≠ 0 :=
  @recover_truncated_iff ⟨.PUT, [107, 108], []⟩ (getWalPath 1) [] rfl
    [⟨.ERASE, [97], []⟩, ⟨.PUT, [107, 108], []⟩] (by decide) 1 rfl 14 (by decide)

/-- **A value that was never written.**  The value of the only record is cut off
    whole; its bytes run from zero to zero, so five zero bytes come back in its
    place. -/
theorem recover_truncated_value :
    WalLogger.recover ⟨getWalPath 1, false⟩ (upsert (getWalPath 1)
        ((held (session (getWalPath 1) [] [⟨.PUT, [107], [0x01, 0x96, 0x30, 0x07, 0x77]⟩]).1
          (getWalPath 1)).take 14)
        (session (getWalPath 1) [] [⟨.PUT, [107], [0x01, 0x96, 0x30, 0x07, 0x77]⟩]).1)
      = [⟨.PUT, [107], [0, 0, 0, 0, 0]⟩] := by
  decide +kernel

/-! ## A log with changed bytes -/

/-- A file with some bytes written over, from a position on. -/
def overwrite (file : Bytes) (pos : Nat) (w : Bytes) : Bytes :=
  file.take pos ++ (w ++ file.drop (pos + w.length))

theorem overwrite_append_right (a b : Bytes) (j : Nat) (w : Bytes) :
    overwrite (a ++ b) (a.length + j) w = a ++ overwrite b j w := by
  rw [overwrite, overwrite, List.take_length_add_append, Nat.add_assoc,
    List.drop_length_add_append, List.append_assoc]

theorem overwrite_append_left {a b : Bytes} {j : Nat} {w : Bytes} (h : j + w.length ≤ a.length) :
    overwrite (a ++ b) j w = overwrite a j w ++ b := by
  rw [overwrite, overwrite, List.take_append_of_le_length (by omega),
    List.drop_append_of_le_length h, List.append_assoc, List.append_assoc]

theorem length_overwrite {a : Bytes} {j : Nat} {w : Bytes} (h : j + w.length ≤ a.length) :
    (overwrite a j w).length = a.length := by
  simp only [overwrite, List.length_append, List.length_take, List.length_drop]
  omega

/-- A frame changed behind its lengths is rejected. -/
theorem rejected_overwrite (h : RecordFits r) {j : Nat} {w : Bytes} (hj : 12 ≤ j)
    (hend : j + w.length ≤ (encodeRecord r).length) (hshort : w.length ≤ 4)
    (hne : w ≠ ((encodeRecord r).drop j).take w.length) (rest : Bytes) :
    Rejected (overwrite (encodeRecord r) j w ++ rest) := by
  obtain ⟨n, rfl⟩ := Nat.exists_eq_add_of_le hj
  obtain ⟨front, hfront⟩ : ∃ front, front = (headerOf r).bytes.take 12 := ⟨_, rfl⟩
  obtain ⟨tail, htail⟩ : ∃ tail, tail = r.op.raw :: (r.key ++ r.value) := ⟨_, rfl⟩
  have hfl : front.length = 12 := by
    rw [hfront, List.length_take, length_header]
    decide
  have henc : encodeRecord r = front ++ tail := by
    rw [encodeRecord_eq h, hfront, htail, show (headerOf r).bytes = (headerWith r r.op.raw).bytes
      from rfl, bytes_headerWith, List.append_assoc]
    rfl
  have htl : tail.length = 1 + (r.key.length + r.value.length) := by
    rw [htail, List.length_cons, List.length_append]
    omega
  rw [henc, List.length_append, hfl, htl] at hend
  have hwin : n + w.length ≤ tail.length := by omega
  have hover : overwrite (encodeRecord r) (12 + n) w = front ++ overwrite tail n w := by
    rw [henc, ← hfl, overwrite_append_right]
  have hdrop : (encodeRecord r).drop (12 + n) = tail.drop n := by
    rw [henc, ← hfl, List.drop_length_add_append]
  rw [hdrop] at hne
  -- the operation byte and the body, as they are now
  obtain ⟨op, body, hnow⟩ : ∃ op body, overwrite tail n w = op :: body := by
    refine List.exists_cons_of_length_pos ?_
    rw [length_overwrite hwin, htl]
    omega
  have hbody : body.length = r.key.length + r.value.length := by
    have hl := length_overwrite hwin
    rw [hnow, htl, List.length_cons] at hl
    omega
  have hfile : overwrite (encodeRecord r) (12 + n) w ++ rest
      = (headerWith r op).bytes ++ (body ++ rest) := by
    rw [hover, hnow, bytes_headerWith, ← hfront]
    simp
  have hpad : (padBody (body ++ rest) (r.key.length + r.value.length)).take
      (r.key.length + r.value.length) = body := by
    rw [padBody, List.append_assoc, ← hbody, List.take_left]
  rw [hfile, rejected_iff h, hpad, ← hnow, ← htail]
  intro heq
  -- both tails agree outside the window
  obtain ⟨old, hold⟩ : ∃ old, old = (tail.drop n).take w.length := ⟨_, rfl⟩
  have hsplit : tail = tail.take n ++ (old ++ tail.drop (n + w.length)) := by
    rw [hold, ← List.drop_drop, List.take_append_drop, List.take_append_drop]
  have hlen : w.length = old.length := by
    rw [hold, List.length_take, List.length_drop]
    omega
  have hrun : Crc.run crcPoly (tail.take n ++ (w ++ tail.drop (n + w.length)))
        (behindLengths r.key.length r.value.length)
      = Crc.run crcPoly (tail.take n ++ (old ++ tail.drop (n + w.length)))
        (behindLengths r.key.length r.value.length) := by
    rw [← hsplit, ← computeCrc32_eq_run, ← computeCrc32_eq_run]
    exact heq
  rw [← hold] at hne
  exact hne (Crc.run_burst two_pow_le_crcPoly hlen (hlen ▸ hshort) hrun)

/-- **Burst corruption is detected** in the log of these records: whatever window
    of at most four bytes is changed, behind the lengths of some record's frame,
    recovery stops at that record. -/
def DetectsBursts (rs : List ParsedLogRecord) : Prop :=
  ∀ (logPath : Bytes) (dir : Directory), dir.lookup logPath = none →
    ∀ (i : Nat) (r : ParsedLogRecord), rs[i]? = some r →
    ∀ (j : Nat) (w : Bytes), 12 ≤ j → j + w.length ≤ (encodeRecord r).length → w.length ≤ 4 →
      w ≠ ((encodeRecord r).drop j).take w.length →
    WalLogger.recover ⟨logPath, false⟩ (upsert logPath
        (overwrite (held (session logPath dir rs).1 logPath)
          ((encodeAll (rs.take i)).length + j) w)
        (session logPath dir rs).1) = rs.take i

/-- The log with a window of record `i` changed. -/
theorem overwrite_encodeAll {rs : List ParsedLogRecord} {i : Nat} (hi : rs[i]? = some r) {j : Nat}
    {w : Bytes} (hend : j + w.length ≤ (encodeRecord r).length) :
    overwrite (encodeAll rs) ((encodeAll (rs.take i)).length + j) w
      = encodeAll (rs.take i)
        ++ (overwrite (encodeRecord r) j w ++ encodeAll (rs.drop (i + 1))) := by
  rw [encodeAll_split hi, overwrite_append_right, overwrite_append_left hend]

/-- **Records that fit their length fields** keep their log safe from bursts. -/
theorem detectsBursts {rs : List ParsedLogRecord}
    (hfits : ∀ r ∈ rs, r.key.length < 2 ^ 32 ∧ r.value.length < 2 ^ 32) : DetectsBursts rs := by
  intro logPath dir habs i r hi j w hj hend hshort hne
  have hr : RecordFits r := hfits r (List.mem_of_getElem? hi)
  have hbefore : ∀ x ∈ rs.take i, RecordFits x := fun x hx => hfits x (List.mem_of_mem_take hx)
  rw [held_session habs, overwrite_encodeAll hi hend, recover_upsert_eq_iff hbefore]
  exact rejected_overwrite hr hj hend hshort hne _

theorem detectsBursts_two : DetectsBursts [⟨.PUT, [107], [118]⟩, ⟨.ERASE, [107], []⟩] :=
  detectsBursts (by decide)

/-- A record with a key whose length its header cannot hold. -/
@[irreducible] def giantRecord : ParsedLogRecord := ⟨.PUT, List.replicate (2 ^ 32) 0, []⟩

/-- **A record too long for its header** is not recovered at all, so that a change
    behind it has nothing to be told from. -/
theorem giantRecord_hides_bursts : ¬ DetectsBursts [giantRecord, ⟨.PUT, [107], []⟩] := by
  intro h
  have hlen : giantRecord.key.length = 2 ^ 32 := by
    rw [giantRecord]
    exact List.length_replicate
  -- flip a bit of the second record's key
  have hrun := h (getWalPath 1) [] rfl 1 ⟨.PUT, [107], []⟩ rfl 13 [106] (by decide) (by decide)
    (by decide) (by decide)
  have hread : ∀ {dir : Directory} {R : List ParsedLogRecord},
      WalLogger.recover ⟨getWalPath 1, false⟩ dir = R → ∀ r ∈ R, RecordFits r := by
    intro dir R hR
    rw [recover_eq_held] at hR
    exact (recoverFile_cases hR).1
  have hfit := (hread hrun giantRecord (by simp)).1
  rw [hlen] at hfit
  exact absurd hfit (Nat.lt_irrefl _)

end KvWalDamage
