import LightKV.KvDirectoryProofs

/-! # The write-ahead log

    `WalLogger` appends framed records to a file and reads them back.  A frame is
    a thirteen byte header, a key and a value; the header's checksum covers the
    rest.  `Recover` stops at the first frame that does not check, and fills what
    a torn frame lacks with zero bytes before it checks it.

    Results: recovery of well-framed records gives the records
    (`recoverFile_encodeAll`), every recovery is a sequence of exact frames and
    at most one completed by zeros (`recoverFile_cases`), after a torn tail the
    records appended later survive in exactly one kind of case
    (`recover_append_iff`), and a log written in any number of sessions is
    recovered whole (`recover_sessions`). -/

namespace KvWal

open LittleEndian KvBytes KvDirectory Overlay

/-! ## The checksum -/

/-- The inner loop of `init_crc32`. -/
def crcBits : Nat → UInt32 → UInt32
  | 0, crc => crc
  | n + 1, crc => crcBits n ((crc >>> 1) ^^^ (0xEDB88320 &&& (-(crc &&& 1))))

/-- `crc32_table`. -/
def crc32Table (i : UInt8) : UInt32 := crcBits 8 i.toUInt32

/-- `compute_crc32`. -/
def computeCrc32 (data : Bytes) (previousCrc : UInt32) : UInt32 :=
  data.foldl (fun crc b => (crc >>> 8) ^^^ crc32Table ((crc ^^^ b.toUInt32) &&& 0xFF).toUInt8)
    previousCrc

/-! ## Records -/

/-- `enum class OperationType : uint8_t`; a byte read from a log may be any. -/
structure OperationType where
  raw : UInt8
  deriving DecidableEq

def OperationType.PUT : OperationType := ⟨0x01⟩

def OperationType.ERASE : OperationType := ⟨0x02⟩

/-- `LogHeader`. -/
structure LogHeader where
  checksum : UInt32
  keyLen : Nat
  valueLen : Nat
  opType : OperationType

/-- `ParsedLogRecord`. -/
structure ParsedLogRecord where
  op : OperationType
  key : Bytes
  value : Bytes
  deriving DecidableEq

/-- The packed bytes of a header. -/
def LogHeader.bytes (h : LogHeader) : Bytes :=
  leBytes 4 h.checksum.toNat ++ leBytes 4 h.keyLen ++ leBytes 4 h.valueLen ++ [h.opType.raw]

/-- `CalculateChecksum`. -/
def calculateChecksum (header : LogHeader) (key value : Bytes) : UInt32 :=
  let header := { header with checksum := 0 }
  computeCrc32 value (computeCrc32 key (computeCrc32 header.bytes 0xFFFFFFFF)) ^^^ 0xFFFFFFFF

/-- What `Append` writes. -/
def encodeRecord (r : ParsedLogRecord) : Bytes :=
  let header : LogHeader := ⟨0, r.key.length % 2 ^ 32, r.value.length % 2 ^ 32, r.op⟩
  let header := { header with checksum := calculateChecksum header r.key r.value }
  header.bytes ++ r.key ++ r.value

/-! ## `WalLogger` -/

/-- `WalLogger`; `isOpen` is `ofs_.is_open()`. -/
structure WalLogger where
  path : Bytes
  isOpen : Bool

/-- `Open`, in append mode: the file is created if it is not there. -/
def WalLogger.open (dir : Directory) (logPath : Bytes) : Directory × WalLogger :=
  (match dir.lookup logPath with
    | none => upsert logPath [] dir
    | some _ => dir, ⟨logPath, true⟩)

/-- `Close`. -/
def WalLogger.close (w : WalLogger) : WalLogger := { w with isOpen := false }

/-- `Append`.  Bytes written to a file that was removed are in no directory. -/
def WalLogger.append (w : WalLogger) (dir : Directory) (op : OperationType) (key value : Bytes) :
    Directory × Bool :=
  if !w.isOpen then (dir, false)
  else
    match dir.lookup w.path with
    | none => (dir, true)
    | some file => (upsert w.path (file ++ encodeRecord ⟨op, key, value⟩) dir, true)

/-- `std::ifstream`: what is left to read, and `good()`. -/
structure IStream where
  rest : Bytes
  good : Bool

/-- `read` into a buffer of zero bytes. -/
def IStream.read (s : IStream) (n : Nat) : Bytes × IStream :=
  if !s.good then (List.replicate n 0, s)
  else if n ≤ s.rest.length then (s.rest.take n, ⟨s.rest.drop n, true⟩)
  else (s.rest ++ List.replicate (n - s.rest.length) 0, ⟨[], false⟩)

/-- A header, from its thirteen bytes. -/
def parseHeader (buf : Bytes) : LogHeader where
  checksum := UInt32.ofNat (leNat (buf.take 4))
  keyLen := leNat ((buf.drop 4).take 4)
  valueLen := leNat ((buf.drop 8).take 4)
  opType := ⟨(buf.drop 12).headD 0⟩

/-- The loop of `Recover`. -/
def recoverLoop : Nat → IStream → List ParsedLogRecord
  | 0, _ => []
  | fuel + 1, s =>
      if !s.good || s.rest.isEmpty then []
      else if s.rest.length < 13 then []
      else
        let header := parseHeader (s.rest.take 13)
        let (key, s) := IStream.read ⟨s.rest.drop 13, true⟩ header.keyLen
        let (value, s) := s.read header.valueLen
        if header.checksum ≠ calculateChecksum header key value then []
        else ⟨header.opType, key, value⟩ :: recoverLoop fuel s

/-- `Recover` on a file's bytes; each turn of the loop reads a header. -/
def recoverFile (file : Bytes) : List ParsedLogRecord := recoverLoop (file.length + 1) ⟨file, true⟩

/-- `Recover`. -/
def WalLogger.recover (w : WalLogger) (dir : Directory) : List ParsedLogRecord :=
  match dir.lookup w.path with
  | none => []
  | some file => recoverFile file

/-- `RemoveWalFile`. -/
def removeWalFile (dir : Directory) (logPath : Bytes) : Directory := remove dir logPath

/-! ## One frame -/

/-- A record whose lengths fit the header's fields. -/
def RecordFits (r : ParsedLogRecord) : Prop := r.key.length < 2 ^ 32 ∧ r.value.length < 2 ^ 32

/-- The frames of some records. -/
def encodeAll (rs : List ParsedLogRecord) : Bytes := rs.flatMap encodeRecord

theorem length_header (h : LogHeader) : h.bytes.length = 13 := by simp [LogHeader.bytes]

theorem length_encodeRecord (r : ParsedLogRecord) :
    (encodeRecord r).length = 13 + r.key.length + r.value.length := by
  simp only [encodeRecord, List.length_append, length_header]

theorem leNat_take_lt (buf : Bytes) : leNat (buf.take 4) < 2 ^ 32 := by
  have h := leNat_lt (buf.take 4)
  have hlen : (buf.take 4).length ≤ 4 := by
    rw [List.length_take]
    exact Nat.min_le_left _ _
  have hpow : 256 ^ (buf.take 4).length ≤ 256 ^ 4 := Nat.pow_le_pow_right (by decide) hlen
  have heq : 256 ^ 4 = 2 ^ 32 := by decide
  omega

/-- **Headers read back.** -/
theorem parseHeader_bytes {h : LogHeader} (hk : h.keyLen < 2 ^ 32) (hv : h.valueLen < 2 ^ 32) :
    parseHeader h.bytes = h := by
  obtain ⟨c, k, v, o⟩ := h
  have h4 : (LogHeader.bytes ⟨c, k, v, o⟩).drop 4 = leBytes 4 k ++ (leBytes 4 v ++ [o.raw]) := by
    simp only [LogHeader.bytes, List.append_assoc]
    exact List.drop_left' (length_leBytes 4 _)
  have h8 : (LogHeader.bytes ⟨c, k, v, o⟩).drop 8 = leBytes 4 v ++ [o.raw] := by
    rw [show (8 : Nat) = 4 + 4 from rfl, ← List.drop_drop, h4]
    exact List.drop_left' (length_leBytes 4 _)
  have h12 : (LogHeader.bytes ⟨c, k, v, o⟩).drop 12 = [o.raw] := by
    rw [show (12 : Nat) = 8 + 4 from rfl, ← List.drop_drop, h8]
    exact List.drop_left' (length_leBytes 4 _)
  have h0 : (LogHeader.bytes ⟨c, k, v, o⟩).take 4 = leBytes 4 c.toNat := by
    simp only [LogHeader.bytes, List.append_assoc]
    exact List.take_left' (length_leBytes 4 _)
  have hc : c.toNat < 256 ^ 4 := by
    have := c.toNat_lt
    simpa using this
  simp only [parseHeader, h0, h4, h8, h12, List.take_left' (length_leBytes 4 _),
    leNat_leBytes_of_lt hc, leNat_leBytes_of_lt (show k < 256 ^ 4 by simpa using hk),
    leNat_leBytes_of_lt (show v < 256 ^ 4 by simpa using hv), UInt32.ofNat_toNat]
  rfl

/-- Thirteen bytes are the bytes of the header they parse to. -/
theorem bytes_parseHeader {buf : Bytes} (h : buf.length = 13) : (parseHeader buf).bytes = buf := by
  have hc : (UInt32.ofNat (leNat (buf.take 4))).toNat = leNat (buf.take 4) := by
    rw [UInt32.toNat_ofNat']
    exact Nat.mod_eq_of_lt (leNat_take_lt buf)
  have hfield : ∀ i, i + 4 ≤ 13 → leBytes 4 (leNat ((buf.drop i).take 4)) = (buf.drop i).take 4 := by
    intro i hi
    have hlen : ((buf.drop i).take 4).length = 4 := by
      rw [List.length_take, List.length_drop, h]
      omega
    have := leBytes_leNat ((buf.drop i).take 4)
    rwa [hlen] at this
  have h12 : buf.drop 12 = [(buf.drop 12).headD 0] := by
    cases hd : buf.drop 12 with
    | nil =>
        have := congrArg List.length hd
        rw [List.length_drop, h] at this
        exact absurd this (by decide)
    | cons x l =>
        have := congrArg List.length hd
        rw [List.length_drop, h, List.length_cons] at this
        have hl : l = [] := List.length_eq_zero_iff.mp (by omega)
        rw [hl]
        rfl
  have hsplit : ∀ i, buf.drop i = (buf.drop i).take 4 ++ buf.drop (i + 4) := by
    intro i
    rw [← List.drop_drop, List.take_append_drop]
  have h0 := hfield 0 (by omega)
  rw [List.drop_zero] at h0
  simp only [LogHeader.bytes, parseHeader, hc]
  rw [h0, hfield 4 (by omega), hfield 8 (by omega), ← h12]
  rw [List.append_assoc, List.append_assoc, ← hsplit 8, ← hsplit 4]
  exact (List.take_append_drop 4 buf)

/-- A frame's body, with the bytes it lacks filled in as zeros. -/
def padBody (body : Bytes) (n : Nat) : Bytes := body ++ List.replicate (n - body.length) 0

/-- The record of the frame a file starts with. -/
def frameRecord (file : Bytes) : ParsedLogRecord :=
  let h := parseHeader (file.take 13)
  let body := padBody (file.drop 13) (h.keyLen + h.valueLen)
  ⟨h.opType, body.take h.keyLen, (body.drop h.keyLen).take h.valueLen⟩

/-- **A file `Recover` reads nothing from**: it has not even a header, or the frame
    it starts with, completed by zeros, does not check. -/
def Rejected (file : Bytes) : Prop :=
  file.length < 13
    ∨ (parseHeader (file.take 13)).checksum
      ≠ calculateChecksum (parseHeader (file.take 13)) (frameRecord file).key (frameRecord file).value

instance (file : Bytes) : Decidable (Rejected file) := by
  unfold Rejected
  infer_instance

/-- The two reads of a frame's body. -/
theorem read_read (body : Bytes) (k v : Nat) :
    ∃ s, IStream.read ⟨body, true⟩ k = ((padBody body (k + v)).take k, s)
      ∧ (s.read v).1 = ((padBody body (k + v)).drop k).take v
      ∧ (s.read v).2 = if k + v ≤ body.length then ⟨body.drop (k + v), true⟩ else ⟨[], false⟩ := by
  by_cases hk : k ≤ body.length
  · have htake : (padBody body (k + v)).take k = body.take k := List.take_append_of_le_length hk
    have hdrop : (padBody body (k + v)).drop k
        = body.drop k ++ List.replicate (k + v - body.length) 0 := List.drop_append_of_le_length hk
    refine ⟨⟨body.drop k, true⟩, ?_, ?_, ?_⟩
    · simp [IStream.read, hk, htake]
    · by_cases hv : v ≤ (body.drop k).length
      · simp only [IStream.read, Bool.not_true, Bool.false_eq_true, if_false, if_pos hv, hdrop]
        exact (List.take_append_of_le_length hv).symm
      · simp only [IStream.read, Bool.not_true, Bool.false_eq_true, if_false, if_neg hv, hdrop]
        rw [List.length_drop] at hv
        have hn : v - (body.drop k).length = k + v - body.length := by
          rw [List.length_drop]
          omega
        rw [hn, List.take_of_length_le]
        rw [List.length_append, List.length_drop, List.length_replicate]
        omega
    · rw [IStream.read]
      by_cases hv : k + v ≤ body.length
      · have hv' : v ≤ (body.drop k).length := by
          rw [List.length_drop]
          omega
        simp only [Bool.not_true, Bool.false_eq_true, if_false, if_pos hv', if_pos hv,
          List.drop_drop]
      · have hv' : ¬ v ≤ (body.drop k).length := by
          rw [List.length_drop]
          omega
        simp only [Bool.not_true, Bool.false_eq_true, if_false, if_neg hv', if_neg hv]
  · -- the key is short already, so the value is all zeros
    have hkv : ¬ k + v ≤ body.length := by omega
    refine ⟨⟨[], false⟩, ?_, ?_, ?_⟩
    · simp only [IStream.read, Bool.not_true, Bool.false_eq_true, if_false, if_neg hk, padBody,
        Prod.mk.injEq, and_true]
      rw [List.take_append, List.take_of_length_le (by omega), List.take_replicate]
      congr 2
      omega
    · simp only [IStream.read, Bool.not_false, if_true, padBody]
      rw [List.drop_append, List.drop_of_length_le (by omega), List.nil_append, List.drop_replicate,
        List.take_replicate]
      congr 1
      omega
    · simp only [IStream.read, Bool.not_false, if_true, if_neg hkv]

/-- The loop's fuel does not matter once it suffices. -/
theorem recoverLoop_fuel :
    ∀ (fuel fuel' : Nat) (s : IStream), s.rest.length < fuel → s.rest.length < fuel' →
      recoverLoop fuel s = recoverLoop fuel' s := by
  intro fuel
  induction fuel with
  | zero =>
      intro fuel' s h
      omega
  | succ fuel ih =>
      intro fuel' s h h'
      cases fuel' with
      | zero => omega
      | succ fuel' =>
          rw [recoverLoop, recoverLoop]
          split
          · rfl
          · split
            · rfl
            · rename_i hlong
              obtain ⟨s₁, h1, -, h2⟩ := read_read (s.rest.drop 13)
                (parseHeader (s.rest.take 13)).keyLen (parseHeader (s.rest.take 13)).valueLen
              simp only [h1]
              split
              · rfl
              · refine congrArg _ (ih fuel' _ ?_ ?_)
                all_goals
                  rw [h2]
                  split
                  · rw [List.length_drop, List.length_drop]
                    omega
                  · rw [List.length_nil]
                    omega

/-- **One turn of `Recover`.** -/
theorem recoverFile_step (file : Bytes) :
    recoverFile file = if Rejected file then [] else
      frameRecord file ::
        (let h := parseHeader (file.take 13)
        if 13 + (h.keyLen + h.valueLen) ≤ file.length then
          recoverFile (file.drop (13 + (h.keyLen + h.valueLen)))
        else []) := by
  -- a turn ends the loop at a short header or a wrong checksum, or gives a record
  by_cases hshort : file.length < 13
  · have hrej : Rejected file := Or.inl hshort
    rw [if_pos hrej, recoverFile, recoverLoop]
    split
    · rfl
    · rfl
  · obtain ⟨s, h1, h2, h3⟩ := read_read (file.drop 13)
      (parseHeader (file.take 13)).keyLen (parseHeader (file.take 13)).valueLen
    have hne : (!true || file.isEmpty) = false := by
      cases file with
      | nil => exact absurd (by decide) hshort
      | cons x l => rfl
    rw [recoverFile, recoverLoop]
    simp only [hne, Bool.false_eq_true, if_false, if_neg hshort, h1, h2, h3]
    by_cases hsum : (parseHeader (file.take 13)).checksum
        = calculateChecksum (parseHeader (file.take 13)) (frameRecord file).key
            (frameRecord file).value
    · have hrej : ¬ Rejected file := by
        rintro (h | h)
        · exact hshort h
        · exact h hsum
      rw [if_neg hrej, if_neg (fun hc => hc hsum)]
      refine congrArg _ ?_
      by_cases hfull : 13 + ((parseHeader (file.take 13)).keyLen
          + (parseHeader (file.take 13)).valueLen) ≤ file.length
      · have hbody : (parseHeader (file.take 13)).keyLen + (parseHeader (file.take 13)).valueLen
            ≤ (file.drop 13).length := by
          rw [List.length_drop]
          omega
        rw [if_pos hbody, if_pos hfull, List.drop_drop, recoverFile]
        -- the bytes that are left are enough turns for both
        refine recoverLoop_fuel _ _ _ ?_ ?_
        all_goals
          simp only [List.length_drop]
          omega
      · have hbody : ¬ (parseHeader (file.take 13)).keyLen + (parseHeader (file.take 13)).valueLen
            ≤ (file.drop 13).length := by
          rw [List.length_drop]
          omega
        -- a short body leaves the stream failed, and the next turn ends the loop
        rw [if_neg hbody, if_neg hfull]
        obtain ⟨n, hn⟩ := Nat.exists_eq_succ_of_ne_zero (show file.length ≠ 0 by omega)
        rw [hn]
        rfl
    · have hrej : Rejected file := Or.inr hsum
      rw [if_pos hrej]
      exact if_pos hsum

theorem length_padBody (body : Bytes) (n : Nat) : n ≤ (padBody body n).length := by
  rw [padBody, List.length_append, List.length_replicate]
  omega

/-- The header `Append` writes for a record. -/
def headerOf (r : ParsedLogRecord) : LogHeader :=
  ⟨calculateChecksum ⟨0, r.key.length, r.value.length, r.op⟩ r.key r.value, r.key.length,
    r.value.length, r.op⟩

theorem encodeRecord_eq {r : ParsedLogRecord} (h : RecordFits r) :
    encodeRecord r = (headerOf r).bytes ++ (r.key ++ r.value) := by
  simp only [encodeRecord, headerOf, Nat.mod_eq_of_lt h.1, Nat.mod_eq_of_lt h.2, List.append_assoc]

/-- Key and value of a frame are as long as its header says. -/
theorem length_frameRecord (file : Bytes) :
    (frameRecord file).key.length = (parseHeader (file.take 13)).keyLen
      ∧ (frameRecord file).value.length = (parseHeader (file.take 13)).valueLen := by
  have hpad := length_padBody (file.drop 13) ((parseHeader (file.take 13)).keyLen
    + (parseHeader (file.take 13)).valueLen)
  constructor
  · simp only [frameRecord, List.length_take]
    omega
  · simp only [frameRecord, List.length_take, List.length_drop]
    omega

theorem fits_frameRecord (file : Bytes) : RecordFits (frameRecord file) := by
  obtain ⟨hk, hv⟩ := length_frameRecord file
  exact ⟨hk ▸ leNat_take_lt ((file.take 13).drop 4), hv ▸ leNat_take_lt ((file.take 13).drop 8)⟩

/-- Together they are the body of the frame. -/
theorem body_frameRecord (file : Bytes) :
    (frameRecord file).key ++ (frameRecord file).value
      = (padBody (file.drop 13) ((parseHeader (file.take 13)).keyLen
          + (parseHeader (file.take 13)).valueLen)).take
        ((parseHeader (file.take 13)).keyLen + (parseHeader (file.take 13)).valueLen) :=
  List.take_add.symm

/-- A header that checks is the one that the record gets. -/
theorem headerOf_frameRecord {file : Bytes} (h : ¬ Rejected file) :
    headerOf (frameRecord file) = parseHeader (file.take 13) := by
  have hsum : (parseHeader (file.take 13)).checksum
      = calculateChecksum (parseHeader (file.take 13)) (frameRecord file).key
          (frameRecord file).value := by
    by_contra hc
    exact h (Or.inr hc)
  obtain ⟨hk, hv⟩ := length_frameRecord file
  rw [headerOf, hk, hv]
  show (⟨calculateChecksum (parseHeader (file.take 13)) (frameRecord file).key
    (frameRecord file).value, _, _, _⟩ : LogHeader) = parseHeader (file.take 13)
  rw [← hsum]
  rfl

/-- Padding a file behind its header pads the body. -/
theorem padBody_header {file : Bytes} (h : 13 ≤ file.length) (n : Nat) :
    padBody file (13 + n) = file.take 13 ++ padBody (file.drop 13) n := by
  rw [padBody, padBody, ← List.append_assoc, List.take_append_drop, List.length_drop]
  congr 2
  omega

/-- **A frame that checks is the frame of its record**, with zeros where the file
    ends early. -/
theorem frame_of_not_rejected {file : Bytes} (h : ¬ Rejected file) :
    RecordFits (frameRecord file)
      ∧ (padBody file (encodeRecord (frameRecord file)).length).take
          (encodeRecord (frameRecord file)).length = encodeRecord (frameRecord file)
      ∧ (encodeRecord (frameRecord file)).length = 13
          + ((parseHeader (file.take 13)).keyLen + (parseHeader (file.take 13)).valueLen) := by
  have hlong : 13 ≤ file.length := by
    by_contra hc
    exact h (Or.inl (by omega))
  have hlen13 : (file.take 13).length = 13 := by
    rw [List.length_take]
    omega
  have hfits := fits_frameRecord file
  obtain ⟨hk, hv⟩ := length_frameRecord file
  have hlen : (encodeRecord (frameRecord file)).length = 13
      + ((parseHeader (file.take 13)).keyLen + (parseHeader (file.take 13)).valueLen) := by
    rw [length_encodeRecord, hk, hv, Nat.add_assoc]
  refine ⟨hfits, ?_, hlen⟩
  rw [hlen, padBody_header hlong, encodeRecord_eq hfits, headerOf_frameRecord h,
    bytes_parseHeader hlen13, body_frameRecord]
  have htake := @List.take_length_add_append _ (file.take 13)
    (padBody (file.drop 13) ((parseHeader (file.take 13)).keyLen
      + (parseHeader (file.take 13)).valueLen))
    ((parseHeader (file.take 13)).keyLen + (parseHeader (file.take 13)).valueLen)
  rwa [hlen13] at htake

theorem parseHeader_headerOf {r : ParsedLogRecord} (h : RecordFits r) :
    parseHeader (headerOf r).bytes = headerOf r := parseHeader_bytes h.1 h.2

/-- **A whole frame is read as its record.** -/
theorem recoverFile_frame {r : ParsedLogRecord} (h : RecordFits r) (rest : Bytes) :
    recoverFile (encodeRecord r ++ rest) = r :: recoverFile rest := by
  have hfile : encodeRecord r ++ rest = (headerOf r).bytes ++ (r.key ++ (r.value ++ rest)) := by
    rw [encodeRecord_eq h, List.append_assoc, List.append_assoc]
  have hparse : parseHeader ((encodeRecord r ++ rest).take 13) = headerOf r := by
    rw [hfile, List.take_left' (length_header _), parseHeader_headerOf h]
  have hdrop : (encodeRecord r ++ rest).drop 13 = r.key ++ (r.value ++ rest) := by
    rw [hfile]
    exact List.drop_left' (length_header _)
  have hkl : (headerOf r).keyLen = r.key.length := rfl
  have hvl : (headerOf r).valueLen = r.value.length := rfl
  have hpad : padBody (r.key ++ (r.value ++ rest)) (r.key.length + r.value.length)
      = r.key ++ (r.value ++ rest) := by
    have hz : r.key.length + r.value.length - (r.key ++ (r.value ++ rest)).length = 0 := by
      simp only [List.length_append]
      omega
    rw [padBody, hz]
    exact List.append_nil _
  have hrec : frameRecord (encodeRecord r ++ rest) = r := by
    simp only [frameRecord, hparse, hdrop, hkl, hvl, hpad, List.take_left, List.drop_left]
    rfl
  have hlen := length_encodeRecord r
  have hrej : ¬ Rejected (encodeRecord r ++ rest) := by
    rintro (hshort | hsum)
    · rw [List.length_append] at hshort
      omega
    · rw [hparse, hrec] at hsum
      exact hsum rfl
  have hfull : 13 + (r.key.length + r.value.length) ≤ (encodeRecord r ++ rest).length := by
    rw [List.length_append]
    omega
  rw [recoverFile_step, if_neg hrej, hrec]
  simp only [hparse, hkl, hvl]
  rw [if_pos hfull]
  congr 2
  exact List.drop_left' (by omega)

/-- **Recovery of well-framed records** gives them, and goes on behind them. -/
theorem recoverFile_encodeAll {rs : List ParsedLogRecord} (h : ∀ r ∈ rs, RecordFits r)
    (rest : Bytes) : recoverFile (encodeAll rs ++ rest) = rs ++ recoverFile rest := by
  induction rs with
  | nil => rfl
  | cons r rs ih =>
      have hcons : encodeAll (r :: rs) ++ rest = encodeRecord r ++ (encodeAll rs ++ rest) := by
        simp [encodeAll]
      rw [hcons, recoverFile_frame (h r List.mem_cons_self),
        ih (fun x hx => h x (List.mem_cons_of_mem _ hx))]
      rfl

theorem recoverFile_nil : recoverFile [] = [] := rfl

theorem recoverFile_eq_nil {file : Bytes} : recoverFile file = [] ↔ Rejected file := by
  rw [recoverFile_step]
  by_cases h : Rejected file
  · simp [h]
  · simp [h]

/-- **What `Recover` can read.**  The records of a recovery are the frames the
    file starts with, and behind them a rejected rest; or the last of them was
    cut off and completed by zeros. -/
theorem recoverFile_cases :
    ∀ {R : List ParsedLogRecord} {file : Bytes}, recoverFile file = R →
      (∀ r ∈ R, RecordFits r) ∧
        ((∃ rest, file = encodeAll R ++ rest ∧ Rejected rest)
          ∨ ∃ R' r p q, R = R' ++ [r] ∧ file = encodeAll R' ++ p ∧ 0 < q
              ∧ p ++ List.replicate q 0 = encodeRecord r) := by
  intro R
  induction R with
  | nil =>
      intro file h
      exact ⟨by simp, Or.inl ⟨file, rfl, recoverFile_eq_nil.mp h⟩⟩
  | cons r R ih =>
      intro file h
      have hrej : ¬ Rejected file := by
        intro hc
        rw [recoverFile_eq_nil.mpr hc] at h
        cases h
      obtain ⟨hfits, htake, hlen⟩ := frame_of_not_rejected hrej
      rw [recoverFile_step, if_neg hrej] at h
      obtain ⟨hr, hrest⟩ := List.cons.inj h
      rw [hr] at hfits htake hlen
      simp only [← hlen] at hrest
      -- a whole frame goes on to the next; a short one is the last
      by_cases hfull : (encodeRecord r).length ≤ file.length
      · rw [if_pos hfull] at hrest
        have hpad : padBody file (encodeRecord r).length = file := by
          rw [padBody, Nat.sub_eq_zero_of_le hfull]
          exact List.append_nil _
        rw [hpad] at htake
        have hfile : file = encodeRecord r ++ file.drop (encodeRecord r).length := by
          conv_lhs => rw [← List.take_append_drop (encodeRecord r).length file, htake]
        obtain ⟨hR, hcase⟩ := ih hrest
        constructor
        · intro x hx
          rcases List.mem_cons.mp hx with heq | hx'
          · exact heq ▸ hfits
          · exact hR x hx'
        · rcases hcase with ⟨rest, hrst, hrj⟩ | ⟨R', x, p, q, heq, hrst, hq, hp⟩
          · refine Or.inl ⟨rest, ?_, hrj⟩
            rw [hfile, hrst]
            simp [encodeAll]
          · refine Or.inr ⟨r :: R', x, p, q, by rw [heq]; rfl, ?_, hq, hp⟩
            rw [hfile, hrst]
            simp [encodeAll]
      · rw [if_neg hfull] at hrest
        refine ⟨?_, Or.inr ⟨[], r, file, (encodeRecord r).length - file.length, ?_, rfl, ?_, ?_⟩⟩
        · intro x hx
          rw [← hrest] at hx
          rw [List.mem_singleton.mp hx]
          exact hfits
        · rw [← hrest]
          rfl
        · omega
        -- the missing bytes read as zeros, and the checksum accepts them
        · have hle : (padBody file (encodeRecord r).length).length ≤ (encodeRecord r).length := by
            rw [padBody, List.length_append, List.length_replicate]
            omega
          rw [List.take_of_length_le hle] at htake
          exact htake

/-! ## Appending behind a torn record -/

/-- Zeros that commute with a string make it all zeros. -/
theorem eq_zero_of_zeros_append {q : Nat} (hq : 0 < q) :
    ∀ {l : Bytes}, List.replicate q 0 ++ l = l ++ List.replicate q 0 → ∀ b ∈ l, b = 0 := by
  intro l
  induction l with
  | nil =>
      intro _ b hb
      cases hb
  | cons x l ih =>
      intro h b hb
      obtain ⟨m, rfl⟩ := Nat.exists_eq_succ_of_ne_zero (Nat.pos_iff_ne_zero.mp hq)
      have hx : (0 : UInt8) = x ∧ List.replicate m 0 ++ x :: l = l ++ List.replicate (m + 1) 0 := by
        rw [List.replicate_succ, List.cons_append, List.cons_append] at h
        obtain ⟨h1, h2⟩ := List.cons.inj h
        exact ⟨h1, by rw [List.replicate_succ]; exact h2⟩
      obtain ⟨rfl, hrest⟩ := hx
      have hcomm : List.replicate (m + 1) 0 ++ l = l ++ List.replicate (m + 1) 0 := by
        rw [← hrest, List.replicate_succ', List.append_assoc]
        rfl
      rcases List.mem_cons.mp hb with heq | hb'
      · exact heq
      · exact ih hcomm b hb'

theorem encodeAll_append (rs qs : List ParsedLogRecord) :
    encodeAll (rs ++ qs) = encodeAll rs ++ encodeAll qs := by simp [encodeAll]

theorem encodeAll_singleton (r : ParsedLogRecord) : encodeAll [r] = encodeRecord r := by
  simp [encodeAll]

/-- The frame of a write or an erase is not all zeros: its operation byte is not. -/
theorem exists_ne_zero_encodeAll {R : List ParsedLogRecord} (hne : R ≠ [])
    (hop : ∀ r ∈ R, r.op = .PUT ∨ r.op = .ERASE) : ∃ b ∈ encodeAll R, b ≠ 0 := by
  obtain ⟨r, R', rfl⟩ := List.exists_cons_of_ne_nil hne
  refine ⟨r.op.raw, by simp [encodeAll, encodeRecord, LogHeader.bytes], ?_⟩
  rcases hop r List.mem_cons_self with h | h
  · rw [h]
    decide
  · rw [h]
    decide

/-- A file whose torn tail is taken for a record swallows the front of what is
    appended to it. -/
theorem recover_append_accepted {t : Bytes} {r₀ : ParsedLogRecord} {q : Nat} (hq : 0 < q)
    (ht : t ++ List.replicate q 0 = encodeRecord r₀) {R : List ParsedLogRecord} (hR : R ≠ [])
    (hop : ∀ r ∈ R, r.op = .PUT ∨ r.op = .ERASE) :
    recoverFile (t ++ encodeAll R) ≠ r₀ :: R := by
  intro h
  have hlen0 := congrArg List.length ht
  rw [List.length_append, List.length_replicate] at hlen0
  obtain ⟨-, hcase⟩ := recoverFile_cases h
  rcases hcase with ⟨rest, hrest, -⟩ | ⟨R', r, p, q', heq, hfile, hq', hp⟩
  · have hlen := congrArg List.length hrest
    rw [show r₀ :: R = [r₀] ++ R from rfl, encodeAll_append, encodeAll_singleton] at hlen
    simp only [List.length_append] at hlen
    omega
  · cases R' with
    | nil => exact hR (List.cons.inj heq).2
    | cons x R' =>
        obtain ⟨rfl, hRR⟩ := List.cons.inj heq
        rw [show r₀ :: R' = [r₀] ++ R' from rfl, encodeAll_append, encodeAll_singleton, ← ht,
          List.append_assoc, List.append_assoc] at hfile
        have hB := List.append_cancel_left hfile
        have hRR' : R = R' ++ [r] := hRR
        have henc : encodeAll R = (encodeAll R' ++ p) ++ List.replicate q' 0 := by
          rw [hRR', encodeAll_append, encodeAll_singleton, ← hp, List.append_assoc]
        have hqq : q = q' := by
          have := congrArg List.length (hB.symm.trans henc)
          simp only [List.length_append, List.length_replicate] at this
          omega
        subst hqq
        have hzero := eq_zero_of_zeros_append hq (hB.symm.trans henc)
        obtain ⟨b, hb, hb0⟩ := exists_ne_zero_encodeAll hR hop
        rw [henc] at hb
        rcases List.mem_append.mp hb with hb' | hb'
        · exact hb0 (hzero b hb')
        · exact hb0 (List.mem_replicate.mp hb').2

/-- Behind a tail that reads as nothing, what is appended reads back as it is
    exactly when its frames stand at the front of the tail and themselves, and
    what is left over reads as nothing. -/
theorem recover_append_rejected {t : Bytes} {R : List ParsedLogRecord} :
    recoverFile (t ++ encodeAll R) = R ↔ (∀ r ∈ R, RecordFits r)
      ∧ encodeAll R <+: t ++ encodeAll R
      ∧ Rejected ((t ++ encodeAll R).drop (encodeAll R).length) := by
  constructor
  · intro h
    obtain ⟨hfits, hcase⟩ := recoverFile_cases h
    rcases hcase with ⟨rest, hrest, hrej⟩ | ⟨R', r, p, q, heq, hfile, hq, hp⟩
    · refine ⟨hfits, ⟨rest, hrest.symm⟩, ?_⟩
      rw [hrest, List.drop_left]
      exact hrej
    · have h1 := congrArg List.length hfile
      have h2 := congrArg List.length hp
      rw [heq, encodeAll_append, encodeAll_singleton] at h1
      simp only [List.length_append, List.length_replicate] at h1 h2
      omega
  · rintro ⟨hfits, ⟨rest, hrest⟩, hrej⟩
    rw [← hrest, List.drop_left] at hrej
    rw [← hrest, recoverFile_encodeAll hfits, recoverFile_eq_nil.mpr hrej, List.append_nil]

/-- When records appended to a log read back as they are: there are none, or the
    log is whole frames and a tail that reads as nothing, the new frames happen
    to stand at the front of that tail and themselves, and what is left over
    reads as nothing. -/
def LinesUp (file : Bytes) (R : List ParsedLogRecord) : Prop :=
  R = [] ∨ ∃ rs t, file = encodeAll rs ++ t ∧ (∀ r ∈ rs, RecordFits r) ∧ Rejected t
    ∧ (∀ r ∈ R, RecordFits r) ∧ encodeAll R <+: t ++ encodeAll R
    ∧ Rejected ((t ++ encodeAll R).drop (encodeAll R).length)

/-- **Records appended to a log** come back, after those an earlier recovery
    read, exactly when they line up. -/
theorem recover_append_iff {file : Bytes} {R : List ParsedLogRecord}
    (hop : ∀ r ∈ R, r.op = .PUT ∨ r.op = .ERASE) :
    recoverFile (file ++ encodeAll R) = recoverFile file ++ R ↔ LinesUp file R := by
  by_cases hR : R = []
  · subst hR
    simp [LinesUp, encodeAll]
  constructor
  · intro h
    obtain ⟨hfits, hcase⟩ := recoverFile_cases (rfl : recoverFile file = _)
    refine Or.inr ?_
    rcases hcase with ⟨t, hfile, hrej⟩ | ⟨Q, r, p, q, heq, hfile, hq, hp⟩
    · refine ⟨_, t, hfile, hfits, hrej, recover_append_rejected.mp ?_⟩
      have h' : recoverFile file ++ recoverFile (t ++ encodeAll R) = recoverFile file ++ R := by
        rw [← recoverFile_encodeAll hfits, ← List.append_assoc, ← hfile]
        exact h
      exact List.append_cancel_left h'
    · -- the last record was completed by zeros, which are not there any more
      have hQ : ∀ x ∈ Q, RecordFits x := by
        intro x hx
        refine hfits x ?_
        rw [heq]
        exact List.mem_append_left _ hx
      have h' : Q ++ recoverFile (p ++ encodeAll R) = Q ++ (r :: R) := by
        rw [← recoverFile_encodeAll hQ, ← List.append_assoc, ← hfile, h, heq, List.append_assoc]
        rfl
      exact absurd (List.append_cancel_left h') (recover_append_accepted hq hp hR hop)
  · intro h
    obtain ⟨rs, t, rfl, hrs, hrej, hlines⟩ := h.resolve_left hR
    rw [List.append_assoc, recoverFile_encodeAll hrs, recoverFile_encodeAll hrs,
      recoverFile_eq_nil.mpr hrej, recover_append_rejected.mpr hlines, List.append_nil]

/-- A session's appends to an open log. -/
def WalLogger.appendAll (w : WalLogger) :
    Directory → List ParsedLogRecord → Directory × List Bool
  | dir, [] => (dir, [])
  | dir, r :: rs =>
      let (dir, ok) := w.append dir r.op r.key r.value
      let (dir, oks) := w.appendAll dir rs
      (dir, ok :: oks)

theorem lookup_append {w : WalLogger} {dir : Directory} {file : Bytes} (ho : w.isOpen = true)
    (hf : dir.lookup w.path = some file) (op : OperationType) (key value : Bytes) :
    w.append dir op key value = (upsert w.path (file ++ encodeRecord ⟨op, key, value⟩) dir, true) := by
  simp only [WalLogger.append, ho, Bool.not_true, Bool.false_eq_true, if_false, hf]

/-- **Appending** puts the frames behind what the file holds, and every call
    returns true. -/
theorem appendAll_spec {w : WalLogger} (ho : w.isOpen = true) :
    ∀ {R : List ParsedLogRecord} {dir : Directory} {file : Bytes},
      dir.lookup w.path = some file →
      (w.appendAll dir R).1.lookup w.path = some (file ++ encodeAll R)
        ∧ (w.appendAll dir R).2 = List.replicate R.length true := by
  intro R
  induction R with
  | nil =>
      intro dir file hf
      exact ⟨by simpa [WalLogger.appendAll, encodeAll] using hf, rfl⟩
  | cons r R ih =>
      intro dir file hf
      have happ := lookup_append ho hf r.op r.key r.value
      have hf' : (upsert w.path (file ++ encodeRecord r) dir).lookup w.path
          = some (file ++ encodeRecord r) := by rw [lookup_upsert, if_pos rfl]
      obtain ⟨h1, h2⟩ := ih hf'
      simp only [WalLogger.appendAll, happ]
      constructor
      · rw [h1]
        simp [encodeAll]
      · rw [h2]
        rfl

/-- Reopen a log and append to it, as a session does that comes after a
    recovery. -/
def reopenAndAppend (dir : Directory) (logPath : Bytes) (R : List ParsedLogRecord) :
    Directory × List Bool :=
  let (dir, w) := WalLogger.open dir logPath
  w.appendAll dir R

/-- Opening a log that exists changes nothing. -/
theorem open_of_lookup {dir : Directory} {logPath file : Bytes}
    (hf : dir.lookup logPath = some file) : WalLogger.open dir logPath = (dir, ⟨logPath, true⟩) := by
  simp only [WalLogger.open, hf]

/-- **Reopening a log and writing on.**  Every append returns true; the next
    recovery returns what the first one did and then the new records exactly when
    they line up with what the file ends in. -/
theorem recover_reopenAndAppend_iff {dir : Directory} {logPath file : Bytes}
    {R : List ParsedLogRecord} (hfile : dir.lookup logPath = some file)
    (hop : ∀ r ∈ R, r.op = .PUT ∨ r.op = .ERASE) :
    (reopenAndAppend dir logPath R).2 = List.replicate R.length true
      ∧ (WalLogger.recover ⟨logPath, false⟩ (reopenAndAppend dir logPath R).1
          = WalLogger.recover ⟨logPath, false⟩ dir ++ R ↔ LinesUp file R) := by
  obtain ⟨h1, h2⟩ := appendAll_spec (w := ⟨logPath, true⟩) rfl (R := R) hfile
  have hrun : reopenAndAppend dir logPath R = (⟨logPath, true⟩ : WalLogger).appendAll dir R := by
    simp only [reopenAndAppend, open_of_lookup hfile]
  rw [hrun]
  refine ⟨h2, ?_⟩
  simp only [WalLogger.recover, h1, hfile]
  exact recover_append_iff hop

/-- A log of two whole frames, and behind them the front of one that a crash has
    cut off. -/
def twoFrames : Bytes :=
  encodeAll [⟨.PUT, [97], [98]⟩, ⟨.ERASE, [97], []⟩]
    ++ (encodeRecord ⟨.PUT, [99], [100, 101]⟩).take 14

theorem recover_reopenAndAppend_twoFrames :
    (reopenAndAppend [(getWalPath 1, twoFrames)] (getWalPath 1)
        [⟨.PUT, [107], [118]⟩, ⟨.ERASE, [97], []⟩]).2 = [true, true]
      ∧ (WalLogger.recover ⟨getWalPath 1, false⟩
            (reopenAndAppend [(getWalPath 1, twoFrames)] (getWalPath 1)
              [⟨.PUT, [107], [118]⟩, ⟨.ERASE, [97], []⟩]).1
          = WalLogger.recover ⟨getWalPath 1, false⟩ [(getWalPath 1, twoFrames)]
            ++ [⟨.PUT, [107], [118]⟩, ⟨.ERASE, [97], []⟩]
        ↔ LinesUp twoFrames [⟨.PUT, [107], [118]⟩, ⟨.ERASE, [97], []⟩]) :=
  recover_reopenAndAppend_iff List.lookup_cons_self (by decide)

/-- **One torn byte hides a record.**  The log holds the first byte of a torn
    frame; a record appended to it later is not recovered. -/
theorem torn_byte_hides_record :
    WalLogger.recover ⟨getWalPath 1, false⟩ (reopenAndAppend
        [(getWalPath 1, (encodeRecord ⟨.PUT, [97], [98]⟩).take 1)] (getWalPath 1)
        [⟨.PUT, [107], [118]⟩]).1
      ≠ WalLogger.recover ⟨getWalPath 1, false⟩
          [(getWalPath 1, (encodeRecord ⟨.PUT, [97], [98]⟩).take 1)] ++ [⟨.PUT, [107], [118]⟩] := by
  decide +kernel

/-! ## Sessions on one log -/

/-- `Open`, an `Append` for each record, `Close`. -/
def session (logPath : Bytes) (dir : Directory) (records : List ParsedLogRecord) :
    Directory × WalLogger :=
  let (dir, w) := WalLogger.open dir logPath
  let (dir, _) := w.appendAll dir records
  (dir, w.close)

/-- Any number of sessions, one after the other. -/
def sessions (logPath : Bytes) (dir : Directory) (parts : List (List ParsedLogRecord)) :
    Directory :=
  parts.foldl (fun dir records => (session logPath dir records).1) dir

/-- What a path holds, nothing if it is absent: the bytes `Open` finds there. -/
def held (dir : Directory) (logPath : Bytes) : Bytes := (dir.lookup logPath).getD []

/-- A session puts its frames behind what the path held. -/
theorem lookup_session (logPath : Bytes) (dir : Directory) (records : List ParsedLogRecord) :
    (session logPath dir records).1.lookup logPath
      = some (held dir logPath ++ encodeAll records) := by
  show ((WalLogger.open dir logPath).2.appendAll (WalLogger.open dir logPath).1 records).1.lookup
    logPath = _
  cases hd : dir.lookup logPath with
  | none =>
      -- `Open` creates the file
      have hopen : WalLogger.open dir logPath = (upsert logPath [] dir, ⟨logPath, true⟩) := by
        simp only [WalLogger.open, hd]
      have hnew : (upsert logPath [] dir).lookup logPath = some [] := by
        rw [lookup_upsert, if_pos rfl]
      rw [hopen, held, hd]
      exact (appendAll_spec (w := ⟨logPath, true⟩) rfl hnew).1
  | some file =>
      rw [open_of_lookup hd, held, hd]
      exact (appendAll_spec (w := ⟨logPath, true⟩) rfl hd).1

theorem held_sessions (logPath : Bytes) :
    ∀ (parts : List (List ParsedLogRecord)) (dir : Directory),
      held (sessions logPath dir parts) logPath = held dir logPath ++ encodeAll parts.flatten := by
  intro parts
  induction parts with
  | nil =>
      intro dir
      exact (List.append_nil _).symm
  | cons records parts ih =>
      intro dir
      have hrun := ih (session logPath dir records).1
      rw [show sessions logPath dir (records :: parts)
        = sessions logPath (session logPath dir records).1 parts from rfl, hrun, held,
        lookup_session, Option.getD_some, List.append_assoc, ← encodeAll_append,
        List.flatten_cons]

/-- `Recover` reads what the path holds. -/
theorem recover_eq_held (dir : Directory) (w : WalLogger) :
    w.recover dir = recoverFile (held dir w.path) := by
  rw [WalLogger.recover, held]
  cases dir.lookup w.path with
  | none => rfl
  | some file => rfl

/-- **The round trip of a log over sessions.** -/
theorem recover_sessions {logPath : Bytes} {dir : Directory} (habs : dir.lookup logPath = none)
    {parts : List (List ParsedLogRecord)}
    (hfits : ∀ records ∈ parts, ∀ r ∈ records, r.key.length < 2 ^ 32 ∧ r.value.length < 2 ^ 32) :
    WalLogger.recover ⟨logPath, false⟩ (sessions logPath dir parts) = parts.flatten := by
  have hall : ∀ r ∈ parts.flatten, RecordFits r := by
    intro r hr
    obtain ⟨records, hrecords, hrr⟩ := List.mem_flatten.mp hr
    exact hfits records hrecords r hrr
  have hstart : held dir logPath = [] := by
    rw [held, habs]
    rfl
  rw [recover_eq_held, held_sessions, hstart, List.nil_append]
  have hread := recoverFile_encodeAll hall []
  rwa [List.append_nil, recoverFile_nil, List.append_nil] at hread

/-- Three sessions, one of them without a record. -/
theorem recover_sessions_three :
    WalLogger.recover ⟨getWalPath 1, false⟩ (sessions (getWalPath 1) []
        [[⟨.PUT, [107], [118, 0]⟩, ⟨.ERASE, [], []⟩], [], [⟨.PUT, [], []⟩]])
      = [⟨.PUT, [107], [118, 0]⟩, ⟨.ERASE, [], []⟩, ⟨.PUT, [], []⟩] :=
  recover_sessions rfl (by decide)

end KvWal
