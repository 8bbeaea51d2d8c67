import LightKV.KvBytesProofs
import LightKV.PackedProofs

/-! # Voxel blocks

    The value of a spatial key: `VoxelBlockValue::Serialize` writes a packed
    header and the points behind it, `Parse` reads them back.  The header counts
    the points in 16 bits, while the buffer is sized from the vector: what comes
    back are the first `n % 2 ^ 16` of `n` points (`parse_serialize`), all of them
    exactly below `2 ^ 16` (`parse_serialize_iff`).  The other way round, `Parse`
    accepts exactly the strings that hold a header and as many points as it
    counts, and serializing what it read gives these bytes (`parse_grammar`). -/

namespace KvVoxel

open KvBytes LittleEndian Packed

/-! ## The code -/

/-- `CompressedPoint3D`. -/
structure CompressedPoint3D where
  deltaX : Int16
  deltaY : Int16
  deltaZ : Int16
  intensity : UInt8
  deriving DecidableEq

/-- Its bytes in memory: the structure is packed. -/
def CompressedPoint3D.layout : Layout CompressedPoint3D :=
  (int16.prod (int16.prod (int16.prod uint8))).map
    { toFun := fun (deltaX, deltaY, deltaZ, intensity) => ⟨deltaX, deltaY, deltaZ, intensity⟩
      invFun := fun point => (point.deltaX, point.deltaY, point.deltaZ, point.intensity)
      left_inv := fun _ => rfl
      right_inv := fun _ => rfl }

/-- `VoxelHeader`. -/
structure VoxelHeader where
  baseXMm : Int32
  baseYMm : Int32
  baseZMm : Int32
  occupancyProb : UInt8
  qualityScore : UInt8
  pointCount : UInt16
  deriving DecidableEq

/-- Its bytes in memory. -/
def VoxelHeader.layout : Layout VoxelHeader :=
  (int32.prod (int32.prod (int32.prod (uint8.prod (uint8.prod uint16))))).map
    { toFun := fun (baseXMm, baseYMm, baseZMm, occupancyProb, qualityScore, pointCount) =>
        ⟨baseXMm, baseYMm, baseZMm, occupancyProb, qualityScore, pointCount⟩
      invFun := fun header => (header.baseXMm, header.baseYMm, header.baseZMm,
        header.occupancyProb, header.qualityScore, header.pointCount)
      left_inv := fun _ => rfl
      right_inv := fun _ => rfl }

/-- `sizeof(CompressedPoint3D)`. -/
def CompressedPoint3D.sizeof : Nat := 7

/-- `sizeof(VoxelHeader)`. -/
def VoxelHeader.sizeof : Nat := 16

/-- `std::memcpy` to an offset in a buffer. -/
def copyTo (buffer : Bytes) (offset : Nat) (src : Bytes) : Except Fault Bytes :=
  if offset + src.length ≤ buffer.length then
    .ok (buffer.take offset ++ (src ++ buffer.drop (offset + src.length)))
  else .error .outOfBounds

/-- `VoxelBlockValue::Serialize`. -/
def serialize (baseXMm baseYMm baseZMm : Int32) (occupancyProb qualityScore : UInt8)
    (points : List CompressedPoint3D) : Except Fault Bytes :=
  let header : VoxelHeader :=
    { baseXMm, baseYMm, baseZMm, occupancyProb, qualityScore,
      pointCount := UInt16.ofNat points.length }
  let totalSize := VoxelHeader.sizeof + points.length * CompressedPoint3D.sizeof
  if totalSize ≥ 2 ^ 62 then .error .badAlloc
  else do
    let buffer : Bytes := List.replicate totalSize 0
    let buffer ← copyTo buffer 0 (VoxelHeader.layout.bytes header)
    if points.isEmpty then pure buffer
    else copyTo buffer VoxelHeader.sizeof (CompressedPoint3D.layout.array points)

/-- `std::vector::resize`: new points are zeros. -/
def resize (points : List CompressedPoint3D) (n : Nat) : List CompressedPoint3D :=
  points.take n ++ List.replicate (n - points.length) ⟨0, 0, 0, 0⟩

/-- `VoxelBlockValue::Parse`, on what stands in `*out_header` and `*out_points`.  It
    may have overwritten the header when it returns false. -/
def parse (value : Slice) (outHeader : VoxelHeader) (outPoints : List CompressedPoint3D) :
    Except Fault (Bool × VoxelHeader × List CompressedPoint3D) :=
  if value.size < VoxelHeader.sizeof then pure (false, outHeader, outPoints)
  else do
    let bytes ← readBytes value.data VoxelHeader.sizeof
    let outHeader := VoxelHeader.layout.ofBytes bytes
    let expectedPayloadSize := outHeader.pointCount.toNat * CompressedPoint3D.sizeof
    if value.size < VoxelHeader.sizeof + expectedPayloadSize then
      pure (false, outHeader, outPoints)
    else
      let outPoints := resize outPoints outHeader.pointCount.toNat
      if outHeader.pointCount > 0 then do
        let payload ← readBytes (value.data.drop VoxelHeader.sizeof) expectedPayloadSize
        pure (true, outHeader, CompressedPoint3D.layout.ofArray outHeader.pointCount.toNat payload)
      else pure (true, outHeader, outPoints)

/-! ## The bytes of a block -/

theorem VoxelHeader.width_layout : VoxelHeader.layout.width = VoxelHeader.sizeof := rfl

theorem CompressedPoint3D.width_layout :
    CompressedPoint3D.layout.width = CompressedPoint3D.sizeof := rfl

/-- The count stands in the last two bytes of the header. -/
theorem VoxelHeader.toNat_pointCount_ofBytes {bytes : Bytes} (h : bytes.length = sizeof) :
    (VoxelHeader.layout.ofBytes bytes).pointCount.toNat = leNat ((bytes.drop 14).take 2) := by
  have hcount : (VoxelHeader.layout.ofBytes bytes).pointCount
      = UInt16.ofNat (leNat (((((bytes.drop 4).drop 4).drop 4).drop 1).drop 1)) := rfl
  have hlast : (bytes.drop 14).length = 2 := by
    rw [List.length_drop, h]
    rfl
  have hlt := leNat_lt (bytes.drop 14)
  rw [hlast] at hlt
  rw [hcount, List.drop_drop, List.drop_drop, List.drop_drop, List.drop_drop,
    List.take_of_length_le hlast.le]
  exact UInt16.toNat_ofNat_of_lt' hlt

/-- Copying to the end of what is written leaves the rest as it was. -/
theorem copyTo_append {front old src : Bytes} (rest : Bytes) (h : src.length = old.length) :
    copyTo (front ++ (old ++ rest)) front.length src = .ok (front ++ (src ++ rest)) := by
  have hle : front.length + src.length ≤ (front ++ (old ++ rest)).length := by
    rw [List.length_append, List.length_append, h]
    omega
  rw [copyTo, if_pos hle, List.take_left' rfl, ← List.drop_drop, List.drop_left' rfl, h,
    List.drop_left' rfl]

/-- **What `Serialize` writes**: the header and the points, and nothing outside its buffer. -/
theorem serialize_eq (baseXMm baseYMm baseZMm : Int32) (occupancyProb qualityScore : UInt8)
    {points : List CompressedPoint3D}
    (hsize : VoxelHeader.sizeof + points.length * CompressedPoint3D.sizeof < 2 ^ 62) :
    serialize baseXMm baseYMm baseZMm occupancyProb qualityScore points
      = .ok (VoxelHeader.layout.bytes ⟨baseXMm, baseYMm, baseZMm, occupancyProb, qualityScore,
          UInt16.ofNat points.length⟩ ++ CompressedPoint3D.layout.array points) := by
  obtain ⟨header, hheader⟩ : ∃ header : VoxelHeader, header = ⟨baseXMm, baseYMm, baseZMm,
    occupancyProb, qualityScore, UInt16.ofNat points.length⟩ := ⟨_, rfl⟩
  have hlen : (VoxelHeader.layout.bytes header).length = VoxelHeader.sizeof :=
    VoxelHeader.layout.length_bytes header
  have harray : (CompressedPoint3D.layout.array points).length
      = points.length * CompressedPoint3D.sizeof := CompressedPoint3D.layout.length_array points
  -- the buffer is zeros for the header and zeros for the points
  have hfirst := @copyTo_append [] (List.replicate VoxelHeader.sizeof 0)
    (VoxelHeader.layout.bytes header)
    (List.replicate (points.length * CompressedPoint3D.sizeof) 0)
    (by rw [hlen, List.length_replicate])
  rw [List.nil_append, List.replicate_append_replicate, List.nil_append, List.length_nil] at hfirst
  have hsecond := @copyTo_append (VoxelHeader.layout.bytes header)
    (List.replicate (points.length * CompressedPoint3D.sizeof) 0)
    (CompressedPoint3D.layout.array points) [] (by rw [harray, List.length_replicate])
  rw [List.append_nil, List.append_nil, hlen] at hsecond
  rw [serialize, if_neg (Nat.not_le.mpr hsize), ← hheader]
  simp only [hfirst, ok_bind]
  cases points with
  | nil => rfl
  | cons point points => exact hsecond

/-! ## What `Parse` reads -/

section Parse

variable {b : Bytes} (outHeader : VoxelHeader) (outPoints : List CompressedPoint3D)

/-- A string without a whole header is rejected. -/
theorem parse_of_short (h : b.length < VoxelHeader.sizeof) :
    parse (Slice.ofString b) outHeader outPoints = .ok (false, outHeader, outPoints) := by
  exact if_pos h

/-- **`Parse`**, behind its first test: it takes as many points as the header counts,
    if there are so many. -/
theorem parse_of_long {header : VoxelHeader} (h : VoxelHeader.sizeof ≤ b.length)
    (hheader : header = VoxelHeader.layout.ofBytes (b.take VoxelHeader.sizeof)) :
    parse (Slice.ofString b) outHeader outPoints
      = .ok (if b.length < VoxelHeader.sizeof
            + header.pointCount.toNat * CompressedPoint3D.sizeof then
          (false, header, outPoints)
        else (true, header, CompressedPoint3D.layout.ofArray header.pointCount.toNat
          ((b.drop VoxelHeader.sizeof).take
            (header.pointCount.toNat * CompressedPoint3D.sizeof)))) := by
  have hread : readBytes b VoxelHeader.sizeof = .ok (b.take VoxelHeader.sizeof) := if_pos h
  refine (if_neg (Nat.not_lt.mpr h)).trans ?_
  simp only [Slice.ofString, hread, ok_bind, ← hheader]
  split
  · rfl
  case isFalse hlong =>
    have hpayload : header.pointCount.toNat * CompressedPoint3D.sizeof
        ≤ (b.drop VoxelHeader.sizeof).length := by
      rw [List.length_drop]
      omega
    split
    · rw [readBytes, if_pos hpayload]
      rfl
    -- without points the vector is emptied
    case isFalse hnone =>
      have hzero : header.pointCount = 0 := by
        rw [← UInt16.toNat_inj]
        exact Nat.eq_zero_of_not_pos (fun hpos => hnone (UInt16.lt_iff_toNat_lt.mpr hpos))
      rw [hzero]
      simp only [resize, List.take_zero, List.nil_append, UInt16.toNat_zero, Nat.zero_sub,
        List.replicate_zero, Layout.ofArray]
      rfl

end Parse

/-! ## The round trip -/

section RoundTrip

variable (baseXMm baseYMm baseZMm : Int32) (occupancyProb qualityScore : UInt8)
  (points : List CompressedPoint3D) (outHeader : VoxelHeader) (outPoints : List CompressedPoint3D)

/-- **Parsing a serialized block** gives back as many points as 16 bits count. -/
theorem parse_serialize
    (hsize : VoxelHeader.sizeof + points.length * CompressedPoint3D.sizeof < 2 ^ 62) :
    ∃ buffer, serialize baseXMm baseYMm baseZMm occupancyProb qualityScore points = .ok buffer
      ∧ parse (Slice.ofString buffer) outHeader outPoints
        = .ok (true, ⟨baseXMm, baseYMm, baseZMm, occupancyProb, qualityScore,
            UInt16.ofNat points.length⟩, points.take (points.length % 2 ^ 16)) := by
  obtain ⟨header, hheader⟩ : ∃ header : VoxelHeader, header = ⟨baseXMm, baseYMm, baseZMm,
    occupancyProb, qualityScore, UInt16.ofNat points.length⟩ := ⟨_, rfl⟩
  have hlen : (VoxelHeader.layout.bytes header).length = VoxelHeader.sizeof :=
    VoxelHeader.layout.length_bytes header
  have harray : (CompressedPoint3D.layout.array points).length
      = points.length * CompressedPoint3D.sizeof := CompressedPoint3D.layout.length_array points
  have hcount : header.pointCount.toNat = points.length % 2 ^ 16 := by
    rw [hheader]
    exact UInt16.toNat_ofNat'
  have hle : points.length % 2 ^ 16 ≤ points.length := Nat.mod_le _ _
  refine ⟨_, serialize_eq baseXMm baseYMm baseZMm occupancyProb qualityScore hsize, ?_⟩
  rw [← hheader]
  have hback : header = VoxelHeader.layout.ofBytes ((VoxelHeader.layout.bytes header
      ++ CompressedPoint3D.layout.array points).take VoxelHeader.sizeof) := by
    rw [List.take_left' hlen, VoxelHeader.layout.ofBytes_bytes]
  have hlong : VoxelHeader.sizeof + header.pointCount.toNat * CompressedPoint3D.sizeof
      ≤ (VoxelHeader.layout.bytes header ++ CompressedPoint3D.layout.array points).length := by
    rw [List.length_append, hlen, harray, hcount]
    exact Nat.add_le_add_left (Nat.mul_le_mul_right _ hle) _
  -- the payload is the points that the header counts
  have hpoints : CompressedPoint3D.layout.ofArray header.pointCount.toNat
      (((VoxelHeader.layout.bytes header ++ CompressedPoint3D.layout.array points).drop
        VoxelHeader.sizeof).take (header.pointCount.toNat * CompressedPoint3D.sizeof))
      = points.take (points.length % 2 ^ 16) := by
    have hread := CompressedPoint3D.layout.ofArray_array (points.take (points.length % 2 ^ 16)) []
    rw [List.length_take, Nat.min_eq_left hle, List.append_nil, Layout.array_take] at hread
    rw [List.drop_left' hlen, hcount]
    exact hread
  rw [parse_of_long outHeader outPoints (le_trans (Nat.le_add_right _ _) hlong) hback,
    if_neg (Nat.not_lt.mpr hlong), hpoints]

/-- **The round trip** loses nothing exactly below `2 ^ 16` points. -/
theorem parse_serialize_iff :
    (∃ buffer header,
      serialize baseXMm baseYMm baseZMm occupancyProb qualityScore points = .ok buffer
        ∧ parse (Slice.ofString buffer) outHeader outPoints = .ok (true, header, points)
        ∧ header.baseXMm = baseXMm ∧ header.baseYMm = baseYMm ∧ header.baseZMm = baseZMm
        ∧ header.occupancyProb = occupancyProb ∧ header.qualityScore = qualityScore
        ∧ header.pointCount.toNat = points.length)
      ↔ points.length < 2 ^ 16 := by
  constructor
  · rintro ⟨-, header, -, -, -, -, -, -, -, hcount⟩
    rw [← hcount]
    exact header.pointCount.toNat_lt
  · intro hlt
    have hsize : VoxelHeader.sizeof + points.length * CompressedPoint3D.sizeof < 2 ^ 62 := by
      rw [VoxelHeader.sizeof, CompressedPoint3D.sizeof]
      omega
    obtain ⟨buffer, hrun, hparse⟩ := parse_serialize baseXMm baseYMm baseZMm occupancyProb
      qualityScore points outHeader outPoints hsize
    rw [Nat.mod_eq_of_lt hlt, List.take_length] at hparse
    exact ⟨buffer, _, hrun, hparse, rfl, rfl, rfl, rfl, rfl, UInt16.toNat_ofNat_of_lt' hlt⟩

end RoundTrip

/-- **A block of `2 ^ 16` points** is read back as none. -/
theorem full_block_is_lost :
    ∃ buffer, serialize 1 2 3 50 60 (List.replicate 65536 ⟨1, 2, 3, 4⟩) = .ok buffer
      ∧ parse (Slice.ofString buffer) ⟨0, 0, 0, 0, 0, 0⟩ []
        = .ok (true, ⟨1, 2, 3, 50, 60, 0⟩, []) := by
  have hlen : (List.replicate 65536 (⟨1, 2, 3, 4⟩ : CompressedPoint3D)).length = 65536 :=
    List.length_replicate
  obtain ⟨buffer, hrun, hparse⟩ := parse_serialize 1 2 3 50 60
    (List.replicate 65536 ⟨1, 2, 3, 4⟩) ⟨0, 0, 0, 0, 0, 0⟩ [] (by rw [hlen]; decide)
  rw [hlen] at hparse
  exact ⟨buffer, hrun, hparse⟩

/-! ## The grammar -/

/-- The count of the header that a string starts with. -/
theorem toNat_pointCount_take {b : Bytes} (h : VoxelHeader.sizeof ≤ b.length) :
    (VoxelHeader.layout.ofBytes (b.take VoxelHeader.sizeof)).pointCount.toNat
      = leNat ((b.drop 14).take 2) := by
  have hbytes : ((b.take VoxelHeader.sizeof).drop 14).take 2 = (b.drop 14).take 2 := by
    rw [List.drop_take, List.take_take]
    rfl
  rw [VoxelHeader.toNat_pointCount_ofBytes (List.length_take_of_le h), hbytes]

/-- **Serializing what was read** gives the bytes that it was read from. -/
theorem serialize_ofBytes {b : Bytes} {header : VoxelHeader}
    (hheader : header = VoxelHeader.layout.ofBytes (b.take VoxelHeader.sizeof))
    (h : VoxelHeader.sizeof + header.pointCount.toNat * CompressedPoint3D.sizeof ≤ b.length) :
    serialize header.baseXMm header.baseYMm header.baseZMm header.occupancyProb header.qualityScore
        (CompressedPoint3D.layout.ofArray header.pointCount.toNat ((b.drop VoxelHeader.sizeof).take
          (header.pointCount.toNat * CompressedPoint3D.sizeof)))
      = .ok (b.take (VoxelHeader.sizeof
          + header.pointCount.toNat * CompressedPoint3D.sizeof)) := by
  obtain ⟨payload, hpayload⟩ : ∃ payload, payload = (b.drop VoxelHeader.sizeof).take
    (header.pointCount.toNat * CompressedPoint3D.sizeof) := ⟨_, rfl⟩
  have hlen : payload.length = header.pointCount.toNat * CompressedPoint3D.sizeof := by
    rw [hpayload, List.length_take_of_le]
    rw [List.length_drop]
    omega
  have hpoints := CompressedPoint3D.layout.length_ofArray header.pointCount.toNat payload
  have hsize : VoxelHeader.sizeof + (CompressedPoint3D.layout.ofArray
      header.pointCount.toNat payload).length * CompressedPoint3D.sizeof < 2 ^ 62 := by
    have hlt := header.pointCount.toNat_lt
    rw [hpoints, VoxelHeader.sizeof, CompressedPoint3D.sizeof]
    omega
  have hbytes : VoxelHeader.layout.bytes header = b.take VoxelHeader.sizeof := by
    rw [hheader]
    exact VoxelHeader.layout.bytes_ofBytes _ (List.length_take_of_le (by omega))
  have harray : CompressedPoint3D.layout.array (CompressedPoint3D.layout.ofArray
      header.pointCount.toNat payload) = payload := by
    rw [Layout.array_ofArray _ _ hlen.ge]
    exact List.take_of_length_le hlen.le
  rw [← hpayload, serialize_eq _ _ _ _ _ hsize, hpoints, UInt16.ofNat_toNat, harray, hbytes,
    hpayload, ← List.take_add]

/-- What `Parse` accepts, with the bytes that it took. -/
theorem parse_accepts (b : Bytes) (outHeader : VoxelHeader) (outPoints : List CompressedPoint3D) :
    ∃ ok header points, parse (Slice.ofString b) outHeader outPoints = .ok (ok, header, points)
      ∧ (ok = true ↔ 16 ≤ b.length ∧ 16 + 7 * leNat ((b.drop 14).take 2) ≤ b.length)
      ∧ (ok = true → serialize header.baseXMm header.baseYMm header.baseZMm header.occupancyProb
          header.qualityScore points = .ok (b.take (16 + 7 * leNat ((b.drop 14).take 2)))) := by
  by_cases hshort : b.length < VoxelHeader.sizeof
  · refine ⟨false, outHeader, outPoints, parse_of_short outHeader outPoints hshort, ?_, ?_⟩
    · have hneg : ¬ 16 ≤ b.length := Nat.not_le.mpr hshort
      simp [hneg]
    · intro hfalse
      cases hfalse
  have hlong : VoxelHeader.sizeof ≤ b.length := Nat.not_lt.mp hshort
  obtain ⟨header, hheader⟩ : ∃ header, header
    = VoxelHeader.layout.ofBytes (b.take VoxelHeader.sizeof) := ⟨_, rfl⟩
  have hsize : VoxelHeader.sizeof + header.pointCount.toNat * CompressedPoint3D.sizeof
      = 16 + 7 * leNat ((b.drop 14).take 2) := by
    rw [hheader, toNat_pointCount_take hlong, Nat.mul_comm]
    rfl
  have hparse := parse_of_long outHeader outPoints hlong hheader
  rw [← hsize]
  by_cases hcut : b.length < VoxelHeader.sizeof
      + header.pointCount.toNat * CompressedPoint3D.sizeof
  · rw [if_pos hcut] at hparse
    refine ⟨_, _, _, hparse, ?_, ?_⟩
    · simp [Nat.not_le.mpr hcut]
    · intro hfalse
      cases hfalse
  · rw [if_neg hcut] at hparse
    have hall := Nat.not_lt.mp hcut
    exact ⟨_, _, _, hparse, ⟨fun _ => ⟨hlong, hall⟩, fun _ => rfl⟩,
      fun _ => serialize_ofBytes hheader hall⟩

/-- What is cut off a block is missed. -/
theorem parse_prefix (baseXMm baseYMm baseZMm : Int32) (occupancyProb qualityScore : UInt8)
    {points : List CompressedPoint3D} (hpoints : points.length ≤ 65535) (outHeader : VoxelHeader)
    (outPoints : List CompressedPoint3D) :
    ∃ buffer, serialize baseXMm baseYMm baseZMm occupancyProb qualityScore points = .ok buffer
      ∧ ∀ b, b <+: buffer → b ≠ buffer → ∃ header ps,
        parse (Slice.ofString b) outHeader outPoints = .ok (false, header, ps) := by
  have hsize : VoxelHeader.sizeof + points.length * CompressedPoint3D.sizeof < 2 ^ 62 := by
    rw [VoxelHeader.sizeof, CompressedPoint3D.sizeof]
    omega
  refine ⟨_, serialize_eq baseXMm baseYMm baseZMm occupancyProb qualityScore hsize, ?_⟩
  obtain ⟨header, hheader⟩ : ∃ header : VoxelHeader, header = ⟨baseXMm, baseYMm, baseZMm,
    occupancyProb, qualityScore, UInt16.ofNat points.length⟩ := ⟨_, rfl⟩
  rw [← hheader]
  have hlen : (VoxelHeader.layout.bytes header).length = VoxelHeader.sizeof :=
    VoxelHeader.layout.length_bytes header
  have hcount : header.pointCount.toNat = points.length := by
    rw [hheader]
    exact UInt16.toNat_ofNat_of_lt' (Nat.lt_succ_of_le hpoints)
  intro b hpre hne
  have hless : b.length < VoxelHeader.sizeof
      + header.pointCount.toNat * CompressedPoint3D.sizeof := by
    have hlt := lt_of_le_of_ne hpre.length_le (fun h => hne (hpre.eq_of_length h))
    rw [List.length_append, hlen, CompressedPoint3D.layout.length_array, ← hcount] at hlt
    exact hlt
  by_cases hshort : b.length < VoxelHeader.sizeof
  · exact ⟨_, _, parse_of_short outHeader outPoints hshort⟩
  · -- the header is whole, and counts points that are cut off
    have hlong : VoxelHeader.sizeof ≤ b.length := Nat.not_lt.mp hshort
    have hback : header = VoxelHeader.layout.ofBytes (b.take VoxelHeader.sizeof) := by
      obtain ⟨t, ht⟩ := hpre
      have htake := congrArg (List.take VoxelHeader.sizeof) ht
      rw [List.take_append_of_le_length hlong, List.take_left' hlen] at htake
      rw [htake, VoxelHeader.layout.ofBytes_bytes]
    have hparse := parse_of_long outHeader outPoints hlong hback
    rw [if_pos hless] at hparse
    exact ⟨_, _, hparse⟩

/-- **`Parse` accepts its grammar**: a header and as many points as it counts, which
    `Serialize` writes again; a block that is cut off anywhere is rejected. -/
theorem parse_grammar (outHeader : VoxelHeader) (outPoints : List CompressedPoint3D) :
    (∀ b : Bytes, ∃ ok header points,
      parse (Slice.ofString b) outHeader outPoints = .ok (ok, header, points)
        ∧ (ok = true ↔ 16 ≤ b.length ∧ 16 + 7 * leNat ((b.drop 14).take 2) ≤ b.length)
        ∧ (ok = true → serialize header.baseXMm header.baseYMm header.baseZMm header.occupancyProb
          header.qualityScore points = .ok (b.take (16 + 7 * leNat ((b.drop 14).take 2)))))
      ∧ ∀ (baseXMm baseYMm baseZMm : Int32) (occupancyProb qualityScore : UInt8)
        (points : List CompressedPoint3D), points.length ≤ 65535 →
        ∃ buffer, serialize baseXMm baseYMm baseZMm occupancyProb qualityScore points = .ok buffer
          ∧ ∀ b, b <+: buffer → b ≠ buffer → ∃ header ps,
            parse (Slice.ofString b) outHeader outPoints = .ok (false, header, ps) := by
  refine ⟨fun b => parse_accepts b outHeader outPoints, ?_⟩
  intro baseXMm baseYMm baseZMm occupancyProb qualityScore points hpoints
  exact parse_prefix baseXMm baseYMm baseZMm occupancyProb qualityScore hpoints outHeader outPoints

/-- A block of one point. -/
theorem parse_grammar_one :
    ∃ buffer, serialize 1 2 3 50 60 [⟨1, 2, 3, 4⟩] = .ok buffer
      ∧ ∀ b, b <+: buffer → b ≠ buffer → ∃ header ps,
        parse (Slice.ofString b) ⟨0, 0, 0, 0, 0, 0⟩ [] = .ok (false, header, ps) :=
  (parse_grammar ⟨0, 0, 0, 0, 0, 0⟩ []).2 1 2 3 50 60 [⟨1, 2, 3, 4⟩] (by decide)

end KvVoxel
