import LightKV.KvBytesProofs
import LightKV.PackedProofs
import Mathlib.Data.Prod.Lex

/-! # Spatial keys

    A `SpatialKey3D` is a layer, a level of detail, a Morton code and a time.
    `ToBytes` writes the two words in network order, and a reader that knows
    where the Morton code stands gets it back from the bytes
    (`mortonCode_toBytes`).  `FromSlice` reads a whole key back, and the bytes stand
    in the order of the fields (`toBytes_faithful`).  `ToSlice` shows the key as it
    stands in memory, its words in the order of the host: the two agree exactly on
    keys whose words read the same from either end (`toSlice_agrees_iff`). -/

namespace KvSpatialKey

open KvBytes LittleEndian Packed

/-- A word in network order, as its bytes stand in memory. -/
def htobe64 (word : UInt64) : Bytes := (leBytes 8 word.toNat).reverse

/-- The word whose network order some bytes are. -/
def be64toh (bytes : Bytes) : UInt64 := UInt64.ofNat (leNat bytes.reverse)

@[simp] theorem length_htobe64 (word : UInt64) : (htobe64 word).length = 8 := by
  rw [htobe64, List.length_reverse, length_leBytes]

/-- Network order keeps the order of the words. -/
theorem htobe64_lt_iff (a b : UInt64) : htobe64 a < htobe64 b ↔ a < b := by
  have ha : a.toNat < 256 ^ 8 := a.toNat_lt
  have hb : b.toNat < 256 ^ 8 := b.toNat_lt
  rw [lt_iff_leNat_reverse (by rw [length_htobe64, length_htobe64]), htobe64, htobe64,
    List.reverse_reverse, List.reverse_reverse, leNat_leBytes_of_lt ha, leNat_leBytes_of_lt hb,
    UInt64.lt_iff_toNat_lt]

theorem be64toh_htobe64 (word : UInt64) : be64toh (htobe64 word) = word := by
  have hlt : word.toNat < 256 ^ 8 := word.toNat_lt
  rw [be64toh, htobe64, List.reverse_reverse, leNat_leBytes_of_lt hlt, UInt64.ofNat_toNat]

/-- `SpatialKey3D`. -/
structure SpatialKey3D where
  layerType : UInt8
  lodLevel : UInt8
  mortonCode : UInt64
  timestampUs : UInt64
  deriving DecidableEq

/-- `sizeof(SpatialKey3D)`: the structure is packed. -/
def SpatialKey3D.sizeof : Nat := 18

/-- `ToBytes`. -/
def SpatialKey3D.toBytes (key : SpatialKey3D) : Bytes :=
  [key.layerType, key.lodLevel] ++ htobe64 key.mortonCode ++ htobe64 key.timestampUs

/-- The bytes of the structure in memory. -/
def SpatialKey3D.layout : Layout SpatialKey3D :=
  (uint8.prod (uint8.prod (uint64.prod uint64))).map
    { toFun := fun (layerType, lodLevel, mortonCode, timestampUs) =>
        ⟨layerType, lodLevel, mortonCode, timestampUs⟩
      invFun := fun key => (key.layerType, key.lodLevel, key.mortonCode, key.timestampUs)
      left_inv := fun _ => rfl
      right_inv := fun _ => rfl }

/-- `be64toh` of a word that was read from memory; the host is little-endian. -/
def byteSwap64 (word : UInt64) : UInt64 := be64toh (uint64.bytes word)

/-- `FromSlice`; the length of the slice is not looked at. -/
def SpatialKey3D.fromSlice (s : Slice) : Except Fault SpatialKey3D := do
  let bytes ← readBytes s.data SpatialKey3D.sizeof
  let netKey := SpatialKey3D.layout.ofBytes bytes
  pure
    { layerType := netKey.layerType
      lodLevel := netKey.lodLevel
      mortonCode := byteSwap64 netKey.mortonCode
      timestampUs := byteSwap64 netKey.timestampUs }

/-- `ToSlice`: a view of the structure itself. -/
def SpatialKey3D.toSlice (key : SpatialKey3D) : Slice :=
  ⟨SpatialKey3D.layout.bytes key, SpatialKey3D.sizeof⟩

theorem SpatialKey3D.length_toBytes (key : SpatialKey3D) :
    key.toBytes.length = SpatialKey3D.sizeof := by
  simp [SpatialKey3D.toBytes, SpatialKey3D.sizeof]

/-! ## The order of the bytes -/

/-- The fields of a key, the first that differs deciding. -/
def SpatialKey3D.fields (key : SpatialKey3D) : UInt8 ×ₗ UInt8 ×ₗ UInt64 ×ₗ UInt64 :=
  toLex (key.layerType, toLex (key.lodLevel, toLex (key.mortonCode, key.timestampUs)))

theorem SpatialKey3D.fields_lt_iff {a b : SpatialKey3D} : a.fields < b.fields
    ↔ a.layerType < b.layerType ∨ a.layerType = b.layerType
      ∧ (a.lodLevel < b.lodLevel ∨ a.lodLevel = b.lodLevel
        ∧ (a.mortonCode < b.mortonCode ∨ a.mortonCode = b.mortonCode
          ∧ a.timestampUs < b.timestampUs)) := by
  rw [fields, fields, Prod.Lex.toLex_lt_toLex, Prod.Lex.toLex_lt_toLex, Prod.Lex.toLex_lt_toLex]

theorem SpatialKey3D.fields_inj {a b : SpatialKey3D} : a.fields = b.fields ↔ a = b := by
  constructor
  · intro h
    cases a
    cases b
    simpa [fields] using h
  · exact congrArg fields

/-- **Keys stand in the order of their fields.** -/
theorem SpatialKey3D.toBytes_lt_toBytes_iff (a b : SpatialKey3D) :
    a.toBytes < b.toBytes ↔ a.fields < b.fields := by
  have hwords (x y : UInt64) : (htobe64 x).length = (htobe64 y).length := by
    rw [length_htobe64, length_htobe64]
  have heq : htobe64 a.mortonCode = htobe64 b.mortonCode ↔ a.mortonCode = b.mortonCode := by
    constructor
    · intro h
      rw [← be64toh_htobe64 a.mortonCode, h, be64toh_htobe64]
    · exact congrArg htobe64
  rw [fields_lt_iff]
  show a.layerType :: a.lodLevel :: (htobe64 a.mortonCode ++ htobe64 a.timestampUs)
      < b.layerType :: b.lodLevel :: (htobe64 b.mortonCode ++ htobe64 b.timestampUs) ↔ _
  rw [List.cons_lt_cons_iff, List.cons_lt_cons_iff, append_lt_append_iff (hwords _ _),
    htobe64_lt_iff, htobe64_lt_iff, heq]

/-- **Keys of one layer and level** stand in the order of their codes, and those of
    one code in the order of their times. -/
theorem SpatialKey3D.toBytes_lt_iff {a b : SpatialKey3D} (hlayer : a.layerType = b.layerType)
    (hlod : a.lodLevel = b.lodLevel) :
    a.toBytes < b.toBytes ↔ a.mortonCode < b.mortonCode
      ∨ a.mortonCode = b.mortonCode ∧ a.timestampUs < b.timestampUs := by
  rw [toBytes_lt_toBytes_iff, fields_lt_iff, hlayer, hlod]
  simp

/-- **The Morton code stands behind the first two bytes.** -/
theorem SpatialKey3D.mortonCode_toBytes (key : SpatialKey3D) :
    be64toh ((key.toBytes.drop 2).take 8) = key.mortonCode := by
  have hcode : (key.toBytes.drop 2).take 8 = htobe64 key.mortonCode := by
    show (htobe64 key.mortonCode ++ htobe64 key.timestampUs).take 8 = _
    rw [List.take_append_of_le_length (length_htobe64 _).ge]
    exact List.take_of_length_le (length_htobe64 _).le
  rw [hcode, be64toh_htobe64]

/-! ## A key and its bytes -/

/-- The key that `ToBytes` copies: its words are in network order in memory. -/
def SpatialKey3D.netKey (key : SpatialKey3D) : SpatialKey3D :=
  { key with
    mortonCode := byteSwap64 key.mortonCode
    timestampUs := byteSwap64 key.timestampUs }

/-- Network order is the other order in memory. -/
theorem bytes_byteSwap64 (word : UInt64) : uint64.bytes (byteSwap64 word) = htobe64 word :=
  uint64.bytes_ofBytes _ ((List.length_reverse).trans (uint64.length_bytes word))

theorem byteSwap64_byteSwap64 (word : UInt64) : byteSwap64 (byteSwap64 word) = word := by
  rw [byteSwap64, bytes_byteSwap64, be64toh_htobe64]

@[simp] theorem SpatialKey3D.netKey_netKey (key : SpatialKey3D) : key.netKey.netKey = key := by
  cases key
  simp only [netKey, byteSwap64_byteSwap64]

/-- The fields of a key in memory. -/
theorem SpatialKey3D.layout_fields (key : SpatialKey3D) :
    layout.bytes key = [key.layerType, key.lodLevel] ++ uint64.bytes key.mortonCode
      ++ uint64.bytes key.timestampUs := by
  have hfields : layout.bytes key = (uint8.prod (uint8.prod (uint64.prod uint64))).bytes
      (key.layerType, key.lodLevel, key.mortonCode, key.timestampUs) := by
    rw [layout, Layout.bytes_map]
    rfl
  rw [hfields, Layout.bytes_prod, Layout.bytes_prod, Layout.bytes_prod, uint8_bytes, uint8_bytes,
    List.append_assoc]
  rfl

/-- `ToBytes` is a copy of the memory of `net_key`. -/
theorem SpatialKey3D.layout_bytes_netKey (key : SpatialKey3D) :
    layout.bytes key.netKey = key.toBytes := by
  rw [layout_fields, toBytes, ← bytes_byteSwap64, ← bytes_byteSwap64, netKey]

theorem SpatialKey3D.layout_bytes (key : SpatialKey3D) :
    layout.bytes key = key.netKey.toBytes := by
  rw [← layout_bytes_netKey, netKey_netKey]

/-- **`FromSlice`** swaps the words of what stands in memory. -/
theorem SpatialKey3D.fromSlice_layout (key : SpatialKey3D) (size : Nat) :
    fromSlice ⟨layout.bytes key, size⟩ = .ok key.netKey := by
  have hlen : (layout.bytes key).length = SpatialKey3D.sizeof := layout.length_bytes key
  have hread : readBytes (layout.bytes key) SpatialKey3D.sizeof = .ok (layout.bytes key) := by
    rw [readBytes, if_pos hlen.ge, List.take_of_length_le hlen.le]
  rw [fromSlice, hread, ok_bind, layout.ofBytes_bytes]
  rfl

/-- The two slices of one length are compared byte by byte. -/
theorem SpatialKey3D.compare_slices (a b : SpatialKey3D) :
    Slice.compare ⟨a.toBytes, SpatialKey3D.sizeof⟩ ⟨b.toBytes, SpatialKey3D.sizeof⟩
      = .ok (sliceOrder a.toBytes b.toBytes) := by
  have hlen (key : SpatialKey3D) : key.toBytes.take SpatialKey3D.sizeof = key.toBytes :=
    List.take_of_length_le key.length_toBytes.le
  rw [compare_of_take a.length_toBytes.ge b.length_toBytes.ge, hlen, hlen]

theorem SpatialKey3D.toBytes_inj {a b : SpatialKey3D} : a.toBytes = b.toBytes ↔ a = b := by
  constructor
  · intro h
    rw [← layout_bytes_netKey, ← layout_bytes_netKey, layout.bytes_inj] at h
    rw [← a.netKey_netKey, h, netKey_netKey]
  · exact congrArg toBytes

/-- **The bytes of a key** give the key back, and compare as its fields do. -/
theorem toBytes_faithful (a b : SpatialKey3D) :
    SpatialKey3D.fromSlice (Slice.ofString a.toBytes) = .ok a
      ∧ ∃ r, Slice.compare (Slice.ofString a.toBytes) (Slice.ofString b.toBytes) = .ok r
        ∧ (r < 0 ↔ a.fields < b.fields) ∧ (r = 0 ↔ a.fields = b.fields)
        ∧ (0 < r ↔ b.fields < a.fields) := by
  have hslice (key : SpatialKey3D) :
      Slice.ofString key.toBytes = ⟨key.toBytes, SpatialKey3D.sizeof⟩ := by
    rw [Slice.ofString, key.length_toBytes]
  refine ⟨?_, sliceOrder a.toBytes b.toBytes, ?_, ?_, ?_, ?_⟩
  · rw [Slice.ofString, ← a.layout_bytes_netKey, SpatialKey3D.fromSlice_layout, a.netKey_netKey]
  · rw [hslice, hslice, SpatialKey3D.compare_slices]
  · rw [sliceOrder_lt_zero, SpatialKey3D.toBytes_lt_toBytes_iff]
  · rw [sliceOrder_eq_zero, SpatialKey3D.toBytes_inj, SpatialKey3D.fields_inj]
  · rw [sliceOrder_pos, SpatialKey3D.toBytes_lt_toBytes_iff]

/-! ## The view of the structure -/

/-- The bytes of a word read the same from either end. -/
def Palindrome (word : UInt64) : Prop := (uint64.bytes word).reverse = uint64.bytes word

/-- The bytes of two words, the lowest first, stand in the order of the words. -/
def InOrder (a b : UInt64) : Prop := uint64.bytes a < uint64.bytes b ↔ a < b

/-- The words that decide between two keys stand in memory in their order. -/
def SpatialKey3D.OrderKept (a b : SpatialKey3D) : Prop :=
  a.layerType = b.layerType → a.lodLevel = b.lodLevel →
    InOrder a.mortonCode b.mortonCode
      ∧ (a.mortonCode = b.mortonCode → InOrder a.timestampUs b.timestampUs)

/-- Two keys compare through `ToSlice` as they do through `ToBytes`. -/
def SpatialKey3D.SameOrder (a b : SpatialKey3D) : Prop :=
  ∃ r s, Slice.compare a.toSlice b.toSlice = .ok r
    ∧ Slice.compare (Slice.ofString a.toBytes) (Slice.ofString b.toBytes) = .ok s
    ∧ (r < 0 ↔ s < 0) ∧ (r = 0 ↔ s = 0) ∧ (0 < r ↔ 0 < s)

theorem byteSwap64_eq_iff (word : UInt64) : byteSwap64 word = word ↔ Palindrome word := by
  rw [← uint64.bytes_inj, bytes_byteSwap64]
  exact Iff.rfl

theorem byteSwap64_lt_iff (a b : UInt64) : byteSwap64 a < byteSwap64 b
    ↔ uint64.bytes a < uint64.bytes b := by
  rw [← htobe64_lt_iff, ← bytes_byteSwap64, ← bytes_byteSwap64, byteSwap64_byteSwap64,
    byteSwap64_byteSwap64]

theorem SpatialKey3D.netKey_eq_iff (key : SpatialKey3D) :
    key.netKey = key ↔ Palindrome key.mortonCode ∧ Palindrome key.timestampUs := by
  rw [← byteSwap64_eq_iff, ← byteSwap64_eq_iff]
  cases key
  simp [netKey]

/-- Comparing in memory and comparing the fields give one order where the words
    that decide are kept in theirs. -/
theorem SpatialKey3D.netKey_lt_iff (a b : SpatialKey3D) :
    (a.netKey.fields < b.netKey.fields ↔ a.fields < b.fields) ↔ OrderKept a b := by
  have heq {x y : UInt64} : byteSwap64 x = byteSwap64 y ↔ x = y := by
    constructor
    · intro h
      rw [← byteSwap64_byteSwap64 x, h, byteSwap64_byteSwap64]
    · exact congrArg byteSwap64
  rw [fields_lt_iff, fields_lt_iff, OrderKept, InOrder, InOrder, ← byteSwap64_lt_iff,
    ← byteSwap64_lt_iff]
  simp only [netKey, heq]
  by_cases hlayer : a.layerType = b.layerType
  · by_cases hlod : a.lodLevel = b.lodLevel
    · by_cases hcode : a.mortonCode = b.mortonCode
      · simp [hlayer, hlod, hcode]
      · simp [hlayer, hlod, hcode]
    · simp [hlayer, hlod]
  · simp [hlayer]

/-- The slice of a key as `ToBytes` writes it. -/
theorem SpatialKey3D.ofString_toBytes (key : SpatialKey3D) :
    Slice.ofString key.toBytes = ⟨key.toBytes, SpatialKey3D.sizeof⟩ := by
  rw [Slice.ofString, key.length_toBytes]

/-- The view of a key shows the bytes of the key with its words swapped. -/
theorem SpatialKey3D.toSlice_eq (key : SpatialKey3D) :
    key.toSlice = ⟨key.netKey.toBytes, SpatialKey3D.sizeof⟩ := by
  rw [toSlice, key.layout_bytes]

theorem SpatialKey3D.sameOrder_iff (a b : SpatialKey3D) :
    SameOrder a b ↔ (a.netKey.fields < b.netKey.fields ↔ a.fields < b.fields) := by
  constructor
  · rintro ⟨r, s, hr, hs, hlt, -, -⟩
    rw [toSlice_eq, toSlice_eq, compare_slices, Except.ok.injEq] at hr
    rw [ofString_toBytes, ofString_toBytes, compare_slices, Except.ok.injEq] at hs
    rwa [← hr, ← hs, sliceOrder_lt_zero, sliceOrder_lt_zero, toBytes_lt_toBytes_iff,
      toBytes_lt_toBytes_iff] at hlt
  · intro hlt
    have heq : a.netKey = b.netKey ↔ a = b := by
      constructor
      · intro h
        rw [← a.netKey_netKey, h, netKey_netKey]
      · exact congrArg netKey
    have hgt (x y : SpatialKey3D) : y.fields < x.fields ↔ ¬ x.fields < y.fields ∧ ¬ x = y := by
      rw [← toBytes_lt_toBytes_iff, ← toBytes_lt_toBytes_iff, ← toBytes_inj, ← not_or,
        ← le_iff_lt_or_eq, not_le]
    refine ⟨sliceOrder a.netKey.toBytes b.netKey.toBytes, sliceOrder a.toBytes b.toBytes, ?_, ?_,
      ?_, ?_, ?_⟩
    · rw [toSlice_eq, toSlice_eq, compare_slices]
    · rw [ofString_toBytes, ofString_toBytes, compare_slices]
    · rwa [sliceOrder_lt_zero, sliceOrder_lt_zero, toBytes_lt_toBytes_iff, toBytes_lt_toBytes_iff]
    · rw [sliceOrder_eq_zero, sliceOrder_eq_zero, toBytes_inj, toBytes_inj, heq]
    · rw [sliceOrder_pos, sliceOrder_pos, toBytes_lt_toBytes_iff, toBytes_lt_toBytes_iff,
        hgt a.netKey, hgt a, hlt, heq]

/-- **The two encoders agree** on a key whose words read the same from either end,
    and order two keys alike where the words that decide between them keep their
    order with the lowest byte in front. -/
theorem toSlice_agrees_iff (a b : SpatialKey3D) :
    (a.toSlice.toString = .ok a.toBytes ↔ Palindrome a.mortonCode ∧ Palindrome a.timestampUs)
      ∧ (SpatialKey3D.fromSlice a.toSlice = .ok a
        ↔ Palindrome a.mortonCode ∧ Palindrome a.timestampUs)
      ∧ (SpatialKey3D.SameOrder a b ↔ SpatialKey3D.OrderKept a b) := by
  refine ⟨?_, ?_, ?_⟩
  · have hread : a.toSlice.toString = .ok a.netKey.toBytes := by
      rw [a.toSlice_eq, Slice.toString, readBytes, if_pos a.netKey.length_toBytes.ge,
        List.take_of_length_le a.netKey.length_toBytes.le]
    rw [hread, Except.ok.injEq, SpatialKey3D.toBytes_inj, a.netKey_eq_iff]
  · rw [SpatialKey3D.toSlice, SpatialKey3D.fromSlice_layout, Except.ok.injEq, a.netKey_eq_iff]
  · rw [SpatialKey3D.sameOrder_iff, SpatialKey3D.netKey_lt_iff]

/-- **Codes one byte apart**: `1` stands in memory with its byte in front, and so
    behind `256`. -/
theorem toSlice_turns_words_around :
    Slice.toString (SpatialKey3D.toSlice ⟨1, 0, 1, 0⟩) ≠ .ok (SpatialKey3D.toBytes ⟨1, 0, 1, 0⟩)
      ∧ SpatialKey3D.fromSlice (SpatialKey3D.toSlice ⟨1, 0, 1, 0⟩) ≠ .ok ⟨1, 0, 1, 0⟩
      ∧ Slice.compare (SpatialKey3D.toSlice ⟨1, 0, 1, 0⟩) (SpatialKey3D.toSlice ⟨1, 0, 256, 0⟩)
        = .ok 1
      ∧ Slice.compare (Slice.ofString (SpatialKey3D.toBytes ⟨1, 0, 1, 0⟩))
          (Slice.ofString (SpatialKey3D.toBytes ⟨1, 0, 256, 0⟩)) = .ok (-1) := by
  decide

end KvSpatialKey
