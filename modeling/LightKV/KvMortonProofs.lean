import LightKV.KvSpatialProofs

/-! # Morton codes and their bits

    Encoding puts the bits of three indices in every third place
    (`mortonCode_interleaves`), and gives every code of 63 bits (`exists_mortonCode`).

    The loop of `Morton3D::Decode` gathers the bits of a code again, every third
    one for an axis.  It begins with the `x` index at the lowest bit, where
    `Encode` has put the `z` index: the two come back exchanged
    (`decode_mortonCode`). -/

namespace KvMorton

open BitSpread KvSpatial

/-! ## Encoding -/

/-- Codes of 63 bits. -/
theorem pow_eq : (8 : Nat) ^ 21 = 2 ^ 63 := by decide

/-- **The bits of a spread index.** -/
theorem testBit_splitBy2 {a : UInt64} (ha : InGrid a) :
    (∀ j < 21, (splitBy2 a).toNat.testBit (3 * j) = a.toNat.testBit j)
      ∧ ∀ k, (∀ j < 21, k ≠ 3 * j) → (splitBy2 a).toNat.testBit k = false := by
  rw [toNat_splitBy2 ha]
  constructor
  · intro j hj
    rw [(testBit_spread 21 a.toNat j).1, decide_eq_true hj, Bool.true_and]
  · intro k hk
    have hbits := testBit_spread 21 a.toNat (k / 3)
    have hrem : k = 3 * (k / 3) ∨ k = 3 * (k / 3) + 1 ∨ k = 3 * (k / 3) + 2 := by omega
    rcases hrem with h | h | h
    · have hhigh : ¬ k / 3 < 21 := fun hlt => hk (k / 3) hlt h
      rw [h, hbits.1, decide_eq_false hhigh, Bool.false_and]
    · rw [h, hbits.2.1]
    · rw [h, hbits.2.2]

/-- Every code of 63 bits is one of a voxel. -/
theorem exists_mortonCode {c : UInt64} (hc : c.toNat < 2 ^ 63) :
    ∃ ix iy iz, InGrid ix ∧ InGrid iy ∧ InGrid iz ∧ mortonCode ix iy iz = c := by
  rw [← pow_eq] at hc
  obtain ⟨x, y, z, hx, hy, hz, hxyz⟩ := exists_interleaved hc
  have hword {a : Nat} (ha : a < 2 ^ 21) : (UInt64.ofNat a).toNat = a :=
    UInt64.toNat_ofNat_of_lt' (ha.trans (by decide))
  have hgrid {a : Nat} (ha : a < 2 ^ 21) : InGrid (UInt64.ofNat a) := by
    rwa [InGrid, hword ha]
  refine ⟨_, _, _, hgrid hx, hgrid hy, hgrid hz, ?_⟩
  rw [← UInt64.toNat_inj, toNat_mortonCode (hgrid hx) (hgrid hy) (hgrid hz), hword hx, hword hy,
    hword hz, hxyz]

/-- **Encoding interleaves**: every bit of an index goes to its place, no two voxels
    have one code, and codes grow with each index. -/
theorem mortonCode_interleaves {ix iy iz jx jy jz : UInt64} (hix : InGrid ix) (hiy : InGrid iy)
    (hiz : InGrid iz) (hjx : InGrid jx) (hjy : InGrid jy) (hjz : InGrid jz) :
    (∀ j < 21, (splitBy2 ix).toNat.testBit (3 * j) = ix.toNat.testBit j)
      ∧ (∀ k, (∀ j < 21, k ≠ 3 * j) → (splitBy2 ix).toNat.testBit k = false)
      ∧ (mortonCode ix iy iz = mortonCode jx jy jz → ix = jx ∧ iy = jy ∧ iz = jz)
      ∧ (ix ≤ jx → iy ≤ jy → iz ≤ jz → mortonCode ix iy iz ≤ mortonCode jx jy jz) := by
  refine ⟨(testBit_splitBy2 hix).1, (testBit_splitBy2 hix).2, ?_, ?_⟩
  · intro h
    rw [← UInt64.toNat_inj, toNat_mortonCode hix hiy hiz, toNat_mortonCode hjx hjy hjz] at h
    obtain ⟨hx, hy, hz⟩ := interleaved_inj hix hiy hiz hjx hjy hjz h
    exact ⟨UInt64.toNat_inj.mp hx, UInt64.toNat_inj.mp hy, UInt64.toNat_inj.mp hz⟩
  · intro hx hy hz
    exact mortonCode_le hx hy hz hjx hjy hjz

/-- Two neighbours on the `x` axis. -/
theorem mortonCode_interleaves_neighbours :
    (∀ j < 21, (splitBy2 5).toNat.testBit (3 * j) = (5 : UInt64).toNat.testBit j)
      ∧ (∀ k, (∀ j < 21, k ≠ 3 * j) → (splitBy2 5).toNat.testBit k = false)
      ∧ (mortonCode 5 7 9 = mortonCode 6 7 9 → (5 : UInt64) = 6 ∧ (7 : UInt64) = 7
        ∧ (9 : UInt64) = 9)
      ∧ ((5 : UInt64) ≤ 6 → (7 : UInt64) ≤ 7 → (9 : UInt64) ≤ 9 →
        mortonCode 5 7 9 ≤ mortonCode 6 7 9) := by
  have hsmall {a : UInt64} (ha : a.toNat < 10) : InGrid a := ha.trans (by decide)
  exact mortonCode_interleaves (hsmall (by decide)) (hsmall (by decide)) (hsmall (by decide))
    (hsmall (by decide)) (hsmall (by decide)) (hsmall (by decide))

/-! ## Decoding -/

/-- `((code >> (3 * i + axis)) & 1ULL) << i`. -/
def bitOf (code : UInt64) (axis i : Nat) : UInt64 :=
  ((code >>> UInt64.ofNat (3 * i + axis)) &&& 1) <<< UInt64.ofNat i

/-- One turn of the loop of `Decode`, on `ix`, `iy` and `iz`. -/
def decodeTurn (code : UInt64) (indices : UInt32 × UInt32 × UInt32) (i : Nat) :
    UInt32 × UInt32 × UInt32 :=
  let (ix, iy, iz) := indices
  ((ix.toUInt64 ||| bitOf code 0 i).toUInt32,
    (iy.toUInt64 ||| bitOf code 1 i).toUInt32,
    (iz.toUInt64 ||| bitOf code 2 i).toUInt32)

/-- `Decode`, before the indices are scaled. -/
def decode (code : UInt64) : UInt32 × UInt32 × UInt32 :=
  (List.range 21).foldl (decodeTurn code) (0, 0, 0)

/-- A turn reads one bit of the code. -/
theorem toNat_bitOf (code : UInt64) {axis i : Nat} (haxis : axis < 3) (hi : i < 21) :
    (bitOf code axis i).toNat = (code.toNat.testBit (3 * i + axis)).toNat <<< i := by
  have hamount {k : Nat} (hk : k < 64) : (UInt64.ofNat k).toNat % 64 = k := by
    have hword : (UInt64.ofNat k).toNat = k := UInt64.toNat_ofNat_of_lt (hk.trans (by decide))
    rw [hword, Nat.mod_eq_of_lt hk]
  have hbit : code.toNat >>> (3 * i + axis) &&& 1 = (code.toNat.testBit (3 * i + axis)).toNat := by
    rw [Nat.and_one_is_mod, Nat.testBit_eq_decide_div_mod_eq, Nat.shiftRight_eq_div_pow]
    rcases Nat.mod_two_eq_zero_or_one (code.toNat / 2 ^ (3 * i + axis)) with h | h <;> rw [h] <;> rfl
  have hlt : (code.toNat.testBit (3 * i + axis)).toNat <<< i < 2 ^ 64 := by
    have hone : (code.toNat.testBit (3 * i + axis)).toNat ≤ 1 := Bool.toNat_le _
    have hpow : 2 ^ i < 2 ^ 21 := Nat.pow_lt_pow_right (by decide) hi
    rw [Nat.shiftLeft_eq]
    calc _ ≤ 1 * 2 ^ i := Nat.mul_le_mul_right _ hone
      _ < 2 ^ 64 := by omega
  rw [bitOf, UInt64.toNat_shiftLeft, hamount (by omega), UInt64.toNat_and,
    UInt64.toNat_shiftRight, hamount (by omega)]
  show (code.toNat >>> (3 * i + axis) &&& 1) <<< i % 2 ^ 64 = _
  rw [hbit, Nat.mod_eq_of_lt hlt]

/-- The bits of an axis. -/
def axisBits (code : UInt64) (axis i : Nat) : Bool := code.toNat.testBit (3 * i + axis)

theorem gather_lt (p : Nat → Bool) (n : Nat) : gather p n < 2 ^ n := by
  refine Nat.lt_pow_two_of_testBit _ ?_
  intro i hi
  rw [testBit_gather, decide_eq_false (Nat.not_lt.mpr hi), Bool.false_and]

/-- One index after a turn. -/
theorem toNat_turn (code : UInt64) {axis i : Nat} (haxis : axis < 3) (hi : i < 21) {index : UInt32}
    (hindex : index.toNat = gather (axisBits code axis) i) :
    (index.toUInt64 ||| bitOf code axis i).toUInt32.toNat = gather (axisBits code axis) (i + 1) := by
  have hlt : gather (axisBits code axis) (i + 1) < 2 ^ 32 :=
    (gather_lt _ _).trans_le (Nat.pow_le_pow_right Nat.two_pos (by omega))
  rw [UInt64.toNat_toUInt32, UInt64.toNat_or, UInt32.toNat_toUInt64, hindex,
    toNat_bitOf code haxis hi]
  exact Nat.mod_eq_of_lt hlt

/-- **The loop of `Decode`** gathers the bits of each axis. -/
theorem decodeLoop_spec (code : UInt64) :
    ∀ n, n ≤ 21 → ∃ ix iy iz,
      (List.range n).foldl (decodeTurn code) (0, 0, 0) = (ix, iy, iz)
        ∧ ix.toNat = gather (axisBits code 0) n ∧ iy.toNat = gather (axisBits code 1) n
        ∧ iz.toNat = gather (axisBits code 2) n := by
  intro n
  induction n with
  | zero =>
      intro _
      exact ⟨0, 0, 0, rfl, rfl, rfl, rfl⟩
  | succ n ih =>
      intro hn
      obtain ⟨ix, iy, iz, hrun, hx, hy, hz⟩ := ih (Nat.le_of_succ_le hn)
      rw [List.range_succ, List.foldl_append, hrun]
      exact ⟨_, _, _, rfl, toNat_turn code (by decide) hn hx, toNat_turn code (by decide) hn hy,
        toNat_turn code (by decide) hn hz⟩

variable {ix iy iz : UInt64}

/-- **Decoding a code** gives the indices back with `x` and `z` exchanged. -/
theorem decode_mortonCode (hx : InGrid ix) (hy : InGrid iy) (hz : InGrid iz) :
    decode (mortonCode ix iy iz) = (iz.toUInt32, iy.toUInt32, ix.toUInt32) := by
  have hbits (i : Nat) := testBit_interleaved 21 ix.toNat iy.toNat iz.toNat i
  simp only [← toNat_mortonCode hx hy hz] at hbits
  -- what is gathered at an axis is the index whose bits stand there
  have hback {index : UInt64} {axis : Nat} (hin : InGrid index)
      (h : ∀ i, i < 21 → axisBits (mortonCode ix iy iz) axis i = index.toNat.testBit i)
      {word : UInt32} (hword : word.toNat = gather (axisBits (mortonCode ix iy iz) axis) 21) :
      word = index.toUInt32 := by
    have hsmall : index.toNat < 2 ^ 32 := hin.trans (by decide)
    rw [← UInt32.toNat_inj, hword, gather_testBit hin h, UInt64.toNat_toUInt32,
      Nat.mod_eq_of_lt hsmall]
  obtain ⟨jx, jy, jz, hrun, hjx, hjy, hjz⟩ := decodeLoop_spec (mortonCode ix iy iz) 21 le_rfl
  rw [decode, hrun]
  refine Prod.ext ?_ (Prod.ext ?_ ?_)
  · refine hback hz (fun i hi => ?_) hjx
    rw [axisBits, Nat.add_zero, (hbits i).1, decide_eq_true hi, Bool.true_and]
  · refine hback hy (fun i hi => ?_) hjy
    rw [axisBits, (hbits i).2.1, decide_eq_true hi, Bool.true_and]
  · refine hback hx (fun i hi => ?_) hjz
    rw [axisBits, (hbits i).2.2, decide_eq_true hi, Bool.true_and]

/-- **Decoding undoes encoding** exactly where the two exchanged indices are one. -/
theorem decode_mortonCode_iff (hx : InGrid ix) (hy : InGrid iy) (hz : InGrid iz) :
    decode (mortonCode ix iy iz) = (ix.toUInt32, iy.toUInt32, iz.toUInt32) ↔ ix = iz := by
  rw [decode_mortonCode hx hy hz, Prod.mk.injEq, Prod.mk.injEq]
  constructor
  · rintro ⟨h, -, -⟩
    have hnat := congrArg UInt32.toNat h
    have hxlt : ix.toNat < 2 ^ 32 := hx.trans (by decide)
    have hzlt : iz.toNat < 2 ^ 32 := hz.trans (by decide)
    rw [UInt64.toNat_toUInt32, UInt64.toNat_toUInt32, Nat.mod_eq_of_lt hxlt,
      Nat.mod_eq_of_lt hzlt] at hnat
    exact (UInt64.toNat_inj.mp hnat).symm
  · rintro rfl
    exact ⟨rfl, rfl, rfl⟩

theorem decode_mortonCode_iff_some :
    decode (mortonCode 5 7 5) = (UInt64.toUInt32 5, UInt64.toUInt32 7, UInt64.toUInt32 5)
      ↔ (5 : UInt64) = 5 :=
  decode_mortonCode_iff (by show (5 : UInt64).toNat < 2 ^ 21; decide)
    (by show (7 : UInt64).toNat < 2 ^ 21; decide) (by show (5 : UInt64).toNat < 2 ^ 21; decide)

/-- **The voxel next to the origin on the `x` axis** comes back on the `z` axis. -/
theorem decode_exchanges_axes : decode (mortonCode 1 0 0) = (0, 0, 1) := by
  decide

end KvMorton
