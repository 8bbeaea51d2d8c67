import LightKV.KvMergeRangesProofs
import LightKV.KvMortonProofs

/-! # How closely the ranges fit a box

    The ranges of `GenerateRanges` cover their box, and may hold codes of other
    voxels.  They reach no further than the box does: each begins and ends with
    the code of a voxel of the box, and what they hold is what lies between the
    corners of the leaves (`ranges_end_in_box`).

    A cube whose side is a power of two, and whose corner is a multiple of it, has
    the codes of one block of the curve: it comes out as one range, of its own
    codes and no others, however deep it was split (`cube_is_one_range`). -/

namespace KvRangeEnds

open BitSpread KvBytes KvMergeRanges KvMorton KvSpatial Subdividing

/-! ## The ends of merged ranges -/

theorem endCode_join (current r : MortonRange) :
    (current.join r).endCode = current.endCode ∨ (current.join r).endCode = r.endCode := by
  have hend := current.toNat_join_endCode r
  rcases max_choice current.endCode.toNat r.endCode.toNat with hmax | hmax
  · exact Or.inl (UInt64.toNat_inj.mp (hend.trans hmax))
  · exact Or.inr (UInt64.toNat_inj.mp (hend.trans hmax))

/-- **Merging makes no ends**: every range of the result begins where one of the
    ranges began, and ends where one ended. -/
theorem mergeLoop_ends :
    ∀ (rest : List MortonRange) {current m : MortonRange}, m ∈ mergeLoop current rest →
      (∃ r ∈ current :: rest, r.startCode = m.startCode)
        ∧ ∃ r ∈ current :: rest, r.endCode = m.endCode := by
  intro rest
  induction rest with
  | nil =>
      intro current m hm
      obtain rfl := List.mem_singleton.mp hm
      exact ⟨⟨m, List.mem_cons_self, rfl⟩, m, List.mem_cons_self, rfl⟩
  | cons r rest ih =>
      intro current m hm
      rw [mergeLoop] at hm
      split at hm
      · -- the joined range begins with the first, and ends with one of the two
        obtain ⟨⟨s, hs, hstart⟩, t, ht, hend⟩ := ih hm
        constructor
        · rcases List.mem_cons.mp hs with rfl | hs'
          · exact ⟨current, List.mem_cons_self, hstart⟩
          · exact ⟨s, List.mem_cons_of_mem _ (List.mem_cons_of_mem _ hs'), hstart⟩
        · rcases List.mem_cons.mp ht with rfl | ht'
          · rcases endCode_join current r with hmax | hmax
            · exact ⟨current, List.mem_cons_self, hmax.symm.trans hend⟩
            · exact ⟨r, List.mem_cons_of_mem _ List.mem_cons_self, hmax.symm.trans hend⟩
          · exact ⟨t, List.mem_cons_of_mem _ (List.mem_cons_of_mem _ ht'), hend⟩
      · rcases List.mem_cons.mp hm with rfl | hm'
        · exact ⟨⟨m, List.mem_cons_self, rfl⟩, m, List.mem_cons_self, rfl⟩
        · obtain ⟨⟨s, hs, hstart⟩, t, ht, hend⟩ := ih hm'
          exact ⟨⟨s, List.mem_cons_of_mem _ hs, hstart⟩, t, List.mem_cons_of_mem _ ht, hend⟩

theorem mergeRanges_ends {raw : List MortonRange} {m : MortonRange} (h : m ∈ mergeRanges raw) :
    (∃ r ∈ raw, r.startCode = m.startCode) ∧ ∃ r ∈ raw, r.endCode = m.endCode := by
  have hmem (r : MortonRange) :
      r ∈ raw.insertionSort (fun a b => a.startCode ≤ b.startCode) ↔ r ∈ raw :=
    List.mem_insertionSort _
  rw [mergeRanges_eq] at h
  cases hsorted : raw.insertionSort (fun a b => a.startCode ≤ b.startCode) with
  | nil =>
      rw [hsorted] at h
      cases h
  | cons current rest =>
      rw [hsorted] at h hmem
      obtain ⟨⟨s, hs, hstart⟩, t, ht, hend⟩ := mergeLoop_ends rest h
      exact ⟨⟨s, (hmem s).mp hs, hstart⟩, t, (hmem t).mp ht, hend⟩

/-! ## The leaves behind the ranges -/

/-- The corners in order, as an interval of exactly the indices between them. -/
theorem exists_interval {a b : UInt64} (ha : InGrid a) (hb : InGrid b) :
    ∃ lo hi, (if a > b then (b, a) else (a, b)) = (lo, hi) ∧ Interval lo hi
      ∧ ∀ i, lo ≤ i ∧ i ≤ hi ↔ Between a b i := by
  obtain ⟨hint, hbetween⟩ := swap_spec ha hb
  by_cases hab : a > b
  · simp only [if_pos hab] at hint hbetween ⊢
    exact ⟨b, a, rfl, hint, fun i => ⟨Or.inr, hbetween i⟩⟩
  · simp only [if_neg hab] at hint hbetween ⊢
    exact ⟨a, b, rfl, hint, fun i => ⟨Or.inl, hbetween i⟩⟩

/-- **What `GenerateRanges` merges**: the ranges of the leaves of the box between
    its corners. -/
theorem generateRanges_eq {ixMin iyMin izMin ixMax iyMax izMax : UInt64}
    (hx : InGrid ixMin ∧ InGrid ixMax) (hy : InGrid iyMin ∧ InGrid iyMax)
    (hz : InGrid izMin ∧ InGrid izMax) :
    ∃ box leaves, Box box ∧ octree.Leaves [box] leaves
      ∧ leafLoop box.fuel [box] [] = .ok leaves
      ∧ generateRanges ixMin iyMin izMin ixMax iyMax izMax
        = .ok (mergeRanges (leaves.map rangeOf))
      ∧ ∀ ix iy iz, box.Contains ix iy iz
        ↔ Between ixMin ixMax ix ∧ Between iyMin iyMax iy ∧ Between izMin izMax iz := by
  obtain ⟨x1, x2, hxs, hxi, hxin⟩ := exists_interval hx.1 hx.2
  obtain ⟨y1, y2, hys, hyi, hyin⟩ := exists_interval hy.1 hy.2
  obtain ⟨z1, z2, hzs, hzi, hzin⟩ := exists_interval hz.1 hz.2
  have hb : Box ⟨x1, y1, z1, x2, y2, z2⟩ := ⟨hxi, hyi, hzi⟩
  obtain ⟨leaves, hleaves, hrun⟩ := leafLoop_spec hb
  obtain ⟨hloop, hsplit⟩ := hrun _ le_rfl
  refine ⟨_, leaves, hb, hleaves, hloop, ?_, ?_⟩
  · simp only [generateRanges, hxs, hys, hzs, hsplit, ok_bind]
    rfl
  · intro ix iy iz
    rw [BoxNode.Contains, hxin, hyin, hzin]

/-- A leaf does not reach out of the box. -/
theorem contains_of_leaf {box leaf : BoxNode} {leaves : List BoxNode}
    (hleaves : octree.Leaves [box] leaves) (hleaf : leaf ∈ leaves) {ix iy iz : UInt64}
    (hin : leaf.Contains ix iy iz) : box.Contains ix iy iz := by
  by_contra hc
  have hcount := countP_leaves hleaves ix iy iz
  rw [if_neg hc, List.countP_eq_zero] at hcount
  exact hcount leaf hleaf (decide_eq_true hin)

theorem contains_corners {box : BoxNode} (h : Box box) :
    box.Contains box.x1 box.y1 box.z1 ∧ box.Contains box.x2 box.y2 box.z2 :=
  ⟨⟨⟨UInt64.le_refl _, h.x.le⟩, ⟨UInt64.le_refl _, h.y.le⟩, UInt64.le_refl _, h.z.le⟩,
    ⟨h.x.le, UInt64.le_refl _⟩, ⟨h.y.le, UInt64.le_refl _⟩, h.z.le, UInt64.le_refl _⟩

theorem bounded_leaves {box : BoxNode} {leaves : List BoxNode} (h : Box box)
    (hleaves : octree.Leaves [box] leaves) : ∀ r ∈ leaves.map rangeOf, r.Bounded := by
  intro r hr
  obtain ⟨leaf, hleaf, rfl⟩ := List.mem_map.mp hr
  exact (proper_rangeOf (box_leaf h hleaves hleaf)).bounded

/-- Every voxel of the box is in the range of a leaf. -/
theorem covered_of_contains {box : BoxNode} {leaves : List BoxNode} (h : Box box)
    (hleaves : octree.Leaves [box] leaves) {ix iy iz : UInt64} (hc : box.Contains ix iy iz) :
    Covered (leaves.map rangeOf) (mortonCode ix iy iz) := by
  have hcount := countP_leaves hleaves ix iy iz
  rw [if_pos hc] at hcount
  obtain ⟨leaf, hleaf, hin⟩ := List.countP_pos_iff.mp (hcount ▸ Nat.one_pos)
  exact ⟨rangeOf leaf, List.mem_map_of_mem hleaf,
    holds_rangeOf (box_leaf h hleaves hleaf) (of_decide_eq_true hin)⟩

/-- **No range sticks out**: a code is in some range exactly when it lies between
    the codes of the corners of a leaf of the box, and the first and the last code
    of each range are codes of voxels of the box. -/
theorem ranges_end_in_box {ixMin iyMin izMin ixMax iyMax izMax : UInt64}
    (hx : ixMin.toNat < 2 ^ 21 ∧ ixMax.toNat < 2 ^ 21)
    (hy : iyMin.toNat < 2 ^ 21 ∧ iyMax.toNat < 2 ^ 21)
    (hz : izMin.toNat < 2 ^ 21 ∧ izMax.toNat < 2 ^ 21) :
    ∃ (ranges : List MortonRange) (box : BoxNode) (leaves : List BoxNode),
      generateRanges ixMin iyMin izMin ixMax iyMax izMax = .ok ranges
      ∧ (∀ ix iy iz, box.Contains ix iy iz
        ↔ Between ixMin ixMax ix ∧ Between iyMin iyMax iy ∧ Between izMin izMax iz)
      ∧ leafLoop box.fuel [box] [] = .ok leaves
      ∧ (∀ code, (∃ r ∈ ranges, r.startCode ≤ code ∧ code ≤ r.endCode)
        ↔ ∃ leaf ∈ leaves, mortonCode leaf.x1 leaf.y1 leaf.z1 ≤ code
          ∧ code ≤ mortonCode leaf.x2 leaf.y2 leaf.z2)
      ∧ ∀ r ∈ ranges,
        (∃ ix iy iz, box.Contains ix iy iz ∧ mortonCode ix iy iz = r.startCode)
          ∧ ∃ ix iy iz, box.Contains ix iy iz ∧ mortonCode ix iy iz = r.endCode := by
  obtain ⟨box, leaves, hb, hleaves, hloop, hrun, hin⟩ := generateRanges_eq hx hy hz
  obtain ⟨hcover, -, -⟩ := mergeRanges_spec (bounded_leaves hb hleaves)
  refine ⟨_, box, leaves, hrun, hin, hloop, ?_, ?_⟩
  · intro code
    refine (hcover code).trans ?_
    simp only [Covered, List.mem_map, exists_exists_and_eq_and]
    rfl
  · intro r hr
    obtain ⟨⟨s, hs, hstart⟩, t, ht, hend⟩ := mergeRanges_ends hr
    obtain ⟨first, hfirst, rfl⟩ := List.mem_map.mp hs
    obtain ⟨last, hlast, rfl⟩ := List.mem_map.mp ht
    have hlo := (contains_corners (box_leaf hb hleaves hfirst)).1
    have hhi := (contains_corners (box_leaf hb hleaves hlast)).2
    exact ⟨⟨_, _, _, contains_of_leaf hleaves hfirst hlo, hstart⟩,
      _, _, _, contains_of_leaf hleaves hlast hhi, hend⟩

/-- A box over the middle of the grid, one axis turned around. -/
theorem ranges_end_in_box_middle :
    ∃ (ranges : List MortonRange) (box : BoxNode) (leaves : List BoxNode),
      generateRanges 1048570 1048590 3 1048580 1048560 3 = .ok ranges
      ∧ (∀ ix iy iz, box.Contains ix iy iz
        ↔ Between 1048570 1048580 ix ∧ Between 1048590 1048560 iy ∧ Between 3 3 iz)
      ∧ leafLoop box.fuel [box] [] = .ok leaves
      ∧ (∀ code, (∃ r ∈ ranges, r.startCode ≤ code ∧ code ≤ r.endCode)
        ↔ ∃ leaf ∈ leaves, mortonCode leaf.x1 leaf.y1 leaf.z1 ≤ code
          ∧ code ≤ mortonCode leaf.x2 leaf.y2 leaf.z2)
      ∧ ∀ r ∈ ranges,
        (∃ ix iy iz, box.Contains ix iy iz ∧ mortonCode ix iy iz = r.startCode)
          ∧ ∃ ix iy iz, box.Contains ix iy iz ∧ mortonCode ix iy iz = r.endCode :=
  ranges_end_in_box (by decide) (by decide) (by decide)

/-! ## Aligned cubes -/

/-- A block of `m` numbers from a multiple of `m` on: those with its quotient. -/
theorem block_iff {m a b : Nat} (hm : m ∣ a) (hpos : 0 < m) (hb : b + 1 = a + m) (i : Nat) :
    a ≤ i ∧ i ≤ b ↔ a / m = i / m := by
  obtain ⟨c, rfl⟩ := hm
  rw [Nat.mul_div_cancel_left _ hpos]
  constructor
  · rintro ⟨hlo, hhi⟩
    refine (Nat.div_eq_of_lt_le ?_ ?_).symm
    · rwa [Nat.mul_comm]
    · rw [Nat.succ_mul, Nat.mul_comm c]
      omega
  · rintro rfl
    have hdiv := Nat.div_add_mod i m
    have hmod := Nat.mod_lt i hpos
    omega

/-- One side of an aligned cube: `2 ^ k` indices from a multiple of that on. -/
structure Side (k : Nat) (a b : UInt64) : Prop where
  aligned : 2 ^ k ∣ a.toNat
  length : b.toNat + 1 = a.toNat + 2 ^ k
  inGrid : b.toNat < 2 ^ 21

section Cube

variable {k : Nat} {a b ix iy iz jx jy jz : UInt64}

theorem Side.le (h : Side k a b) : a ≤ b := by
  have hlen := h.length
  have hpos := Nat.two_pow_pos k
  rw [UInt64.le_iff_toNat_le]
  omega

theorem Side.inGrid_left (h : Side k a b) : InGrid a :=
  (UInt64.le_iff_toNat_le.mp h.le).trans_lt h.inGrid

/-- The indices of a side are those with its high bits. -/
theorem Side.between_iff (h : Side k a b) (i : UInt64) :
    Between a b i ↔ a.toNat / 2 ^ k = i.toNat / 2 ^ k := by
  rw [← block_iff h.aligned (Nat.two_pow_pos k) h.length]
  have hle := UInt64.le_iff_toNat_le.mp h.le
  simp only [Between, UInt64.le_iff_toNat_le]
  omega

/-- A side is part of the grid, so it has no more than `2 ^ 21` indices. -/
theorem Side.exists_add (h : Side k a b) : ∃ n, 21 = n + k := by
  have hlen := h.length
  have hgrid := h.inGrid
  have hk : k ≤ 21 := (Nat.pow_le_pow_iff_right (by decide)).mp (show 2 ^ k ≤ 2 ^ 21 by omega)
  exact ⟨21 - k, by omega⟩

/-- **The first and the last code of a cube** bound a block of `8 ^ k` codes. -/
theorem corner_codes (hx : Side k ix jx) (hy : Side k iy jy) (hz : Side k iz jz) :
    8 ^ k ∣ (mortonCode ix iy iz).toNat
      ∧ (mortonCode jx jy jz).toNat + 1 = (mortonCode ix iy iz).toNat + 8 ^ k := by
  obtain ⟨n, hn⟩ := hx.exists_add
  -- the low bits are all zero in one corner, and all one in the other
  have hlow {a b : UInt64} (h : Side k a b) :
      spread k a.toNat = 0 ∧ 7 * spread k b.toNat + 1 = 8 ^ k := by
    refine ⟨spread_of_dvd h.aligned, spread_of_dvd_succ ?_⟩
    rw [h.length]
    exact Nat.dvd_add h.aligned (Nat.dvd_refl _)
  have hhigh {a b : UInt64} (h : Side k a b) : a.toNat / 2 ^ k = b.toNat / 2 ^ k :=
    (h.between_iff b).mp (Or.inl ⟨h.le, UInt64.le_refl _⟩)
  obtain ⟨hxlo, hxhi⟩ := hlow hx
  obtain ⟨hylo, hyhi⟩ := hlow hy
  obtain ⟨hzlo, hzhi⟩ := hlow hz
  rw [toNat_mortonCode hx.inGrid_left hy.inGrid_left hz.inGrid_left,
    toNat_mortonCode hx.inGrid hy.inGrid hz.inGrid, hn, interleaved_split n k ix.toNat,
    interleaved_split n k jx.toNat, hhigh hx, hhigh hy, hhigh hz, hxlo, hylo, hzlo]
  exact ⟨⟨_, Nat.zero_add _⟩, by omega⟩

/-- **The codes of a cube** are those of its block. -/
theorem between_codes_iff (hx : Side k ix jx) (hy : Side k iy jy) (hz : Side k iz jz)
    {kx ky kz : UInt64} (hkx : InGrid kx) (hky : InGrid ky) (hkz : InGrid kz) :
    mortonCode ix iy iz ≤ mortonCode kx ky kz ∧ mortonCode kx ky kz ≤ mortonCode jx jy jz
      ↔ Between ix jx kx ∧ Between iy jy ky ∧ Between iz jz kz := by
  obtain ⟨n, hn⟩ := hx.exists_add
  obtain ⟨hblock, hlast⟩ := corner_codes hx hy hz
  have hhigh {a : UInt64} (ha : InGrid a) : a.toNat / 2 ^ k < 2 ^ n := by
    rw [Nat.div_lt_iff_lt_mul (Nat.two_pow_pos k), ← Nat.pow_add, ← hn]
    exact ha
  rw [UInt64.le_iff_toNat_le, UInt64.le_iff_toNat_le,
    block_iff hblock (Nat.pow_pos (by decide)) hlast,
    toNat_mortonCode hx.inGrid_left hy.inGrid_left hz.inGrid_left, toNat_mortonCode hkx hky hkz, hn,
    interleaved_div, interleaved_div, hx.between_iff, hy.between_iff, hz.between_iff]
  constructor
  · exact interleaved_inj (hhigh hx.inGrid_left) (hhigh hy.inGrid_left) (hhigh hz.inGrid_left)
      (hhigh hkx) (hhigh hky) (hhigh hkz)
  · rintro ⟨h1, h2, h3⟩
    rw [h1, h2, h3]

/-- **An aligned cube is one range**, from the code of its lowest corner to that of
    its highest: `8 ^ k` codes, which are those of the voxels of the cube. -/
theorem cube_is_one_range (hx : Side k ix jx) (hy : Side k iy jy) (hz : Side k iz jz) :
    generateRanges ix iy iz jx jy jz = .ok [⟨mortonCode ix iy iz, mortonCode jx jy jz⟩]
      ∧ (mortonCode jx jy jz).toNat + 1 = (mortonCode ix iy iz).toNat + 8 ^ k
      ∧ ∀ kx ky kz, kx.toNat < 2 ^ 21 → ky.toNat < 2 ^ 21 → kz.toNat < 2 ^ 21 →
        (mortonCode ix iy iz ≤ mortonCode kx ky kz ∧ mortonCode kx ky kz ≤ mortonCode jx jy jz
          ↔ (ix ≤ kx ∧ kx ≤ jx) ∧ (iy ≤ ky ∧ ky ≤ jy) ∧ (iz ≤ kz ∧ kz ≤ jz)) := by
  have hin {a b : UInt64} (h : Side k a b) (i : UInt64) : Between a b i ↔ a ≤ i ∧ i ≤ b := by
    have hle := UInt64.le_iff_toNat_le.mp h.le
    simp only [Between, UInt64.le_iff_toNat_le]
    omega
  refine ⟨?_, (corner_codes hx hy hz).2, ?_⟩
  · obtain ⟨box, leaves, hb, hleaves, -, hrun, hcontains⟩ := generateRanges_eq
      ⟨hx.inGrid_left, hx.inGrid⟩ ⟨hy.inGrid_left, hy.inGrid⟩ ⟨hz.inGrid_left, hz.inGrid⟩
    obtain ⟨hcover, hbounded, hgap⟩ := mergeRanges_spec (bounded_leaves hb hleaves)
    have hcube : Box ⟨ix, iy, iz, jx, jy, jz⟩ :=
      ⟨⟨hx.le, hx.inGrid⟩, ⟨hy.le, hy.inGrid⟩, hz.le, hz.inGrid⟩
    have hproper := proper_rangeOf hcube
    have hsame (kx ky kz : UInt64) : box.Contains kx ky kz
        ↔ (BoxNode.mk ix iy iz jx jy jz).Contains kx ky kz := by
      rw [hcontains, hin hx, hin hy, hin hz, BoxNode.Contains]
    rw [hrun]
    refine congrArg Except.ok (eq_of_covered_iff hbounded 
      (List.forall_mem_singleton.mpr hproper.bounded) hgap (List.pairwise_singleton _ _) ?_)
    intro code
    rw [hcover]
    constructor
    · rintro ⟨r, hr, hlo, hhi⟩
      obtain ⟨leaf, hleaf, rfl⟩ := List.mem_map.mp hr
      obtain ⟨hfirst, hlast⟩ := contains_corners (box_leaf hb hleaves hleaf)
      have hstart := holds_rangeOf hcube ((hsame _ _ _).mp (contains_of_leaf hleaves hleaf hfirst))
      have hend := holds_rangeOf hcube ((hsame _ _ _).mp (contains_of_leaf hleaves hleaf hlast))
      exact ⟨_, List.mem_singleton_self _, UInt64.le_trans hstart.1 hlo, UInt64.le_trans hhi hend.2⟩
    · rintro ⟨r, hr, hlo, hhi⟩
      obtain rfl := List.mem_singleton.mp hr
      -- the code is one of a voxel, which is in the cube and so in a leaf
      obtain ⟨kx, ky, kz, hkx, hky, hkz, rfl⟩ :=
        exists_mortonCode ((UInt64.le_iff_toNat_le.mp hhi).trans_lt hproper.2)
      have hc := (hcontains kx ky kz).mpr ((between_codes_iff hx hy hz hkx hky hkz).mp ⟨hlo, hhi⟩)
      have hcount := countP_leaves hleaves kx ky kz
      rw [if_pos hc] at hcount
      obtain ⟨leaf, hleaf, hvoxel⟩ := List.countP_pos_iff.mp (hcount ▸ Nat.one_pos)
      exact ⟨rangeOf leaf, List.mem_map_of_mem hleaf,
        holds_rangeOf (box_leaf hb hleaves hleaf) (of_decide_eq_true hvoxel)⟩
  · intro kx ky kz hkx hky hkz
    rw [between_codes_iff hx hy hz hkx hky hkz, hin hx, hin hy, hin hz]

/-- The cube of 256 voxels on each axis that begins in the middle of the grid. -/
theorem cube_is_one_range_middle :
    generateRanges 1048576 0 256 1048831 255 511
        = .ok [⟨mortonCode 1048576 0 256, mortonCode 1048831 255 511⟩]
      ∧ (mortonCode 1048831 255 511).toNat + 1 = (mortonCode 1048576 0 256).toNat + 8 ^ 8
      ∧ ∀ kx ky kz, kx.toNat < 2 ^ 21 → ky.toNat < 2 ^ 21 → kz.toNat < 2 ^ 21 →
        (mortonCode 1048576 0 256 ≤ mortonCode kx ky kz
            ∧ mortonCode kx ky kz ≤ mortonCode 1048831 255 511
          ↔ (1048576 ≤ kx ∧ kx ≤ 1048831) ∧ (0 ≤ ky ∧ ky ≤ 255) ∧ (256 ≤ kz ∧ kz ≤ 511)) :=
  cube_is_one_range (k := 8) ⟨by decide, by decide, by decide⟩ ⟨by decide, by decide, by decide⟩
    ⟨by decide, by decide, by decide⟩

end Cube

end KvRangeEnds
