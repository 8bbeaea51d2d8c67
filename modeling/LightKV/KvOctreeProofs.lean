import LightKV.KvSpatialProofs

/-! # The leaves of the octree

    The loop of `GenerateRanges` ends for every box of the grid, and the boxes it
    stops at partition that box (`leaves_partition`).  It stops where the product of
    the differences between the corners is below 64, and the differences are one less
    than the extents: a flat box of any size is a leaf.  The leaves have fewer than 64
    voxels exactly when no box that halving the extents comes to is large by its
    voxels and small by its differences (`leaves_small_iff`). -/

namespace KvOctree

open KvBytes KvSpatial Subdividing

/-- **Splitting partitions the box**: the loop ends, every voxel of the box is in
    exactly one of the leaves, and no leaf reaches out of the box. -/
theorem leaves_partition {box : BoxNode} (h : Box box) :
    ∃ leaves, (∀ fuel, box.fuel ≤ fuel → leafLoop fuel [box] [] = .ok leaves
        ∧ splitLoop fuel [box] [] = .ok (leaves.map rangeOf))
      ∧ (∀ ix iy iz, box.Contains ix iy iz →
          leaves.countP (fun leaf => leaf.Contains ix iy iz) = 1)
      ∧ ∀ leaf ∈ leaves, ∀ ix iy iz, leaf.Contains ix iy iz → box.Contains ix iy iz := by
  obtain ⟨leaves, hleaves, hrun⟩ := leafLoop_spec h
  refine ⟨leaves, hrun, ?_, ?_⟩
  · intro ix iy iz hc
    rw [countP_leaves hleaves, if_pos hc]
  · intro leaf hleaf ix iy iz hin
    by_contra hc
    have hcount := countP_leaves hleaves ix iy iz
    rw [if_neg hc, List.countP_eq_zero] at hcount
    exact hcount leaf hleaf (decide_eq_true hin)

/-- The box of 64 voxels on each axis. -/
theorem leaves_partition_cube :
    ∃ leaves, (∀ fuel, (BoxNode.mk 0 0 0 63 63 63).fuel ≤ fuel →
        leafLoop fuel [⟨0, 0, 0, 63, 63, 63⟩] [] = .ok leaves
          ∧ splitLoop fuel [⟨0, 0, 0, 63, 63, 63⟩] [] = .ok (leaves.map rangeOf))
      ∧ (∀ ix iy iz, (BoxNode.mk 0 0 0 63 63 63).Contains ix iy iz →
          leaves.countP (fun leaf => leaf.Contains ix iy iz) = 1)
      ∧ ∀ leaf ∈ leaves, ∀ ix iy iz, leaf.Contains ix iy iz →
          (BoxNode.mk 0 0 0 63 63 63).Contains ix iy iz := by
  have hside : Interval 0 63 := ⟨by decide, by show (63 : UInt64).toNat < 2 ^ 21; decide⟩
  exact leaves_partition ⟨hside, hside, hside⟩

/-! ## Halving an extent -/

/-- A half of a number, rounded down or up. -/
def Halves (a h : Nat) : Prop := h = a / 2 ∨ h = (a + 1) / 2

/-- What halving `k` times comes to, rounding down or up each time: the quotient by
    the power of two, rounded down or up. -/
def Halved (k a p : Nat) : Prop := p = a / 2 ^ k ∨ p = (a + 2 ^ k - 1) / 2 ^ k

theorem halved_iff {k a p : Nat} :
    Halved k a p ↔ a < p * 2 ^ k + 2 ^ k ∧ p * 2 ^ k < a + 2 ^ k := by
  have hpow : 0 < 2 ^ k := Nat.two_pow_pos k
  have hdown := Nat.div_add_mod a (2 ^ k)
  have hup := Nat.div_add_mod (a + 2 ^ k - 1) (2 ^ k)
  have hmod := Nat.mod_lt a hpow
  have hmod' := Nat.mod_lt (a + 2 ^ k - 1) hpow
  rw [Nat.mul_comm] at hdown hup
  constructor
  · rintro (rfl | rfl)
    · omega
    · omega
  · rintro ⟨hlo, hhi⟩
    by_cases hle : p * 2 ^ k ≤ a
    · exact Or.inl (Nat.div_eq_of_lt_le hle (by rw [Nat.succ_mul]; exact hlo)).symm
    · exact Or.inr (Nat.div_eq_of_lt_le (by omega) (by rw [Nat.succ_mul]; omega)).symm

theorem halved_zero {a p : Nat} : Halved 0 a p ↔ p = a := by
  rw [halved_iff]
  omega

/-- **Halving once more.** -/
theorem halved_succ_iff {k a p : Nat} :
    Halved (k + 1) a p ↔ ∃ h, Halves a h ∧ Halved k h p := by
  have hsucc : 2 ^ (k + 1) = 2 * 2 ^ k := Nat.pow_succ'
  have hmul : p * (2 * 2 ^ k) = 2 * (p * 2 ^ k) := Nat.mul_left_comm _ _ _
  have hpos : 0 < 2 ^ k := Nat.two_pow_pos k
  rw [halved_iff, hsucc, hmul]
  simp only [halved_iff]
  constructor
  · rintro ⟨hlo, hhi⟩
    by_cases hdown : p * 2 ^ k < a / 2 + 2 ^ k
    · exact ⟨a / 2, Or.inl rfl, by omega, hdown⟩
    · exact ⟨(a + 1) / 2, Or.inr rfl, by omega, by omega⟩
  · rintro ⟨h, rfl | rfl, hlo, hhi⟩
    · omega
    · omega

theorem Halved.le {k a p : Nat} (h : Halved k a p) : p ≤ a := by
  have hhi := (halved_iff.mp h).2
  by_contra hlt
  have hmul : (a + 1) * 2 ^ k ≤ p * 2 ^ k := Nat.mul_le_mul_right _ (Nat.not_le.mp hlt)
  have hself : a ≤ a * 2 ^ k := Nat.le_mul_of_pos_right _ (Nat.two_pow_pos k)
  rw [Nat.succ_mul] at hmul
  omega

/-! ## The extents of the parts -/

section Parts

variable {node part : BoxNode} {a b : UInt64}

theorem extent_lower (h : Interval a b) : extent a (middle a b) = (extent a b + 1) / 2 := by
  have hle := UInt64.le_iff_toNat_le.mp h.le
  have hmid := h.toNat_middle
  rw [extent, extent, hmid]
  omega

theorem extent_upper (h : Interval a b) (hab : b - a ≠ 0) :
    extent (middle a b + 1) b = extent a b / 2 := by
  have hle := UInt64.le_iff_toNat_le.mp h.le
  have hmid := h.toNat_middle
  have hlt := UInt64.lt_iff_toNat_lt.mp (h.upper hab).1
  rw [extent, extent, h.toNat_middle_add_one, hmid]
  omega

/-- **The parts of a box** halve each of its extents. -/
theorem halves_of_mem_parts (h : Box node) (hlarge : ¬ node.Small) (hpart : part ∈ node.parts) :
    Halves (extent node.x1 node.x2) (extent part.x1 part.x2)
      ∧ Halves (extent node.y1 node.y2) (extent part.y1 part.y2)
      ∧ Halves (extent node.z1 node.z2) (extent part.z1 part.z2) := by
  obtain ⟨hx, hy, hz⟩ := extents_of_not_small hlarge
  exact forall_octants (X := fun a b => Halves (extent node.x1 node.x2) (extent a b))
    (Y := fun a b => Halves (extent node.y1 node.y2) (extent a b))
    (Z := fun a b => Halves (extent node.z1 node.z2) (extent a b))
    ⟨Or.inr (extent_lower h.x), Or.inl (extent_upper h.x hx)⟩
    ⟨Or.inr (extent_lower h.y), Or.inl (extent_upper h.y hy)⟩
    ⟨Or.inr (extent_lower h.z), Or.inl (extent_upper h.z hz)⟩ part hpart

/-- Every choice of halves is a part. -/
theorem exists_part_of_halves (h : Box node) (hlarge : ¬ node.Small) {p q r : Nat}
    (hp : Halves (extent node.x1 node.x2) p) (hq : Halves (extent node.y1 node.y2) q)
    (hr : Halves (extent node.z1 node.z2) r) :
    ∃ part ∈ node.parts, extent part.x1 part.x2 = p ∧ extent part.y1 part.y2 = q
      ∧ extent part.z1 part.z2 = r := by
  obtain ⟨hx, hy, hz⟩ := extents_of_not_small hlarge
  -- the upper half is the one that is rounded down
  have half {a b : UInt64} (h : Interval a b) (hab : b - a ≠ 0) {p : Nat}
      (hp : Halves (extent a b) p) :
      extent a (middle a b) = p ∨ extent (middle a b + 1) b = p := by
    rcases hp with rfl | rfl
    · exact Or.inr (extent_upper h hab)
    · exact Or.inl (extent_lower h)
  exact exists_octant (X := fun a b => extent a b = p) (Y := fun a b => extent a b = q)
    (Z := fun a b => extent a b = r) (half h.x hx hp) (half h.y hy hq) (half h.z hz hr)

theorem toNat_difference (h : Interval a b) : (b - a).toNat = extent a b - 1 := by
  rw [h.toNat_sub]
  rfl

/-- **The stop test** multiplies the extents less one each; the product is no
    wrapped word. -/
theorem small_iff (h : Box node) : node.Small ↔ (extent node.x1 node.x2 - 1)
    * (extent node.y1 node.y2 - 1) * (extent node.z1 node.z2 - 1) < 64 := by
  have hbound {a b : UInt64} (h : Interval a b) : extent a b - 1 ≤ 2 ^ 21 := by
    have hlt : b.toNat < 2 ^ 21 := h.inGrid
    rw [extent]
    omega
  have hxy := Nat.mul_le_mul (hbound h.x) (hbound h.y)
  have hxyz := Nat.mul_le_mul hxy (hbound h.z)
  have hprod : ((node.x2 - node.x1) * (node.y2 - node.y1) * (node.z2 - node.z1)).toNat
      = (extent node.x1 node.x2 - 1) * (extent node.y1 node.y2 - 1)
        * (extent node.z1 node.z2 - 1) := by
    rw [UInt64.toNat_mul, UInt64.toNat_mul, toNat_difference h.x, toNat_difference h.y,
      toNat_difference h.z, Nat.mod_eq_of_lt (hxy.trans_lt (by decide)),
      Nat.mod_eq_of_lt (hxyz.trans_lt (by decide))]
  rw [BoxNode.Small, UInt64.lt_iff_toNat_lt, hprod]
  constructor
  · rintro (hlt | ⟨hzero, -, -⟩)
    · exact hlt
    · have hx := toNat_difference h.x
      rw [hzero] at hx
      rw [← hx]
      show 0 * _ * _ < 64
      rw [Nat.zero_mul, Nat.zero_mul]
      decide
  · exact Or.inl

end Parts

/-! ## How large the leaves are -/

/-- **Halving comes to nothing** that is large by its voxels and small by its
    differences. -/
def HalvesWell (a b c : Nat) : Prop :=
  ∀ k p q r, Halved k a p → Halved k b q → Halved k c r → 64 ≤ p * q * r →
    64 ≤ (p - 1) * (q - 1) * (r - 1)

/-- A box whose extents halve well has leaves of fewer than 64 voxels. -/
theorem volume_lt_of_leaf {node leaf : BoxNode} (hl : octree.Leaf node leaf) (h : Box node)
    (hwell : HalvesWell (extent node.x1 node.x2) (extent node.y1 node.y2)
      (extent node.z1 node.z2)) : leaf.volume < 64 := by
  induction hl with
  | small hsmall =>
      have hstop := (small_iff h).mp hsmall
      by_contra hlarge
      have hdiff := hwell 0 _ _ _ (halved_zero.mpr rfl) (halved_zero.mpr rfl)
        (halved_zero.mpr rfl) (Nat.not_lt.mp hlarge)
      omega
  | part hlarge hpart _ ih =>
      obtain ⟨hx, hy, hz⟩ := halves_of_mem_parts h hlarge hpart
      refine ih (octree.good_parts h hlarge _ hpart) ?_
      intro k p q r hp hq hr
      exact hwell (k + 1) p q r (halved_succ_iff.mpr ⟨_, hx, hp⟩) (halved_succ_iff.mpr ⟨_, hy, hq⟩)
        (halved_succ_iff.mpr ⟨_, hz, hr⟩)

/-- A box whose leaves have fewer than 64 voxels halves well. -/
theorem halvesWell_of_leaves {node : BoxNode} (h : Box node)
    (hleaves : ∀ leaf, octree.Leaf node leaf → leaf.volume < 64) :
    HalvesWell (extent node.x1 node.x2) (extent node.y1 node.y2) (extent node.z1 node.z2) := by
  intro k
  induction k generalizing node with
  | zero =>
      intro p q r hp hq hr hlarge
      obtain rfl := halved_zero.mp hp
      obtain rfl := halved_zero.mp hq
      obtain rfl := halved_zero.mp hr
      by_contra hstop
      have hvolume := hleaves node (.small ((small_iff h).mpr (Nat.not_le.mp hstop)))
      rw [BoxNode.volume] at hvolume
      omega
  | succ k ih =>
      intro p q r hp hq hr hlarge
      by_cases hsmall : node.Small
      · -- the box is a leaf, and what its extents halve to is no larger
        have hvolume := hleaves node (.small hsmall)
        have hle := Nat.mul_le_mul (Nat.mul_le_mul hp.le hq.le) hr.le
        rw [BoxNode.volume] at hvolume
        omega
      · obtain ⟨p', hx, hp'⟩ := halved_succ_iff.mp hp
        obtain ⟨q', hy, hq'⟩ := halved_succ_iff.mp hq
        obtain ⟨r', hz, hr'⟩ := halved_succ_iff.mp hr
        obtain ⟨part, hpart, rfl, rfl, rfl⟩ := exists_part_of_halves h hsmall hx hy hz
        exact ih (octree.good_parts h hsmall _ hpart)
          (fun leaf hl => hleaves leaf (.part hsmall hpart hl)) p q r hp' hq' hr' hlarge

/-- **Leaves are small** exactly in a box whose extents halve well. -/
theorem leaves_small_iff {box : BoxNode} (h : Box box) :
    ∃ leaves, (∀ fuel, box.fuel ≤ fuel → leafLoop fuel [box] [] = .ok leaves
        ∧ splitLoop fuel [box] [] = .ok (leaves.map rangeOf))
      ∧ ((∀ leaf ∈ leaves, leaf.volume < 64)
        ↔ HalvesWell (extent box.x1 box.x2) (extent box.y1 box.y2) (extent box.z1 box.z2)) := by
  obtain ⟨leaves, hleaves, hrun⟩ := leafLoop_spec h
  refine ⟨leaves, hrun, ?_⟩
  have hmem (leaf : BoxNode) : leaf ∈ leaves ↔ octree.Leaf box leaf := by
    rw [hleaves.mem_iff]
    simp only [List.mem_singleton, exists_eq_left]
  simp only [hmem]
  constructor
  · exact halvesWell_of_leaves h
  · intro hwell leaf hl
    exact volume_lt_of_leaf hl h hwell

/-- A flat box. -/
theorem leaves_small_iff_flat :
    ∃ leaves, (∀ fuel, (BoxNode.mk 0 0 0 99 99 0).fuel ≤ fuel →
        leafLoop fuel [⟨0, 0, 0, 99, 99, 0⟩] [] = .ok leaves
          ∧ splitLoop fuel [⟨0, 0, 0, 99, 99, 0⟩] [] = .ok (leaves.map rangeOf))
      ∧ ((∀ leaf ∈ leaves, leaf.volume < 64)
        ↔ HalvesWell (extent 0 99) (extent 0 99) (extent 0 0)) := by
  have hside : Interval 0 99 := ⟨by decide, by show (99 : UInt64).toNat < 2 ^ 21; decide⟩
  have hflat : Interval 0 0 := ⟨by decide, by show (0 : UInt64).toNat < 2 ^ 21; decide⟩
  exact leaves_small_iff ⟨hside, hside, hflat⟩

/-- **A flat box is one leaf** of ten thousand voxels. -/
theorem flat_box_is_one_leaf :
    leafLoop (BoxNode.mk 0 0 0 99 99 0).fuel [⟨0, 0, 0, 99, 99, 0⟩] []
        = .ok [⟨0, 0, 0, 99, 99, 0⟩]
      ∧ (BoxNode.mk 0 0 0 99 99 0).volume = 10000 :=
  ⟨rfl, rfl⟩

end KvOctree
