import LightKV.BitSpreadProofs
import LightKV.KvBytesProofs
import LightKV.SubdivisionProofs
import Mathlib.Data.List.Sort

/-! # Spatial ranges

    `Morton3D::SplitBy2` spreads the bits of a grid index, and three spread
    indices make a Morton code.  `MortonRangeGenerator::GenerateRanges` splits a
    box of indices with an explicit stack until its parts are small, turns every
    part into the range between the codes of its corners, and merges the ranges.
    The indices are taken as they come out of the conversion from coordinates.

    The loop over the stack is a subdivision of boxes (`octree`): it ends, and every
    voxel of the box is in one of its leaves (`leafLoop_spec`, `countP_leaves`).
    Result: the ranges cover the code of every voxel of the box, and stand in
    order with at least one code between any two of them
    (`generateRanges_cover`). -/

namespace KvSpatial

open KvBytes BitSpread Subdividing

/-! ## The code -/

/-- `Morton3D::SplitBy2`. -/
def splitBy2 (a : UInt64) : UInt64 :=
  let a := a &&& 0x1fffff
  let a := (a ||| (a <<< 32)) &&& 0x1f00000000ffff
  let a := (a ||| (a <<< 16)) &&& 0x1f0000ff0000ff
  let a := (a ||| (a <<< 8)) &&& 0x100f00f00f00f00f
  let a := (a ||| (a <<< 4)) &&& 0x10c30c30c30c30c3
  (a ||| (a <<< 2)) &&& 0x1249249249249249

/-- `(SplitBy2(ix) << 2) | (SplitBy2(iy) << 1) | SplitBy2(iz)`. -/
def mortonCode (ix iy iz : UInt64) : UInt64 :=
  (splitBy2 ix <<< 2) ||| (splitBy2 iy <<< 1) ||| splitBy2 iz

/-- `MortonRange`. -/
structure MortonRange where
  startCode : UInt64
  endCode : UInt64
  deriving DecidableEq

/-- `BoxNode`. -/
structure BoxNode where
  x1 : UInt64
  y1 : UInt64
  z1 : UInt64
  x2 : UInt64
  y2 : UInt64
  z2 : UInt64

/-- The eight pushes behind the split of a node; the top of the stack is in front. -/
def pushOctants (node : BoxNode) (mx my mz : UInt64) (stack : List BoxNode) : List BoxNode :=
  let stack := ⟨node.x1, node.y1, node.z1, mx, my, mz⟩ :: stack
  let stack := if mx < node.x2
    then ⟨mx + 1, node.y1, node.z1, node.x2, my, mz⟩ :: stack else stack
  let stack := if my < node.y2
    then ⟨node.x1, my + 1, node.z1, mx, node.y2, mz⟩ :: stack else stack
  let stack := if mx < node.x2 ∧ my < node.y2
    then ⟨mx + 1, my + 1, node.z1, node.x2, node.y2, mz⟩ :: stack else stack
  let stack := if mz < node.z2
    then ⟨node.x1, node.y1, mz + 1, mx, my, node.z2⟩ :: stack else stack
  let stack := if mx < node.x2 ∧ mz < node.z2
    then ⟨mx + 1, node.y1, mz + 1, node.x2, my, node.z2⟩ :: stack else stack
  let stack := if my < node.y2 ∧ mz < node.z2
    then ⟨node.x1, my + 1, mz + 1, mx, node.y2, node.z2⟩ :: stack else stack
  if mx < node.x2 ∧ my < node.y2 ∧ mz < node.z2
    then ⟨mx + 1, my + 1, mz + 1, node.x2, node.y2, node.z2⟩ :: stack else stack

/-- The loop over the stack. -/
def splitLoop : Nat → List BoxNode → List MortonRange → Except Fault (List MortonRange)
  | 0, _, _ => .error .noProgress
  | _ + 1, [], ranges => pure ranges
  | fuel + 1, node :: stack, ranges =>
      if node.x1 > node.x2 ∨ node.y1 > node.y2 ∨ node.z1 > node.z2 then
        splitLoop fuel stack ranges
      else
        let dx := node.x2 - node.x1
        let dy := node.y2 - node.y1
        let dz := node.z2 - node.z1
        if dx * dy * dz < 64 ∨ (dx = 0 ∧ dy = 0 ∧ dz = 0) then
          let minCode := mortonCode node.x1 node.y1 node.z1
          let maxCode := mortonCode node.x2 node.y2 node.z2
          splitLoop fuel stack (ranges ++ [⟨minCode, maxCode⟩])
        else
          let mx := node.x1 + dx / 2
          let my := node.y1 + dy / 2
          let mz := node.z1 + dz / 2
          splitLoop fuel (pushOctants node mx my mz stack) ranges

/-- The loop of `MergeRanges` behind its sort. -/
def mergeLoop (current : MortonRange) : List MortonRange → List MortonRange
  | [] => [current]
  | r :: rest =>
      if r.startCode ≤ current.endCode + 1 then
        mergeLoop { current with endCode := max current.endCode r.endCode } rest
      else current :: mergeLoop r rest

/-- `MergeRanges`.  `std::sort` may leave ranges with one start in any order. -/
def mergeRanges (rawRanges : List MortonRange) : List MortonRange :=
  match rawRanges.insertionSort (fun a b => a.startCode ≤ b.startCode) with
  | [] => []
  | current :: rest => mergeLoop current rest

/-- Enough turns of the loop for a box: two for each of its voxels. -/
def BoxNode.fuel (node : BoxNode) : Nat :=
  2 * ((node.x2 - node.x1).toNat + 1) * ((node.y2 - node.y1).toNat + 1)
    * ((node.z2 - node.z1).toNat + 1)

/-- `GenerateRanges` on grid indices. -/
def generateRanges (ixMin iyMin izMin ixMax iyMax izMax : UInt64) :
    Except Fault (List MortonRange) := do
  let (ixMin, ixMax) := if ixMin > ixMax then (ixMax, ixMin) else (ixMin, ixMax)
  let (iyMin, iyMax) := if iyMin > iyMax then (iyMax, iyMin) else (iyMin, iyMax)
  let (izMin, izMax) := if izMin > izMax then (izMax, izMin) else (izMin, izMax)
  let box : BoxNode := ⟨ixMin, iyMin, izMin, ixMax, iyMax, izMax⟩
  let ranges ← splitLoop box.fuel [box] []
  pure (mergeRanges ranges)

/-! ## Morton codes -/

/-- A shift, an or and a mask work bit by bit. -/
theorem spreadStep_or (k m a b : UInt64) : ((a ||| b) ||| ((a ||| b) <<< k)) &&& m
    = ((a ||| (a <<< k)) &&& m) ||| ((b ||| (b <<< k)) &&& m) := by
  have hmask : ∀ c d : UInt64, (c ||| d) &&& m = (c &&& m) ||| (d &&& m) := fun c d =>
    UInt64.toBitVec_inj.mp BitVec.and_or_distrib_right
  rw [← hmask, UInt64.shiftLeft_or]
  congr 1
  ac_rfl

/-- So does `SplitBy2`. -/
theorem splitBy2_or (a b : UInt64) : splitBy2 (a ||| b) = splitBy2 a ||| splitBy2 b := by
  have hmask : (a ||| b) &&& 0x1fffff = (a &&& 0x1fffff) ||| (b &&& 0x1fffff) :=
    UInt64.toBitVec_inj.mp BitVec.and_or_distrib_right
  simp only [splitBy2, hmask, spreadStep_or]

theorem splitBy2_two_pow :
    ∀ n < 21, splitBy2 (UInt64.ofNat (2 ^ n)) = UInt64.ofNat (8 ^ n) := by
  decide +kernel

/-- **`SplitBy2` spreads** the bits of an index. -/
theorem splitBy2_ofNat {n : Nat} (hn : n ≤ 21) :
    ∀ {a : Nat}, a < 2 ^ n → splitBy2 (UInt64.ofNat a) = UInt64.ofNat (spread n a) := by
  induction n with
  | zero =>
      intro a ha
      obtain rfl : a = 0 := by omega
      rfl
  | succ n ih =>
      intro a ha
      have hlow : a % 2 ^ n < 2 ^ n := Nat.mod_lt _ (Nat.two_pow_pos n)
      rw [Nat.pow_succ] at ha
      rw [spread_succ_top]
      rcases Nat.lt_or_ge a (2 ^ n) with hlt | hge
      · -- the top bit is clear
        rw [Nat.div_eq_of_lt hlt, Nat.mod_eq_of_lt hlt, Nat.zero_mod, Nat.mul_zero, Nat.zero_add]
        exact ih (by omega) hlt
      · have hdiv : a / 2 ^ n = 1 := by
          rw [Nat.div_eq_of_lt_le] <;> omega
        have hsplit : a = 2 ^ n * 1 ||| a % 2 ^ n := by
          rw [← Nat.two_pow_add_eq_or_of_lt hlow]
          have := Nat.div_add_mod a (2 ^ n)
          rwa [hdiv, eq_comm] at this
        have hspread : 8 ^ n * 1 + spread n (a % 2 ^ n) = 8 ^ n * 1 ||| spread n (a % 2 ^ n) := by
          have hpow : 8 ^ n = 2 ^ (3 * n) := by rw [Nat.pow_mul]
          have hbound := seven_mul_spread_lt n (a % 2 ^ n)
          rw [hpow] at hbound ⊢
          exact Nat.two_pow_add_eq_or_of_lt (by omega) 1
        rw [hdiv, hspread]
        conv_lhs => rw [hsplit]
        rw [Nat.mul_one, Nat.mul_one, UInt64.ofNat_or, UInt64.ofNat_or, splitBy2_or,
          splitBy2_two_pow n (by omega), ih (by omega) hlow]

/-- An index that `SplitBy2` keeps. -/
def InGrid (i : UInt64) : Prop := i.toNat < 2 ^ 21

theorem toNat_splitBy2 {a : UInt64} (h : InGrid a) : (splitBy2 a).toNat = spread 21 a.toNat := by
  have hspread := splitBy2_ofNat (n := 21) (Nat.le_refl _) h
  have hbound := seven_mul_spread_lt 21 a.toNat
  rw [UInt64.ofNat_toNat] at hspread
  rw [hspread, UInt64.toNat_ofNat_of_lt']
  have hsize : (8 : Nat) ^ 21 ≤ UInt64.size := by decide
  omega

/-- A shift of a spread index loses no bit. -/
theorem toNat_splitBy2_shiftLeft {a k : UInt64} (h : InGrid a) (hk : k.toNat ≤ 2) :
    (splitBy2 a <<< k).toNat = 2 ^ k.toNat * spread 21 a.toNat := by
  have hbound := seven_mul_spread_lt 21 a.toNat
  have hpow : 2 ^ k.toNat ≤ 2 ^ 2 := Nat.pow_le_pow_right (by decide) hk
  have hprod : 2 ^ k.toNat * spread 21 a.toNat ≤ 2 ^ 2 * spread 21 a.toNat :=
    Nat.mul_le_mul_right _ hpow
  have hsize : (8 : Nat) ^ 21 = 2 ^ 63 := by decide
  have hk64 : k.toNat % 64 = k.toNat := Nat.mod_eq_of_lt (by omega)
  rw [UInt64.toNat_shiftLeft, toNat_splitBy2 h, hk64, Nat.shiftLeft_eq, Nat.mul_comm,
    Nat.mod_eq_of_lt (by omega)]

/-- **A Morton code** is the sum of its three spread indices. -/
theorem toNat_mortonCode {ix iy iz : UInt64} (hx : InGrid ix) (hy : InGrid iy) (hz : InGrid iz) :
    (mortonCode ix iy iz).toNat
      = 4 * spread 21 ix.toNat + 2 * spread 21 iy.toNat + spread 21 iz.toNat := by
  rw [mortonCode, UInt64.toNat_or, UInt64.toNat_or, toNat_splitBy2_shiftLeft hx (by decide),
    toNat_splitBy2_shiftLeft hy (by decide), toNat_splitBy2 hz]
  exact or_spread 21 _ _ _

theorem mortonCode_lt {ix iy iz : UInt64} (hx : InGrid ix) (hy : InGrid iy) (hz : InGrid iz) :
    (mortonCode ix iy iz).toNat < 2 ^ 63 := by
  have h1 := seven_mul_spread_lt 21 ix.toNat
  have h2 := seven_mul_spread_lt 21 iy.toNat
  have h3 := seven_mul_spread_lt 21 iz.toNat
  have hsize : (8 : Nat) ^ 21 = 2 ^ 63 := by decide
  rw [toNat_mortonCode hx hy hz]
  omega

/-- **Codes grow with each index.** -/
theorem mortonCode_le {ix iy iz jx jy jz : UInt64} (hx : ix ≤ jx) (hy : iy ≤ jy) (hz : iz ≤ jz)
    (hjx : InGrid jx) (hjy : InGrid jy) (hjz : InGrid jz) :
    mortonCode ix iy iz ≤ mortonCode jx jy jz := by
  have hgrid : ∀ {i j : UInt64}, i ≤ j → InGrid j → InGrid i := fun hij hj =>
    (UInt64.le_iff_toNat_le.mp hij).trans_lt hj
  have hspread : ∀ {i j : UInt64}, i ≤ j → InGrid j →
      spread 21 i.toNat ≤ spread 21 j.toNat := fun hij hj =>
    spread_le_spread (UInt64.le_iff_toNat_le.mp hij) hj
  have h1 := hspread hx hjx
  have h2 := hspread hy hjy
  have h3 := hspread hz hjz
  rw [UInt64.le_iff_toNat_le, toNat_mortonCode hjx hjy hjz,
    toNat_mortonCode (hgrid hx hjx) (hgrid hy hjy) (hgrid hz hjz)]
  omega

/-! ## Splitting a box -/

/-- An interval of indices in the grid. -/
structure Interval (a b : UInt64) : Prop where
  le : a ≤ b
  inGrid : InGrid b

/-- How many indices it has. -/
def extent (a b : UInt64) : Nat := b.toNat - a.toNat + 1

/-- The middle of an interval. -/
def middle (a b : UInt64) : UInt64 := a + (b - a) / 2

variable {a b : UInt64}

theorem Interval.toNat_sub (h : Interval a b) : (b - a).toNat = b.toNat - a.toNat :=
  UInt64.toNat_sub_of_le b a h.le

theorem Interval.toNat_middle (h : Interval a b) :
    (middle a b).toNat = a.toNat + (b.toNat - a.toNat) / 2 := by
  have hle := UInt64.le_iff_toNat_le.mp h.le
  have hlt : b.toNat < 2 ^ 21 := h.inGrid
  rw [middle, UInt64.toNat_add, UInt64.toNat_div, h.toNat_sub,
    show (2 : UInt64).toNat = 2 from rfl]
  omega

theorem Interval.toNat_middle_add_one (h : Interval a b) :
    (middle a b + 1).toNat = (middle a b).toNat + 1 := by
  have hle := UInt64.le_iff_toNat_le.mp h.le
  have hlt : b.toNat < 2 ^ 21 := h.inGrid
  have hmid := h.toNat_middle
  rw [UInt64.toNat_add, show (1 : UInt64).toNat = 1 from rfl]
  omega

/-- The lower half. -/
theorem Interval.lower (h : Interval a b) : Interval a (middle a b) := by
  have hle := UInt64.le_iff_toNat_le.mp h.le
  have hlt : b.toNat < 2 ^ 21 := h.inGrid
  have hmid := h.toNat_middle
  refine ⟨UInt64.le_iff_toNat_le.mpr (by omega), ?_⟩
  show (middle a b).toNat < 2 ^ 21
  omega

/-- An interval with more than one index has different ends. -/
theorem Interval.toNat_lt (h : Interval a b) (hab : b - a ≠ 0) : a.toNat < b.toNat := by
  have hsub := h.toNat_sub
  have hpos : (b - a).toNat ≠ 0 := fun hz => hab (UInt64.toNat_inj.mp hz)
  omega

/-- The upper half, of an interval with more than one index. -/
theorem Interval.upper (h : Interval a b) (hab : b - a ≠ 0) :
    middle a b < b ∧ Interval (middle a b + 1) b := by
  have hmid := h.toNat_middle
  have hsucc := h.toNat_middle_add_one
  have hlt := h.toNat_lt hab
  exact ⟨UInt64.lt_iff_toNat_lt.mpr (by omega), UInt64.le_iff_toNat_le.mpr (by omega), h.inGrid⟩

/-- The halves share out the indices. -/
theorem Interval.extent_halves (h : Interval a b) (hab : b - a ≠ 0) :
    extent a (middle a b) + extent (middle a b + 1) b = extent a b := by
  have hmid := h.toNat_middle
  have hsucc := h.toNat_middle_add_one
  have hlt := h.toNat_lt hab
  simp only [extent]
  omega

/-- Whether an index is in an interval, as a number. -/
def within (a b i : UInt64) : Nat := if a ≤ i ∧ i ≤ b then 1 else 0

/-- An index of the interval is in one of the halves. -/
theorem Interval.within_halves (h : Interval a b) (hab : b - a ≠ 0) (i : UInt64) :
    within a (middle a b) i + within (middle a b + 1) b i = within a b i := by
  have hmid := UInt64.lt_iff_toNat_lt.mp (h.upper hab).1
  have hlow := UInt64.le_iff_toNat_le.mp h.lower.le
  have hsucc := h.toNat_middle_add_one
  simp only [within, UInt64.le_iff_toNat_le, hsucc]
  rcases Nat.lt_or_ge (middle a b).toNat i.toNat with hi | hi
  · simp only [Nat.not_le.mpr hi, and_false, if_false, Nat.zero_add, Nat.succ_le_of_lt hi, true_and,
      (hlow.trans_lt hi).le]
  · simp only [hi, and_true, Nat.not_le.mpr (Nat.lt_succ_of_le hi), if_false, Nat.add_zero,
      hi.trans hmid.le]

/-- A box of the grid that is not empty. -/
structure Box (node : BoxNode) : Prop where
  x : Interval node.x1 node.x2
  y : Interval node.y1 node.y2
  z : Interval node.z1 node.z2

/-- A voxel is in a box. -/
def BoxNode.Contains (node : BoxNode) (ix iy iz : UInt64) : Prop :=
  (node.x1 ≤ ix ∧ ix ≤ node.x2) ∧ (node.y1 ≤ iy ∧ iy ≤ node.y2) ∧ (node.z1 ≤ iz ∧ iz ≤ node.z2)

instance instDecidableContains (node : BoxNode) (ix iy iz : UInt64) :
    Decidable (node.Contains ix iy iz) :=
  inferInstanceAs (Decidable (_ ∧ _))

/-- How many voxels a box has. -/
def BoxNode.volume (node : BoxNode) : Nat :=
  extent node.x1 node.x2 * extent node.y1 node.y2 * extent node.z1 node.z2

/-- What a box costs in turns of the loop, at most. -/
def BoxNode.weight (node : BoxNode) : Nat := 2 * node.volume - 1

theorem BoxNode.volume_pos (node : BoxNode) : 0 < node.volume := by
  rw [BoxNode.volume]
  exact Nat.mul_pos (Nat.mul_pos (Nat.succ_pos _) (Nat.succ_pos _)) (Nat.succ_pos _)

theorem sum_weight (nodes : List BoxNode) :
    (nodes.map BoxNode.weight).sum + nodes.length = 2 * (nodes.map BoxNode.volume).sum := by
  induction nodes with
  | nil => rfl
  | cons node nodes ih =>
      have hpos := node.volume_pos
      simp only [List.map_cons, List.sum_cons, List.length_cons]
      rw [BoxNode.weight]
      omega

/-- The eight parts of a box, the last one pushed in front. -/
def octants (node : BoxNode) (mx my mz : UInt64) : List BoxNode :=
  [⟨mx + 1, my + 1, mz + 1, node.x2, node.y2, node.z2⟩,
    ⟨node.x1, my + 1, mz + 1, mx, node.y2, node.z2⟩,
    ⟨mx + 1, node.y1, mz + 1, node.x2, my, node.z2⟩,
    ⟨node.x1, node.y1, mz + 1, mx, my, node.z2⟩,
    ⟨mx + 1, my + 1, node.z1, node.x2, node.y2, mz⟩,
    ⟨node.x1, my + 1, node.z1, mx, node.y2, mz⟩,
    ⟨mx + 1, node.y1, node.z1, node.x2, my, mz⟩,
    ⟨node.x1, node.y1, node.z1, mx, my, mz⟩]

section Octants

variable {node : BoxNode}

/-- A box that is split has more than one index on each axis. -/
theorem pushOctants_eq (h : Box node) (hx : node.x2 - node.x1 ≠ 0) (hy : node.y2 - node.y1 ≠ 0)
    (hz : node.z2 - node.z1 ≠ 0) (stack : List BoxNode) :
    pushOctants node (middle node.x1 node.x2) (middle node.y1 node.y2) (middle node.z1 node.z2) stack
      = octants node (middle node.x1 node.x2) (middle node.y1 node.y2) (middle node.z1 node.z2)
        ++ stack := by
  have hmx := (h.x.upper hx).1
  have hmy := (h.y.upper hy).1
  have hmz := (h.z.upper hz).1
  simp only [pushOctants, hmx, hmy, hmz, and_self, if_true]
  rfl

/-- What holds of both halves on each axis holds of every part. -/
theorem forall_octants {X Y Z : UInt64 → UInt64 → Prop} {mx my mz : UInt64}
    (hx : X node.x1 mx ∧ X (mx + 1) node.x2) (hy : Y node.y1 my ∧ Y (my + 1) node.y2)
    (hz : Z node.z1 mz ∧ Z (mz + 1) node.z2) :
    ∀ part ∈ octants node mx my mz,
      X part.x1 part.x2 ∧ Y part.y1 part.y2 ∧ Z part.z1 part.z2 := by
  obtain ⟨hxl, hxu⟩ := hx
  obtain ⟨hyl, hyu⟩ := hy
  obtain ⟨hzl, hzu⟩ := hz
  simp only [octants, List.forall_mem_cons]
  exact ⟨⟨hxu, hyu, hzu⟩, ⟨hxl, hyu, hzu⟩, ⟨hxu, hyl, hzu⟩, ⟨hxl, hyl, hzu⟩, ⟨hxu, hyu, hzl⟩,
    ⟨hxl, hyu, hzl⟩, ⟨hxu, hyl, hzl⟩, ⟨hxl, hyl, hzl⟩, by simp⟩

/-- What holds of a half on each axis holds of a part. -/
theorem exists_octant {X Y Z : UInt64 → UInt64 → Prop} {mx my mz : UInt64}
    (hx : X node.x1 mx ∨ X (mx + 1) node.x2) (hy : Y node.y1 my ∨ Y (my + 1) node.y2)
    (hz : Z node.z1 mz ∨ Z (mz + 1) node.z2) :
    ∃ part ∈ octants node mx my mz,
      X part.x1 part.x2 ∧ Y part.y1 part.y2 ∧ Z part.z1 part.z2 := by
  rcases hx with hx | hx
  · rcases hy with hy | hy
    · rcases hz with hz | hz
      · exact ⟨_, List.mem_of_getElem? (i := 7) rfl, hx, hy, hz⟩
      · exact ⟨_, List.mem_of_getElem? (i := 3) rfl, hx, hy, hz⟩
    · rcases hz with hz | hz
      · exact ⟨_, List.mem_of_getElem? (i := 5) rfl, hx, hy, hz⟩
      · exact ⟨_, List.mem_of_getElem? (i := 1) rfl, hx, hy, hz⟩
  · rcases hy with hy | hy
    · rcases hz with hz | hz
      · exact ⟨_, List.mem_of_getElem? (i := 6) rfl, hx, hy, hz⟩
      · exact ⟨_, List.mem_of_getElem? (i := 2) rfl, hx, hy, hz⟩
    · rcases hz with hz | hz
      · exact ⟨_, List.mem_of_getElem? (i := 4) rfl, hx, hy, hz⟩
      · exact ⟨_, List.mem_of_getElem? (i := 0) rfl, hx, hy, hz⟩

/-- Its parts are boxes. -/
theorem box_octants (h : Box node) (hx : node.x2 - node.x1 ≠ 0) (hy : node.y2 - node.y1 ≠ 0)
    (hz : node.z2 - node.z1 ≠ 0) :
    ∀ part ∈ octants node (middle node.x1 node.x2) (middle node.y1 node.y2)
      (middle node.z1 node.z2), Box part := by
  intro part hpart
  obtain ⟨hxp, hyp, hzp⟩ := forall_octants ⟨h.x.lower, (h.x.upper hx).2⟩
    ⟨h.y.lower, (h.y.upper hy).2⟩ ⟨h.z.lower, (h.z.upper hz).2⟩ part hpart
  exact ⟨hxp, hyp, hzp⟩

/-- **What each axis shares out** between the halves of its interval, the box shares
    out between its parts. -/
theorem sum_octants {f g k : UInt64 → UInt64 → Nat} {mx my mz : UInt64}
    (hx : f node.x1 mx + f (mx + 1) node.x2 = f node.x1 node.x2)
    (hy : g node.y1 my + g (my + 1) node.y2 = g node.y1 node.y2)
    (hz : k node.z1 mz + k (mz + 1) node.z2 = k node.z1 node.z2) :
    ((octants node mx my mz).map
        (fun part => f part.x1 part.x2 * g part.y1 part.y2 * k part.z1 part.z2)).sum
      = f node.x1 node.x2 * g node.y1 node.y2 * k node.z1 node.z2 := by
  rw [← hx, ← hy, ← hz]
  simp only [octants, List.map_cons, List.map_nil, List.sum_cons, List.sum_nil]
  ring

/-- The parts share out the voxels, and so cost less together than the box does. -/
theorem weight_octants (h : Box node) (hx : node.x2 - node.x1 ≠ 0) (hy : node.y2 - node.y1 ≠ 0)
    (hz : node.z2 - node.z1 ≠ 0) :
    ((octants node (middle node.x1 node.x2) (middle node.y1 node.y2)
      (middle node.z1 node.z2)).map BoxNode.weight).sum < node.weight := by
  have hsum : ((octants node (middle node.x1 node.x2) (middle node.y1 node.y2)
      (middle node.z1 node.z2)).map BoxNode.volume).sum = node.volume :=
    sum_octants (h.x.extent_halves hx) (h.y.extent_halves hy) (h.z.extent_halves hz)
  have hcost := sum_weight (octants node (middle node.x1 node.x2) (middle node.y1 node.y2)
    (middle node.z1 node.z2))
  have hlen : (octants node (middle node.x1 node.x2) (middle node.y1 node.y2)
    (middle node.z1 node.z2)).length = 8 := rfl
  have hpos := node.volume_pos
  rw [BoxNode.weight]
  omega

theorem count_eq (node : BoxNode) (ix iy iz : UInt64) :
    (if node.Contains ix iy iz then 1 else 0)
      = within node.x1 node.x2 ix * within node.y1 node.y2 iy * within node.z1 node.z2 iz := by
  by_cases hc : node.Contains ix iy iz
  · rw [if_pos hc, within, within, within, if_pos hc.1, if_pos hc.2.1, if_pos hc.2.2]
  · rw [if_neg hc, within, within, within]
    by_cases hx : node.x1 ≤ ix ∧ ix ≤ node.x2
    · by_cases hy : node.y1 ≤ iy ∧ iy ≤ node.y2
      · have hz : ¬ (node.z1 ≤ iz ∧ iz ≤ node.z2) := fun hz => hc ⟨hx, hy, hz⟩
        rw [if_neg hz, Nat.mul_zero]
      · rw [if_neg hy, Nat.mul_zero, Nat.zero_mul]
    · rw [if_neg hx, Nat.zero_mul, Nat.zero_mul]

/-- **A voxel of the box** is in one part, and a voxel outside in none. -/
theorem countP_octants (h : Box node) (hx : node.x2 - node.x1 ≠ 0) (hy : node.y2 - node.y1 ≠ 0)
    (hz : node.z2 - node.z1 ≠ 0) (ix iy iz : UInt64) :
    (octants node (middle node.x1 node.x2) (middle node.y1 node.y2)
        (middle node.z1 node.z2)).countP (fun part => part.Contains ix iy iz)
      = if node.Contains ix iy iz then 1 else 0 := by
  rw [countP_eq_sum, count_eq]
  simp only [decide_eq_true_eq, count_eq]
  exact sum_octants (f := fun a b => within a b ix) (g := fun a b => within a b iy)
    (k := fun a b => within a b iz) (h.x.within_halves hx ix) (h.y.within_halves hy iy)
    (h.z.within_halves hz iz)

end Octants

/-! ## The loop -/

/-- A code is in a range. -/
def MortonRange.Holds (r : MortonRange) (code : UInt64) : Prop :=
  r.startCode ≤ code ∧ code ≤ r.endCode

/-- A range is not turned around, and ends below the last code. -/
def MortonRange.Proper (r : MortonRange) : Prop :=
  r.startCode ≤ r.endCode ∧ r.endCode.toNat < 2 ^ 63

/-- The range between the corners of a box. -/
def rangeOf (node : BoxNode) : MortonRange :=
  ⟨mortonCode node.x1 node.y1 node.z1, mortonCode node.x2 node.y2 node.z2⟩

theorem proper_rangeOf {node : BoxNode} (h : Box node) : (rangeOf node).Proper :=
  ⟨mortonCode_le h.x.le h.y.le h.z.le h.x.inGrid h.y.inGrid h.z.inGrid,
    mortonCode_lt h.x.inGrid h.y.inGrid h.z.inGrid⟩

theorem holds_rangeOf {node : BoxNode} (h : Box node) {ix iy iz : UInt64}
    (hc : node.Contains ix iy iz) : (rangeOf node).Holds (mortonCode ix iy iz) := by
  obtain ⟨⟨hx1, hx2⟩, ⟨hy1, hy2⟩, hz1, hz2⟩ := hc
  have hgrid : ∀ {i j : UInt64}, i ≤ j → InGrid j → InGrid i := fun hij hj =>
    (UInt64.le_iff_toNat_le.mp hij).trans_lt hj
  exact ⟨mortonCode_le hx1 hy1 hz1 (hgrid hx2 h.x.inGrid) (hgrid hy2 h.y.inGrid)
    (hgrid hz2 h.z.inGrid), mortonCode_le hx2 hy2 hz2 h.x.inGrid h.y.inGrid h.z.inGrid⟩

/-- The stop test of the loop. -/
def BoxNode.Small (node : BoxNode) : Prop :=
  (node.x2 - node.x1) * (node.y2 - node.y1) * (node.z2 - node.z1) < 64
    ∨ (node.x2 - node.x1 = 0 ∧ node.y2 - node.y1 = 0 ∧ node.z2 - node.z1 = 0)

instance instDecidableSmall : DecidablePred BoxNode.Small :=
  fun _ => inferInstanceAs (Decidable (_ ∨ _))

/-- A box that does not stop has an extent on every axis. -/
theorem extents_of_not_small {node : BoxNode} (h : ¬ node.Small) :
    node.x2 - node.x1 ≠ 0 ∧ node.y2 - node.y1 ≠ 0 ∧ node.z2 - node.z1 ≠ 0 := by
  refine ⟨?_, ?_, ?_⟩
  · intro hz
    exact h (Or.inl (by rw [hz, UInt64.zero_mul, UInt64.zero_mul]; decide))
  · intro hz
    exact h (Or.inl (by rw [hz, UInt64.mul_zero, UInt64.zero_mul]; decide))
  · intro hz
    exact h (Or.inl (by rw [hz, UInt64.mul_zero]; decide))

/-- The parts a box is split into. -/
def BoxNode.parts (node : BoxNode) : List BoxNode :=
  octants node (middle node.x1 node.x2) (middle node.y1 node.y2) (middle node.z1 node.z2)

/-- **Splitting boxes** is a subdivision: the octants of a box weigh less than it. -/
def octree : Subdivision BoxNode where
  Good := Box
  Small := BoxNode.Small
  parts := BoxNode.parts
  weight := BoxNode.weight
  good_parts h hlarge := by
    obtain ⟨hx, hy, hz⟩ := extents_of_not_small hlarge
    exact box_octants h hx hy hz
  weight_pos node := by
    have hpos := node.volume_pos
    rw [BoxNode.weight]
    omega
  lighter h hlarge := by
    obtain ⟨hx, hy, hz⟩ := extents_of_not_small hlarge
    exact weight_octants h hx hy hz

instance instDecidableOctree : DecidablePred octree.Small := instDecidableSmall

/-- The loop over the stack, keeping the boxes it makes ranges of. -/
def leafLoop : Nat → List BoxNode → List BoxNode → Except Fault (List BoxNode)
  | 0, _, _ => .error .noProgress
  | _ + 1, [], leaves => pure leaves
  | fuel + 1, node :: stack, leaves =>
      if node.x1 > node.x2 ∨ node.y1 > node.y2 ∨ node.z1 > node.z2 then
        leafLoop fuel stack leaves
      else if node.Small then
        leafLoop fuel stack (leaves ++ [node])
      else
        leafLoop fuel (pushOctants node (middle node.x1 node.x2) (middle node.y1 node.y2)
          (middle node.z1 node.z2) stack) leaves

/-- **The ranges** the loop puts out are those of its leaves. -/
theorem splitLoop_eq (fuel : Nat) (stack leaves : List BoxNode) :
    splitLoop fuel stack (leaves.map rangeOf)
      = (leafLoop fuel stack leaves).map (List.map rangeOf) := by
  induction fuel generalizing stack leaves with
  | zero => rfl
  | succ fuel ih =>
      cases stack with
      | nil => rfl
      | cons node stack =>
          rw [splitLoop, leafLoop]
          split
          · exact ih stack leaves
          · by_cases hsmall : node.Small
            · rw [if_pos hsmall, ← ih, List.map_append]
              exact if_pos hsmall
            · rw [if_neg hsmall, ← ih]
              exact if_neg hsmall

/-- On boxes of the grid the loop runs the subdivision. -/
theorem leafLoop_of_run {fuel : Nat} {stack leaves out : List BoxNode}
    (hstack : ∀ node ∈ stack, Box node) (hrun : octree.run fuel stack leaves = some out) :
    leafLoop fuel stack leaves = .ok out := by
  induction fuel generalizing stack leaves with
  | zero =>
      rw [Subdivision.run] at hrun
      cases hrun
  | succ fuel ih =>
      cases stack with
      | nil =>
          rw [Subdivision.run, Option.some.injEq] at hrun
          rw [leafLoop, hrun]
          rfl
      | cons node stack =>
          obtain ⟨hnode, hrest⟩ := List.forall_mem_cons.mp hstack
          have hsome : ¬ (node.x1 > node.x2 ∨ node.y1 > node.y2 ∨ node.z1 > node.z2) := by
            rintro (h | h | h)
            · exact UInt64.not_lt.mpr hnode.x.le h
            · exact UInt64.not_lt.mpr hnode.y.le h
            · exact UInt64.not_lt.mpr hnode.z.le h
          rw [Subdivision.run] at hrun
          rw [leafLoop, if_neg hsome]
          by_cases hsmall : node.Small
          · rw [if_pos hsmall]
            exact ih hrest ((if_pos hsmall).symm.trans hrun)
          · obtain ⟨hx, hy, hz⟩ := extents_of_not_small hsmall
            rw [if_neg hsmall, pushOctants_eq hnode hx hy hz]
            exact ih (List.forall_mem_append.mpr ⟨octree.good_parts hnode hsmall, hrest⟩)
              ((if_neg hsmall).symm.trans hrun)

/-- What a box costs is within its fuel. -/
theorem Box.weight_lt_fuel {box : BoxNode} (h : Box box) : box.weight < box.fuel := by
  have hpos := box.volume_pos
  have heq : box.fuel = 2 * box.volume := by
    rw [BoxNode.fuel, h.x.toNat_sub, h.y.toNat_sub, h.z.toNat_sub, BoxNode.volume]
    simp only [extent]
    ring
  rw [heq, BoxNode.weight]
  omega

/-- **The loop over the stack** ends, with the leaves of the box, and puts out their
    ranges. -/
theorem leafLoop_spec {box : BoxNode} (h : Box box) :
    ∃ leaves, octree.Leaves [box] leaves ∧ ∀ fuel, box.fuel ≤ fuel →
      leafLoop fuel [box] [] = .ok leaves
        ∧ splitLoop fuel [box] [] = .ok (leaves.map rangeOf) := by
  have hbox : ∀ node ∈ [box], Box node := List.forall_mem_singleton.mpr h
  obtain ⟨leaves, hleaves, hrun⟩ := octree.run_spec hbox
  refine ⟨leaves, hleaves, ?_⟩
  intro fuel hfuel
  have hweight : ([box].map octree.weight).sum < fuel := by
    rw [List.map_singleton, List.sum_singleton]
    exact h.weight_lt_fuel.trans_le hfuel
  have hloop : leafLoop fuel [box] [] = .ok leaves := leafLoop_of_run hbox (hrun fuel hweight [])
  refine ⟨hloop, ?_⟩
  have hsplit := splitLoop_eq fuel [box] []
  rwa [hloop] at hsplit

/-- The leaves of a box are boxes. -/
theorem box_leaf {box leaf : BoxNode} {leaves : List BoxNode} (h : Box box)
    (hleaves : octree.Leaves [box] leaves) (hleaf : leaf ∈ leaves) : Box leaf := by
  obtain ⟨node, hnode, hl⟩ := (hleaves.mem_iff leaf).mp hleaf
  obtain rfl := List.mem_singleton.mp hnode
  exact (hl.good_small h).1

/-- **Every voxel of the box** is in one leaf, and every other in none. -/
theorem countP_leaves {box : BoxNode} {leaves : List BoxNode}
    (hleaves : octree.Leaves [box] leaves) (ix iy iz : UInt64) :
    leaves.countP (fun leaf => leaf.Contains ix iy iz)
      = if box.Contains ix iy iz then 1 else 0 := by
  have hcount := hleaves.countP_eq (p := fun leaf => leaf.Contains ix iy iz) (by
    intro node hnode hlarge
    obtain ⟨hx, hy, hz⟩ := extents_of_not_small hlarge
    simp only [decide_eq_true_eq]
    exact countP_octants hnode hx hy hz ix iy iz)
  rw [hcount, List.countP_singleton]
  simp only [decide_eq_true_eq]

/-! ## Merging the ranges -/

/-- Two ranges as one, from the start of the first to the later end. -/
def MortonRange.join (current r : MortonRange) : MortonRange :=
  { current with endCode := max current.endCode r.endCode }

theorem MortonRange.join_startCode (current r : MortonRange) :
    (current.join r).startCode = current.startCode := rfl

theorem MortonRange.toNat_join_endCode (current r : MortonRange) :
    (current.join r).endCode.toNat = max current.endCode.toNat r.endCode.toNat :=
  UInt64.toNat_max _ _

theorem MortonRange.endCode_le_join_left (current r : MortonRange) :
    current.endCode ≤ (current.join r).endCode := by
  rw [UInt64.le_iff_toNat_le, current.toNat_join_endCode r]
  exact Nat.le_max_left _ _

/-- A range that is not turned around, and does not end at the last code. -/
structure MortonRange.Bounded (r : MortonRange) : Prop where
  le : r.startCode ≤ r.endCode
  lt : r.endCode.toNat < 2 ^ 64 - 1

theorem MortonRange.Proper.bounded {r : MortonRange} (h : r.Proper) : r.Bounded :=
  ⟨h.1, h.2.trans (by decide)⟩

/-- The code behind a range is its last one and one. -/
theorem MortonRange.Bounded.toNat_succ {r : MortonRange} (h : r.Bounded) :
    (r.endCode + 1).toNat = r.endCode.toNat + 1 := by
  have hlt := h.lt
  rw [UInt64.toNat_add, show (1 : UInt64).toNat = 1 from rfl]
  omega

theorem MortonRange.Bounded.join {current r : MortonRange} (hc : current.Bounded)
    (hr : r.Bounded) : (current.join r).Bounded := by
  refine ⟨UInt64.le_trans hc.le (current.endCode_le_join_left r), ?_⟩
  rw [current.toNat_join_endCode r]
  exact max_lt hc.lt hr.lt

/-- **Joining** a range to one that begins in it or right behind it adds its codes
    and no others. -/
theorem MortonRange.Bounded.holds_join_iff {current r : MortonRange} (hc : current.Bounded)
    (hstart : current.startCode ≤ r.startCode) (hnext : r.startCode ≤ current.endCode + 1)
    (code : UInt64) : (current.join r).Holds code ↔ current.Holds code ∨ r.Holds code := by
  have hend := current.toNat_join_endCode r
  rw [UInt64.le_iff_toNat_le, hc.toNat_succ] at hnext
  rw [UInt64.le_iff_toNat_le] at hstart
  simp only [Holds, UInt64.le_iff_toNat_le, hend, current.join_startCode r]
  omega

/-- Some ranges have a code. -/
def Covered (ranges : List MortonRange) (code : UInt64) : Prop := ∃ r ∈ ranges, r.Holds code

theorem covered_cons {r : MortonRange} {ranges : List MortonRange} {code : UInt64} :
    Covered (r :: ranges) code ↔ r.Holds code ∨ Covered ranges code := by
  simp only [Covered, List.mem_cons, exists_eq_or_imp]

/-- One range ends before another begins, with a code between them. -/
def Gap (a b : MortonRange) : Prop := a.endCode.toNat + 1 < b.startCode.toNat

/-- **The loop of `MergeRanges`**: ranges in the order of their starts keep their
    codes and get no others, and a code is left between any two of the result. -/
theorem mergeLoop_spec :
    ∀ (rest : List MortonRange) {current : MortonRange}, (∀ r ∈ current :: rest, r.Bounded) →
      (current :: rest).Pairwise (fun a b => a.startCode ≤ b.startCode) →
      (∀ code, Covered (mergeLoop current rest) code ↔ Covered (current :: rest) code)
        ∧ (∀ m ∈ mergeLoop current rest, current.startCode ≤ m.startCode ∧ m.Bounded)
        ∧ (mergeLoop current rest).Pairwise Gap := by
  intro rest
  induction rest with
  | nil =>
      intro current hbounded _
      refine ⟨fun code => Iff.rfl, ?_, List.pairwise_singleton _ _⟩
      intro m hm
      obtain rfl := List.mem_singleton.mp hm
      exact ⟨UInt64.le_refl _, hbounded m List.mem_cons_self⟩
  | cons r rest ih =>
      intro current hbounded hsorted
      obtain ⟨hfirst, hrest⟩ := List.pairwise_cons.mp hsorted
      obtain ⟨hbc, hbr⟩ := List.forall_mem_cons.mp hbounded
      have hr := hbr r List.mem_cons_self
      have hstart := hfirst r List.mem_cons_self
      rw [mergeLoop]
      split
      · rename_i hnext
        -- the two become one range
        have hsj : (current.join r :: rest).Pairwise (fun a b => a.startCode ≤ b.startCode) := by
          refine List.pairwise_cons.mpr ⟨?_, (List.pairwise_cons.mp hrest).2⟩
          intro b hb
          rw [current.join_startCode r]
          exact hfirst b (List.mem_cons_of_mem _ hb)
        obtain ⟨hcover, hafter, hgap⟩ := ih (List.forall_mem_cons.mpr
          ⟨hbc.join hr, (List.forall_mem_cons.mp hbr).2⟩) hsj
        refine ⟨?_, hafter, hgap⟩
        intro code
        have hjoin := hbc.holds_join_iff hstart hnext code
        rw [covered_cons, covered_cons, ← or_assoc, ← hjoin, ← covered_cons]
        exact hcover code
      · rename_i hfar
        -- the current range is done
        obtain ⟨hcover, hafter, hgap⟩ := ih hbr hrest
        have hlt : current.endCode.toNat + 1 < r.startCode.toNat := by
          rw [← hbc.toNat_succ]
          exact UInt64.lt_iff_toNat_lt.mp (UInt64.not_le.mp hfar)
        refine ⟨?_, ?_, ?_⟩
        · intro code
          rw [covered_cons, covered_cons, hcover code]
        · intro m hm
          rcases List.mem_cons.mp hm with rfl | hm'
          · exact ⟨UInt64.le_refl _, hbc⟩
          · obtain ⟨h1, h2⟩ := hafter m hm'
            exact ⟨UInt64.le_trans hstart h1, h2⟩
        · refine List.pairwise_cons.mpr ⟨?_, hgap⟩
          intro m hm
          exact hlt.trans_le (UInt64.le_iff_toNat_le.mp (hafter m hm).1)

/-- `MergeRanges` behind its sort. -/
def mergeSorted : List MortonRange → List MortonRange
  | [] => []
  | current :: rest => mergeLoop current rest

theorem mergeRanges_eq (raw : List MortonRange) :
    mergeRanges raw
      = mergeSorted (raw.insertionSort (fun a b => a.startCode ≤ b.startCode)) := by
  rw [mergeRanges]
  cases raw.insertionSort (fun a b => a.startCode ≤ b.startCode) <;> rfl

/-- **What stands behind the sort** keeps every code, in ranges that stand apart
    and in order. -/
theorem mergeSorted_spec {sorted : List MortonRange} (hbounded : ∀ r ∈ sorted, r.Bounded)
    (hsorted : sorted.Pairwise (fun a b => a.startCode ≤ b.startCode)) :
    (∀ code, Covered (mergeSorted sorted) code ↔ Covered sorted code)
      ∧ (∀ m ∈ mergeSorted sorted, m.Bounded) ∧ (mergeSorted sorted).Pairwise Gap := by
  cases sorted with
  | nil => exact ⟨fun _ => Iff.rfl, hbounded, List.Pairwise.nil⟩
  | cons current rest =>
      obtain ⟨hcover, hafter, hgap⟩ := mergeLoop_spec rest hbounded hsorted
      exact ⟨hcover, fun m hm => (hafter m hm).2, hgap⟩

/-- The order of the starts, as the sort leaves it. -/
theorem pairwise_sorted (raw : List MortonRange) :
    (raw.insertionSort (fun a b => a.startCode ≤ b.startCode)).Pairwise
      (fun a b => a.startCode ≤ b.startCode) := by
  have htotal : Std.Total (fun a b : MortonRange => a.startCode ≤ b.startCode) :=
    ⟨fun a b => UInt64.le_total _ _⟩
  have htrans : IsTrans MortonRange (fun a b => a.startCode ≤ b.startCode) :=
    ⟨fun a b c => UInt64.le_trans⟩
  exact List.pairwise_insertionSort _ raw

/-- **`MergeRanges`** keeps every code, in ranges that stand apart and in order. -/
theorem mergeRanges_spec {raw : List MortonRange} (hbounded : ∀ r ∈ raw, r.Bounded) :
    (∀ code, Covered (mergeRanges raw) code ↔ Covered raw code)
      ∧ (∀ m ∈ mergeRanges raw, m.Bounded) ∧ (mergeRanges raw).Pairwise Gap := by
  have hmem (r : MortonRange) :
      r ∈ raw.insertionSort (fun a b => a.startCode ≤ b.startCode) ↔ r ∈ raw :=
    List.mem_insertionSort _
  obtain ⟨hcover, hresult, hgap⟩ :=
    mergeSorted_spec (fun r hr => hbounded r ((hmem r).mp hr)) (pairwise_sorted raw)
  rw [← mergeRanges_eq] at hcover hresult hgap
  refine ⟨fun code => (hcover code).trans ?_, hresult, hgap⟩
  simp only [Covered, hmem]

/-! ## The whole generator -/

/-- An index is between two corners, whichever is larger. -/
def Between (a b i : UInt64) : Prop := a ≤ i ∧ i ≤ b ∨ b ≤ i ∧ i ≤ a

/-- The smaller and the larger of two corners, as the swaps leave them. -/
theorem swap_spec (ha : InGrid a) (hb : InGrid b) :
    Interval (if a > b then (b, a) else (a, b)).1 (if a > b then (b, a) else (a, b)).2
      ∧ ∀ i, Between a b i → (if a > b then (b, a) else (a, b)).1 ≤ i
          ∧ i ≤ (if a > b then (b, a) else (a, b)).2 := by
  by_cases hab : a > b
  · rw [if_pos hab]
    refine ⟨⟨UInt64.le_of_lt hab, ha⟩, ?_⟩
    rintro i (⟨h1, h2⟩ | h)
    · -- the corners are the other way round
      exact absurd (UInt64.le_trans h1 h2) (UInt64.not_le.mpr hab)
    · exact h
  · rw [if_neg hab]
    have hle : a ≤ b := UInt64.not_lt.mp hab
    refine ⟨⟨hle, hb⟩, ?_⟩
    rintro i (h | ⟨h1, h2⟩)
    · exact h
    · exact ⟨UInt64.le_trans hle h1, UInt64.le_trans h2 hle⟩

/-- **The ranges cover the box**, stand in order, and leave a code between any
    two of them. -/
theorem generateRanges_cover {ixMin iyMin izMin ixMax iyMax izMax : UInt64}
    (hx : ixMin.toNat < 2 ^ 21 ∧ ixMax.toNat < 2 ^ 21)
    (hy : iyMin.toNat < 2 ^ 21 ∧ iyMax.toNat < 2 ^ 21)
    (hz : izMin.toNat < 2 ^ 21 ∧ izMax.toNat < 2 ^ 21) :
    ∃ ranges, generateRanges ixMin iyMin izMin ixMax iyMax izMax = .ok ranges
      ∧ (∀ ix iy iz, Between ixMin ixMax ix → Between iyMin iyMax iy → Between izMin izMax iz →
          ∃ r ∈ ranges, r.startCode ≤ mortonCode ix iy iz ∧ mortonCode ix iy iz ≤ r.endCode)
      ∧ (∀ r ∈ ranges, r.startCode ≤ r.endCode)
      ∧ ranges.Pairwise (fun a b => a.endCode.toNat + 1 < b.startCode.toNat) := by
  obtain ⟨hxi, hxin⟩ := swap_spec hx.1 hx.2
  obtain ⟨hyi, hyin⟩ := swap_spec hy.1 hy.2
  obtain ⟨hzi, hzin⟩ := swap_spec hz.1 hz.2
  obtain ⟨box, hbox⟩ : ∃ box : BoxNode, box =
      ⟨(if ixMin > ixMax then (ixMax, ixMin) else (ixMin, ixMax)).1,
        (if iyMin > iyMax then (iyMax, iyMin) else (iyMin, iyMax)).1,
        (if izMin > izMax then (izMax, izMin) else (izMin, izMax)).1,
        (if ixMin > ixMax then (ixMax, ixMin) else (ixMin, ixMax)).2,
        (if iyMin > iyMax then (iyMax, iyMin) else (iyMin, iyMax)).2,
        (if izMin > izMax then (izMax, izMin) else (izMin, izMax)).2⟩ := ⟨_, rfl⟩
  have hb : Box box := by
    rw [hbox]
    exact ⟨hxi, hyi, hzi⟩
  obtain ⟨leaves, hleaves, hrun⟩ := leafLoop_spec hb
  have hsplit := (hrun box.fuel le_rfl).2
  have hproper : ∀ r ∈ leaves.map rangeOf, r.Proper := by
    intro r hr
    obtain ⟨leaf, hleaf, rfl⟩ := List.mem_map.mp hr
    exact proper_rangeOf (box_leaf hb hleaves hleaf)
  obtain ⟨hkeep, hresult, hgap⟩ := mergeRanges_spec (fun r hr => (hproper r hr).bounded)
  refine ⟨mergeRanges (leaves.map rangeOf), ?_, ?_, fun m hm => (hresult m hm).le, hgap⟩
  · rw [hbox] at hsplit
    simp only [generateRanges, hsplit, ok_bind]
    rfl
  · intro ix iy iz hix hiy hiz
    have hc : box.Contains ix iy iz := by
      rw [hbox]
      exact ⟨hxin ix hix, hyin iy hiy, hzin iz hiz⟩
    -- the leaf that has the voxel
    have hcount := countP_leaves hleaves ix iy iz
    rw [if_pos hc] at hcount
    obtain ⟨leaf, hleaf, hin⟩ := List.countP_pos_iff.mp (hcount ▸ Nat.one_pos)
    exact (hkeep _).mpr ⟨rangeOf leaf, List.mem_map_of_mem hleaf,
      holds_rangeOf (box_leaf hb hleaves hleaf) (of_decide_eq_true hin)⟩

/-- A box of two by three by one voxels, one axis turned around. -/
theorem generateRanges_cover_small :
    ∃ ranges, generateRanges 1 7 4 2 5 4 = .ok ranges
      ∧ (∀ ix iy iz, Between 1 2 ix → Between 7 5 iy → Between 4 4 iz →
          ∃ r ∈ ranges, r.startCode ≤ mortonCode ix iy iz ∧ mortonCode ix iy iz ≤ r.endCode)
      ∧ (∀ r ∈ ranges, r.startCode ≤ r.endCode)
      ∧ ranges.Pairwise (fun a b => a.endCode.toNat + 1 < b.startCode.toNat) :=
  generateRanges_cover (by decide) (by decide) (by decide)

end KvSpatial
