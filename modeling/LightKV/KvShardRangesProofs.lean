import LightKV.CutsProofs
import LightKV.KvMortonProofs
import LightKV.KvRoutingProofs

/-! # The ranges of the shards

    `InitUniformRanges` cuts the keys at the multiples of a step, written as spatial
    keys.  Its ranges follow each other and every key of any length is in exactly one
    of them (`ranges_partition`), so that the scan of `GetShard` always finds one.

    The step divides all the codes of 64 bits, and a Morton code has 63: the shards
    that Morton keys reach are those of the lower half (`reached_by_morton_iff`). -/

namespace KvShardRanges

open Cutting KvBytes KvDirectory KvMorton KvRouting KvSharding KvSpatial KvSpatialKey

variable {n : UInt64} {e : ShardedKVEngine}

/-! ## Every key has one range -/

theorem cutKey_lt_cutKey (hn : n ≠ 0) {i j : Nat} (hij : i < j) (hj : j < n.toNat) :
    cutKey n i < cutKey n j := by
  have hcuts : i * stepOf n < j * stepOf n := Nat.mul_lt_mul_of_pos_right hij (stepOf_pos hn)
  rw [← not_le]
  intro hle
  rw [cutKey.eq_def n i, cutKey_le_iff hj, toNat_cut (hij.trans hj)] at hle
  omega

/-- The cuts of `InitUniformRanges`. -/
def uniformCuts (hn : n ≠ 0) : Cuts Bytes where
  parts := n.toNat
  pos := toNat_pos hn
  cut := cutKey n
  ascending _ _ hi := cutKey_lt_cutKey hn (Nat.lt_succ_self _) hi

theorem contains_iff_within (hn : n ≠ 0) {i : Nat} (hi : i < n.toNat) (key : Bytes) :
    (uniformRange n (uint64Max / n) (UInt64.ofNat i)).contains key = true
      ↔ (uniformCuts hn).Within i key := by
  have hlast : i = n.toNat - 1 ↔ i + 1 = n.toNat := by omega
  rw [contains_key_iff hi, hlast]
  exact Iff.rfl

/-- What `InitUniformRanges` leaves. -/
def uniformRanges (n : UInt64) : List ShardRange :=
  (List.range n.toNat).map (fun i => uniformRange n (uint64Max / n) (UInt64.ofNat i))

/-- **Every key** is in exactly one range. -/
theorem countP_contains (hn : n ≠ 0) (key : Bytes) :
    (uniformRanges n).countP (fun range => range.contains key) = 1 := by
  rw [uniformRanges, List.countP_map, ← (uniformCuts hn).countP_within key]
  refine List.countP_congr ?_
  intro i hi
  rw [decide_eq_true_iff]
  exact contains_iff_within hn (List.mem_range.mp hi) key

/-- The scan ends at a range. -/
theorem exists_find_contains (hn : n ≠ 0) (key : Bytes) :
    ∃ range, (uniformRanges n).find? (fun range => range.contains key) = some range := by
  have hpos : 0 < (uniformRanges n).countP (fun range => range.contains key) := by
    rw [countP_contains hn]
    exact Nat.one_pos
  obtain ⟨range, hr, hc⟩ := List.countP_pos_iff.mp hpos
  exact Option.isSome_iff_exists.mp (List.find?_isSome.mpr ⟨range, hr, hc⟩)

/-- **The ranges follow each other.** -/
theorem isChain_uniformRanges (n : UInt64) :
    (uniformRanges n).IsChain (fun a b => a.endKey = b.startKey) := by
  rw [uniformRanges, List.isChain_map, List.isChain_range]
  intro i hi
  rw [endKey_uniformRange (by omega), startKey_uniformRange (by omega), if_neg (by omega),
    if_neg (Nat.succ_ne_zero i)]

/-- **Their starts ascend.** -/
theorem pairwise_uniformRanges (hn : n ≠ 0) :
    (uniformRanges n).Pairwise (fun a b => a.startKey < b.startKey) := by
  rw [uniformRanges, List.pairwise_map]
  refine List.pairwise_lt_range.imp_of_mem ?_
  intro i j hi hj hij
  have hjn := List.mem_range.mp hj
  rw [startKey_uniformRange (List.mem_range.mp hi), startKey_uniformRange hjn,
    if_neg (Nat.ne_zero_of_lt hij)]
  by_cases hzero : i = 0
  · rw [if_pos hzero]
    exact List.nil_lt_cons _ _
  · rw [if_neg hzero]
    exact cutKey_lt_cutKey hn hij hjn

/-- **The ranges partition the keys**: they follow each other, from no lower bound to
    no upper one and with ascending bounds between, and every string of bytes is in
    exactly one of them, which the scan finds. -/
theorem ranges_partition (hn : n ≠ 0) :
    ∃ ranges, initUniformRanges n = .ok ranges ∧ ranges.length = n.toNat
      ∧ (∀ range ∈ ranges.head?, range.startKey = [])
      ∧ (∀ range ∈ ranges.getLast?, range.endKey = [])
      ∧ ranges.IsChain (fun a b => a.endKey = b.startKey)
      ∧ ranges.Pairwise (fun a b => a.startKey < b.startKey)
      ∧ ∀ key : Bytes, ranges.countP (fun range => range.contains key) = 1
        ∧ ∃ range, ranges.find? (fun range => range.contains key) = some range := by
  have hpos := toNat_pos hn
  refine ⟨uniformRanges n, initUniformRanges_eq hn, ?_, ?_, ?_, isChain_uniformRanges n,
    pairwise_uniformRanges hn, fun key => ⟨countP_contains hn key, exists_find_contains hn key⟩⟩
  · rw [uniformRanges, List.length_map, List.length_range]
  · intro range hr
    rw [uniformRanges, List.head?_map, List.head?_range, if_neg hpos.ne', Option.map_some] at hr
    obtain rfl := Option.mem_some.mp hr
    rw [startKey_uniformRange hpos, if_pos rfl]
  · intro range hr
    rw [uniformRanges, List.getLast?_map, List.getLast?_range, if_neg hpos.ne',
      Option.map_some] at hr
    obtain rfl := Option.mem_some.mp hr
    rw [endKey_uniformRange (Nat.sub_lt hpos Nat.one_pos), if_pos rfl]

/-- The ranges of three shards. -/
theorem ranges_partition_three :
    ∃ ranges, initUniformRanges 3 = .ok ranges ∧ ranges.length = (3 : UInt64).toNat
      ∧ (∀ range ∈ ranges.head?, range.startKey = [])
      ∧ (∀ range ∈ ranges.getLast?, range.endKey = [])
      ∧ ranges.IsChain (fun a b => a.endKey = b.startKey)
      ∧ ranges.Pairwise (fun a b => a.startKey < b.startKey)
      ∧ ∀ key : Bytes, ranges.countP (fun range => range.contains key) = 1
        ∧ ∃ range, ranges.find? (fun range => range.contains key) = some range :=
  ranges_partition (by decide)

/-! ## The shards of Morton keys -/

/-- A code of 63 bits has the quotient `i` exactly for the lower half of the shards. -/
theorem exists_code_iff (hn : n ≠ 0) (hmax : n.toNat ≤ 2 ^ 20) {i : Nat} (hi : i < n.toNat) :
    (∃ c, c < 2 ^ 63 ∧ min (c / (stepOf n + 1)) (n.toNat - 1) = i) ↔ 2 * i < n.toNat := by
  have hlo : uint64Max.toNat < n.toNat * (stepOf n + 1) :=
    Nat.lt_mul_div_succ _ (toNat_pos hn)
  have hhi : n.toNat * stepOf n ≤ uint64Max.toNat := Nat.mul_div_le _ _
  have hword : uint64Max.toNat = 2 ^ 64 - 1 := rfl
  rw [hword] at hlo hhi
  have hstep : n.toNat ≤ stepOf n + 1 := by
    by_contra hlt
    have hle : n.toNat * (stepOf n + 1) ≤ 2 ^ 20 * 2 ^ 20 := Nat.mul_le_mul hmax (by omega)
    omega
  rw [Nat.mul_succ] at hlo
  simp only [min_div_eq_iff (s := stepOf n + 1) (Nat.succ_pos _) (Nat.le_sub_one_of_lt hi)]
  constructor
  · rintro ⟨c, hc, hle, -⟩
    by_contra hge
    have hcode : n.toNat * (stepOf n + 1) ≤ 2 * i * (stepOf n + 1) :=
      Nat.mul_le_mul_right _ (Nat.not_lt.mp hge)
    rw [Nat.mul_assoc, Nat.mul_succ n.toNat] at hcode
    omega
  · intro hlt
    have hcode : (2 * i + 1) * (stepOf n + 1) ≤ n.toNat * (stepOf n + 1) :=
      Nat.mul_le_mul_right _ hlt
    rw [Nat.succ_mul, Nat.mul_assoc, Nat.mul_succ n.toNat] at hcode
    refine ⟨i * (stepOf n + 1), by omega, le_rfl, Or.inr ?_⟩
    rw [Nat.succ_mul]
    exact Nat.lt_add_of_pos_right (Nat.succ_pos _)

/-- The shards of the codes of voxels. -/
theorem exists_voxel_iff {dirs : Nat → Directory} {draws : Nat → Nat → Bool} (hn : 2 ≤ n)
    (h : ShardedKVEngine.open n dirs draws = .ok e) (i : Nat) :
    (∃ ix iy iz, InGrid ix ∧ InGrid iy ∧ InGrid iz
        ∧ ∀ t, e.getShard (spatialKey (mortonCode ix iy iz) t) = .ok i)
      ↔ ∃ c, c < 2 ^ 63 ∧ min (c / (stepOf n + 1)) (n.toNat - 1) = i := by
  simp only [getShard_spatialKey hn h, Except.ok.injEq, forall_const]
  constructor
  · rintro ⟨ix, iy, iz, hx, hy, hz, hi⟩
    exact ⟨_, mortonCode_lt hx hy hz, hi⟩
  · rintro ⟨c, hc, hi⟩
    have hword : (UInt64.ofNat c).toNat = c := UInt64.toNat_ofNat_of_lt' (hc.trans (by decide))
    obtain ⟨ix, iy, iz, hx, hy, hz, hcode⟩ := exists_mortonCode (c := UInt64.ofNat c) (by rwa [hword])
    refine ⟨ix, iy, iz, hx, hy, hz, ?_⟩
    rw [hcode, hword, hi]

/-- **Morton keys reach a shard** exactly in the lower half: the codes have 63 bits,
    and the shards share out those of 64. -/
theorem reached_by_morton_iff {dirs : Nat → Directory} {draws : Nat → Nat → Bool} (hn : 2 ≤ n)
    (hmax : n.toNat ≤ 2 ^ 20) (h : ShardedKVEngine.open n dirs draws = .ok e) {i : Nat}
    (hi : i < n.toNat) :
    (∃ ix iy iz, InGrid ix ∧ InGrid iy ∧ InGrid iz
        ∧ ∀ t, e.getShard (spatialKey (mortonCode ix iy iz) t) = .ok i) ↔ 2 * i < n.toNat := by
  rw [exists_voxel_iff hn h, exists_code_iff (ne_zero_of_two_le hn) hmax hi]

/-- The first of two shards. -/
theorem reached_by_morton_iff_two :
    ∃ e, ShardedKVEngine.open 2 (fun _ => []) (fun _ _ => false) = .ok e
      ∧ ((∃ ix iy iz, InGrid ix ∧ InGrid iy ∧ InGrid iz
          ∧ ∀ t, e.getShard (spatialKey (mortonCode ix iy iz) t) = .ok 0)
        ↔ 2 * 0 < (2 : UInt64).toNat) := by
  obtain ⟨e, h⟩ := opens_two
  exact ⟨e, h, reached_by_morton_iff (by decide) (by decide) h (by decide)⟩

/-- **The second of two shards** gets no Morton key. -/
theorem second_shard_not_reached :
    ∃ e, ShardedKVEngine.open 2 (fun _ => []) (fun _ _ => false) = .ok e
      ∧ ¬ ∃ ix iy iz, InGrid ix ∧ InGrid iy ∧ InGrid iz
          ∧ ∀ t, e.getShard (spatialKey (mortonCode ix iy iz) t) = .ok 1 := by
  obtain ⟨e, h⟩ := opens_two
  refine ⟨e, h, ?_⟩
  rw [exists_voxel_iff (by decide) h, exists_code_iff (by decide) (by decide) (by decide)]
  decide

end KvShardRanges
