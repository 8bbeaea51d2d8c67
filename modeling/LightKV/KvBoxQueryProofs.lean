import LightKV.KvRangeEndsProofs
import LightKV.KvRangeQueryProofs

/-! # Box queries

    A box of voxels is read with the two halves of the engine together:
    `GenerateRanges` gives ranges of codes, and each becomes a `RangeQuery` over the
    keys of one layer and level, from the earliest time of its first code to the
    latest of its last (`queryRange`).

    The results, one behind the other, stand in order.  Of the voxels of the box
    they hold every readable key but those whose shard was pruned
    (`box_query_iff`), and which these are can be told from the codes alone
    (`Lost`): in the layer of the cuts, the keys which a cut has just passed, if the
    range begins behind that cut; in the layers above it, the keys of every shard but
    the last; in the layer below it, the keys of every shard but the first. -/

namespace KvBoxQuery

open Execution KWayMerge KvBytes KvIterators KvMergeRanges KvRangeEnds KvRangeQuery KvRouting
open KvSharding KvSpatial KvSpatialKey KvStore KvTable

/-! ## Keys and queries -/

/-- A key of a layer and a level. -/
def voxelKey (layer lod : UInt8) (code timestamp : UInt64) : Bytes :=
  (⟨layer, lod, code, timestamp⟩ : SpatialKey3D).toBytes

/-- The query for a range of codes, at all times. -/
def queryRange (e : ShardedKVEngine) (layer lod : UInt8) (r : MortonRange) :
    Except Fault (List IteratorEntry) :=
  e.rangeQuery (voxelKey layer lod r.startCode 0) (voxelKey layer lod r.endCode uint64Max)

/-- **The codes a query misses** that starts at a code: the division puts them in a
    shard whose range ends at or before the first key of the query, or starts behind
    the last. -/
def Lost (n : UInt64) (layer lod : UInt8) (start code : UInt64) : Prop :=
  (code.toNat / (stepOf n + 1) + 1 < n.toNat
      ∧ (1 < layer ∨ layer = 1 ∧ (0 < lod
        ∨ (code.toNat / (stepOf n + 1) + 1) * stepOf n ≤ start.toNat)))
    ∨ (0 < code.toNat / (stepOf n + 1) ∧ layer = 0)

variable {n : UInt64} {e : ShardedKVEngine} {layer lod : UInt8} {start last code timestamp : UInt64}

theorem le_uint64Max (a : UInt64) : a ≤ uint64Max :=
  UInt64.le_iff_toNat_le.mpr (Nat.le_sub_one_of_lt a.toNat_lt)

/-- The keys of one layer and level stand in the order of their codes. -/
theorem voxelKey_lt_iff {code' timestamp' : UInt64} :
    voxelKey layer lod code timestamp < voxelKey layer lod code' timestamp'
      ↔ code < code' ∨ code = code' ∧ timestamp < timestamp' :=
  SpatialKey3D.toBytes_lt_iff rfl rfl

/-- The keys between the ends of a query are those of its codes. -/
theorem between_voxelKeys_iff : voxelKey layer lod start 0 ≤ voxelKey layer lod code timestamp
      ∧ voxelKey layer lod code timestamp ≤ voxelKey layer lod last uint64Max
    ↔ start ≤ code ∧ code ≤ last := by
  have hmin : (0 : UInt64) ≤ timestamp := UInt64.zero_le
  have hmax := le_uint64Max timestamp
  rw [← not_lt, ← not_lt, voxelKey_lt_iff, voxelKey_lt_iff]
  simp only [UInt64.lt_iff_toNat_lt, UInt64.le_iff_toNat_le, ← UInt64.toNat_inj] at *
  omega

/-! ## What is pruned -/

/-- Every code is divided to a shard. -/
theorem quotient_lt (hn : n ≠ 0) (code : UInt64) : code.toNat / (stepOf n + 1) < n.toNat := by
  have hmax := Nat.lt_mul_div_succ uint64Max.toNat (toNat_pos hn)
  rw [Nat.div_lt_iff_lt_mul (Nat.succ_pos _)]
  exact (UInt64.le_iff_toNat_le.mp (le_uint64Max code)).trans_lt hmax

/-- **A cut against the first key** of a query. -/
theorem cutKey_le_voxelKey_iff {i : Nat} (hi : i < n.toNat) :
    cutKey n i ≤ voxelKey layer lod start 0
      ↔ 1 < layer ∨ layer = 1 ∧ (0 < lod ∨ i * stepOf n ≤ start.toNat) := by
  have hcut := toNat_cut hi
  rw [← not_lt, cutKey, spatialKey, voxelKey, SpatialKey3D.toBytes_lt_toBytes_iff,
    SpatialKey3D.fields_lt_iff]
  simp only [UInt8.lt_iff_toNat_lt, UInt64.lt_iff_toNat_lt, ← UInt8.toNat_inj, ← UInt64.toNat_inj,
    hcut]
  have hzero : (0 : UInt8).toNat = 0 := rfl
  have hone : (1 : UInt8).toNat = 1 := rfl
  omega

/-- The last key of a query against a cut that is not behind it. -/
theorem voxelKey_lt_cutKey_iff {i : Nat} (hi : i < n.toNat) (hcut : i * stepOf n ≤ last.toNat) :
    voxelKey layer lod last timestamp < cutKey n i ↔ layer = 0 := by
  have hword := toNat_cut hi
  rw [cutKey, spatialKey, voxelKey, SpatialKey3D.toBytes_lt_toBytes_iff, SpatialKey3D.fields_lt_iff]
  simp only [UInt8.lt_iff_toNat_lt, UInt64.lt_iff_toNat_lt, ← UInt8.toNat_inj, ← UInt64.toNat_inj,
    hword]
  have hzero : (0 : UInt8).toNat = 0 := rfl
  have hone : (1 : UInt8).toNat = 1 := rfl
  have hnone : (0 : UInt64).toNat = 0 := rfl
  omega

/-- **Pruning** of a range of the constructor. -/
theorem noOverlap_iff {i : Nat} (hi : i < n.toNat) (startKey endKey : Bytes) :
    (uniformRange n (uint64Max / n) (UInt64.ofNat i)).noOverlap startKey endKey = true
      ↔ (i + 1 < n.toNat ∧ cutKey n (i + 1) ≤ startKey) ∨ (0 < i ∧ endKey < cutKey n i) := by
  have hnil (j : Nat) : (cutKey n j).isEmpty = false := by
    rw [cutKey, List.isEmpty_eq_false_iff, ← List.length_pos_iff, length_spatialKey]
    decide
  rw [ShardRange.noOverlap, startKey_uniformRange hi, endKey_uniformRange hi, Bool.or_eq_true]
  refine or_congr ?_ ?_
  · by_cases hlast : i = n.toNat - 1
    · simp only [if_pos hlast, List.isEmpty_nil, Bool.not_true, Bool.false_and, Bool.false_eq_true,
        false_iff, not_and]
      omega
    · have hnext : i + 1 < n.toNat := by omega
      simp [if_neg hlast, hnil, hnext]
  · by_cases hfirst : i = 0
    · simp [hfirst]
    · simp [if_neg hfirst, hnil, Nat.pos_of_ne_zero hfirst]

/-- **The pruned keys of a query** are those of its lost codes. -/
theorem pruned_iff (h : e.WellFormed) (hcode : code ≤ last) :
    Pruned e (voxelKey layer lod start 0) (voxelKey layer lod last uint64Max)
        (voxelKey layer lod code timestamp)
      ↔ Lost e.shardNum layer lod start code := by
  have hne := ne_zero_of_two_le h.two_le
  have hranges := h.ranges
  rw [initUniformRanges_eq hne, Except.ok.injEq] at hranges
  have hlt := quotient_lt hne code
  obtain ⟨i, hi⟩ : ∃ i, i = code.toNat / (stepOf e.shardNum + 1) := ⟨_, rfl⟩
  rw [← hi] at hlt
  have hshard : e.getShard (voxelKey layer lod code timestamp) = .ok i := by
    rw [voxelKey, getShard_toBytes h.two_le rfl, ← hi, Nat.min_eq_left (Nat.le_sub_one_of_lt hlt)]
  -- the cut below the key's shard is not behind the key
  have hcut : i * stepOf e.shardNum ≤ last.toNat := by
    have hdiv : i * (stepOf e.shardNum + 1) ≤ code.toNat := hi ▸ Nat.div_mul_le_self _ _
    rw [Nat.mul_succ] at hdiv
    exact (Nat.le_of_add_right_le hdiv).trans (UInt64.le_iff_toNat_le.mp hcode)
  have hpruned : Pruned e (voxelKey layer lod start 0) (voxelKey layer lod last uint64Max)
      (voxelKey layer lod code timestamp)
      ↔ (uniformRange e.shardNum (uint64Max / e.shardNum) (UInt64.ofNat i)).noOverlap
        (voxelKey layer lod start 0) (voxelKey layer lod last uint64Max) = true := by
    rw [Pruned, hshard, ← hranges]
    constructor
    · rintro ⟨range, hr, heq, hno⟩
      obtain ⟨j, hj, rfl⟩ := List.mem_map.mp hr
      have hij : i = j := (Except.ok.inj heq).trans (toNat_index (List.mem_range.mp hj))
      rwa [hij]
    · intro hno
      exact ⟨_, List.mem_map_of_mem (List.mem_range.mpr hlt), congrArg Except.ok (toNat_index hlt).symm,
        hno⟩
  rw [hpruned, noOverlap_iff hlt, Lost, ← hi, voxelKey_lt_cutKey_iff hlt hcut]
  refine or_congr (and_congr_right fun hnext => ?_) Iff.rfl
  exact cutKey_le_voxelKey_iff hnext

/-! ## What the queries of a box find -/

/-- **What an engine answers to range queries**: a map, but for the keys of pruned
    shards. -/
structure Answers (e : ShardedKVEngine) (g : Bytes → Option Bytes) : Prop where
  wellFormed : e.WellFormed
  query : ∀ startKey endKey, ∃ out, e.rangeQuery startKey endKey = .ok out
    ∧ Ascending IteratorEntry.key out
    ∧ ∀ k v, (∃ x ∈ out, x.key = k ∧ x.value = v)
      ↔ startKey ≤ k ∧ k ≤ endKey ∧ g k = some v ∧ ¬ Pruned e startKey endKey k

theorem answers_of_shardsRep {ss : List Store} (h : ShardsRep e ss) : Answers e (readsAs e) := by
  refine ⟨h.wellFormed, ?_⟩
  intro startKey endKey
  obtain ⟨out, hrun, hasc, -, hmem⟩ := rangeQuery_spec h startKey endKey
  refine ⟨out, hrun, hasc, ?_⟩
  intro k v
  rw [hmem, readsAs_iff]

variable {g : Bytes → Option Bytes}

/-- **The query for one range**: the keys of the map between its ends, those of lost
    codes apart. -/
theorem Answers.queryRange (h : Answers e g) (layer lod : UInt8) (r : MortonRange) :
    ∃ out, KvBoxQuery.queryRange e layer lod r = .ok out ∧ Ascending IteratorEntry.key out
      ∧ (∀ x ∈ out, voxelKey layer lod r.startCode 0 ≤ x.key
        ∧ x.key ≤ voxelKey layer lod r.endCode uint64Max ∧ g x.key = some x.value)
      ∧ ∀ code timestamp v,
        (∃ x ∈ out, x.key = voxelKey layer lod code timestamp ∧ x.value = v)
          ↔ r.Holds code ∧ g (voxelKey layer lod code timestamp) = some v
            ∧ ¬ Lost e.shardNum layer lod r.startCode code := by
  obtain ⟨out, hrun, hasc, hmem⟩ := h.query (voxelKey layer lod r.startCode 0)
    (voxelKey layer lod r.endCode uint64Max)
  refine ⟨out, hrun, hasc, ?_, ?_⟩
  · intro x hx
    obtain ⟨hlo, hhi, hget, -⟩ := (hmem x.key x.value).mp ⟨x, hx, rfl, rfl⟩
    exact ⟨hlo, hhi, hget⟩
  · intro code timestamp v
    rw [hmem, ← and_assoc, between_voxelKeys_iff, MortonRange.Holds]
    refine and_congr_right fun hcode => and_congr_right fun _ => ?_
    rw [pruned_iff h.wellFormed hcode.2]

/-- A code is in one range only. -/
theorem eq_of_holds {ranges : List MortonRange} (hgap : ranges.Pairwise Gap) {r r' : MortonRange}
    (hr : r ∈ ranges) (hr' : r' ∈ ranges) (h : r.Holds code) (h' : r'.Holds code) : r = r' := by
  have hapart : ranges.Pairwise (fun a b => ¬ (a.Holds code ∧ b.Holds code)) := by
    refine hgap.imp ?_
    rintro a b hab ⟨ha, hb⟩
    have hend := UInt64.le_iff_toNat_le.mp ha.2
    have hstart := UInt64.le_iff_toNat_le.mp hb.1
    rw [Gap] at hab
    omega
  have hsymm : Std.Symm (fun a b : MortonRange => ¬ (a.Holds code ∧ b.Holds code)) :=
    ⟨fun _ _ hab hba => hab hba.symm⟩
  by_contra hne
  exact hapart.forall hr hr' hne ⟨h, h'⟩

/-- **The queries of a box**, on an engine that answers as a map. -/
theorem Answers.box (h : Answers e g) {ixMin iyMin izMin ixMax iyMax izMax : UInt64}
    (hx : ixMin.toNat < 2 ^ 21 ∧ ixMax.toNat < 2 ^ 21)
    (hy : iyMin.toNat < 2 ^ 21 ∧ iyMax.toNat < 2 ^ 21)
    (hz : izMin.toNat < 2 ^ 21 ∧ izMax.toNat < 2 ^ 21) (layer lod : UInt8) :
    ∃ ranges outs, generateRanges ixMin iyMin izMin ixMax iyMax izMax = .ok ranges
      ∧ List.Forall₂ (fun r out => KvBoxQuery.queryRange e layer lod r = .ok out) ranges outs
      ∧ Ascending IteratorEntry.key outs.flatten
      ∧ (∀ x ∈ outs.flatten, g x.key = some x.value
        ∧ ∃ r ∈ ranges, voxelKey layer lod r.startCode 0 ≤ x.key
          ∧ x.key ≤ voxelKey layer lod r.endCode uint64Max)
      ∧ ∀ ix iy iz timestamp v,
        Between ixMin ixMax ix → Between iyMin iyMax iy → Between izMin izMax iz →
        ((∃ x ∈ outs.flatten,
            x.key = voxelKey layer lod (mortonCode ix iy iz) timestamp ∧ x.value = v)
          ↔ g (voxelKey layer lod (mortonCode ix iy iz) timestamp) = some v
            ∧ ∀ r ∈ ranges, r.startCode ≤ mortonCode ix iy iz → mortonCode ix iy iz ≤ r.endCode →
              ¬ Lost e.shardNum layer lod r.startCode (mortonCode ix iy iz)) := by
  obtain ⟨box, leaves, hb, hleaves, -, hrun, hin⟩ := generateRanges_eq hx hy hz
  obtain ⟨hkeep, -, hgap⟩ := mergeRanges_spec (bounded_leaves hb hleaves)
  choose out hout hasc hwithin hfound using h.queryRange layer lod
  refine ⟨_, (mergeRanges (leaves.map rangeOf)).map out, hrun, ?_, ?_, ?_, ?_⟩
  · rw [List.forall₂_map_right_iff, List.forall₂_same]
    exact fun r _ => hout r
  · refine List.pairwise_flatten.mpr ⟨?_, ?_⟩
    · intro l hl
      obtain ⟨r, -, rfl⟩ := List.mem_map.mp hl
      exact hasc r
    · -- the last key of a range is before the first of the next
      refine List.pairwise_map.mpr (hgap.imp ?_)
      intro a b hab x hx y hy
      have hbelow : voxelKey layer lod a.endCode uint64Max < voxelKey layer lod b.startCode 0 :=
        voxelKey_lt_iff.mpr (Or.inl (UInt64.lt_iff_toNat_lt.mpr (Nat.lt_of_succ_lt hab)))
      exact ((hwithin a x hx).2.1.trans_lt hbelow).trans_le (hwithin b y hy).1
  · intro x hx
    obtain ⟨l, hl, hxl⟩ := List.mem_flatten.mp hx
    obtain ⟨r, hr, rfl⟩ := List.mem_map.mp hl
    obtain ⟨hlo, hhi, hget⟩ := hwithin r x hxl
    exact ⟨hget, r, hr, hlo, hhi⟩
  · intro ix iy iz timestamp v hix hiy hiz
    constructor
    · rintro ⟨x, hx, hk⟩
      obtain ⟨l, hl, hxl⟩ := List.mem_flatten.mp hx
      obtain ⟨r, hr, rfl⟩ := List.mem_map.mp hl
      obtain ⟨hholds, hget, hkept⟩ := (hfound r _ timestamp v).mp ⟨x, hxl, hk⟩
      refine ⟨hget, ?_⟩
      intro r' hr' hlo hhi
      rwa [← eq_of_holds hgap hr hr' hholds ⟨hlo, hhi⟩]
    · rintro ⟨hget, hkept⟩
      have hvoxel : box.Contains ix iy iz := (hin ix iy iz).mpr ⟨hix, hiy, hiz⟩
      obtain ⟨r, hr, hlo, hhi⟩ := (hkeep _).mpr (covered_of_contains hb hleaves hvoxel)
      obtain ⟨x, hxl, hk⟩ := (hfound r _ timestamp v).mpr ⟨⟨hlo, hhi⟩, hget, hkept r hr hlo hhi⟩
      exact ⟨x, List.mem_flatten.mpr ⟨_, List.mem_map_of_mem hr, hxl⟩, hk⟩

/-- **A box query.**  After every run of operations, the ranges of a box can all be
    queried.  What they give, one behind the other, stands in order and is what
    `Get` answers; and of every voxel of the box it has exactly the readable keys
    that the query for the voxel's range does not lose. -/
theorem box_query_iff {n : UInt64} (hn : 2 ≤ n) (draws : Nat → Nat → Bool) {os : List ShardOp}
    (hos : ∀ o ∈ os, o.KeyFits) {ixMin iyMin izMin ixMax iyMax izMax : UInt64}
    (hx : ixMin.toNat < 2 ^ 21 ∧ ixMax.toNat < 2 ^ 21)
    (hy : iyMin.toNat < 2 ^ 21 ∧ iyMax.toNat < 2 ^ 21)
    (hz : izMin.toNat < 2 ^ 21 ∧ izMax.toNat < 2 ^ 21) (layer lod : UInt8) :
    Runs (fresh n draws >>= fun e => os.foldlM perform e) (fun e => ∃ ranges outs,
      generateRanges ixMin iyMin izMin ixMax iyMax izMax = .ok ranges
      ∧ List.Forall₂ (fun r out => queryRange e layer lod r = .ok out) ranges outs
      ∧ Ascending IteratorEntry.key outs.flatten
      ∧ (∀ x ∈ outs.flatten, e.get x.key = .ok (some x.value))
      ∧ ∀ ix iy iz timestamp v,
        Between ixMin ixMax ix → Between iyMin iyMax iy → Between izMin izMax iz →
        ((∃ x ∈ outs.flatten,
            x.key = voxelKey layer lod (mortonCode ix iy iz) timestamp ∧ x.value = v)
          ↔ e.get (voxelKey layer lod (mortonCode ix iy iz) timestamp) = .ok (some v)
            ∧ ∀ r ∈ ranges, r.startCode ≤ mortonCode ix iy iz → mortonCode ix iy iz ≤ r.endCode →
              ¬ Lost e.shardNum layer lod r.startCode (mortonCode ix iy iz))) := by
  refine (run_spec hn draws hos).mono ?_
  rintro e ⟨ss, h⟩
  obtain ⟨ranges, outs, hrun, houts, hasc, hread, hfound⟩ :=
    (answers_of_shardsRep h).box hx hy hz layer lod
  simp only [readsAs_iff] at hread hfound
  exact ⟨ranges, outs, hrun, houts, hasc, fun x hx => (hread x hx).1, hfound⟩

/-- A box around the voxel of the run's key, with the axes turned around. -/
theorem box_query_iff_fiveTables :
    Runs (fresh 2 (fun _ _ => false) >>= fun e => fiveTables.foldlM perform e) (fun e =>
      ∃ ranges outs, generateRanges 3 3 3 0 0 0 = .ok ranges
        ∧ List.Forall₂ (fun r out => queryRange e 2 0 r = .ok out) ranges outs
        ∧ Ascending IteratorEntry.key outs.flatten
        ∧ (∀ x ∈ outs.flatten, e.get x.key = .ok (some x.value))
        ∧ ∀ ix iy iz timestamp v, Between 3 0 ix → Between 3 0 iy → Between 3 0 iz →
          ((∃ x ∈ outs.flatten,
              x.key = voxelKey 2 0 (mortonCode ix iy iz) timestamp ∧ x.value = v)
            ↔ e.get (voxelKey 2 0 (mortonCode ix iy iz) timestamp) = .ok (some v)
              ∧ ∀ r ∈ ranges, r.startCode ≤ mortonCode ix iy iz → mortonCode ix iy iz ≤ r.endCode →
                ¬ Lost e.shardNum 2 0 r.startCode (mortonCode ix iy iz))) :=
  box_query_iff (by decide) _ keyFits_fiveTables (by decide) (by decide) (by decide) 2 0

end KvBoxQuery
