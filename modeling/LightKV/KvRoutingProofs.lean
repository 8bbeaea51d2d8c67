import LightKV.KvShardingProofs

/-! # Routing by division and routing by ranges

    `GetShard` divides the Morton code of a long key by `step + 1`, where
    `InitUniformRanges` has cut the codes at the multiples of `step`.  From two
    shards on the two agree exactly on the codes that no cut has just passed
    (`fast_routing_iff`).  With one shard `step + 1` wraps to zero, and the
    division fails for every key that is long enough for it
    (`getShard_total_iff`). -/

namespace KvRouting

open Execution KvBytes KvDirectory KvEngine KvSharding KvSpatialKey

/-! ## The two ways to a shard -/

/-- The scan that `GetShard` falls back to. -/
def ShardedKVEngine.scanShard (e : ShardedKVEngine) (key : Bytes) : Nat :=
  match e.ranges.find? (fun range => range.contains key) with
  | some range => range.shardIndex.toNat
  | none => e.shards.length - 1

/-- A key too short to hold a Morton code is looked up in the ranges. -/
theorem getShard_of_short {e : ShardedKVEngine} {key : Bytes}
    (h : key.length < SpatialKey3D.sizeof) :
    e.getShard key = .ok (ShardedKVEngine.scanShard e key) := by
  rw [ShardedKVEngine.getShard, if_neg (Nat.not_le.mpr h), ShardedKVEngine.scanShard]
  cases e.ranges.find? (fun range => range.contains key) <;> rfl

variable {n : UInt64} {e : ShardedKVEngine}

theorem length_openShards {dirs : Nat → Directory} {draws : Nat → Nat → Bool} {is : List Nat}
    {shards : List KVEngine} (h : openShards dirs draws is = .ok shards) :
    shards.length = is.length := by
  induction is generalizing shards with
  | nil =>
      cases h
      rfl
  | cons i is ih =>
      obtain ⟨shard, -, h⟩ := bind_eq_ok.mp h
      obtain ⟨rest, hrest, h⟩ := bind_eq_ok.mp h
      cases h
      rw [List.length_cons, List.length_cons, ih hrest]

/-- **What the constructor leaves**: as many shards as it was asked for, and the
    ranges of as many, which it does not get to for no shards. -/
theorem open_spec {dirs : Nat → Directory} {draws : Nat → Nat → Bool}
    (h : ShardedKVEngine.open n dirs draws = .ok e) :
    n ≠ 0 ∧ e.shardNum = n ∧ e.shards.length = n.toNat
      ∧ e.ranges = (List.range n.toNat).map
          (fun i => uniformRange n (uint64Max / n) (UInt64.ofNat i)) := by
  obtain ⟨shards, hshards, h⟩ := bind_eq_ok.mp h
  obtain ⟨ranges, hranges, h⟩ := bind_eq_ok.mp h
  cases h
  have hn : n ≠ 0 := by
    rintro rfl
    cases hranges
  rw [initUniformRanges_eq hn] at hranges
  cases hranges
  refine ⟨hn, rfl, ?_, rfl⟩
  rw [length_openShards hshards, List.length_range]

/-! ## Arithmetic of the cuts -/

/-- The quotient by `s`, held down to `m`. -/
theorem min_div_eq_iff {c s m i : Nat} (hs : 0 < s) (hi : i ≤ m) :
    min (c / s) m = i ↔ i * s ≤ c ∧ (i = m ∨ c < (i + 1) * s) := by
  rw [← Nat.le_div_iff_mul_le hs, ← Nat.div_lt_iff_lt_mul hs]
  omega

/-- **Quotients by neighbours differ behind a cut**: at a code that has reached the
    multiple of `s` and not the same multiple of `s + 1`. -/
theorem min_div_succ_eq_iff {c s m : Nat} (hs : 0 < s) :
    min (c / (s + 1)) m = min (c / s) m
      ↔ ∀ k, 1 ≤ k → k ≤ m → ¬ (k * s ≤ c ∧ c < k * (s + 1)) := by
  have hle : c / (s + 1) ≤ c / s := Nat.div_le_div_left (Nat.le_succ s) hs
  have hsucc : 0 < s + 1 := Nat.succ_pos s
  constructor
  · rintro heq k - hk ⟨hlo, hhi⟩
    rw [← Nat.le_div_iff_mul_le hs] at hlo
    rw [← Nat.div_lt_iff_lt_mul hsucc] at hhi
    omega
  · intro hcuts
    by_contra hne
    -- the first cut above the smaller quotient is the one that was passed
    have hk : c / (s + 1) + 1 ≤ m := by omega
    have hlt : c / (s + 1) + 1 ≤ c / s := by omega
    refine hcuts (c / (s + 1) + 1) (Nat.le_add_left 1 _) hk ⟨?_, ?_⟩
    · rwa [← Nat.le_div_iff_mul_le hs]
    · rw [← Nat.div_lt_iff_lt_mul hsucc]
      exact Nat.lt_succ_self _

/-- `UINT64_MAX / shard_num_`. -/
def stepOf (n : UInt64) : Nat := uint64Max.toNat / n.toNat

theorem toNat_step (n : UInt64) : (uint64Max / n).toNat = stepOf n := UInt64.toNat_div _ _

theorem toNat_pos (hn : n ≠ 0) : 0 < n.toNat :=
  Nat.pos_of_ne_zero (fun h => hn (UInt64.toNat_inj.mp h))

theorem stepOf_pos (hn : n ≠ 0) : 0 < stepOf n :=
  Nat.div_pos (Nat.le_of_lt_succ n.toNat_lt) (toNat_pos hn)

/-- The numbers of the shards are words. -/
theorem toNat_index {i : Nat} (hi : i < n.toNat) : (UInt64.ofNat i).toNat = i :=
  UInt64.toNat_ofNat_of_lt (hi.trans n.toNat_lt)

/-- The cuts are words. -/
theorem mul_stepOf_lt {i : Nat} (hi : i ≤ n.toNat) : i * stepOf n < 2 ^ 64 := by
  have hcuts : i * stepOf n ≤ n.toNat * stepOf n := Nat.mul_le_mul_right _ hi
  have hmax : n.toNat * stepOf n ≤ uint64Max.toNat := Nat.mul_div_le _ _
  exact (hcuts.trans hmax).trans_lt (by decide)

/-! ## Both sides on a spatial key -/

/-- A key of the first layer and the finest level. -/
def spatialKey (code timestamp : UInt64) : Bytes :=
  (⟨0x01, 0, code, timestamp⟩ : SpatialKey3D).toBytes

theorem length_spatialKey (code timestamp : UInt64) :
    (spatialKey code timestamp).length = SpatialKey3D.sizeof :=
  SpatialKey3D.length_toBytes _

/-- A key is at or above a cut when its code is. -/
theorem cut_le_iff (cut code timestamp : UInt64) :
    spatialKey cut 0 ≤ spatialKey code timestamp ↔ cut ≤ code := by
  have hlt : spatialKey code timestamp < spatialKey cut 0
      ↔ code < cut ∨ code = cut ∧ timestamp < 0 := SpatialKey3D.toBytes_lt_iff rfl rfl
  have hzero : ¬ timestamp < 0 := UInt64.not_lt_zero
  rw [← not_lt, hlt, ← UInt64.not_lt]
  simp only [hzero, and_false, or_false]

/-- The key at the cut below range `i`. -/
def cutKey (n : UInt64) (i : Nat) : Bytes := spatialKey (UInt64.ofNat i * (uint64Max / n)) 0

theorem toNat_cut {i : Nat} (hi : i < n.toNat) :
    (UInt64.ofNat i * (uint64Max / n)).toNat = i * stepOf n := by
  rw [UInt64.toNat_mul, toNat_index hi, toNat_step, Nat.mod_eq_of_lt (mul_stepOf_lt hi.le)]

theorem cutKey_le_iff {i : Nat} (hi : i < n.toNat) (code timestamp : UInt64) :
    cutKey n i ≤ spatialKey code timestamp ↔ i * stepOf n ≤ code.toNat := by
  rw [cutKey, cut_le_iff, UInt64.le_iff_toNat_le, toNat_cut hi]

/-- The first range has no start, the others start at their cuts. -/
theorem startKey_uniformRange {i : Nat} (hi : i < n.toNat) :
    (uniformRange n (uint64Max / n) (UInt64.ofNat i)).startKey
      = if i = 0 then [] else cutKey n i := by
  have hfirst : UInt64.ofNat i = 0 ↔ i = 0 := by
    rw [← UInt64.toNat_inj, toNat_index hi]
    rfl
  simp only [uniformRange, hfirst, cutKey, spatialKey]

/-- The last range has no end, the others end at the next cut. -/
theorem endKey_uniformRange {i : Nat} (hi : i < n.toNat) :
    (uniformRange n (uint64Max / n) (UInt64.ofNat i)).endKey
      = if i = n.toNat - 1 then [] else cutKey n (i + 1) := by
  have hone : 1 ≤ n := UInt64.le_iff_toNat_le.mpr (Nat.zero_lt_of_lt hi)
  have hlast : UInt64.ofNat i = n - 1 ↔ i = n.toNat - 1 := by
    rw [← UInt64.toNat_inj, toNat_index hi, UInt64.toNat_sub_of_le _ _ hone]
    rfl
  simp only [uniformRange, hlast, cutKey, spatialKey, UInt64.ofNat_add]
  split <;> rfl

/-- **A range contains** the keys from its cut up to the next one. -/
theorem contains_key_iff {i : Nat} (hi : i < n.toNat) (key : Bytes) :
    (uniformRange n (uint64Max / n) (UInt64.ofNat i)).contains key = true
      ↔ (i = 0 ∨ cutKey n i ≤ key) ∧ (i = n.toNat - 1 ∨ key < cutKey n (i + 1)) := by
  have hnil (j : Nat) : (cutKey n j).isEmpty = false := by
    rw [cutKey, List.isEmpty_eq_false_iff, ← List.length_pos_iff, length_spatialKey]
    decide
  rw [ShardRange.contains, startKey_uniformRange hi, endKey_uniformRange hi, Bool.and_eq_true]
  refine and_congr ?_ ?_
  · by_cases hzero : i = 0
    · simp [hzero]
    · rw [if_neg hzero, hnil, Bool.false_or, decide_eq_true_iff]
      exact (or_iff_right hzero).symm
  · by_cases hmax : i = n.toNat - 1
    · simp [hmax]
    · rw [if_neg hmax, hnil, Bool.false_or, decide_eq_true_iff]
      exact (or_iff_right hmax).symm

/-- A spatial key is in the range of its code. -/
theorem contains_iff (hn : n ≠ 0) {i : Nat} (hi : i < n.toNat) (code timestamp : UInt64) :
    (uniformRange n (uint64Max / n) (UInt64.ofNat i)).contains (spatialKey code timestamp) = true
      ↔ min (code.toNat / stepOf n) (n.toNat - 1) = i := by
  rw [min_div_eq_iff (stepOf_pos hn) (Nat.le_sub_one_of_lt hi), contains_key_iff hi]
  refine and_congr ?_ ?_
  · rw [cutKey_le_iff hi]
    constructor
    · rintro (rfl | hle)
      · rw [Nat.zero_mul]
        exact Nat.zero_le _
      · exact hle
    · exact Or.inr
  · by_cases hmax : i = n.toNat - 1
    · simp [hmax]
    · rw [← not_le, cutKey_le_iff (by omega), Nat.not_le]

/-- **The ranges of the constructor** contain every such key once. -/
theorem mem_ranges_contains_iff {dirs : Nat → Directory} {draws : Nat → Nat → Bool}
    (h : ShardedKVEngine.open n dirs draws = .ok e) (code timestamp : UInt64) (i : Nat) :
    (∃ range ∈ e.ranges, range.shardIndex.toNat = i
        ∧ range.contains (spatialKey code timestamp) = true)
      ↔ min (code.toNat / stepOf n) (n.toNat - 1) = i := by
  obtain ⟨hn, -, -, hranges⟩ := open_spec h
  rw [hranges]
  constructor
  · rintro ⟨range, hmem, rfl, hc⟩
    obtain ⟨j, hj, rfl⟩ := List.mem_map.mp hmem
    rw [List.mem_range] at hj
    show _ = (UInt64.ofNat j).toNat
    rw [toNat_index hj]
    exact (contains_iff hn hj code timestamp).mp hc
  · intro hi
    have hlt : i < n.toNat := by
      have hpos := toNat_pos hn
      omega
    exact ⟨_, List.mem_map_of_mem (List.mem_range.mpr hlt), toNat_index hlt,
      (contains_iff hn hlt code timestamp).mpr hi⟩

/-- **The scan** ends at the range that contains the key. -/
theorem scanShard_spatialKey {dirs : Nat → Directory} {draws : Nat → Nat → Bool}
    (h : ShardedKVEngine.open n dirs draws = .ok e) (code timestamp : UInt64) :
    ShardedKVEngine.scanShard e (spatialKey code timestamp)
      = min (code.toNat / stepOf n) (n.toNat - 1) := by
  rw [ShardedKVEngine.scanShard]
  cases hfind : e.ranges.find? (fun range => range.contains (spatialKey code timestamp)) with
  | some range =>
      exact ((mem_ranges_contains_iff h code timestamp _).mp ⟨range,
        List.mem_of_find?_eq_some hfind, rfl, by simpa using List.find?_some hfind⟩).symm
  | none =>
      obtain ⟨range, hmem, -, hc⟩ := (mem_ranges_contains_iff h code timestamp _).mpr rfl
      exact absurd hc (List.find?_eq_none.mp hfind range hmem)

/-- From two shards on, `step + 1` is no wrapped word. -/
theorem toNat_step_succ (hn : 2 ≤ n) : (uint64Max / n + 1).toNat = stepOf n + 1 := by
  have htwo : 2 ≤ n.toNat := UInt64.le_iff_toNat_le.mp hn
  have hle : stepOf n ≤ uint64Max.toNat / 2 := Nat.div_le_div_left htwo (by decide)
  have hlt : stepOf n + 1 < 2 ^ 64 := (Nat.succ_le_succ hle).trans_lt (by decide)
  rw [UInt64.toNat_add, toNat_step]
  exact Nat.mod_eq_of_lt hlt

/-- **The division**, with the clamp behind it. -/
theorem getShard_toBytes {e : ShardedKVEngine} (hn : 2 ≤ n) (hnum : e.shardNum = n)
    (key : SpatialKey3D) :
    e.getShard key.toBytes = .ok (min (key.mortonCode.toNat / (stepOf n + 1)) (n.toNat - 1)) := by
  have hne : n ≠ 0 := ne_zero_of_two_le hn
  have hlong : key.toBytes.length ≥ SpatialKey3D.sizeof := key.length_toBytes.ge
  have hquot : (key.mortonCode / (uint64Max / n + 1)).toNat
      = key.mortonCode.toNat / (stepOf n + 1) := by
    rw [UInt64.toNat_div, toNat_step_succ hn]
  have hpos := toNat_pos hne
  have hlast : (n - 1).toNat = n.toNat - 1 :=
    UInt64.toNat_sub_of_le _ _ (UInt64.le_iff_toNat_le.mpr hpos)
  rw [ShardedKVEngine.getShard, if_pos hlong, hnum, divide_of_ne_zero hne]
  simp only [ok_bind, divide_of_ne_zero (step_succ_ne_zero hn), key.mortonCode_toBytes, ge_iff_le,
    UInt64.le_iff_toNat_le, hquot, hlast]
  split
  · exact congrArg Except.ok (by omega)
  · exact congrArg Except.ok (by omega)

theorem getShard_spatialKey {dirs : Nat → Directory} {draws : Nat → Nat → Bool} (hn : 2 ≤ n)
    (h : ShardedKVEngine.open n dirs draws = .ok e) (code timestamp : UInt64) :
    e.getShard (spatialKey code timestamp)
      = .ok (min (code.toNat / (stepOf n + 1)) (n.toNat - 1)) :=
  getShard_toBytes hn (open_spec h).2.1 _

/-! ## Where the two agree -/

/-- **Fast routing is range routing** exactly on the codes that no cut has just
    passed: the `k`-th cut is followed by `k` codes which the division still counts
    to the shard before it. -/
theorem fast_routing_iff {dirs : Nat → Directory} {draws : Nat → Nat → Bool} (hn : 2 ≤ n)
    (h : ShardedKVEngine.open n dirs draws = .ok e) (code timestamp : UInt64) :
    (∃ i, e.getShard (spatialKey code timestamp) = .ok i
        ∧ (∃ range ∈ e.ranges, range.shardIndex.toNat = i
          ∧ range.contains (spatialKey code timestamp) = true)
        ∧ ShardedKVEngine.scanShard e (spatialKey code timestamp) = i)
      ↔ ∀ k, 1 ≤ k → k < n.toNat → ¬ (k * stepOf n ≤ code.toNat ∧ code.toNat < k * stepOf n + k) := by
  obtain ⟨hne, -, -, -⟩ := open_spec h
  have hcuts := min_div_succ_eq_iff (c := code.toNat) (m := n.toNat - 1) (stepOf_pos hne)
  have hpos := toNat_pos hne
  simp only [Nat.le_sub_one_iff_lt hpos, Nat.mul_succ] at hcuts
  rw [← hcuts]
  simp only [getShard_spatialKey hn h, Except.ok.injEq, mem_ranges_contains_iff h,
    scanShard_spatialKey h]
  constructor
  · rintro ⟨i, hi, -, hscan⟩
    exact hi.trans hscan.symm
  · intro heq
    exact ⟨_, rfl, heq.symm, heq.symm⟩

/-- Two shards over empty directories. -/
theorem opens_two : ∃ e, ShardedKVEngine.open 2 (fun _ => []) (fun _ _ => false) = .ok e := by
  have hopens : Yields (ShardedKVEngine.open 2 (fun _ => []) (fun _ _ => false)) (fun _ => True) := by
    decide +kernel
  cases h : ShardedKVEngine.open 2 (fun _ => []) (fun _ _ => false) with
  | error f =>
      rw [h] at hopens
      exact hopens.elim
  | ok e => exact ⟨e, rfl⟩

/-- Two shards and a code far from the cut. -/
theorem fast_routing_iff_two :
    ∃ e, ShardedKVEngine.open 2 (fun _ => []) (fun _ _ => false) = .ok e
      ∧ ((∃ i, e.getShard (spatialKey 5 9) = .ok i
          ∧ (∃ range ∈ e.ranges, range.shardIndex.toNat = i
            ∧ range.contains (spatialKey 5 9) = true)
          ∧ ShardedKVEngine.scanShard e (spatialKey 5 9) = i)
        ↔ ∀ k, 1 ≤ k → k < (2 : UInt64).toNat →
          ¬ (k * stepOf 2 ≤ (5 : UInt64).toNat ∧ (5 : UInt64).toNat < k * stepOf 2 + k)) := by
  obtain ⟨e, h⟩ := opens_two
  exact ⟨e, h, fast_routing_iff (by decide) h 5 9⟩

/-- **The code at the cut between two shards** is divided into the first of them
    and lies in the range of the second. -/
theorem fast_routing_misses_range :
    Yields (ShardedKVEngine.open 2 (fun _ => []) (fun _ _ => false)) (fun e =>
      e.getShard (spatialKey 9223372036854775807 0) = .ok 0
        ∧ ShardedKVEngine.scanShard e (spatialKey 9223372036854775807 0) = 1
        ∧ ∀ range ∈ e.ranges, range.shardIndex.toNat = 0 →
          range.contains (spatialKey 9223372036854775807 0) = false) := by
  decide +kernel

/-! ## The division itself -/

/-- A number of shards between none and two. -/
theorem eq_one_of_lt_two (hn : n ≠ 0) (h : ¬ 2 ≤ n) : n = 1 := by
  rw [UInt64.le_iff_toNat_le] at h
  have hpos := toNat_pos hn
  have htwo : (2 : UInt64).toNat = 2 := rfl
  have hone : (1 : UInt64).toNat = 1 := rfl
  rw [← UInt64.toNat_inj]
  omega

/-- The scan gives a shard whatever the key. -/
theorem scanShard_lt {dirs : Nat → Directory} {draws : Nat → Nat → Bool}
    (h : ShardedKVEngine.open n dirs draws = .ok e) (key : Bytes) :
    ShardedKVEngine.scanShard e key < n.toNat := by
  obtain ⟨hne, -, hlen, hranges⟩ := open_spec h
  rw [ShardedKVEngine.scanShard]
  cases hfind : e.ranges.find? (fun range => range.contains key) with
  | some range =>
      have hmem := List.mem_of_find?_eq_some hfind
      rw [hranges] at hmem
      obtain ⟨j, hj, rfl⟩ := List.mem_map.mp hmem
      rw [List.mem_range] at hj
      show (UInt64.ofNat j).toNat < _
      rwa [toNat_index hj]
  | none =>
      show e.shards.length - 1 < _
      rw [hlen]
      exact Nat.sub_lt (toNat_pos hne) Nat.one_pos

/-- **Routing is total** exactly for two shards or more, and for keys that are too
    short for the division: with one shard `step + 1` wraps to zero. -/
theorem getShard_total_iff {dirs : Nat → Directory} {draws : Nat → Nat → Bool}
    (h : ShardedKVEngine.open n dirs draws = .ok e) (key : Bytes) :
    (∃ i, e.getShard key = .ok i ∧ i < n.toNat) ↔ n ≠ 1 ∨ key.length < SpatialKey3D.sizeof := by
  obtain ⟨hne, hnum, hlen, hranges⟩ := open_spec h
  constructor
  · rintro ⟨i, hi, -⟩
    by_contra hcon
    rw [not_or, not_not, Nat.not_lt] at hcon
    obtain ⟨rfl, hlong⟩ := hcon
    -- the divisor is the word zero
    have hzero : divide (be64toh ((key.drop 2).take 8)) (uint64Max / 1 + 1)
        = .error .divisionByZero := if_pos rfl
    rw [ShardedKVEngine.getShard, if_pos hlong, hnum, divide_of_ne_zero hne] at hi
    simp only [ok_bind, hzero] at hi
    cases hi
  · rintro (hone | hshort)
    · have htwo : 2 ≤ n := by
        by_contra hlt
        exact hone (eq_one_of_lt_two hne hlt)
      have hwf : e.WellFormed := by
        refine ⟨hnum ▸ htwo, ?_, by rw [hlen, hnum]⟩
        rw [hnum, initUniformRanges_eq hne, hranges]
      obtain ⟨i, hi, hlt⟩ := getShard_spec hwf key
      exact ⟨i, hi, hnum ▸ hlt⟩
    · exact ⟨_, getShard_of_short hshort, scanShard_lt h key⟩

/-- Two shards, and a key long enough for the division. -/
theorem getShard_total_iff_two :
    ∃ e, ShardedKVEngine.open 2 (fun _ => []) (fun _ _ => false) = .ok e
      ∧ ((∃ i, e.getShard (spatialKey 5 9) = .ok i ∧ i < (2 : UInt64).toNat)
        ↔ (2 : UInt64) ≠ 1 ∨ (spatialKey 5 9).length < SpatialKey3D.sizeof) := by
  obtain ⟨e, h⟩ := opens_two
  exact ⟨e, h, getShard_total_iff h (spatialKey 5 9)⟩

/-- **With one shard** a spatial key is divided by zero. -/
theorem one_shard_divides_by_zero :
    Yields (ShardedKVEngine.open 1 (fun _ => []) (fun _ _ => false)) (fun e =>
      e.getShard (spatialKey 5 9) = .error .divisionByZero) := by
  decide +kernel

end KvRouting
