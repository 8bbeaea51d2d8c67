import LightKV.KvScanProofs
import LightKV.KvSpatialKeyProofs

/-! # The sharded engine

    `ShardedKVEngine` keeps a list of engines.  `GetShard` picks the one for a
    key: by a division of the Morton code when the key is long enough to have
    one, by a scan of `ranges_` otherwise.  `RangeQuery` leaves out the shards
    whose range in `ranges_` does not meet the query and merges the iterators of
    the others.  From two shards on every key has a shard (`getShard_spec`). -/

namespace KvSharding

open Execution KvBytes KvDirectory KvEngine KvIterators KvMerging KvScan KvSpatialKey KvTableIterator

/-! ## The ranges -/

/-- `UINT64_MAX`. -/
def uint64Max : UInt64 := 18446744073709551615

/-- A division of unsigned words. -/
def divide (a b : UInt64) : Except Fault UInt64 :=
  if b = 0 then .error .divisionByZero else pure (a / b)

/-- `ShardRange`; an empty string is no bound. -/
structure ShardRange where
  startKey : Bytes
  endKey : Bytes
  shardIndex : UInt64

/-- One turn of the loop of `InitUniformRanges`. -/
def uniformRange (shardNum step i : UInt64) : ShardRange :=
  let startCode := i * step
  let endCode := if i = shardNum - 1 then uint64Max else (i + 1) * step
  let startKeyStruct : SpatialKey3D := ⟨0x01, 0, startCode, 0⟩
  let endKeyStruct : SpatialKey3D := ⟨0x01, 0, endCode, 0⟩
  { startKey := if i = 0 then [] else startKeyStruct.toBytes
    endKey := if i = shardNum - 1 then [] else endKeyStruct.toBytes
    shardIndex := i }

/-- `InitUniformRanges`. -/
def initUniformRanges (shardNum : UInt64) : Except Fault (List ShardRange) := do
  let step ← divide uint64Max shardNum
  pure ((List.range shardNum.toNat).map (fun i => uniformRange shardNum step (UInt64.ofNat i)))

/-- The test of `GetShard`'s scan. -/
def ShardRange.contains (range : ShardRange) (key : Bytes) : Bool :=
  let geStart := range.startKey.isEmpty || range.startKey ≤ key
  let ltEnd := range.endKey.isEmpty || key < range.endKey
  geStart && ltEnd

/-- The test of `RangeQuery`'s pruning. -/
def ShardRange.noOverlap (range : ShardRange) (startKey endKey : Bytes) : Bool :=
  (!range.endKey.isEmpty && range.endKey ≤ startKey)
    || (!range.startKey.isEmpty && endKey < range.startKey)

/-! ## The engine -/

/-- `ShardedKVEngine`, its scheduler thread apart. -/
structure ShardedKVEngine where
  shardNum : UInt64
  shards : List KVEngine
  ranges : List ShardRange

/-- The shards of the constructor, over the directories it finds.  Each takes the
    defaults of `KVEngine`. -/
def openShards (dirs : Nat → Directory) (draws : Nat → Nat → Bool) :
    List Nat → Except Fault (List KVEngine)
  | [] => pure []
  | i :: is => do
      let shard ← KVEngine.open (dirs i) 20000 16 (draws i)
      let shards ← openShards dirs draws is
      pure (shard :: shards)

/-- The constructor. -/
def ShardedKVEngine.open (shardNum : UInt64) (dirs : Nat → Directory) (draws : Nat → Nat → Bool) :
    Except Fault ShardedKVEngine := do
  let shards ← openShards dirs draws (List.range shardNum.toNat)
  let ranges ← initUniformRanges shardNum
  pure ⟨shardNum, shards, ranges⟩

/-- The engine where a `pread` moves at most `maxRead` bytes. -/
def ShardedKVEngine.upTo (maxRead : Nat) (e : ShardedKVEngine) : ShardedKVEngine :=
  { e with shards := e.shards.map (KVEngine.upTo maxRead) }

/-- `*shards_[i]`. -/
def ShardedKVEngine.shard (e : ShardedKVEngine) (i : Nat) : Except Fault KVEngine :=
  match e.shards[i]? with
  | some shard => pure shard
  | none => .error .outOfBounds

/-- `GetShard`: the index of the shard it returns. -/
def ShardedKVEngine.getShard (e : ShardedKVEngine) (key : Bytes) : Except Fault Nat :=
  if key.length ≥ SpatialKey3D.sizeof then do
    let hostMorton := be64toh ((key.drop 2).take 8)
    let step ← divide uint64Max e.shardNum
    let shardIndex ← divide hostMorton (step + 1)
    if shardIndex ≥ e.shardNum then pure (e.shardNum - 1).toNat
    else pure shardIndex.toNat
  else
    match e.ranges.find? (fun range => range.contains key) with
    | some range => pure range.shardIndex.toNat
    | none => pure (e.shards.length - 1)

/-- A shard is changed in place. -/
def ShardedKVEngine.modify (e : ShardedKVEngine) (i : Nat)
    (f : KVEngine → Except Fault KVEngine) : Except Fault ShardedKVEngine := do
  let shard ← e.shard i
  let shard ← f shard
  pure { e with shards := e.shards.set i shard }

/-- `Put`. -/
def ShardedKVEngine.put (e : ShardedKVEngine) (key value : Bytes) :
    Except Fault ShardedKVEngine := do
  let i ← e.getShard key
  e.modify i (fun shard => shard.put key value)

/-- `Get`. -/
def ShardedKVEngine.get (e : ShardedKVEngine) (key : Bytes) : Except Fault (Option Bytes) := do
  let i ← e.getShard key
  let shard ← e.shard i
  shard.get key

/-- `Delete`, and `Erase`. -/
def ShardedKVEngine.delete (e : ShardedKVEngine) (key : Bytes) : Except Fault ShardedKVEngine := do
  let i ← e.getShard key
  e.modify i (fun shard => shard.erase key)

/-- A loop over the shards. -/
def forShards (f : KVEngine → Except Fault KVEngine) : List KVEngine → Except Fault (List KVEngine)
  | [] => pure []
  | shard :: shards => do
      let shard ← f shard
      let shards ← forShards f shards
      pure (shard :: shards)

/-- `CompactAll`. -/
def ShardedKVEngine.compactAll (e : ShardedKVEngine) : Except Fault ShardedKVEngine := do
  let shards ← forShards (fun shard => shard.compact) e.shards
  pure { e with shards := shards }

/-- A turn of `BackgroundCompactScheduler`. -/
def ShardedKVEngine.backgroundCompact (e : ShardedKVEngine) : Except Fault ShardedKVEngine := do
  let shards ← forShards
    (fun shard => if shard.needsCompaction 5 then shard.compact else pure shard) e.shards
  pure { e with shards := shards }

/-- The iterators of the shards that are not pruned. -/
def ShardedKVEngine.shardIterators (e : ShardedKVEngine) (startKey endKey : Bytes) :
    List ShardRange → Except Fault (List (MergingIterator EngineIterator))
  | [] => pure []
  | range :: ranges =>
      if range.noOverlap startKey endKey then e.shardIterators startKey endKey ranges
      else do
        let shard ← e.shard range.shardIndex.toNat
        let it ← shard.newIterator
        let its ← e.shardIterators startKey endKey ranges
        pure (it :: its)

/-- `RangeQuery`. -/
def ShardedKVEngine.rangeQuery (e : ShardedKVEngine) (startKey endKey : Bytes) :
    Except Fault (List IteratorEntry) := do
  let shardIterators ← e.shardIterators startKey endKey e.ranges
  if shardIterators.isEmpty then pure []
  else do
    let globalMergeIter ← MergingIterator.new shardIterators
    let globalMergeIter ← KvIterator.seek globalMergeIter startKey
    collect (fun key => !decide (key > endKey)) (KvIterator.bound globalMergeIter + 1)
      globalMergeIter

/-! ## Every key has a shard -/

theorem divide_of_ne_zero {a b : UInt64} (h : b ≠ 0) : divide a b = .ok (a / b) := by
  rw [divide, if_neg h]
  rfl

variable {n : UInt64}

theorem ne_zero_of_two_le (h : 2 ≤ n) : n ≠ 0 := by
  rintro rfl
  exact absurd h (by decide)

/-- From two shards on, `step + 1` does not wrap. -/
theorem step_succ_ne_zero (h : 2 ≤ n) : uint64Max / n + 1 ≠ 0 := by
  have htwo : 2 ≤ n.toNat := UInt64.le_iff_toNat_le.mp h
  have hdiv : uint64Max.toNat / n.toNat ≤ uint64Max.toNat / 2 :=
    Nat.div_le_div_left htwo (by decide)
  have hmax : uint64Max.toNat = 18446744073709551615 := rfl
  intro hzero
  have hnat := congrArg UInt64.toNat hzero
  rw [UInt64.toNat_add, UInt64.toNat_div] at hnat
  have hsum : uint64Max.toNat / n.toNat + (1 : UInt64).toNat < 2 ^ 64 := by
    rw [hmax] at hdiv ⊢
    exact Nat.lt_of_le_of_lt (Nat.add_le_add_right hdiv 1) (by decide)
  rw [Nat.mod_eq_of_lt hsum] at hnat
  exact absurd hnat (Nat.succ_ne_zero _)

/-- The ranges of the constructor. -/
theorem initUniformRanges_eq (h : n ≠ 0) : initUniformRanges n
    = .ok ((List.range n.toNat).map (fun i => uniformRange n (uint64Max / n) (UInt64.ofNat i))) := by
  rw [initUniformRanges, divide_of_ne_zero h]
  rfl

/-- The constructor's parts fit together. -/
structure ShardedKVEngine.WellFormed (e : ShardedKVEngine) : Prop where
  two_le : 2 ≤ e.shardNum
  ranges : initUniformRanges e.shardNum = .ok e.ranges
  length : e.shards.length = e.shardNum.toNat

variable {e : ShardedKVEngine}

/-- The ranges are numbered by their shards. -/
theorem ShardedKVEngine.WellFormed.map_shardIndex (h : e.WellFormed) :
    e.ranges.map (fun range => range.shardIndex.toNat) = List.range e.shardNum.toNat := by
  have hranges := h.ranges
  rw [initUniformRanges_eq (ne_zero_of_two_le h.two_le), Except.ok.injEq] at hranges
  rw [← hranges, List.map_map]
  refine (List.map_congr_left ?_).trans (List.map_id _)
  intro i hi
  have hlt : i < 2 ^ 64 := (List.mem_range.mp hi).trans e.shardNum.toNat_lt
  exact UInt64.toNat_ofNat_of_lt hlt

theorem ShardedKVEngine.WellFormed.shardIndex_lt (h : e.WellFormed) {range : ShardRange}
    (hr : range ∈ e.ranges) : range.shardIndex.toNat < e.shardNum.toNat := by
  have hmem : range.shardIndex.toNat ∈ e.ranges.map (fun range => range.shardIndex.toNat) :=
    List.mem_map_of_mem hr
  rwa [h.map_shardIndex, List.mem_range] at hmem

/-- **Every key has a shard.** -/
theorem getShard_spec (h : e.WellFormed) (key : Bytes) :
    ∃ i, e.getShard key = .ok i ∧ i < e.shardNum.toNat := by
  have hpos : 0 < e.shardNum.toNat :=
    Nat.lt_of_lt_of_le Nat.two_pos (UInt64.le_iff_toNat_le.mp h.two_le)
  rw [ShardedKVEngine.getShard]
  by_cases hlong : key.length ≥ SpatialKey3D.sizeof
  · rw [if_pos hlong, divide_of_ne_zero (ne_zero_of_two_le h.two_le)]
    simp only [ok_bind, divide_of_ne_zero (step_succ_ne_zero h.two_le)]
    split
    · refine ⟨_, rfl, ?_⟩
      have hone : 1 ≤ e.shardNum := UInt64.le_iff_toNat_le.mpr hpos
      rw [UInt64.toNat_sub_of_le _ _ hone]
      exact Nat.sub_lt hpos Nat.one_pos
    case isFalse hlt => exact ⟨_, rfl, UInt64.lt_iff_toNat_lt.mp (UInt64.not_le.mp hlt)⟩
  · rw [if_neg hlong]
    cases hfind : e.ranges.find? (fun range => range.contains key) with
    | some range => exact ⟨_, rfl, h.shardIndex_lt (List.mem_of_find?_eq_some hfind)⟩
    | none =>
        refine ⟨_, rfl, ?_⟩
        rw [h.length]
        exact Nat.sub_lt hpos Nat.one_pos

/-- A key's shard does not depend on what the shards hold. -/
theorem getShard_with_shards {shards : List KVEngine} (h : shards.length = e.shards.length)
    (key : Bytes) : ({ e with shards := shards } : ShardedKVEngine).getShard key = e.getShard key := by
  simp only [ShardedKVEngine.getShard, h]

theorem ShardedKVEngine.WellFormed.with_shards (h : e.WellFormed) {shards : List KVEngine}
    (hlen : shards.length = e.shards.length) :
    ({ e with shards := shards } : ShardedKVEngine).WellFormed :=
  ⟨h.two_le, h.ranges, hlen.trans h.length⟩

end KvSharding
