import LightKV.KvBoxQueryProofs
import LightKV.KvQueryInFlightProofs
import LightKV.KvVoxelProofs

/-! # The voxel map

    The parts together: a block of points is serialized and put under the bytes of
    its key, and a box is read by `GenerateRanges`, a `RangeQuery` for each range,
    `FromSlice` for the keys and `Parse` for the values (`readBox`).

    Seen from there, the sharded engine with its scheduler is a map from spatial
    keys to blocks.  A run of typed writes is one of byte writes (`Encodes`), and what
    a box read gives is decoded without a failure: of the layer and level asked for,
    in the order of codes and times, each key with the last block put under it, up to
    as many points as 16 bits count (`box_of_blocks`). -/

namespace KvVoxelMap

open Execution KWayMerge KvBoxQuery KvBytes KvIterators KvQueryInFlight KvRangeQuery KvScheduler
open KvMerging KvSharding KvSpatial KvSpatialKey KvVoxel

/-! ## Blocks -/

/-- What `Serialize` is given. -/
structure Block where
  baseXMm : Int32
  baseYMm : Int32
  baseZMm : Int32
  occupancyProb : UInt8
  qualityScore : UInt8
  points : List CompressedPoint3D
  deriving DecidableEq

/-- `Serialize`. -/
def Block.serialize (block : Block) : Except Fault Bytes :=
  KvVoxel.serialize block.baseXMm block.baseYMm block.baseZMm block.occupancyProb
    block.qualityScore block.points

/-- The header that it writes. -/
def Block.header (block : Block) : VoxelHeader :=
  ⟨block.baseXMm, block.baseYMm, block.baseZMm, block.occupancyProb, block.qualityScore,
    UInt16.ofNat block.points.length⟩

/-- The header and the points behind it. -/
def Block.bytes (block : Block) : Bytes :=
  VoxelHeader.layout.bytes block.header ++ CompressedPoint3D.layout.array block.points

/-- The value fits its length field. -/
def Block.Fits (block : Block) : Prop :=
  VoxelHeader.sizeof + block.points.length * CompressedPoint3D.sizeof < 2 ^ 32

instance : DecidablePred Block.Fits := fun _ => inferInstanceAs (Decidable (_ < _))

/-- A key and what `Parse` makes of its value. -/
structure Found where
  key : SpatialKey3D
  valid : Bool
  header : VoxelHeader
  points : List CompressedPoint3D
  deriving DecidableEq

/-- What is found of a block: as many points as the header counts. -/
def Block.found (key : SpatialKey3D) (block : Block) : Found :=
  ⟨key, true, block.header, block.points.take (block.points.length % 2 ^ 16)⟩

/-- `FromSlice` and `Parse`. -/
def decode (x : IteratorEntry) : Except Fault Found := do
  let key ← SpatialKey3D.fromSlice (.ofString x.key)
  let (valid, header, points) ← parse (.ofString x.value) ⟨0, 0, 0, 0, 0, 0⟩ []
  pure ⟨key, valid, header, points⟩

/-- The voxels of a box: a query for each of its ranges. -/
def readBox (e : ShardedKVEngine) (layer lod : UInt8)
    (ixMin iyMin izMin ixMax iyMax izMax : UInt64) : Except Fault (List Found) := do
  let ranges ← generateRanges ixMin iyMin izMin ixMax iyMax izMax
  let outs ← ranges.mapM (queryRange e layer lod)
  outs.flatten.mapM decode

theorem Block.length_bytes (block : Block) : block.bytes.length
    = VoxelHeader.sizeof + block.points.length * CompressedPoint3D.sizeof := by
  rw [Block.bytes, List.length_append, VoxelHeader.layout.length_bytes,
    CompressedPoint3D.layout.length_array]
  rfl

theorem Block.Fits.lt {block : Block} (h : block.Fits) :
    VoxelHeader.sizeof + block.points.length * CompressedPoint3D.sizeof < 2 ^ 62 :=
  Nat.lt_trans h (by decide)

theorem Block.serialize_eq {block : Block} (h : block.Fits) : block.serialize = .ok block.bytes :=
  KvVoxel.serialize_eq _ _ _ _ _ h.lt

theorem SpatialKey3D.fromSlice_toBytes (key : SpatialKey3D) :
    SpatialKey3D.fromSlice (Slice.ofString key.toBytes) = .ok key := by
  rw [Slice.ofString, ← key.layout_bytes_netKey, SpatialKey3D.fromSlice_layout, key.netKey_netKey]

/-- **A block is found** under the bytes of its key. -/
theorem decode_eq {x : IteratorEntry} {key : SpatialKey3D} {block : Block} (h : block.Fits)
    (hkey : x.key = key.toBytes) (hvalue : x.value = block.bytes) :
    decode x = .ok (block.found key) := by
  obtain ⟨buffer, hrun, hparse⟩ := parse_serialize block.baseXMm block.baseYMm block.baseZMm
    block.occupancyProb block.qualityScore block.points ⟨0, 0, 0, 0, 0, 0⟩ [] h.lt
  obtain rfl : block.bytes = buffer := Except.ok.inj ((Block.serialize_eq h).symm.trans hrun)
  simp only [decode, hkey, hvalue, SpatialKey3D.fromSlice_toBytes, hparse, ok_bind]
  rfl

/-! ## Runs -/

/-- A client writes a block or deletes a key, the scheduler goes on, or it is asked to
    stop. -/
inductive VoxelAction
  | put (key : SpatialKey3D) (block : Block)
  | delete (key : SpatialKey3D)
  | work (w : Nat)
  | stop
  deriving DecidableEq

/-- One action. -/
def perform (f : Fleet) : VoxelAction → Except Fault Fleet
  | .put key block => do
      let value ← block.serialize
      f.step (.put key.toBytes value)
  | .delete key => f.step (.delete key.toBytes)
  | .work w => f.step (.work w)
  | .stop => f.step .stop

/-- Values that fit their length fields. -/
def VoxelAction.Fits : VoxelAction → Prop
  | .put _ block => block.Fits
  | _ => True

instance : DecidablePred VoxelAction.Fits := fun a => by
  cases a <;> unfold VoxelAction.Fits <;> infer_instance

/-- What an action writes. -/
def VoxelAction.write (m : SpatialKey3D → Option Block) : VoxelAction → SpatialKey3D → Option Block
  | .put key block => fun k => if k = key then some block else m k
  | .delete key => fun k => if k = key then none else m k
  | _ => m

/-- The last block of each key. -/
def lastBlock (as : List VoxelAction) : SpatialKey3D → Option Block :=
  as.foldl VoxelAction.write (fun _ => none)

/-- The action on bytes. -/
def VoxelAction.action : VoxelAction → FleetAction
  | .put key block => .put key.toBytes block.bytes
  | .delete key => .delete key.toBytes
  | .work w => .work w
  | .stop => .stop

theorem perform_eq (f : Fleet) {a : VoxelAction} (h : a.Fits) : perform f a = f.step a.action := by
  cases a with
  | put key block =>
      simp only [perform, Block.serialize_eq h, ok_bind]
      rfl
  | delete key => rfl
  | work w => rfl
  | stop => rfl

theorem foldlM_perform :
    ∀ (as : List VoxelAction) (f : Fleet), (∀ a ∈ as, a.Fits) →
      as.foldlM perform f = (as.map VoxelAction.action).foldlM Fleet.step f := by
  intro as
  induction as with
  | nil => exact fun _ _ => rfl
  | cons a as ih =>
      intro f has
      rw [List.foldlM_cons, List.map_cons, List.foldlM_cons, perform_eq f (has a List.mem_cons_self)]
      exact congrArg _ (funext fun f' => ih f' (fun b hb => has b (List.mem_cons_of_mem _ hb)))

theorem action_fits {a : VoxelAction} (h : a.Fits) : a.action.Fits ∧ a.action.noCompactAll := by
  have hkey (key : SpatialKey3D) : key.toBytes.length < 2 ^ 32 := by
    rw [key.length_toBytes]
    decide
  cases a with
  | put key block =>
      refine ⟨⟨hkey key, ?_⟩, FleetAction.noConfusion⟩
      rw [block.length_bytes]
      exact h
  | delete key => exact ⟨hkey key, FleetAction.noConfusion⟩
  | work w => exact ⟨trivial, FleetAction.noConfusion⟩
  | stop => exact ⟨trivial, FleetAction.noConfusion⟩

/-- **A map of bytes that stands for one of blocks.** -/
structure Encodes (m : SpatialKey3D → Option Block) (g : Bytes → Option Bytes) : Prop where
  value : ∀ key, g key.toBytes = (m key).map Block.bytes
  keys : ∀ k v, g k = some v → ∃ key : SpatialKey3D, k = key.toBytes
  fits : ∀ key block, m key = some block → block.Fits

/-- A key is written. -/
theorem Encodes.set {m : SpatialKey3D → Option Block} {g : Bytes → Option Bytes}
    (h : Encodes m g) (key : SpatialKey3D) {o : Option Block}
    (ho : ∀ block, o = some block → block.Fits) :
    Encodes (fun k => if k = key then o else m k)
      (fun k => if k = key.toBytes then o.map Block.bytes else g k) := by
  refine ⟨?_, ?_, ?_⟩
  · intro k
    simp only [SpatialKey3D.toBytes_inj, h.value]
    split <;> rfl
  · intro k v hk
    by_cases hkey : k = key.toBytes
    · exact ⟨key, hkey⟩
    · exact h.keys k v ((if_neg hkey).symm.trans hk)
  · intro k block hk
    by_cases hkey : k = key
    · exact ho block ((if_pos hkey).symm.trans hk)
    · exact h.fits k block ((if_neg hkey).symm.trans hk)

/-- **One action.** -/
theorem Encodes.step {m : SpatialKey3D → Option Block} {g : Bytes → Option Bytes}
    (h : Encodes m g) {a : VoxelAction} (ha : a.Fits) :
    Encodes (VoxelAction.write m a) (FleetAction.write g a.action) := by
  cases a with
  | put key block => exact h.set key (fun _ hb => Option.some.inj hb ▸ ha)
  | delete key => exact h.set key (fun _ hb => by cases hb)
  | work w => exact h
  | stop => exact h

/-- **A run of typed writes** is one of byte writes. -/
theorem encodes_foldl :
    ∀ (as : List VoxelAction) {m : SpatialKey3D → Option Block} {g : Bytes → Option Bytes},
      (∀ a ∈ as, a.Fits) → Encodes m g →
      Encodes (as.foldl VoxelAction.write m)
        ((as.map VoxelAction.action).foldl FleetAction.write g) := by
  intro as
  induction as with
  | nil => exact fun _ h => h
  | cons a as ih =>
      intro m g has h
      exact ih (fun b hb => has b (List.mem_cons_of_mem _ hb)) (h.step (has a List.mem_cons_self))

theorem encodes_lastBlock {as : List VoxelAction} (has : ∀ a ∈ as, a.Fits) :
    Encodes (lastBlock as) (lastWrite (as.map VoxelAction.action)) :=
  encodes_foldl as has ⟨fun _ => rfl, by simp, by simp⟩

/-! ## Reading a box -/

theorem answers_of_fleetRep {as : List FleetAction} {f : Fleet} (h : FleetRep f (lastWrite as)) :
    Answers f.engine (lastWrite as) := by
  refine ⟨h.wellFormed, ?_⟩
  intro startKey endKey
  obtain ⟨out, hrun, hasc, -, hmem⟩ := rangeQuery_of_fleetRep h startKey endKey
  refine ⟨out, hrun, hasc, ?_⟩
  intro k v
  rw [hmem, and_comm (a := ¬ Pruned f.engine startKey endKey k)]

/-- A key between the ends of a query is of its layer and level. -/
theorem of_between_voxelKeys {layer lod : UInt8} {start last : UInt64} {key : SpatialKey3D}
    (hlo : voxelKey layer lod start 0 ≤ key.toBytes)
    (hhi : key.toBytes ≤ voxelKey layer lod last uint64Max) :
    key.layerType = layer ∧ key.lodLevel = lod ∧ start ≤ key.mortonCode ∧ key.mortonCode ≤ last := by
  rw [← not_lt, voxelKey, SpatialKey3D.toBytes_lt_toBytes_iff, SpatialKey3D.fields_lt_iff] at hlo hhi
  simp only [not_or, not_and] at hlo hhi
  have hlayer : key.layerType = layer := le_antisymm (not_lt.mp hhi.1) (not_lt.mp hlo.1)
  obtain ⟨hlo, hlo'⟩ := hlo.2 hlayer
  obtain ⟨hhi, hhi'⟩ := hhi.2 hlayer.symm
  have hlod : key.lodLevel = lod := le_antisymm (not_lt.mp hhi) (not_lt.mp hlo)
  exact ⟨hlayer, hlod, UInt64.not_lt.mp (hlo' hlod).1, UInt64.not_lt.mp (hhi' hlod.symm).1⟩

/-- **What is decoded**, of entries that hold blocks. -/
theorem decode_entries {m : SpatialKey3D → Option Block} {g : Bytes → Option Bytes}
    (h : Encodes m g) :
    ∀ (l : List IteratorEntry), (∀ x ∈ l, g x.key = some x.value) →
      ∃ founds, l.mapM decode = .ok founds
        ∧ List.Forall₂ (fun x y => x.key = y.key.toBytes
          ∧ ∃ block, m y.key = some block ∧ y = block.found y.key) l founds := by
  intro l
  induction l with
  | nil => exact fun _ => ⟨[], rfl, List.Forall₂.nil⟩
  | cons x l ih =>
      intro hl
      have hx := hl x List.mem_cons_self
      obtain ⟨key, hkey⟩ := h.keys _ _ hx
      have hblock : (m key).map Block.bytes = some x.value := by rw [← h.value, ← hkey, hx]
      obtain ⟨block, hm, hbytes⟩ := Option.map_eq_some_iff.mp hblock
      obtain ⟨founds, hrun, hfounds⟩ := ih (fun y hy => hl y (List.mem_cons_of_mem _ hy))
      refine ⟨block.found key :: founds, ?_, List.Forall₂.cons ⟨hkey, block, hm, rfl⟩ hfounds⟩
      rw [List.mapM_cons, decode_eq (h.fits _ _ hm) hkey hbytes.symm, ok_bind, hrun, ok_bind]
      rfl

/-- Entries in the order of their keys are decoded in the order of these. -/
theorem pairwise_decoded {l : List IteratorEntry} {founds : List Found}
    (h : List.Forall₂ (fun x y => x.key = y.key.toBytes) l founds)
    (hasc : Ascending IteratorEntry.key l) :
    founds.Pairwise (fun a b => a.key.fields < b.key.fields) := by
  have hkeys : l.map IteratorEntry.key = founds.map (fun y => y.key.toBytes) := by
    rw [← List.forall₂_eq_eq_eq, List.forall₂_map_left_iff, List.forall₂_map_right_iff]
    exact h
  have hpair : (l.map IteratorEntry.key).Pairwise (· < ·) := List.pairwise_map.mpr hasc
  rw [hkeys, List.pairwise_map] at hpair
  exact hpair.imp (fun hab => (SpatialKey3D.toBytes_lt_toBytes_iff _ _).mp hab)

/-- **The voxel map.**  After every run of a client's writes and the scheduler's
    steps, a box can be read.  What is found stands in the order of codes and times,
    is of the layer and level asked for and of the ranges of the box, and is of each
    key the last block put under it; and of a voxel of the box every key with a block
    is found that the query for the voxel's range does not lose. -/
theorem box_of_blocks {n : UInt64} (hn : 2 ≤ n) (draws : Nat → Nat → Bool) {as : List VoxelAction}
    (has : ∀ a ∈ as, a.Fits) {ixMin iyMin izMin ixMax iyMax izMax : UInt64}
    (hx : ixMin.toNat < 2 ^ 21 ∧ ixMax.toNat < 2 ^ 21)
    (hy : iyMin.toNat < 2 ^ 21 ∧ iyMax.toNat < 2 ^ 21)
    (hz : izMin.toNat < 2 ^ 21 ∧ izMax.toNat < 2 ^ 21) (layer lod : UInt8) :
    Runs (launch n draws >>= fun f => as.foldlM perform f) (fun f => ∃ ranges founds,
      generateRanges ixMin iyMin izMin ixMax iyMax izMax = .ok ranges
      ∧ readBox f.engine layer lod ixMin iyMin izMin ixMax iyMax izMax = .ok founds
      ∧ founds.Pairwise (fun a b => a.key.fields < b.key.fields)
      ∧ (∀ x ∈ founds, (∃ block, lastBlock as x.key = some block ∧ x = block.found x.key)
        ∧ x.key.layerType = layer ∧ x.key.lodLevel = lod
        ∧ ∃ r ∈ ranges, r.startCode ≤ x.key.mortonCode ∧ x.key.mortonCode ≤ r.endCode)
      ∧ ∀ ix iy iz timestamp,
        Between ixMin ixMax ix → Between iyMin iyMax iy → Between izMin izMax iz →
        ((∃ x ∈ founds, x.key = ⟨layer, lod, mortonCode ix iy iz, timestamp⟩)
          ↔ (lastBlock as ⟨layer, lod, mortonCode ix iy iz, timestamp⟩).isSome
            ∧ ∀ r ∈ ranges, r.startCode ≤ mortonCode ix iy iz → mortonCode ix iy iz ≤ r.endCode →
              ¬ Lost f.engine.shardNum layer lod r.startCode (mortonCode ix iy iz))) := by
  have hrun : (launch n draws >>= fun f => as.foldlM perform f)
      = launch n draws >>= fun f => (as.map VoxelAction.action).foldlM Fleet.step f :=
    congrArg _ (funext fun f => foldlM_perform as f has)
  have hacts : ∀ a ∈ as.map VoxelAction.action, a.Fits ∧ a.noCompactAll := by
    intro a ha
    obtain ⟨b, hb, rfl⟩ := List.mem_map.mp ha
    exact action_fits (has b hb)
  have henc := encodes_lastBlock has
  rw [hrun]
  refine (fleet_run hn draws hacts).mono ?_
  rintro f ⟨hrep, -⟩
  obtain ⟨ranges, outs, hgen, houts, hasc, hread, hfound⟩ :=
    (answers_of_fleetRep hrep).box hx hy hz layer lod
  obtain ⟨founds, hdecode, hpairs⟩ := decode_entries henc outs.flatten (fun x hx => (hread x hx).1)
  refine ⟨ranges, founds, hgen, ?_, pairwise_decoded (hpairs.imp fun _ _ h => h.1) hasc, ?_, ?_⟩
  · rw [readBox, hgen, ok_bind, mapM_of_forall₂ houts, ok_bind]
    exact hdecode
  · intro y hy
    obtain ⟨x, hx, hkey, hblock⟩ := forall₂_mem_right hpairs hy
    obtain ⟨-, r, hr, hlo, hhi⟩ := hread x hx
    rw [hkey] at hlo hhi
    obtain ⟨hlayer, hlod, hstart, hend⟩ := of_between_voxelKeys hlo hhi
    exact ⟨hblock, hlayer, hlod, r, hr, hstart, hend⟩
  · intro ix iy iz timestamp hix hiy hiz
    have hvalue := henc.value ⟨layer, lod, mortonCode ix iy iz, timestamp⟩
    have hmem (v : Bytes) := hfound ix iy iz timestamp v hix hiy hiz
    constructor
    · rintro ⟨y, hy, hkey⟩
      obtain ⟨x, hx, hxy, block, hblock, -⟩ := forall₂_mem_right hpairs hy
      rw [hkey] at hxy hblock
      obtain ⟨-, hkept⟩ := (hmem x.value).mp ⟨x, hx, hxy, rfl⟩
      exact ⟨by rw [hblock]; rfl, hkept⟩
    · rintro ⟨hsome, hkept⟩
      obtain ⟨block, hblock⟩ := Option.isSome_iff_exists.mp hsome
      rw [hblock] at hvalue
      obtain ⟨x, hx, hkey, -⟩ := (hmem block.bytes).mpr ⟨hvalue, hkept⟩
      obtain ⟨y, hy, hxy, -⟩ := forall₂_mem_left hpairs hx
      exact ⟨y, hy, SpatialKey3D.toBytes_inj.mp (hxy.symm.trans hkey)⟩

/-- Blocks of two voxels, one written twice and one deleted, and the scheduler in
    between. -/
def twoVoxels : List VoxelAction :=
  [.put ⟨1, 0, mortonCode 1 2 3, 5⟩ ⟨1, -2, 3, 50, 60, []⟩, .work 0,
    .put ⟨1, 0, mortonCode 1 2 3, 5⟩ ⟨1, -2, 3, 50, 60, [⟨1, 2, -3, 4⟩]⟩, .work 0,
    .put ⟨1, 0, mortonCode 2 2 2, 5⟩ ⟨7, 8, 9, 10, 11, []⟩, .delete ⟨1, 0, mortonCode 2 2 2, 5⟩]

/-- Blocks of one voxel at the times below `n`. -/
@[irreducible] def timedBlocks (n : Nat) : List VoxelAction :=
  (List.range n).map
    (fun i => .put ⟨1, 0, mortonCode 1 2 3, UInt64.ofNat i⟩ ⟨1, -2, 3, 50, 60, [⟨1, 2, -3, 4⟩]⟩)

/-- As many of them as fill five tables, with two voxels behind, while the scheduler
    merges the tables. -/
def fiveTablesOfBlocks : List VoxelAction :=
  timedBlocks 100000 ++ twoVoxels ++ List.replicate 3 (.work 0)

theorem fits_fiveTablesOfBlocks : ∀ a ∈ fiveTablesOfBlocks, a.Fits := by
  refine List.forall_mem_append.mpr ⟨List.forall_mem_append.mpr ⟨?_, by decide⟩, by decide⟩
  rw [timedBlocks]
  refine List.forall_mem_map.mpr ?_
  intro i _
  show Block.Fits _
  decide

theorem box_of_blocks_fiveTables :
    Runs (launch 2 (fun _ _ => false) >>= fun f => fiveTablesOfBlocks.foldlM perform f) (fun f =>
      ∃ ranges founds, generateRanges 3 3 3 0 0 0 = .ok ranges
        ∧ readBox f.engine 1 0 3 3 3 0 0 0 = .ok founds
        ∧ founds.Pairwise (fun a b => a.key.fields < b.key.fields)
        ∧ (∀ x ∈ founds,
          (∃ block, lastBlock fiveTablesOfBlocks x.key = some block ∧ x = block.found x.key)
          ∧ x.key.layerType = 1 ∧ x.key.lodLevel = 0
          ∧ ∃ r ∈ ranges, r.startCode ≤ x.key.mortonCode ∧ x.key.mortonCode ≤ r.endCode)
        ∧ ∀ ix iy iz timestamp, Between 3 0 ix → Between 3 0 iy → Between 3 0 iz →
          ((∃ x ∈ founds, x.key = ⟨1, 0, mortonCode ix iy iz, timestamp⟩)
            ↔ (lastBlock fiveTablesOfBlocks ⟨1, 0, mortonCode ix iy iz, timestamp⟩).isSome
              ∧ ∀ r ∈ ranges, r.startCode ≤ mortonCode ix iy iz → mortonCode ix iy iz ≤ r.endCode →
                ¬ Lost f.engine.shardNum 1 0 r.startCode (mortonCode ix iy iz))) :=
  box_of_blocks (by decide) _ fits_fiveTablesOfBlocks (by decide) (by decide) (by decide) 1 0

/-- The voxel that is left of two, with the block it was given last. -/
example : Yields (launch 2 (fun _ _ => false) >>= fun f => twoVoxels.foldlM perform f >>= fun f =>
    readBox f.engine 1 0 3 3 3 0 0 0) (fun founds => founds =
      [⟨⟨1, 0, mortonCode 1 2 3, 5⟩, true, ⟨1, -2, 3, 50, 60, 1⟩, [⟨1, 2, -3, 4⟩]⟩]) := by
  decide +kernel

end KvVoxelMap
