import LightKV.KvRangeQueryProofs
import LightKV.KvMishapProofs

/-! # Sessions over shards

    Each shard has a directory of its own, and a later session may open the base
    directory with another number of shards.  What the directories hold is a map
    for each of them (`kept`): a write goes into the one map that the key has as
    its home under the number of shards of the session.  `Get` reads the map of
    the key's home under the number of shards now (`get_over_sessions`), also
    behind writes that were cut off in their flush.  While that number stays the
    engine is one map over all its sessions; when it changes, exactly the keys
    are lost whose home does (`get_resharded`). -/

namespace KvShardSessions

open Execution KWayMerge KvBytes KvCompaction KvDirectory KvEngine KvFiles KvFlushCrash
open KvIterators KvLogs KvMerging KvMishap KvRangeQuery KvRecovery KvReopen KvRouting KvScan KvSession KvSharding
open KvSpatialKey KvStore KvTable KvTableIterator KvWal Overlay

/-! ## The base directory -/

/-- An engine and what its base directory holds beside the shards' directories:
    those of an earlier session with more shards. -/
structure Site where
  engine : ShardedKVEngine
  others : Nat → Directory

/-- The directory of a shard, when the engine is closed or its process stops. -/
def Site.dirs (s : Site) (i : Nat) : Directory :=
  match s.engine.shards[i]? with
  | some shard => shard.close
  | none => s.others i

/-- What happens to a base directory over its life. -/
inductive SiteEvent
  | op (o : ShardOp)
  /-- the engine is closed, and opened with this number of shards -/
  | reopen (shardNum : UInt64) (draws : Nat → Nat → Bool)
  /-- the process stops in the flush of a `Put`, or behind it if there is none -/
  | putCrash (key value : Bytes) (p : CrashPoint) (shardNum : UInt64) (draws : Nat → Nat → Bool)

/-- One event. -/
def Site.step (s : Site) : SiteEvent → Except Fault Site
  | .op o => do
      let engine ← perform s.engine o
      pure { s with engine := engine }
  | .reopen shardNum draws => do
      let engine ← ShardedKVEngine.open shardNum s.dirs draws
      pure ⟨engine, s.dirs⟩
  | .putCrash key value p shardNum draws => do
      let i ← s.engine.getShard key
      let shard ← s.engine.shard i
      let dir ← interruptPut shard key value p
      let dirs := Function.update s.dirs i dir
      let engine ← ShardedKVEngine.open shardNum dirs draws
      pure ⟨engine, dirs⟩

/-- A new base directory. -/
def found (shardNum : UInt64) (draws : Nat → Nat → Bool) : Except Fault Site := do
  let engine ← fresh shardNum draws
  pure ⟨engine, fun _ => []⟩

/-- **The condition on each event**, in the state before it: on the shard that is
    written as for a single engine, and on the directories when they are opened. -/
def SiteSafe (s : Site) : SiteEvent → Prop
  | .op (.put key value) => ∀ i shard, s.engine.getShard key = .ok i →
      s.engine.shard i = .ok shard → OpSafe shard (.put key value)
  | .op (.delete key) => key.length < 2 ^ 32
  | .op _ => True
  | .reopen shardNum _ => 2 ≤ shardNum ∧ ∀ i, i < shardNum.toNat → SortsByNumber (s.dirs i)
  | .putCrash key value p shardNum draws => 2 ≤ shardNum
      ∧ (∀ i, i < shardNum.toNat → SortsByNumber (s.dirs i))
      ∧ ∀ i shard, s.engine.getShard key = .ok i → s.engine.shard i = .ok shard →
        SafeFrom shard (.putCrash key value p (shardConfig (draws i)))

/-! ## What the directories hold -/

/-- **Where a key is kept** when there are `n` shards. -/
def home (n : UInt64) (key : Bytes) : Nat :=
  if key.length ≥ SpatialKey3D.sizeof then
    min ((be64toh ((key.drop 2).take 8)).toNat / (stepOf n + 1)) (n.toNat - 1)
  else
    match ((List.range n.toNat).map (fun i => uniformRange n (uint64Max / n) (UInt64.ofNat i))).find?
        (fun range => range.contains key) with
    | some range => range.shardIndex.toNat
    | none => n.toNat - 1

/-- The number of shards, and a map for each directory. -/
structure Kept where
  shardNum : UInt64
  maps : Nat → Bytes → Option Bytes

/-- An operation on one directory. -/
def Kept.write (k : Kept) (key : Bytes) (o : Op) : Kept :=
  let i := home k.shardNum key
  { k with maps := Function.update k.maps i (effect (k.maps i) o) }

/-- What an event leaves. -/
def Kept.step (k : Kept) : SiteEvent → Kept
  | .op (.put key value) => k.write key (.put key value)
  | .op (.delete key) => k.write key (.erase key)
  | .op _ => k
  | .reopen shardNum _ => { k with shardNum := shardNum }
  | .putCrash key value _ shardNum _ =>
      { k.write key (.put key value) with shardNum := shardNum }

/-- **What is kept** after some events. -/
def kept (shardNum : UInt64) (evs : List SiteEvent) : Kept :=
  evs.foldl Kept.step ⟨shardNum, fun _ _ => none⟩

/-- The division, with the clamp behind it, or the scan. -/
theorem getShard_eq_home {e : ShardedKVEngine} (h : e.WellFormed) (key : Bytes) :
    e.getShard key = .ok (home e.shardNum key) := by
  have hne := ne_zero_of_two_le h.two_le
  rw [home]
  by_cases hlong : key.length ≥ SpatialKey3D.sizeof
  · have hquot : (be64toh ((key.drop 2).take 8) / (uint64Max / e.shardNum + 1)).toNat
        = (be64toh ((key.drop 2).take 8)).toNat / (stepOf e.shardNum + 1) := by
      rw [UInt64.toNat_div, toNat_step_succ h.two_le]
    have hpos := toNat_pos hne
    have hlast : (e.shardNum - 1).toNat = e.shardNum.toNat - 1 :=
      UInt64.toNat_sub_of_le _ _ (UInt64.le_iff_toNat_le.mpr hpos)
    rw [if_pos hlong, ShardedKVEngine.getShard, if_pos hlong, divide_of_ne_zero hne]
    simp only [ok_bind, divide_of_ne_zero (step_succ_ne_zero h.two_le), ge_iff_le,
      UInt64.le_iff_toNat_le, hquot, hlast]
    split
    · exact congrArg Except.ok (by omega)
    · exact congrArg Except.ok (by omega)
  · have hranges := h.ranges
    rw [initUniformRanges_eq hne, Except.ok.injEq] at hranges
    rw [if_neg hlong, ShardedKVEngine.getShard, if_neg hlong, hranges, h.length]
    cases e.ranges.find? (fun range => range.contains key) with
    | some range => rfl
    | none => rfl

/-! ## Whose keys a directory holds -/

/-- All keys in the tables and in the logs have a property. -/
structure Own (p : Bytes → Prop) (s : Store) : Prop where
  tables : ∀ t ∈ s.tables, ∀ kv ∈ t.entries, p kv.1
  logs : ∀ l ∈ s.logs, ∀ r ∈ recoverFile l.2, p r.key

section Own

variable {p : Bytes → Prop} {st st' : Store}

/-- What a replay leaves comes from its records, or was there. -/
theorem exists_record_of_lookup {k : Bytes} {tv : TableValue} :
    ∀ {rs : List ParsedLogRecord} {l : List Entry}, (replayLayer rs l).lookup k = some tv →
      (∃ r ∈ rs, r.key = k) ∨ l.lookup k = some tv := by
  intro rs
  induction rs with
  | nil => exact fun h => Or.inr h
  | cons r rs ih =>
      intro l h
      have hrest : ∀ {l' : List Entry}, (replayLayer rs l').lookup k = some tv →
          (∃ q ∈ r :: rs, q.key = k) ∨ l'.lookup k = some tv := by
        intro l' h'
        rcases ih h' with ⟨q, hq, hk⟩ | hl
        · exact Or.inl ⟨q, List.mem_cons_of_mem _ hq, hk⟩
        · exact Or.inr hl
      have hone : ∀ tv', (replayLayer rs (upsert r.key tv' l)).lookup k = some tv →
          (∃ q ∈ r :: rs, q.key = k) ∨ l.lookup k = some tv := by
        intro tv' h'
        rcases hrest h' with hq | hl
        · exact Or.inl hq
        · rw [lookup_upsert] at hl
          split at hl
          · exact Or.inl ⟨r, List.mem_cons_self, Eq.symm ‹_›⟩
          · exact Or.inr hl
      rw [replayLayer] at h
      split at h
      · exact hone _ h
      · split at h
        · exact hone _ h
        · exact hrest h

/-- The memtable is in the logs. -/
theorem Own.mem (h : Own p st) (hl : Logged st) (hs : KeySorted st.mem) :
    ∀ kv ∈ st.mem, p kv.1 := by
  intro kv hkv
  have hlook := hl.kept kv.1 kv.2 ((lookup_eq_some_iff hs).mpr hkv)
  rcases exists_record_of_lookup hlook with ⟨r, hr, hk⟩ | hnil
  · obtain ⟨l, hlog, hrl⟩ := List.mem_flatMap.mp hr
    exact hk ▸ h.logs l hlog r hrl
  · cases hnil

theorem Own.holds (h : Own p st) (hl : Logged st) (hs : KeySorted st.mem) : Holds p st :=
  ⟨h.mem hl hs, h.tables⟩

theorem own_openLog {logs : List (Nat × Bytes)}
    (h : ∀ l ∈ logs, ∀ r ∈ recoverFile l.2, p r.key) (n : Nat) :
    ∀ l ∈ openLog n logs, ∀ r ∈ recoverFile l.2, p r.key := by
  rw [openLog]
  cases logs.lookup n with
  | some log => exact h
  | none =>
      intro l hl
      rcases mem_upsert_key hl with rfl | hl'
      · intro r hr
        rw [recoverFile_nil] at hr
        cases hr
      · exact h l hl'

theorem Own.write (h : Own p st) (hl : Logged st) {r : ParsedLogRecord} (hf : RecordFits r)
    (tv : TableValue) (hp : p r.key) : Own p (st.write r tv) := by
  refine ⟨h.tables, ?_⟩
  have hlogs : (st.write r tv).logs = upsert st.log (current st ++ encodeRecord r) st.logs := rfl
  intro l hmem q hq
  rw [hlogs] at hmem
  rcases mem_upsert_key hmem with rfl | hmem'
  · obtain ⟨log, hlog⟩ := Option.isSome_iff_exists.mp hl.here
    have hcur : current st = log := by rw [current, hlog]; rfl
    have hq' : q ∈ recoverFile (current st ++ encodeRecord r) := hq
    rw [recoverFile_concat hl hf, List.mem_append, List.mem_singleton] at hq'
    rcases hq' with hold | rfl
    · exact h.logs (st.log, log) (mem_of_lookup hlog) q (hcur ▸ hold)
    · exact hp
  · exact h.logs l hmem' q hq

theorem Own.writeTable (h : Own p st) (hl : Logged st) (hs : KeySorted st.mem) :
    ∀ t ∈ st.writeTable.tables, ∀ kv ∈ t.entries, p kv.1 := by
  intro t ht kv hkv
  rcases List.mem_cons.mp ht with rfl | ht'
  · obtain ⟨kv', hkv', rfl⟩ := List.mem_map.mp hkv
    exact h.mem hl hs kv' hkv'
  · exact h.tables t ht' kv hkv

theorem Own.flush (h : Own p st) (hl : Logged st) (hs : KeySorted st.mem)
    (hle : st.log ≤ st.counter + 1) : Own p st.flush := by
  by_cases hmem : st.mem = []
  · rw [Store.flush, if_pos hmem]
    exact h
  · refine ⟨((h.holds hl hs).flush).tables, ?_⟩
    rw [hl.logs_flush hle hmem]
    intro l hl' r hr
    rcases List.mem_append.mp hl' with hold | hnew
    · exact h.logs l (mem_discard hold) r hr
    · rw [List.mem_singleton.mp hnew, recoverFile_nil] at hr
      cases hr

/-- **Every operation** on keys with the property. -/
theorem Own.step {e : KVEngine} (hrep : Rep e st) {g : Bytes → Option Bytes} (hd : Durable g st)
    (h : Own p st) {o : Op} (hsafe : OpSafe e o) (ho : Touches p o) (hs : Step st o st') :
    Own p st' := by
  have hsorted := hrep.mem.keySorted
  cases hs with
  | put key value =>
      obtain ⟨hkey, hvalue, -⟩ := hsafe
      have hf : RecordFits ⟨.PUT, key, value⟩ := ⟨hkey, hvalue⟩
      have hw : Own p (st.write ⟨.PUT, key, value⟩ ⟨.kTypeValue, value⟩) :=
        h.write hd.logged hf _ ho
      rw [Store.put]
      split
      · exact hw.flush (hd.logged.write (Or.inl ⟨rfl, rfl⟩) hf) (keySorted_upsert hsorted)
          hrep.logLe
      · exact hw
  | erase key => exact h.write (r := ⟨.ERASE, key, []⟩) hd.logged ⟨hsafe, by simp⟩ _ ho
  | forceFlush => exact h.flush hd.logged hsorted hrep.logLe
  | compactNone hle => exact h
  | @compact hlt m hm =>
      refine ⟨((h.holds hd.logged hsorted).compacted hm).tables, ?_⟩
      rw [(logs_compacted st m).2]
      exact h.logs

/-- What a flush leaves that is cut off. -/
theorem Own.left {e : KVEngine} (hrep : Rep e st) {g : Bytes → Option Bytes} (hd : Durable g st)
    (h : Own p st) (hleft : Left st st') : Own p st' := by
  have hsorted := hrep.mem.keySorted
  cases hleft with
  | same => exact h
  | torn => exact ⟨h.tables, h.logs⟩
  | written hne => exact ⟨h.writeTable hd.logged hsorted, h.logs⟩
  | walOpened hne => exact ⟨h.writeTable hd.logged hsorted, own_openLog h.logs _⟩
  | flushed hne => exact h.flush hd.logged hsorted hrep.logLe

/-- The store that opens. -/
theorem Own.restart (h : Own p st) (hf : Filed st) (maxMemNodes : Nat) :
    Own p (reopened st maxMemNodes) := by
  refine ⟨?_, own_openLog h.logs _⟩
  intro t ht kv hkv
  have hmem : t.entries ∈ st.tables.map Table.entries :=
    hf.loadTables ▸ List.mem_map_of_mem ht
  obtain ⟨u, hu, heq⟩ := List.mem_map.mp hmem
  exact h.tables u hu kv (heq ▸ hkv)

end Own

/-- A shard stands for the map of its directory, and holds its own keys. -/
def Stands (p : Bytes → Prop) (shard : KVEngine) (g : Bytes → Option Bytes) : Prop :=
  ∃ s, Rep shard s ∧ Durable g s ∧ Own p s

/-- A directory holds such a map. -/
def Stores (p : Bytes → Prop) (dir : Directory) (g : Bytes → Option Bytes) : Prop :=
  ∃ s, Restartable g dir s ∧ Own p s

/-- **The shards stand for the maps** of their directories, and the other
    directories hold theirs. -/
structure SiteRep (own : Nat → Bytes → Prop) (s : Site) (k : Kept) : Prop where
  wellFormed : s.engine.WellFormed
  shardNum : s.engine.shardNum = k.shardNum
  opened : ∀ i, i < k.shardNum.toNat →
    ∃ shard, s.engine.shards[i]? = some shard ∧ Stands (own i) shard (k.maps i)
  closed : ∀ i, k.shardNum.toNat ≤ i → Stores (own i) (s.others i) (k.maps i)

variable {own : Nat → Bytes → Prop} {s : Site} {k : Kept}

theorem SiteRep.getShard (h : SiteRep own s k) (key : Bytes) :
    s.engine.getShard key = .ok (home k.shardNum key) := by
  rw [getShard_eq_home h.wellFormed, h.shardNum]

theorem SiteRep.home_lt (h : SiteRep own s k) (key : Bytes) :
    home k.shardNum key < k.shardNum.toNat := by
  obtain ⟨i, hi, hlt⟩ := getShard_spec h.wellFormed key
  obtain rfl := Except.ok.inj ((h.getShard key).symm.trans hi)
  rwa [h.shardNum] at hlt

/-- The shard of a key. -/
theorem SiteRep.shardOf (h : SiteRep own s k) (key : Bytes) :
    ∃ shard, s.engine.shard (home k.shardNum key) = .ok shard
      ∧ Stands (own (home k.shardNum key)) shard (k.maps (home k.shardNum key)) := by
  obtain ⟨shard, hshard, hst⟩ := h.opened _ (h.home_lt key)
  refine ⟨shard, ?_, hst⟩
  rw [ShardedKVEngine.shard, hshard]
  rfl

/-- **`Get`** reads the map of the key's home. -/
theorem SiteRep.get (h : SiteRep own s k) (key : Bytes) :
    s.engine.get key = .ok (k.maps (home k.shardNum key) key) := by
  obtain ⟨shard, hshard, st, hrep, hd, -⟩ := h.shardOf key
  simp only [ShardedKVEngine.get, h.getShard, hshard, ok_bind]
  rw [hrep.get, hd.agrees.reads]

/-- What the directories hold when the engine is closed. -/
theorem SiteRep.dirs (h : SiteRep own s k) (i : Nat) : Stores (own i) (s.dirs i) (k.maps i) := by
  have hlen : s.engine.shards.length = k.shardNum.toNat := by rw [h.wellFormed.length, h.shardNum]
  rw [Site.dirs]
  rcases Nat.lt_or_ge i k.shardNum.toNat with hlt | hge
  · obtain ⟨shard, hshard, st, hrep, hd, how⟩ := h.opened i hlt
    rw [hshard]
    exact ⟨st, hd.restartable hrep, how⟩
  · rw [List.getElem?_eq_none (hlen ▸ hge)]
    exact h.closed i hge

/-! ## Events -/

/-- **An operation on the shard of a key.** -/
theorem SiteRep.modify (h : SiteRep own s k) {key : Bytes} {o : Op}
    (hown : Touches (own (home k.shardNum key)) o)
    (hsafe : ∀ shard, s.engine.shard (home k.shardNum key) = .ok shard → OpSafe shard o) :
    Runs (s.engine.modify (home k.shardNum key) (fun shard => execute shard o))
      (fun engine => SiteRep own { s with engine := engine } (k.write key o)) := by
  obtain ⟨shard, hshard, st, hrep, hd, how⟩ := h.shardOf key
  have hsafe' := hsafe shard hshard
  simp only [ShardedKVEngine.modify, hshard, ok_bind]
  refine (execute_spec hrep (OpSafe.keyFits hsafe')).bind ?_
  rintro shard' ⟨st', hstep, hrep'⟩
  have hlen : (s.engine.shards.set (home k.shardNum key) shard').length = s.engine.shards.length :=
    List.length_set
  refine ⟨h.wellFormed.with_shards hlen, h.shardNum, ?_, ?_⟩
  · intro i hi
    by_cases hself : i = home k.shardNum key
    · subst hself
      refine ⟨shard', ?_, st', hrep', ?_, how.step hrep hd hsafe' hown hstep⟩
      · rw [List.getElem?_set_self]
        rw [h.wellFormed.length, h.shardNum]
        exact hi
      · simp only [Kept.write, Function.update_self]
        exact durable_step hrep hd hsafe' hstep
    · obtain ⟨other, hother, hst⟩ := h.opened i hi
      refine ⟨other, ?_, ?_⟩
      · rw [List.getElem?_set_ne (Ne.symm hself)]
        exact hother
      · simp only [Kept.write, Function.update_of_ne hself]
        exact hst
  · intro i hi
    have hne : i ≠ home k.shardNum key := by
      rintro rfl
      exact absurd (h.home_lt key) (Nat.not_lt.mpr hi)
    simp only [Kept.write, Function.update_of_ne hne]
    exact h.closed i hi

/-- A loop over the shards, one after the other. -/
theorem forShards_indexed {f : KVEngine → Except Fault KVEngine} :
    ∀ {shards : List KVEngine} {P : Nat → KVEngine → Prop},
      (∀ i shard, P i shard → Runs (f shard) (P i)) →
      (∀ i shard, shards[i]? = some shard → P i shard) →
      Runs (forShards f shards) (fun shards' => shards'.length = shards.length
        ∧ ∀ i shard', shards'[i]? = some shard' → P i shard') := by
  intro shards
  induction shards with
  | nil =>
      intro P _ _
      exact ⟨rfl, fun i shard' hi => by cases hi⟩
  | cons shard shards ih =>
      intro P hf h
      refine (hf 0 shard (h 0 shard rfl)).bind ?_
      intro shard' hshard'
      have hrest : ∀ i other, shards[i]? = some other → P (i + 1) other :=
        fun i other hi => h (i + 1) other hi
      refine (ih (P := fun i => P (i + 1)) (fun i => hf (i + 1)) hrest).bind ?_
      rintro shards' ⟨hlen, hall⟩
      refine ⟨congrArg (· + 1) hlen, ?_⟩
      intro i other hi
      cases i with
      | zero => exact Option.some.inj hi ▸ hshard'
      | succ i => exact hall i other hi

/-- A compaction, or none, keeps what a shard stands for. -/
theorem stands_compact {p : Bytes → Prop} {shard : KVEngine} {g : Bytes → Option Bytes}
    (h : Stands p shard g) : Runs shard.compact (fun shard' => Stands p shard' g) := by
  obtain ⟨st, hrep, hd, how⟩ := h
  have hsafe : OpSafe shard .compact := trivial
  have hrun := execute_spec hrep (OpSafe.keyFits hsafe)
  refine Ends.mono hrun ?_
  rintro shard' ⟨st', hstep, hrep'⟩
  exact ⟨st', hrep', durable_step hrep hd hsafe hstep,
    how.step hrep hd hsafe (show Touches p .compact from trivial) hstep⟩

/-- **Compactions** over the shards. -/
theorem SiteRep.compactShards (h : SiteRep own s k) {f : KVEngine → Except Fault KVEngine}
    (hf : ∀ shard, f shard = shard.compact ∨ f shard = .ok shard) :
    Runs (forShards f s.engine.shards >>= fun shards => pure { s.engine with shards := shards })
      (fun engine => SiteRep own { s with engine := engine } k) := by
  have hlen : s.engine.shards.length = k.shardNum.toNat := by rw [h.wellFormed.length, h.shardNum]
  have hone : ∀ i shard, Stands (own i) shard (k.maps i) →
      Runs (f shard) (fun shard' => Stands (own i) shard' (k.maps i)) := by
    intro i shard hst
    rcases hf shard with hrun | hrun
    · rw [hrun]
      exact stands_compact hst
    · rw [hrun]
      exact hst
  have hall : ∀ i shard, s.engine.shards[i]? = some shard → Stands (own i) shard (k.maps i) := by
    intro i shard hi
    obtain ⟨other, hother, hst⟩ := h.opened i (hlen ▸ (List.getElem?_eq_some_iff.mp hi).1)
    obtain rfl := Option.some.inj (hi.symm.trans hother)
    exact hst
  refine (forShards_indexed hone hall).bind ?_
  rintro shards ⟨hlen', hall'⟩
  refine ⟨h.wellFormed.with_shards hlen', h.shardNum, ?_, h.closed⟩
  intro i hi
  have hshard : shards[i]? = some shards[i] := List.getElem?_eq_getElem (by omega)
  exact ⟨_, hshard, hall' i _ hshard⟩

/-- Opening the shards' directories. -/
theorem openShards_spec {maps : Nat → Bytes → Option Bytes} {dirs : Nat → Directory}
    (hdirs : ∀ i, Stores (own i) (dirs i) (maps i))
    (draws : Nat → Nat → Bool) {is : List Nat} (hnames : ∀ i ∈ is, SortsByNumber (dirs i)) :
    ∃ shards, openShards dirs draws is = .ok shards
      ∧ List.Forall₂ (fun shard i => Stands (own i) shard (maps i)) shards is := by
  induction is with
  | nil => exact ⟨[], rfl, List.Forall₂.nil⟩
  | cons i is ih =>
      obtain ⟨shards, hrun, hall⟩ := ih (fun j hj => hnames j (List.mem_cons_of_mem _ hj))
      obtain ⟨st, hr, how⟩ := hdirs i
      obtain ⟨shard, hstart, hrep⟩ :=
        start_reopened hr.dir (hnames i List.mem_cons_self) (shardConfig (draws i))
      refine ⟨shard :: shards, ?_,
        List.Forall₂.cons ⟨_, hrep, hr.durable _, how.restart hr.filed _⟩ hall⟩
      have hopen : KVEngine.open (dirs i) 20000 16 (draws i) = .ok shard := hstart
      simp only [openShards, hopen, hrun, ok_bind]
      rfl

/-- **Opening a base directory** with any number of shards from two on. -/
theorem open_site {n : UInt64} (hn : 2 ≤ n) {maps : Nat → Bytes → Option Bytes}
    {dirs : Nat → Directory} (hdirs : ∀ i, Stores (own i) (dirs i) (maps i))
    (hnames : ∀ i, i < n.toNat → SortsByNumber (dirs i)) (draws : Nat → Nat → Bool) :
    Runs (ShardedKVEngine.open n dirs draws) (fun engine => SiteRep own ⟨engine, dirs⟩ ⟨n, maps⟩) := by
  have hne := ne_zero_of_two_le hn
  obtain ⟨shards, hrun, hall⟩ := openShards_spec hdirs draws
    (fun i hi => hnames i (List.mem_range.mp hi))
  have hlen : shards.length = n.toNat := hall.length_eq.trans List.length_range
  simp only [ShardedKVEngine.open, hrun, initUniformRanges_eq hne, ok_bind]
  refine ⟨⟨hn, initUniformRanges_eq hne, hlen⟩, rfl, ?_, fun i _ => hdirs i⟩
  intro i hi
  exact forall₂_exists hall (List.getElem?_range hi)

/-- What a `put` that is cut off leaves on disk. -/
theorem interruptPut_spec {q : Bytes → Prop} {e : KVEngine} {g : Bytes → Option Bytes}
    (h : Stands q e g) {key value : Bytes} (hkeyOwn : q key) {p : CrashPoint} {c : Config}
    (hsafe : SafeFrom e (.putCrash key value p c)) :
    Runs (interruptPut e key value p) (fun dir =>
      Stores q dir (effect g (.put key value)) ∧ SortsByNumber dir) := by
  obtain ⟨st, hrep, hd, how⟩ := h
  obtain ⟨hkey, hvalue, hcond⟩ := hsafe
  obtain ⟨e', hrun, hrep'⟩ := hrep.write .PUT value ⟨.kTypeValue, value⟩ hkey (Or.inr rfl)
  have hw : Durable (effect g (.put key value))
      (st.write ⟨.PUT, key, value⟩ ⟨.kTypeValue, value⟩) :=
    durable_write hd ⟨.PUT, key, value⟩ ⟨.kTypeValue, value⟩ (Or.inl ⟨rfl, rfl⟩)
      ⟨hkey, hvalue⟩ ⟨hkey, Or.inr ⟨rfl, hvalue⟩⟩
  have how' : Own q (st.write ⟨.PUT, key, value⟩ ⟨.kTypeValue, value⟩) :=
    how.write (r := ⟨.PUT, key, value⟩) hd.logged ⟨hkey, hvalue⟩ _ hkeyOwn
  have hcond' := hcond e' hrun
  simp only [interruptPut, hrun, ok_bind]
  by_cases hfull : e'.skiplist.size ≥ e'.maxMemNodes
  · rw [if_pos hfull] at hcond' ⊢
    have hleft := interruptFlush_left hrep' hw hcond'
    rw [← bind_pure (interruptFlush e' p)]
    refine hleft.bind_eq ?_
    rintro dir hdir ⟨st', hr, hl⟩
    exact ⟨⟨st', hr, how'.left hrep' hw hl⟩, hcond'.1 dir hdir⟩
  · rw [if_neg hfull] at hcond' ⊢
    exact ⟨⟨_, hw.restartable hrep', how'⟩, hcond'⟩

/-- **Every event that is safe** keeps what the site stands for. -/
theorem site_step (h : SiteRep own s k) {ev : SiteEvent}
    (hown : ∀ key, own (home k.shardNum key) key) (hsafe : SiteSafe s ev) : Runs (s.step ev) (fun s' => SiteRep own s' (k.step ev)) := by
  cases ev with
  | op o =>
      cases o with
      | put key value =>
          simp only [Site.step, perform, ShardedKVEngine.put, h.getShard, ok_bind]
          exact (h.modify (o := .put key value) (hown key)
            (fun shard hshard => hsafe _ shard (h.getShard key) hshard)).bind (fun _ h' => h')
      | delete key =>
          simp only [Site.step, perform, ShardedKVEngine.delete, h.getShard, ok_bind]
          exact (h.modify (o := .erase key) (hown key) (fun _ _ => hsafe)).bind (fun _ h' => h')
      | compactAll => exact (h.compactShards (fun _ => Or.inl rfl)).bind (fun _ h' => h')
      | backgroundCompact =>
          refine (h.compactShards ?_).bind (fun _ h' => h')
          intro shard
          by_cases hneeds : shard.needsCompaction 5 = true
          · exact Or.inl (if_pos hneeds)
          · exact Or.inr (if_neg hneeds)
  | reopen shardNum draws =>
      exact (open_site hsafe.1 h.dirs hsafe.2 draws).bind (fun _ h' => h')
  | putCrash key value p shardNum draws =>
      obtain ⟨hn, hnames, hcrash⟩ := hsafe
      obtain ⟨shard, hshard, hst⟩ := h.shardOf key
      simp only [Site.step, h.getShard, hshard, ok_bind]
      refine (interruptPut_spec hst (hown key) (hcrash _ shard (h.getShard key) hshard)).bind ?_
      rintro dir ⟨hr, hsorts⟩
      -- one directory is what the crash left, the others are as they were
      have hdirs : ∀ i, Stores (own i) (Function.update s.dirs (home k.shardNum key) dir i)
          ((k.write key (.put key value)).maps i) := by
        intro i
        by_cases hself : i = home k.shardNum key
        · subst hself
          simp only [Kept.write, Function.update_self]
          exact hr
        · simp only [Kept.write, Function.update_of_ne hself]
          exact h.dirs i
      have hnames' : ∀ i, i < shardNum.toNat →
          SortsByNumber (Function.update s.dirs (home k.shardNum key) dir i) := by
        intro i hi
        by_cases hself : i = home k.shardNum key
        · subst hself
          rw [Function.update_self]
          exact hsorts
        · rw [Function.update_of_ne hself]
          exact hnames i hi
      exact (open_site hn hdirs hnames' draws).bind (fun _ h' => h')

/-! ## Runs -/

theorem found_spec (own : Nat → Bytes → Prop) {n : UInt64} (hn : 2 ≤ n) (draws : Nat → Nat → Bool) :
    Runs (found n draws) (fun s => SiteRep own s (kept n [])) := by
  have hempty : Restartable (fun _ => none) [] ⟨[], [], 0, 0, [], 0, []⟩ :=
    { dir := dirRep_nil
      filed := ⟨Overlay.keySorted_nil, List.Pairwise.nil, by simp, by simp, by simp, Or.inl rfl⟩
      clean := by simp
      logLe := by simp
      reads := fun _ => rfl }
  have hsorts : SortsByNumber [] := sortsByNumber_of_shortNames rfl
  have hnone : ∀ {p : Bytes → Prop}, Own p ⟨[], [], 0, 0, [], 0, []⟩ :=
    ⟨fun t ht => absurd ht List.not_mem_nil, fun l hl => absurd hl List.not_mem_nil⟩
  exact (open_site hn (fun _ => ⟨_, hempty, hnone⟩) (fun _ _ => hsorts) draws).bind (fun _ h' => h')

/-- The numbers of shards that an event opens with have a property. -/
def SiteEvent.Within (P : UInt64 → Prop) : SiteEvent → Prop
  | .op _ => True
  | .reopen shardNum _ => P shardNum
  | .putCrash _ _ _ shardNum _ => P shardNum

theorem within_step {P : UInt64 → Prop} {ev : SiteEvent} (hev : ev.Within P) (hk : P k.shardNum) :
    P (k.step ev).shardNum := by
  cases ev with
  | op o => cases o <;> exact hk
  | reopen shardNum draws => exact hev
  | putCrash key value p shardNum draws => exact hev

/-- **What a life leaves**, where every key belongs to its home under each number
    of shards. -/
theorem site_run (own : Nat → Bytes → Prop) {P : UInt64 → Prop} (hown : ∀ m, P m → ∀ key, own (home m key) key) {n : UInt64}
    (hn : 2 ≤ n) (hP : P n) (draws : Nat → Nat → Bool) {evs : List SiteEvent}
    (hevs : ∀ ev ∈ evs, ev.Within P)
    (hmeets : ∀ s, found n draws = .ok s → Meets Site.step SiteSafe s evs) :
    Runs (found n draws >>= fun s => evs.foldlM Site.step s)
      (fun s => SiteRep own s (kept n evs)) := by
  let I : List SiteEvent → Site → Prop := fun rest s => (∀ ev ∈ rest, ev.Within P)
    ∧ ∃ k, P k.shardNum ∧ SiteRep own s k ∧ rest.foldl Kept.step k = kept n evs
  have hI : ∀ {ev : SiteEvent} {rest : List SiteEvent} {s : Site}, I (ev :: rest) s →
      SiteSafe s ev → Runs (s.step ev) (I rest) := by
    rintro ev rest s ⟨hrest, k, hk, h, hkept⟩ hsafe
    refine (site_step h (hown _ hk) hsafe).mono ?_
    intro s' h'
    exact ⟨fun x hx => hrest x (List.mem_cons_of_mem _ hx), _,
      within_step (hrest ev List.mem_cons_self) hk, h', hkept⟩
  refine (found_spec own hn draws).bind_eq ?_
  intro s hrun hfound
  refine (ends_foldlM I hI evs (hmeets s hrun) ⟨hevs, _, hP, hfound, rfl⟩).mono ?_
  rintro s' ⟨-, k, -, h, hkept⟩
  exact hkept ▸ h

/-- A test for `SiteSafe`. -/
def siteTest (s : Site) : SiteEvent → Bool
  | .op (.put key value) =>
      match s.engine.getShard key >>= s.engine.shard with
      | .ok shard => safeTest shard (.op (.put key value))
      | .error _ => true
  | .op (.delete key) => key.length < 2 ^ 32
  | .op _ => true
  | .reopen shardNum _ => 2 ≤ shardNum && (List.range shardNum.toNat).all (fun i => shortNames (s.dirs i))
  | .putCrash key value p shardNum _ =>
      2 ≤ shardNum && (List.range shardNum.toNat).all (fun i => shortNames (s.dirs i))
        && match s.engine.getShard key >>= s.engine.shard with
          | .ok shard => incidentTest shard (.putCrash key value p plainConfig)
          | .error _ => true

theorem sorts_of_all {n : Nat} (h : (List.range n).all (fun i => shortNames (s.dirs i)) = true)
    (i : Nat) (hi : i < n) : SortsByNumber (s.dirs i) :=
  sortsByNumber_of_shortNames (List.all_eq_true.mp h i (List.mem_range.mpr hi))

theorem siteSafe_of_siteTest (s : Site) (ev : SiteEvent) (h : siteTest s ev = true) :
    SiteSafe s ev := by
  cases ev with
  | op o =>
      cases o with
      | put key value =>
          intro i shard hi hshard
          have hfind : s.engine.getShard key >>= s.engine.shard = .ok shard := by
            rw [hi]
            exact hshard
          simp only [siteTest, hfind] at h
          exact safe_of_safeTest shard (.op (.put key value)) h
      | delete key =>
          show key.length < 2 ^ 32
          exact of_decide_eq_true h
      | compactAll => trivial
      | backgroundCompact => trivial
  | reopen shardNum draws =>
      obtain ⟨hn, hall⟩ := Bool.and_eq_true_iff.mp h
      exact ⟨of_decide_eq_true hn, sorts_of_all hall⟩
  | putCrash key value p shardNum draws =>
      obtain ⟨hopen, htest⟩ := Bool.and_eq_true_iff.mp h
      obtain ⟨hn, hall⟩ := Bool.and_eq_true_iff.mp hopen
      refine ⟨of_decide_eq_true hn, sorts_of_all hall, ?_⟩
      intro i shard hi hshard
      have hfind : s.engine.getShard key >>= s.engine.shard = .ok shard := by
        rw [hi]
        exact hshard
      simp only [hfind] at htest
      exact safeFrom_of_incidentTest shard _ htest

/-- **`Get` over all sessions.**  It answers with the last write of its key among
    those that went to the key's home under the number of shards now. -/
theorem get_over_sessions {n : UInt64} (hn : 2 ≤ n) (draws : Nat → Nat → Bool)
    {evs : List SiteEvent}
    (hmeets : ∀ s, found n draws = .ok s → Meets Site.step SiteSafe s evs) :
    Runs (found n draws >>= fun s => evs.foldlM Site.step s) (fun s => ∀ key,
      s.engine.get key = .ok ((kept n evs).maps (home (kept n evs).shardNum key) key)) := by
  refine (site_run (fun _ _ => True) (P := fun _ => True) (fun _ _ _ => trivial) hn trivial draws
    ?_ hmeets).mono (fun _ h => h.get)
  intro ev _
  cases ev <;> trivial

/-- Two sessions with two shards, one with three, and one with two again. -/
def changingNumbers : List SiteEvent :=
  [.op (.put (spatialKey 5 0) [1]), .op (.put [97] [2]), .reopen 2 (fun _ _ => true),
    .op (.put (spatialKey 9223372036854775807 0) [3]), .op .compactAll,
    .putCrash (spatialKey 5 0) [4] .before 3 (fun _ _ => false),
    .op (.delete (spatialKey 9223372036854775807 0)), .op .backgroundCompact,
    .reopen 2 (fun _ _ => false)]

theorem meets_changingNumbers (s : Site) (hs : found 2 (fun _ _ => false) = .ok s) :
    Meets Site.step SiteSafe s changingNumbers := by
  have hcheck : Yields (found 2 (fun _ _ => false))
      (fun s => checkAll Site.step siteTest s changingNumbers = true) := by
    decide +kernel
  exact meets_of_checkAll siteSafe_of_siteTest (hcheck.of_eq_ok hs)

set_option maxRecDepth 20000 in
theorem get_over_sessions_changingNumbers :
    Runs (found 2 (fun _ _ => false) >>= fun s => changingNumbers.foldlM Site.step s)
      (fun s => ∀ key, s.engine.get key = .ok ((kept 2 changingNumbers).maps
        (home (kept 2 changingNumbers).shardNum key) key)) :=
  get_over_sessions (n := 2) (by decide) (fun _ _ => false) meets_changingNumbers

/-- A key that was deleted under three shards is back under two. -/
example : home 2 (spatialKey 9223372036854775807 0) = 0
    ∧ home 3 (spatialKey 9223372036854775807 0) = 1
    ∧ (kept 2 changingNumbers).maps 0 (spatialKey 9223372036854775807 0) = some [3] := by
  decide +kernel

/-! ## Another number of shards -/

/-- What an event writes. -/
def SiteEvent.write (g : Bytes → Option Bytes) : SiteEvent → Bytes → Option Bytes
  | .op (.put key value) => effect g (.put key value)
  | .op (.delete key) => effect g (.erase key)
  | .op _ => g
  | .reopen _ _ => g
  | .putCrash key value _ _ _ => effect g (.put key value)

/-- The last write of each key, wherever it went. -/
def lastWrites (evs : List SiteEvent) : Bytes → Option Bytes :=
  evs.foldl SiteEvent.write (fun _ => none)

/-- The maps are the parts of one map, each with the keys that have their home there. -/
def PartsOf (n : UInt64) (g : Bytes → Option Bytes) (k : Kept) : Prop :=
  k.shardNum = n ∧ ∀ i key, k.maps i key = if home n key = i then g key else none

theorem effect_congr {g g' : Bytes → Option Bytes} {x : Bytes} (h : g x = g' x) (o : Op) :
    effect g o x = effect g' o x := by
  cases o with
  | put key value => simp only [effect, h]
  | erase key => simp only [effect, h]
  | forceFlush => exact h
  | compact => exact h

theorem effect_of_ne {g : Bytes → Option Bytes} {x key : Bytes} (hx : x ≠ key) {o : Op}
    (ho : Touches (· = key) o) : effect g o x = g x := by
  cases o with
  | put key' value => exact if_neg (fun heq => hx (heq.trans ho))
  | erase key' => exact if_neg (fun heq => hx (heq.trans ho))
  | forceFlush => rfl
  | compact => rfl

theorem partsOf_write {n : UInt64} {g : Bytes → Option Bytes} (h : PartsOf n g k) (key : Bytes)
    {o : Op} (ho : Touches (· = key) o) : PartsOf n (effect g o) (k.write key o) := by
  obtain ⟨rfl, hmaps⟩ := h
  refine ⟨rfl, ?_⟩
  intro i x
  simp only [Kept.write]
  by_cases hi : i = home k.shardNum key
  · subst hi
    rw [Function.update_self]
    by_cases hx : x = key
    · subst hx
      rw [if_pos rfl]
      exact effect_congr ((hmaps _ _).trans (if_pos rfl)) o
    · rw [effect_of_ne hx ho, effect_of_ne hx ho, hmaps]
  · rw [Function.update_of_ne hi, hmaps]
    by_cases hx : x = key
    · subst hx
      rw [if_neg (Ne.symm hi), if_neg (Ne.symm hi)]
    · rw [effect_of_ne hx ho]

/-- **With one number of shards** all along, the maps are the parts of one. -/
theorem partsOf_kept {n : UInt64} {evs : List SiteEvent} (hevs : ∀ ev ∈ evs, ev.Within (· = n)) :
    PartsOf n (lastWrites evs) (kept n evs) := by
  have hall : ∀ (evs : List SiteEvent) (k : Kept) (g : Bytes → Option Bytes),
      (∀ ev ∈ evs, ev.Within (· = n)) → PartsOf n g k →
      PartsOf n (evs.foldl SiteEvent.write g) (evs.foldl Kept.step k) := by
    intro evs
    induction evs with
    | nil => exact fun _ _ _ h => h
    | cons ev evs ih =>
        intro k g hevs h
        refine ih _ _ (fun x hx => hevs x (List.mem_cons_of_mem _ hx)) ?_
        have hev := hevs ev List.mem_cons_self
        cases ev with
        | op o =>
            cases o with
            | put key value => exact partsOf_write h key (o := .put key value) rfl
            | delete key => exact partsOf_write h key (o := .erase key) rfl
            | compactAll => exact h
            | backgroundCompact => exact h
        | reopen shardNum draws => exact ⟨hev, h.2⟩
        | putCrash key value p shardNum draws =>
            exact ⟨hev, (partsOf_write h key (o := .put key value) rfl).2⟩
  refine hall evs _ _ hevs ⟨rfl, ?_⟩
  intro i key
  rw [ite_self]

/-- The iterator of a shard. -/
theorem SiteRep.newIterator (h : SiteRep own s k) {i : Nat} (hi : i < s.engine.shardNum.toNat) :
    ∃ shard it l, s.engine.shard i = .ok shard ∧ shard.newIterator = .ok it ∧ KvCursor.At it l l
      ∧ Layer (own i) (k.maps i) l := by
  rw [h.shardNum] at hi
  obtain ⟨shard, hshard, st, hrep, hd, how⟩ := h.opened i hi
  obtain ⟨it, l, hnew, hat, hmerge, hlive⟩ := newIterator_live hrep hd.agrees.tidy
  have hholds := how.holds hd.logged hrep.mem.keySorted
  have howned : ∀ x ∈ l, own i x.key := by
    intro x hx
    obtain ⟨⟨m, hm, hxm⟩, -⟩ := hmerge.chosen x hx
    exact hholds.scanLayers m hm x hxm
  refine ⟨shard, it, l, ?_, hnew, hat, howned, ?_⟩
  · rw [ShardedKVEngine.shard, hshard]
    rfl
  · intro j v
    rw [hlive j v, hd.agrees.reads j]
    constructor
    · intro hv
      obtain ⟨x, hx, rfl, -⟩ := (hlive j v).mpr ((hd.agrees.reads j).trans hv)
      exact ⟨howned x hx, hv⟩
    · exact fun hv => hv.2

/-- **`RangeQuery`** shows the maps of the directories it searches. -/
theorem SiteRep.rangeQuery (h : SiteRep own s k)
    (huniq : ∀ {key : Bytes} {i j : Nat}, own i key → own j key → i = j) (startKey endKey : Bytes) :
    ∃ out, s.engine.rangeQuery startKey endKey = .ok out ∧ Ascending IteratorEntry.key out
      ∧ (∀ x ∈ out, x.type ≠ .kTypeDeletion)
      ∧ ∀ j v, (∃ x ∈ out, x.key = j ∧ x.value = v) ↔ startKey ≤ j ∧ j ≤ endKey
        ∧ ∃ r ∈ searched s.engine.ranges startKey endKey, own r.shardIndex.toNat j
          ∧ k.maps r.shardIndex.toNat j = some v := by
  obtain ⟨its, ls, hrun, hat, hls⟩ := shardIterators_of (fun i hi => h.newIterator hi)
    startKey endKey (fun r hr => h.wellFormed.shardIndex_lt hr)
  have hsep := separate_of_owners (fun key i => own i key) huniq (hls.imp fun _ _ hl => hl.owned)
    (nodup_searched h.wellFormed startKey endKey)
  obtain ⟨out, hquery, hasc, hmem⟩ := rangeQuery_of_layers hrun hat hsep
  exact ⟨out, hquery, hasc, fun x hx => ((hmem x).mp hx).2.2.2,
    mem_out_iff (fun key i => own i key) k.maps hls hmem⟩

/-- **Opened with another number of shards**, after any life with one number:
    `Get` finds exactly the keys whose home is the same, and `RangeQuery` those
    whose home before is a directory that it searches now. -/
theorem resharded {n m : UInt64} (hn : 2 ≤ n) (draws draws' : Nat → Nat → Bool)
    {evs : List SiteEvent} (hevs : ∀ ev ∈ evs, ev.Within (· = n))
    (hmeets : ∀ s, found n draws = .ok s →
      Meets Site.step SiteSafe s (evs ++ [SiteEvent.reopen m draws'])) :
    Runs (found n draws >>= fun s => (evs ++ [SiteEvent.reopen m draws']).foldlM Site.step s) (fun s =>
      (∀ key, s.engine.get key
          = .ok (if home n key = home m key then lastWrites evs key else none))
        ∧ ∀ startKey endKey, ∃ out, s.engine.rangeQuery startKey endKey = .ok out
          ∧ Ascending IteratorEntry.key out ∧ (∀ x ∈ out, x.type ≠ .kTypeDeletion)
          ∧ ∀ key v, (∃ x ∈ out, x.key = key ∧ x.value = v) ↔ startKey ≤ key ∧ key ≤ endKey
            ∧ lastWrites evs key = some v ∧ ∃ range ∈ s.engine.ranges,
              range.shardIndex.toNat = home n key ∧ range.noOverlap startKey endKey = false) := by
  obtain ⟨hnum, hmaps⟩ := partsOf_kept hevs
  have hrun := site_run (fun i key => home n key = i) (P := (· = n)) (fun _ hm key => hm ▸ rfl) hn
    rfl draws hevs (fun s hs => (hmeets s hs).append.1)
  simp only [List.foldlM_append, ← bind_assoc]
  refine hrun.bind_eq ?_
  intro s hs h
  obtain ⟨s₀, hfound, hlife⟩ := bind_eq_ok.mp hs
  obtain ⟨hsafe, -⟩ := (hmeets s₀ hfound).append.2 s hlife
  have hown : ∀ key, home n key = home (kept n evs).shardNum key := fun key => by rw [hnum]
  rw [List.foldlM_cons]
  refine (site_step h hown hsafe).bind ?_
  intro s' h'
  have hnum' : ((kept n evs).step (.reopen m draws')).shardNum = m := rfl
  have hmaps' : ((kept n evs).step (.reopen m draws')).maps = (kept n evs).maps := rfl
  refine ⟨?_, ?_⟩
  · intro key
    rw [h'.get, hnum', hmaps', hmaps]
  · intro startKey endKey
    obtain ⟨out, hquery, hasc, hlive, hmem⟩ :=
      h'.rangeQuery (fun hi hj => hi.symm.trans hj) startKey endKey
    refine ⟨out, hquery, hasc, hlive, ?_⟩
    intro key v
    rw [hmem]
    refine and_congr_right fun _ => and_congr_right fun _ => ?_
    constructor
    · rintro ⟨r, hr, hhome, hv⟩
      obtain ⟨hmemr, hno⟩ := List.mem_filter.mp hr
      rw [hmaps', hmaps, if_pos hhome] at hv
      exact ⟨hv, r, hmemr, hhome.symm, by simpa using hno⟩
    · rintro ⟨hv, r, hmemr, hhome, hno⟩
      refine ⟨r, List.mem_filter.mpr ⟨hmemr, by simpa using hno⟩, hhome.symm, ?_⟩
      rw [hmaps', hmaps, if_pos hhome.symm]
      exact hv

/-- One session with two shards, and a crash. -/
def sameNumber : List SiteEvent :=
  [.op (.put (spatialKey 5 0) [1]), .op (.put (spatialKey 9223372036854775807 0) [2]),
    .putCrash [97] [3] .before 2 (fun _ _ => false), .op (.delete (spatialKey 5 0)),
    .op .compactAll]

theorem meets_sameNumber (s : Site) (hs : found 2 (fun _ _ => false) = .ok s) :
    Meets Site.step SiteSafe s (sameNumber ++ [SiteEvent.reopen 3 (fun _ _ => false)]) := by
  have hcheck : Yields (found 2 (fun _ _ => false)) (fun s => checkAll Site.step siteTest s
      (sameNumber ++ [SiteEvent.reopen 3 (fun _ _ => false)]) = true) := by
    decide +kernel
  exact meets_of_checkAll siteSafe_of_siteTest (hcheck.of_eq_ok hs)

theorem within_sameNumber : ∀ ev ∈ sameNumber, ev.Within (· = 2) := by
  simp [sameNumber, SiteEvent.Within]

set_option maxRecDepth 20000 in
theorem resharded_sameNumber :
    Runs (found 2 (fun _ _ => false) >>= fun s =>
        (sameNumber ++ [SiteEvent.reopen 3 (fun _ _ => false)]).foldlM Site.step s) (fun s =>
      (∀ key, s.engine.get key
          = .ok (if home 2 key = home 3 key then lastWrites sameNumber key else none))
        ∧ ∀ startKey endKey, ∃ out, s.engine.rangeQuery startKey endKey = .ok out
          ∧ Ascending IteratorEntry.key out ∧ (∀ x ∈ out, x.type ≠ .kTypeDeletion)
          ∧ ∀ key v, (∃ x ∈ out, x.key = key ∧ x.value = v) ↔ startKey ≤ key ∧ key ≤ endKey
            ∧ lastWrites sameNumber key = some v ∧ ∃ range ∈ s.engine.ranges,
              range.shardIndex.toNat = home 2 key ∧ range.noOverlap startKey endKey = false) :=
  resharded (n := 2) (m := 3) (by decide) (fun _ _ => false) (fun _ _ => false) within_sameNumber
    meets_sameNumber

/-- A key that `RangeQuery` shows and `Get` does not find. -/
example : lastWrites sameNumber (spatialKey 9223372036854775807 0) = some [2]
    ∧ home 2 (spatialKey 9223372036854775807 0) = 0
    ∧ home 3 (spatialKey 9223372036854775807 0) = 1 := by
  decide +kernel

end KvShardSessions
