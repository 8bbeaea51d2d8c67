import LightKV.KvRoutingProofs

/-! # Range queries over shards

    Each shard of a running `ShardedKVEngine` stands for a store in order that
    holds only keys which `GetShard` sends to it (`ShardsRep`); every operation
    keeps this.  The iterators of two shards therefore share no key, and the
    merge of these merges gives all their entries.  `RangeQuery` is complete
    exactly while no readable key of its range is in a shard that it leaves out
    (`rangeQuery_complete_iff`), and what it returns is right
    (`rangeQuery_sound`).  Both hold of keys that fit their length fields; behind
    one that does not a query may find what `Get` misses
    (`stray_key_is_found`). -/

namespace KvRangeQuery

open Execution KWayMerge KvBytes KvCompaction KvDirectory KvEngine KvIterators KvLongKey KvMerging
open KvRecovery KvRouting KvScan KvSession KvSharding KvSkipList KvSpatialKey KvStore KvTable
open KvTableIterator LittleEndian Overlay

/-! ## Operations -/

/-- A client's operation, or a turn of the scheduler in between. -/
inductive ShardOp
  | put (key value : Bytes)
  | delete (key : Bytes)
  | compactAll
  | backgroundCompact

/-- Perform an operation. -/
def perform (e : ShardedKVEngine) : ShardOp → Except Fault ShardedKVEngine
  | .put key value => e.put key value
  | .delete key => e.delete key
  | .compactAll => e.compactAll
  | .backgroundCompact => e.backgroundCompact

/-- Keys that fit the length fields of tables and logs. -/
def ShardOp.KeyFits : ShardOp → Prop
  | .put key _ => key.length < 2 ^ 32
  | .delete key => key.length < 2 ^ 32
  | _ => True

instance : DecidablePred ShardOp.KeyFits := fun o => by
  cases o <;> unfold ShardOp.KeyFits <;> infer_instance

/-- A sharded engine over fresh directories. -/
def fresh (shardNum : UInt64) (draws : Nat → Nat → Bool) : Except Fault ShardedKVEngine :=
  ShardedKVEngine.open shardNum (fun _ => []) draws

/-- The key is in a shard that a query leaves out. -/
def Pruned (e : ShardedKVEngine) (startKey endKey key : Bytes) : Prop :=
  ∃ range ∈ e.ranges, e.getShard key = .ok range.shardIndex.toNat
    ∧ range.noOverlap startKey endKey = true

/-! ## What a store holds -/

/-- All keys of a store have a property. -/
structure Holds (p : Bytes → Prop) (s : Store) : Prop where
  mem : ∀ kv ∈ s.mem, p kv.1
  tables : ∀ t ∈ s.tables, ∀ kv ∈ t.entries, p kv.1

/-- The key that an operation writes has a property. -/
def Touches (p : Bytes → Prop) : Op → Prop
  | .put key _ => p key
  | .erase key => p key
  | _ => True

variable {p : Bytes → Prop} {s s' : Store}

theorem Holds.write (h : Holds p s) {r : KvWal.ParsedLogRecord} (hr : p r.key) (tv : TableValue) :
    Holds p (s.write r tv) := by
  refine ⟨?_, h.tables⟩
  intro kv hkv
  rcases mem_upsert_key hkv with rfl | hkv'
  · exact hr
  · exact h.mem kv hkv'

theorem Holds.flush (h : Holds p s) : Holds p s.flush := by
  rw [Store.flush]
  split
  · exact h
  · refine ⟨fun kv hkv => absurd hkv List.not_mem_nil, ?_⟩
    intro t ht kv hkv
    rcases List.mem_cons.mp ht with rfl | ht'
    · obtain ⟨kv', hkv', rfl⟩ := List.mem_map.mp hkv
      exact h.mem kv' hkv'
    · exact h.tables t ht' kv hkv

/-- The keys of a merge are keys of what it merges. -/
theorem Holds.merge {ts : List Table} {m : List Entry} (h : ∀ t ∈ ts, ∀ kv ∈ t.entries, p kv.1)
    (hm : Merged ts m) : ∀ kv ∈ m, p kv.1 := by
  obtain ⟨out, hmerge, rfl⟩ := hm
  intro kv hkv
  obtain ⟨e, he, rfl⟩ := List.mem_map.mp hkv
  obtain ⟨⟨l, hl, hel⟩, -⟩ := hmerge.chosen e (List.mem_filter.mp he).1
  obtain ⟨t, ht, rfl⟩ := List.mem_map.mp hl
  obtain ⟨kv', hkv', rfl⟩ := List.mem_map.mp hel
  exact h t ht kv' hkv'

theorem Holds.compacted (h : Holds p s) {m : List Entry} (hm : Merged s.tables m) :
    Holds p (Store.compacted s m) := by
  constructor
  · rw [mem_compacted]
    exact h.mem
  · rw [tables_compacted]
    split
    · exact h.tables
    · intro t ht
      rw [List.mem_singleton.mp ht]
      exact Holds.merge h.tables hm

/-- **Every step keeps what holds of the keys.** -/
theorem holds_step {o : Op} (h : Holds p s) (ho : Touches p o) (hs : Step s o s') :
    Holds p s' := by
  cases hs with
  | put key value =>
      have hw : Holds p (s.write ⟨.PUT, key, value⟩ ⟨.kTypeValue, value⟩) :=
        h.write (show p key from ho) _
      rw [Store.put]
      split
      · exact hw.flush
      · exact hw
  | erase key => exact h.write (show p key from ho) _
  | forceFlush => exact h.flush
  | compactNone hle => exact h
  | compact hlt hm => exact h.compacted hm

/-- The layers of a scan hold these keys as well. -/
theorem Holds.scanLayers (h : Holds p s) : ∀ l ∈ scanLayers s, ∀ x ∈ l, p x.key := by
  intro l hl x hx
  rcases List.mem_cons.mp hl with rfl | hl'
  · obtain ⟨kv, hkv, rfl⟩ := List.mem_map.mp hx
    exact h.mem kv hkv
  · obtain ⟨t, ht, rfl⟩ := List.mem_map.mp hl'
    obtain ⟨kv, hkv, rfl⟩ := List.mem_map.mp hx
    exact h.tables t ht kv hkv

/-! ## What the shards stand for -/

/-- **The sharded engine stands for a list of stores**, each in order and with its
    own keys only. -/
structure ShardsRep (e : ShardedKVEngine) (ss : List Store) : Prop where
  wellFormed : e.WellFormed
  reps : List.Forall₂ Rep e.shards ss
  tidy : ∀ s ∈ ss, Tidy s
  own : ∀ {i : Nat} {s : Store}, ss[i]? = some s → Holds (fun key => e.getShard key = .ok i) s

variable {e : ShardedKVEngine} {ss : List Store}

/-- The shard at an index. -/
theorem ShardsRep.shard (h : ShardsRep e ss) {i : Nat} (hi : i < e.shardNum.toNat) :
    ∃ shard s, e.shard i = .ok shard ∧ ss[i]? = some s ∧ Rep shard s ∧ Tidy s := by
  have hlen : ss.length = e.shardNum.toNat := h.reps.length_eq.symm.trans h.wellFormed.length
  have hs : ss[i]? = some ss[i] := List.getElem?_eq_getElem (hlen ▸ hi)
  obtain ⟨shard, hshard, hrep⟩ := forall₂_exists h.reps hs
  refine ⟨shard, _, ?_, hs, hrep, h.tidy _ (List.getElem_mem _)⟩
  rw [ShardedKVEngine.shard, hshard]
  rfl

/-- **`Get`** reads the store of the key's shard. -/
theorem ShardsRep.get (h : ShardsRep e ss) {key : Bytes} {i : Nat} {s : Store}
    (hi : e.getShard key = .ok i) (hs : ss[i]? = some s) :
    e.get key = .ok (visible (s.view key)) := by
  obtain ⟨j, hj, hlt⟩ := getShard_spec h.wellFormed key
  obtain rfl : i = j := Except.ok.inj (hi.symm.trans hj)
  obtain ⟨shard, s', hshard, hs', hrep, -⟩ := h.shard hlt
  obtain rfl : s = s' := Option.some.inj (hs.symm.trans hs')
  simp only [ShardedKVEngine.get, hi, hshard, ok_bind]
  exact hrep.get key

/-- **What an operation does to the stores** of the shards. -/
inductive Moves (e : ShardedKVEngine) (ss : List Store) : ShardOp → List Store → Prop
  | put {key : Bytes} {i : Nat} {s : Store} (value : Bytes) (hi : e.getShard key = .ok i)
      (hs : ss[i]? = some s) : Moves e ss (.put key value) (ss.set i (s.put key value))
  | delete {key : Bytes} {i : Nat} {s : Store} (hi : e.getShard key = .ok i)
      (hs : ss[i]? = some s) : Moves e ss (.delete key) (ss.set i (s.erase key))
  | compactAll {ss' : List Store} (h : List.Forall₂ (fun s s' => Step s .compact s') ss ss') :
      Moves e ss .compactAll ss'
  | backgroundCompact {ss' : List Store}
      (h : List.Forall₂ (fun s s' => s.tables.length < 5 ∧ s' = s ∨ Step s .compact s') ss ss') :
      Moves e ss .backgroundCompact ss'

/-- **An operation on one shard**, which gets a key that is its own. -/
theorem modify_spec (h : ShardsRep e ss) {o : Op} (ho : o.KeyFits) {i : Nat}
    (hi : i < e.shardNum.toNat) (ht : Touches (fun key => e.getShard key = .ok i) o) :
    Runs (e.modify i (fun shard => execute shard o)) (fun e' => ∃ s s', ss[i]? = some s
      ∧ Step s o s' ∧ ShardsRep e' (ss.set i s')) := by
  obtain ⟨shard, s, hshard, hs, hrep, htidy⟩ := h.shard hi
  simp only [ShardedKVEngine.modify, hshard, ok_bind]
  refine (execute_spec hrep ho).bind ?_
  rintro shard' ⟨s', hstep, hrep'⟩
  have hlen : (e.shards.set i shard').length = e.shards.length := List.length_set
  refine ⟨s, s', hs, hstep, h.wellFormed.with_shards hlen, forall₂_set h.reps i hrep', ?_, ?_⟩
  · intro u hu
    rcases List.mem_or_eq_of_mem_set hu with hu' | rfl
    · exact h.tidy u hu'
    · exact tidy_step htidy hstep
  · intro j u hu
    simp only [getShard_with_shards hlen]
    rw [List.getElem?_set] at hu
    by_cases hij : i = j
    · subst hij
      have hlt : i < ss.length := (List.getElem?_eq_some_iff.mp hs).1
      rw [if_pos rfl, if_pos hlt] at hu
      exact Option.some.inj hu ▸ holds_step (h.own hs) ht hstep
    · rw [if_neg hij] at hu
      exact h.own hu

/-- **A loop over the shards** is, for each of them, a step or nothing. -/
theorem forShards_spec {f : KVEngine → Except Fault KVEngine} {idle : Store → Prop}
    {shards : List KVEngine} (hf : ∀ {shard s}, Rep shard s →
      f shard = execute shard .compact ∨ idle s ∧ f shard = .ok shard)
    (h : List.Forall₂ Rep shards ss) :
    Runs (forShards f shards) (fun shards' => ∃ ss', List.Forall₂ Rep shards' ss'
      ∧ List.Forall₂ (fun s s' => idle s ∧ s' = s ∨ Step s .compact s') ss ss') := by
  induction h with
  | nil => exact ⟨[], List.Forall₂.nil, List.Forall₂.nil⟩
  | @cons shard s shards ss hrep _ ih =>
      have hone : Runs (f shard) (fun shard' => ∃ s', Rep shard' s'
          ∧ (idle s ∧ s' = s ∨ Step s .compact s')) := by
        rcases hf hrep with hrun | ⟨hidle, hrun⟩
        · rw [hrun]
          refine (execute_spec hrep (show Op.KeyFits .compact from trivial)).mono ?_
          rintro shard' ⟨s', hstep, hrep'⟩
          exact ⟨s', hrep', Or.inr hstep⟩
        · rw [hrun]
          exact ⟨s, hrep, Or.inl ⟨hidle, rfl⟩⟩
      refine hone.bind ?_
      rintro shard' ⟨s', hrep', hs'⟩
      refine ih.bind ?_
      rintro shards' ⟨ss', hreps', hss'⟩
      exact ⟨s' :: ss', List.Forall₂.cons hrep' hreps', List.Forall₂.cons hs' hss'⟩

/-- A loop of compactions keeps what the shards stand for. -/
theorem compactShards_spec (h : ShardsRep e ss) (idle : Store → Prop)
    {f : KVEngine → Except Fault KVEngine} (hf : ∀ {shard s}, Rep shard s →
      f shard = execute shard .compact ∨ idle s ∧ f shard = .ok shard) :
    Runs (forShards f e.shards >>= fun shards => pure { e with shards := shards })
      (fun e' => ∃ ss', List.Forall₂ (fun s s' => idle s ∧ s' = s ∨ Step s .compact s') ss ss'
        ∧ ShardsRep e' ss') := by
  refine (forShards_spec hf h.reps).bind ?_
  rintro shards ⟨ss', hreps, hsteps⟩
  have hlen : shards.length = e.shards.length := by
    rw [hreps.length_eq, h.reps.length_eq, hsteps.length_eq]
  refine ⟨ss', hsteps, h.wellFormed.with_shards hlen, hreps, ?_, ?_⟩
  · intro s' hs'
    obtain ⟨i, hi⟩ := List.mem_iff_getElem?.mp hs'
    obtain ⟨s, hs, hor⟩ := forall₂_exists hsteps hi
    have htidy := h.tidy s (List.mem_of_getElem? hs)
    rcases hor with ⟨-, rfl⟩ | hstep
    · exact htidy
    · exact tidy_step htidy hstep
  · intro i s' hi
    obtain ⟨s, hs, hor⟩ := forall₂_exists hsteps hi
    simp only [getShard_with_shards hlen]
    rcases hor with ⟨-, rfl⟩ | hstep
    · exact h.own hs
    · exact holds_step (h.own hs) (show Touches _ .compact from trivial) hstep

/-- **Every operation keeps what the shards stand for.** -/
theorem perform_spec (h : ShardsRep e ss) {o : ShardOp} (ho : o.KeyFits) :
    Runs (perform e o) (fun e' => ∃ ss', Moves e ss o ss' ∧ ShardsRep e' ss') := by
  cases o with
  | put key value =>
      obtain ⟨i, hi, hlt⟩ := getShard_spec h.wellFormed key
      simp only [perform, ShardedKVEngine.put, hi, ok_bind]
      refine (modify_spec h (show (Op.put key value).KeyFits from ho) hlt hi).mono ?_
      rintro e' ⟨s, s', hs, hstep, h'⟩
      cases hstep
      exact ⟨_, .put value hi hs, h'⟩
  | delete key =>
      obtain ⟨i, hi, hlt⟩ := getShard_spec h.wellFormed key
      simp only [perform, ShardedKVEngine.delete, hi, ok_bind]
      refine (modify_spec h (show (Op.erase key).KeyFits from ho) hlt hi).mono ?_
      rintro e' ⟨s, s', hs, hstep, h'⟩
      cases hstep
      exact ⟨_, .delete hi hs, h'⟩
  | compactAll =>
      refine (compactShards_spec h (fun _ => False) (fun _ => Or.inl rfl)).mono ?_
      rintro e' ⟨ss', hsteps, h'⟩
      exact ⟨ss', .compactAll (hsteps.imp fun _ _ hor => hor.resolve_left fun hf => hf.1), h'⟩
  | backgroundCompact =>
      refine (compactShards_spec h (fun s => s.tables.length < 5) ?_).mono ?_
      · intro shard s hrep
        have hneeds : shard.needsCompaction 5 = decide (s.tables.length ≥ 5) := by
          rw [KVEngine.needsCompaction, hrep.tables.length_eq]
        by_cases hlen : s.tables.length ≥ 5
        · exact Or.inl (if_pos (hneeds.trans (decide_eq_true hlen)))
        · refine Or.inr ⟨Nat.not_le.mp hlen, if_neg ?_⟩
          rw [hneeds, decide_eq_true_iff]
          exact hlen
      · rintro e' ⟨ss', hsteps, h'⟩
        exact ⟨ss', .backgroundCompact hsteps, h'⟩

/-! ## Runs -/

/-- The arguments with which the constructor opens its shards. -/
def shardConfig (draws : Nat → Bool) : Config := 
  ⟨20000, 16, draws, plainConfig.one_le_maxLevel⟩

/-- A fresh shard. -/
def freshStore : Store := opened [] [] [] [] 20000

theorem openShards_fresh (draws : Nat → Nat → Bool) (is : List Nat) :
    ∃ shards, openShards (fun _ => []) draws is = .ok shards
      ∧ List.Forall₂ Rep shards (is.map (fun _ => freshStore)) := by
  induction is with
  | nil => exact ⟨[], rfl, List.Forall₂.nil⟩
  | cons i is ih =>
      obtain ⟨shards, hrun, hreps⟩ := ih
      obtain ⟨shard, hstart, hrep⟩ := start_nil (shardConfig (draws i))
      refine ⟨shard :: shards, ?_, List.Forall₂.cons hrep hreps⟩
      have hopen : KVEngine.open [] 20000 16 (draws i) = .ok shard := hstart
      simp only [openShards, hopen, hrun, ok_bind]
      rfl

/-- **A fresh engine.** -/
theorem fresh_spec {n : UInt64} (hn : 2 ≤ n) (draws : Nat → Nat → Bool) :
    ∃ e, fresh n draws = .ok e
      ∧ ShardsRep e ((List.range n.toNat).map (fun _ => freshStore)) := by
  obtain ⟨shards, hrun, hreps⟩ := openShards_fresh draws (List.range n.toNat)
  have hlen : shards.length = n.toNat := by
    rw [hreps.length_eq, List.length_map, List.length_range]
  refine ⟨⟨n, shards, _⟩, ?_, ⟨hn, initUniformRanges_eq (ne_zero_of_two_le hn), hlen⟩, hreps, ?_, ?_⟩
  · simp only [fresh, ShardedKVEngine.open, hrun, initUniformRanges_eq (ne_zero_of_two_le hn), ok_bind]
    rfl
  · intro s hs
    obtain ⟨i, -, rfl⟩ := List.mem_map.mp hs
    exact ⟨List.Pairwise.nil, fun t ht => absurd ht List.not_mem_nil⟩
  · intro i s hs
    obtain ⟨j, -, rfl⟩ := List.mem_map.mp (List.mem_of_getElem? hs)
    exact ⟨fun kv hkv => absurd hkv List.not_mem_nil, fun t ht => absurd ht List.not_mem_nil⟩

/-- **A run keeps what its operations keep.**  `J` may follow the run through a
    state of its own, which `δ` moves. -/
theorem run_keeps {G : Type} (J : G → List Store → Prop) (δ : G → ShardOp → G)
    (hstep : ∀ {g : G} {e : ShardedKVEngine} {ss ss' : List Store} {o : ShardOp},
      ShardsRep e ss → J g ss → Moves e ss o ss' → J (δ g o) ss') {n : UInt64} (hn : 2 ≤ n)
    (draws : Nat → Nat → Bool) (g : G)
    (hfresh : J g ((List.range n.toNat).map (fun _ => freshStore))) {os : List ShardOp}
    (hos : ∀ o ∈ os, o.KeyFits) :
    Runs (fresh n draws >>= fun e => os.foldlM perform e)
      (fun e => ∃ ss, ShardsRep e ss ∧ J (os.foldl δ g) ss) := by
  obtain ⟨e, hrun, hrep⟩ := fresh_spec hn draws
  -- what is still to come leads from the state of `J` now to its last one
  let I : List ShardOp → ShardedKVEngine → Prop := fun rest e =>
    (∀ o ∈ rest, o.KeyFits) ∧ ∃ ss g', ShardsRep e ss ∧ J g' ss ∧ rest.foldl δ g' = os.foldl δ g
  have hI : ∀ {o : ShardOp} {rest : List ShardOp} {e : ShardedKVEngine}, I (o :: rest) e → True →
      Runs (perform e o) (I rest) := by
    rintro o rest e ⟨hrest, ss, g', h, hj, hg⟩ _
    refine (perform_spec h (hrest o List.mem_cons_self)).mono ?_
    rintro e' ⟨ss', hmoves, h'⟩
    exact ⟨fun x hx => hrest x (List.mem_cons_of_mem _ hx), ss', δ g' o, h', hstep h hj hmoves, hg⟩
  rw [hrun, ok_bind]
  refine (ends_foldlM I hI os (meets_of_forall (fun _ _ => trivial) os e)
    ⟨hos, _, g, hrep, hfresh, rfl⟩).mono ?_
  rintro e' ⟨-, ss, g', h', hj, hg⟩
  exact ⟨ss, h', hg ▸ hj⟩

/-- **What a run leaves.** -/
theorem run_spec {n : UInt64} (hn : 2 ≤ n) (draws : Nat → Nat → Bool) {os : List ShardOp}
    (hos : ∀ o ∈ os, o.KeyFits) :
    Runs (fresh n draws >>= fun e => os.foldlM perform e) (fun e => ∃ ss, ShardsRep e ss) := by
  refine (run_keeps (fun (_ : Unit) _ => True) (fun g _ => g) (fun _ _ _ => trivial) hn draws ()
    trivial hos).mono ?_
  rintro e ⟨ss, h, -⟩
  exact ⟨ss, h⟩

/-! ## The merge of merges -/

/-- What an iterator goes through: keys with a property, and what a map holds at
    these. -/
structure Layer (own : Bytes → Prop) (g : Bytes → Option Bytes) (l : List IteratorEntry) :
    Prop where
  owned : ∀ x ∈ l, own x.key
  live : ∀ k v, (∃ x ∈ l, x.key = k ∧ x.type ≠ .kTypeDeletion ∧ x.value = v)
    ↔ own k ∧ g k = some v

/-- What `Get` answers. -/
def readsAs (e : ShardedKVEngine) (key : Bytes) : Option Bytes :=
  match e.get key with
  | .ok found => found
  | .error _ => none

theorem readsAs_iff (e : ShardedKVEngine) (key v : Bytes) :
    readsAs e key = some v ↔ e.get key = .ok (some v) := by
  rw [readsAs]
  cases e.get key with
  | error f => simp
  | ok found => simp

/-- **The iterator of a shard.** -/
theorem newIterator_layer (h : ShardsRep e ss) {i : Nat} (hi : i < e.shardNum.toNat) :
    ∃ shard it l, e.shard i = .ok shard ∧ shard.newIterator = .ok it ∧ KvCursor.At it l l
      ∧ Layer (fun key => e.getShard key = .ok i) (readsAs e) l := by
  obtain ⟨shard, s, hshard, hs, hrep, htidy⟩ := h.shard hi
  obtain ⟨it, l, hnew, hat, hmerge, hlive⟩ := newIterator_live hrep htidy
  have hown : ∀ x ∈ l, e.getShard x.key = .ok i := by
    intro x hx
    obtain ⟨⟨m, hm, hxm⟩, -⟩ := hmerge.chosen x hx
    exact (h.own hs).scanLayers m hm x hxm
  refine ⟨shard, it, l, hshard, hnew, hat, hown, ?_⟩
  intro k v
  rw [hlive k v, readsAs_iff]
  constructor
  · intro hv
    obtain ⟨x, hx, rfl, -⟩ := (hlive k v).mpr hv
    rw [h.get (hown x hx) hs, hv]
    exact ⟨hown x hx, rfl⟩
  · rintro ⟨hk, hget⟩
    rw [h.get hk hs] at hget
    exact Except.ok.inj hget

/-- The ranges that a query searches. -/
def searched (ranges : List ShardRange) (startKey endKey : Bytes) : List ShardRange :=
  ranges.filter (fun range => !range.noOverlap startKey endKey)

/-- **The iterators of the searched shards**, where each shard has one with a
    property. -/
theorem shardIterators_of {P : Nat → List IteratorEntry → Prop}
    (hnew : ∀ i, i < e.shardNum.toNat → ∃ shard it l, e.shard i = .ok shard
      ∧ shard.newIterator = .ok it ∧ KvCursor.At it l l ∧ P i l) (startKey endKey : Bytes)
    {ranges : List ShardRange} (hr : ∀ r ∈ ranges, r.shardIndex.toNat < e.shardNum.toNat) :
    ∃ its ls, e.shardIterators startKey endKey ranges = .ok its
      ∧ List.Forall₂ (fun c l => KvCursor.At c l l) its ls
      ∧ List.Forall₂ (fun (r : ShardRange) l => P r.shardIndex.toNat l)
        (searched ranges startKey endKey) ls := by
  induction ranges with
  | nil => exact ⟨[], [], rfl, List.Forall₂.nil, List.Forall₂.nil⟩
  | cons r ranges ih =>
      obtain ⟨its, ls, hrun, hat, hls⟩ := ih (fun q hq => hr q (List.mem_cons_of_mem _ hq))
      by_cases hpruned : r.noOverlap startKey endKey = true
      · refine ⟨its, ls, ?_, hat, ?_⟩
        · rw [ShardedKVEngine.shardIterators, if_pos hpruned]
          exact hrun
        · rw [searched, List.filter_cons_of_neg (by simpa using hpruned)]
          exact hls
      · obtain ⟨shard, it, l, hshard, hit, hat', hl⟩ := hnew _ (hr r List.mem_cons_self)
        refine ⟨it :: its, l :: ls, ?_, List.Forall₂.cons hat' hat, ?_⟩
        · simp only [ShardedKVEngine.shardIterators, if_neg hpruned, hshard, hit, hrun, ok_bind]
          rfl
        · rw [searched, List.filter_cons_of_pos (by simpa using hpruned)]
          exact List.Forall₂.cons hl hls

/-- Entries whose keys have different owners share no key. -/
theorem separate_of_owners (owner : Bytes → Nat → Prop)
    (huniq : ∀ {k : Bytes} {i j : Nat}, owner k i → owner k j → i = j)
    {ranges : List ShardRange} {ls : List (List IteratorEntry)}
    (h : List.Forall₂ (fun (r : ShardRange) l => ∀ x ∈ l, owner x.key r.shardIndex.toNat) ranges ls)
    (hnd : (ranges.map (fun r => r.shardIndex.toNat)).Nodup) : Separate IteratorEntry.key ls := by
  induction h with
  | nil => exact List.Pairwise.nil
  | @cons r l ranges ls hl hls ih =>
      obtain ⟨hnew, hnd'⟩ := List.nodup_cons.mp hnd
      refine List.pairwise_cons.mpr ⟨?_, ih hnd'⟩
      intro m hm a ha b hb hk
      obtain ⟨q, hq, hlayer⟩ := forall₂_mem_right hls hm
      have hmem : q.shardIndex.toNat ∈ ranges.map (fun r => r.shardIndex.toNat) :=
        List.mem_map_of_mem hq
      -- one key would have two owners
      have hsame : r.shardIndex.toNat = q.shardIndex.toNat :=
        huniq (hl a ha) (hk ▸ hlayer b hb)
      rw [← hsame] at hmem
      exact hnew hmem

/-- A key has one shard. -/
theorem getShard_unique {k : Bytes} {i j : Nat} (hi : e.getShard k = .ok i)
    (hj : e.getShard k = .ok j) : i = j := Except.ok.inj (hi.symm.trans hj)

/-- The searched ranges are of different shards. -/
theorem nodup_searched (h : e.WellFormed) (startKey endKey : Bytes) :
    ((searched e.ranges startKey endKey).map (fun r => r.shardIndex.toNat)).Nodup := by
  have hall : (e.ranges.map (fun r => r.shardIndex.toNat)).Nodup :=
    h.map_shardIndex ▸ List.nodup_range
  exact hall.sublist (List.filter_sublist.map _)

/-- A key with a shard is in one that is searched or in one that is not. -/
theorem searched_iff (h : e.WellFormed) {startKey endKey key : Bytes} :
    (∃ r ∈ searched e.ranges startKey endKey, e.getShard key = .ok r.shardIndex.toNat)
      ↔ ¬ Pruned e startKey endKey key := by
  have hindex := h.map_shardIndex
  have hnd : (e.ranges.map (fun r => r.shardIndex.toNat)).Nodup := hindex ▸ List.nodup_range
  constructor
  · rintro ⟨r, hr, hshard⟩ ⟨q, hq, hshard', hno⟩
    obtain ⟨hmem, hr'⟩ := List.mem_filter.mp hr
    have hsame : r.shardIndex.toNat = q.shardIndex.toNat :=
      Except.ok.inj (hshard.symm.trans hshard')
    rw [List.inj_on_of_nodup_map hnd hmem hq hsame, hno] at hr'
    cases hr'
  · intro hnot
    obtain ⟨i, hi, hlt⟩ := getShard_spec h key
    have hmem : i ∈ e.ranges.map (fun r => r.shardIndex.toNat) :=
      hindex ▸ List.mem_range.mpr hlt
    obtain ⟨r, hr, rfl⟩ := List.mem_map.mp hmem
    refine ⟨r, List.mem_filter.mpr ⟨hr, ?_⟩, hi⟩
    rw [Bool.not_eq_true']
    exact Bool.eq_false_iff.mpr (fun hno => hnot ⟨r, hr, hi, hno⟩)

/-- Collecting from the iterators of some shards. -/
theorem query_spec {its : List (MergingIterator EngineIterator)} {ls : List (List IteratorEntry)}
    (hat : List.Forall₂ (fun c l => KvCursor.At c l l) its ls)
    (hsep : Separate IteratorEntry.key ls) (startKey endKey : Bytes) :
    ∃ out, (do
        let it ← MergingIterator.new its
        let it ← KvIterator.seek it startKey
        collect (fun key => !decide (key > endKey)) (KvIterator.bound it + 1) it) = .ok out
      ∧ Ascending IteratorEntry.key out
      ∧ ∀ x, x ∈ out ↔ (∃ l ∈ ls, x ∈ l) ∧ startKey ≤ x.key ∧ x.key ≤ endKey
        ∧ x.type ≠ .kTypeDeletion := by
  have hasc : ∀ l ∈ ls, Ascending IteratorEntry.key l := by
    intro l hl
    obtain ⟨c, -, hc⟩ := forall₂_mem_right hat hl
    exact KvCursor.ascending hc
  obtain ⟨it, all, hnew, hit, hmerge⟩ := new_at hat (hsep.untied IteratorEntry.sequence)
  obtain ⟨it', hseek, hit'⟩ := KvCursor.seek startKey hit
  have hbound := KvCursor.bound hit'
  have hcollect := collect_spec (fun key => !decide (key > endKey)) (streams_of_at _ hit')
    (Nat.lt_succ_of_le hbound)
  have hdown : ∀ {j k : Bytes}, j < k → (!decide (k > endKey)) = true →
      (!decide (j > endKey)) = true := by
    intro j k hjk hk
    simp only [Bool.not_eq_true', decide_eq_false_iff_not, gt_iff_lt, not_lt] at hk ⊢
    exact hjk.le.trans hk
  refine ⟨collected (fun key => !decide (key > endKey))
    (dropBelow IteratorEntry.key startKey all), ?_,
    ascending_collected hmerge.ascending _ startKey, ?_⟩
  · simp only [hnew, hseek, ok_bind]
    exact hcollect
  · intro x
    rw [mem_collected hmerge.ascending hdown startKey, hmerge.mem_iff_of_separate hsep hasc]
    simp only [Bool.not_eq_true', decide_eq_false_iff_not, gt_iff_lt, not_lt]

/-- **`RangeQuery`**, given the iterators of the searched shards. -/
theorem rangeQuery_of_layers {startKey endKey : Bytes} {its : List (MergingIterator EngineIterator)}
    {ls : List (List IteratorEntry)} (hrun : e.shardIterators startKey endKey e.ranges = .ok its)
    (hat : List.Forall₂ (fun c l => KvCursor.At c l l) its ls)
    (hsep : Separate IteratorEntry.key ls) :
    ∃ out, e.rangeQuery startKey endKey = .ok out ∧ Ascending IteratorEntry.key out
      ∧ ∀ x, x ∈ out ↔ (∃ l ∈ ls, x ∈ l) ∧ startKey ≤ x.key ∧ x.key ≤ endKey
        ∧ x.type ≠ .kTypeDeletion := by
  obtain ⟨out, hout, hasc, hmem⟩ := query_spec hat hsep startKey endKey
  refine ⟨out, ?_, hasc, hmem⟩
  simp only [ShardedKVEngine.rangeQuery, hrun, ok_bind]
  by_cases hempty : its.isEmpty = true
  · -- nothing is searched, and nothing would be found
    obtain rfl : its = [] := List.isEmpty_iff.mp hempty
    obtain rfl : ls = [] := List.forall₂_nil_left_iff.mp hat
    have hnone : out = [] := by
      refine List.eq_nil_iff_forall_not_mem.mpr ?_
      intro x hx
      obtain ⟨⟨l, hl, -⟩, -⟩ := (hmem x).mp hx
      cases hl
    rw [if_pos hempty, hnone]
    rfl
  · rw [if_neg hempty]
    exact hout

/-- What is collected of layers that hold maps. -/
theorem mem_out_iff (owner : Bytes → Nat → Prop) (maps : Nat → Bytes → Option Bytes)
    {ranges : List ShardRange} {ls : List (List IteratorEntry)}
    (hlayers : List.Forall₂ (fun (r : ShardRange) l =>
      Layer (fun key => owner key r.shardIndex.toNat) (maps r.shardIndex.toNat) l) ranges ls)
    {startKey endKey : Bytes} {out : List IteratorEntry}
    (hmem : ∀ x, x ∈ out ↔ (∃ l ∈ ls, x ∈ l) ∧ startKey ≤ x.key ∧ x.key ≤ endKey
      ∧ x.type ≠ .kTypeDeletion) (k v : Bytes) :
    (∃ x ∈ out, x.key = k ∧ x.value = v) ↔ startKey ≤ k ∧ k ≤ endKey
      ∧ ∃ r ∈ ranges, owner k r.shardIndex.toNat ∧ maps r.shardIndex.toNat k = some v := by
  constructor
  · rintro ⟨x, hx, rfl, rfl⟩
    obtain ⟨⟨l, hl, hxl⟩, hlo, hhi, hd⟩ := (hmem x).mp hx
    obtain ⟨r, hr, hlayer⟩ := forall₂_mem_right hlayers hl
    exact ⟨hlo, hhi, r, hr, (hlayer.live x.key x.value).mp ⟨x, hxl, rfl, hd, rfl⟩⟩
  · rintro ⟨hlo, hhi, r, hr, hv⟩
    obtain ⟨l, hl, hlayer⟩ := forall₂_mem_left hlayers hr
    obtain ⟨x, hx, rfl, hd, rfl⟩ := (hlayer.live k v).mpr hv
    exact ⟨x, (hmem x).mpr ⟨⟨l, hl, hx⟩, hlo, hhi, hd⟩, rfl, rfl⟩

/-- **`RangeQuery`** gives the live entries of its range, those of pruned shards
    apart. -/
theorem rangeQuery_spec (h : ShardsRep e ss) (startKey endKey : Bytes) :
    ∃ out, e.rangeQuery startKey endKey = .ok out ∧ Ascending IteratorEntry.key out
      ∧ (∀ x ∈ out, x.type ≠ .kTypeDeletion)
      ∧ ∀ k v, (∃ x ∈ out, x.key = k ∧ x.value = v) ↔ startKey ≤ k ∧ k ≤ endKey
        ∧ e.get k = .ok (some v) ∧ ¬ Pruned e startKey endKey k := by
  obtain ⟨its, ls, hrun, hat, hls⟩ := shardIterators_of (fun i hi => newIterator_layer h hi)
    startKey endKey (fun r hr => h.wellFormed.shardIndex_lt hr)
  have hsep := separate_of_owners (fun key i => e.getShard key = .ok i) getShard_unique
    (hls.imp fun _ _ hl => hl.owned) (nodup_searched h.wellFormed startKey endKey)
  obtain ⟨out, hquery, hasc, hmem⟩ := rangeQuery_of_layers hrun hat hsep
  refine ⟨out, hquery, hasc, fun x hx => ((hmem x).mp hx).2.2.2, ?_⟩
  intro k v
  rw [← searched_iff h.wellFormed, mem_out_iff (fun key i => e.getShard key = .ok i) (fun _ => readsAs e) hls hmem]
  refine and_congr_right fun _ => and_congr_right fun _ => ?_
  constructor
  · rintro ⟨r, hr, hk, hv⟩
    exact ⟨(readsAs_iff e k v).mp hv, r, hr, hk⟩
  · rintro ⟨hget, r, hr, hk⟩
    exact ⟨r, hr, hk, (readsAs_iff e k v).mpr hget⟩

/-! ## Where routing and ranges part -/

/-- A key of the query that lies in a range is not missed with it. -/
theorem noOverlap_of_contains {range : ShardRange} {startKey endKey key : Bytes}
    (h : range.contains key = true) (hlo : startKey ≤ key) (hhi : key ≤ endKey) :
    range.noOverlap startKey endKey = false := by
  rw [ShardRange.contains, Bool.and_eq_true, Bool.or_eq_true, Bool.or_eq_true, decide_eq_true_eq,
    decide_eq_true_eq] at h
  rw [ShardRange.noOverlap, Bool.or_eq_false_iff, Bool.and_eq_false_iff, Bool.and_eq_false_iff]
  constructor
  · rcases h.2 with hempty | hlt
    · exact Or.inl (by rw [hempty]; rfl)
    · exact Or.inr (decide_eq_false (not_le.mpr (hlo.trans_lt hlt)))
  · rcases h.1 with hempty | hle
    · exact Or.inl (by rw [hempty]; rfl)
    · exact Or.inr (decide_eq_false (not_lt.mpr (hle.trans hhi)))

/-- **A key in the range of its shard** is never pruned by a query it lies in. -/
theorem not_pruned_of_contains {startKey endKey key : Bytes}
    (h : ∀ range ∈ e.ranges, e.getShard key = .ok range.shardIndex.toNat →
      range.contains key = true) (hlo : startKey ≤ key) (hhi : key ≤ endKey) :
    ¬ Pruned e startKey endKey key := by
  rintro ⟨range, hr, hshard, hno⟩
  rw [noOverlap_of_contains (h range hr hshard) hlo hhi] at hno
  cases hno

/-- **A spatial key above the first layer** is out of the range of its shard,
    unless that is the last one: every query that starts in its layer prunes it. -/
theorem pruned_of_upper_layer (h : e.WellFormed) {key : SpatialKey3D} {i : Nat}
    (hi : e.getShard key.toBytes = .ok i) (hlast : i + 1 < e.shardNum.toNat)
    (hlayer : 1 < key.layerType) {startKey : Bytes} (hs : [key.layerType] ≤ startKey)
    (endKey : Bytes) : Pruned e startKey endKey key.toBytes := by
  have hlt : i < e.shardNum.toNat := Nat.lt_of_succ_lt hlast
  have hranges := h.ranges
  rw [initUniformRanges_eq (ne_zero_of_two_le h.two_le), Except.ok.injEq] at hranges
  refine ⟨uniformRange e.shardNum (uint64Max / e.shardNum) (UInt64.ofNat i), ?_, ?_, ?_⟩
  · rw [← hranges]
    exact List.mem_map.mpr ⟨i, List.mem_range.mpr hlt, rfl⟩
  · rw [hi]
    exact congrArg Except.ok (toNat_index hlt).symm
  · -- the end of the range is a key of the first layer
    have hend : (uniformRange e.shardNum (uint64Max / e.shardNum) (UInt64.ofNat i)).endKey
        = cutKey e.shardNum (i + 1) := by
      rw [endKey_uniformRange hlt, if_neg (by omega)]
    have hbelow : cutKey e.shardNum (i + 1) ≤ startKey :=
      (List.cons_lt_cons_iff.mpr (Or.inl hlayer)).le.trans hs
    rw [ShardRange.noOverlap, hend, decide_eq_true hbelow]
    rfl

/-! ## What a query finds -/

/-- **`RangeQuery` is complete** exactly while no readable key of its range is in
    a pruned shard. -/
theorem rangeQuery_complete_iff {n : UInt64} (hn : 2 ≤ n) (draws : Nat → Nat → Bool)
    {os : List ShardOp} (hos : ∀ o ∈ os, o.KeyFits) :
    Runs (fresh n draws >>= fun e => os.foldlM perform e) (fun e => ∀ startKey endKey,
      ∃ out, e.rangeQuery startKey endKey = .ok out
        ∧ ((∀ k, startKey ≤ k → k ≤ endKey → (∃ v, e.get k = .ok (some v)) →
              ∃ x ∈ out, x.key = k)
            ↔ ∀ k, startKey ≤ k → k ≤ endKey → (∃ v, e.get k = .ok (some v)) →
              ¬ Pruned e startKey endKey k)) := by
  refine (run_spec hn draws hos).mono ?_
  rintro e ⟨ss, h⟩ startKey endKey
  obtain ⟨out, hrun, -, -, hmem⟩ := rangeQuery_spec h startKey endKey
  refine ⟨out, hrun, ?_⟩
  constructor
  · intro hall k hlo hhi hget
    obtain ⟨x, hx, hk⟩ := hall k hlo hhi hget
    exact ((hmem k x.value).mp ⟨x, hx, hk, rfl⟩).2.2.2
  · rintro hnone k hlo hhi ⟨v, hget⟩
    obtain ⟨x, hx, hk, -⟩ := (hmem k v).mpr ⟨hlo, hhi, hget, hnone k hlo hhi ⟨v, hget⟩⟩
    exact ⟨x, hx, hk⟩

/-- A key of the second layer, whose code is in the first half of the codes. -/
def secondLayerKey : Bytes := (⟨0x02, 0, 5, 0⟩ : SpatialKey3D).toBytes

/-- The keys with the numbers below `n`, all of one shard. -/
@[irreducible] def numberedKeys (n : Nat) : List Bytes :=
  (List.range n).map (fun i => 0 :: leBytes 4 i)

theorem length_of_mem_numberedKeys {n : Nat} {key : Bytes} (h : key ∈ numberedKeys n) :
    key.length = 5 := by
  rw [numberedKeys] at h
  obtain ⟨i, -, rfl⟩ := List.mem_map.mp h
  rw [List.length_cons, length_leBytes]

/-- Puts that fill five tables of a shard, two more keys, one of them deleted
    again, and two compactions. -/
def fiveTables : List ShardOp :=
  (numberedKeys 100000).map (fun key => .put key [1])
    ++ [.put secondLayerKey [7], .put [97] [1], .delete [97], .backgroundCompact, .compactAll]

theorem keyFits_fiveTables : ∀ o ∈ fiveTables, o.KeyFits := by
  refine List.forall_mem_append.mpr ⟨List.forall_mem_map.mpr ?_, by decide⟩
  intro key hkey
  show key.length < 2 ^ 32
  rw [length_of_mem_numberedKeys hkey]
  decide

theorem rangeQuery_complete_iff_fiveTables :
    Runs (fresh 2 (fun _ _ => false) >>= fun e => fiveTables.foldlM perform e)
      (fun e => ∀ startKey endKey, ∃ out, e.rangeQuery startKey endKey = .ok out
        ∧ ((∀ k, startKey ≤ k → k ≤ endKey → (∃ v, e.get k = .ok (some v)) →
              ∃ x ∈ out, x.key = k)
            ↔ ∀ k, startKey ≤ k → k ≤ endKey → (∃ v, e.get k = .ok (some v)) →
              ¬ Pruned e startKey endKey k)) :=
  rangeQuery_complete_iff (by decide) _ keyFits_fiveTables

/-- **A query over the second layer** leaves out the shard that holds its key. -/
theorem pruned_shard_hides_key :
    Yields (fresh 2 (fun _ _ => false) >>= fun e =>
        [ShardOp.put secondLayerKey [7]].foldlM perform e)
      (fun e => [0x02] ≤ secondLayerKey ∧ secondLayerKey ≤ [0x03]
        ∧ e.get secondLayerKey = .ok (some [7])
        ∧ Yields (e.rangeQuery [0x02] [0x03]) (fun out => out = [])) := by
  decide +kernel

/-- The ranges of two shards. -/
def twoRanges : List ShardRange :=
  (List.range 2).map (fun i => uniformRange 2 (uint64Max / 2) (UInt64.ofNat i))

variable {shards : List KVEngine}

/-- The fillers lie behind the cut. -/
theorem getShard_fillerKey (a b : UInt8) (i : Nat) :
    (⟨2, shards, twoRanges⟩ : ShardedKVEngine).getShard (fillerKey a b i) = .ok 1 := by
  have hcut : [1, 0, 127, 255, 255, 255, 255, 255, 255, 255, 0, 0, 0, 0, 0, 0, 0, 0]
      < fillerKey a b i :=
    List.cons_lt_cons_iff.mpr (Or.inr ⟨rfl, List.cons_lt_cons_iff.mpr (Or.inr ⟨rfl,
      List.cons_lt_cons_iff.mpr (Or.inl (by decide))⟩)⟩)
  have hend : (uniformRange 2 (uint64Max / 2) 0).endKey
      = [1, 0, 127, 255, 255, 255, 255, 255, 255, 255, 0, 0, 0, 0, 0, 0, 0, 0] := by decide
  have hstart : (uniformRange 2 (uint64Max / 2) 1).startKey
      = [1, 0, 127, 255, 255, 255, 255, 255, 255, 255, 0, 0, 0, 0, 0, 0, 0, 0] := by decide
  have hout : (uniformRange 2 (uint64Max / 2) 0).contains (fillerKey a b i) = false := by
    rw [ShardRange.contains, hend, decide_eq_false (not_lt.mpr hcut.le)]
    rfl
  have hin : (uniformRange 2 (uint64Max / 2) 1).contains (fillerKey a b i) = true := by
    rw [ShardRange.contains, hstart, decide_eq_true hcut.le]
    rfl
  have hfind : twoRanges.find? (fun range => range.contains (fillerKey a b i))
      = some (uniformRange 2 (uint64Max / 2) 1) := by
    show [uniformRange 2 (uint64Max / 2) 0, uniformRange 2 (uint64Max / 2) 1].find? _ = _
    rw [List.find?_cons_of_neg (by rw [hout]; decide)]
    exact List.find?_cons_of_pos hin
  have hshort : ¬ (fillerKey a b i).length ≥ SpatialKey3D.sizeof := of_decide_eq_false rfl
  rw [ShardedKVEngine.getShard, if_neg hshort, hfind]
  rfl

/-- And so does the code of the long key. -/
theorem getShard_longKey :
    (⟨2, shards, twoRanges⟩ : ShardedKVEngine).getShard longKey = .ok 1 := by
  obtain ⟨rest, heq⟩ := longKey_eq
  have hlong : longKey.length ≥ SpatialKey3D.sizeof := by
    rw [longKey_long.2.1]
    decide
  have hcode : be64toh ((longKey.drop 2).take 8) = 9223373099859181567 := by
    rw [heq]
    rfl
  have hstep : uint64Max / 2 + 1 = 9223372036854775808 := by decide
  have hindex : (9223373099859181567 : UInt64) / 9223372036854775808 = 1 := by decide
  rw [ShardedKVEngine.getShard, if_pos hlong, hcode]
  simp only [divide_of_ne_zero (show (2 : UInt64) ≠ 0 by decide), ok_bind, hstep,
    divide_of_ne_zero (show (9223372036854775808 : UInt64) ≠ 0 by decide), hindex]
  rfl

/-- The second shard gets them all. -/
theorem getShard_lostPuts {p q : Nat} : ∀ kv ∈ lostPuts p q,
    (⟨2, shards, twoRanges⟩ : ShardedKVEngine).getShard kv.1 = .ok 1 := by
  intro kv hkv
  rw [lostPuts] at hkv
  rcases List.mem_append.mp hkv with hkv' | hkv'
  · obtain ⟨i, -, rfl⟩ := List.mem_map.mp hkv'
    exact getShard_fillerKey 0 1 i
  · rcases List.mem_cons.mp hkv' with rfl | hkv''
    · exact getShard_longKey
    · obtain ⟨i, -, rfl⟩ := List.mem_map.mp hkv''
      exact getShard_fillerKey 1 0 i

/-- **Puts of keys of one shard** are puts on that shard. -/
theorem puts_on_shard {i : Nat} : ∀ {kvs : List (Bytes × Bytes)} {e : ShardedKVEngine}
    {shard shard' : KVEngine}, (∀ kv ∈ kvs, e.getShard kv.1 = .ok i) →
      e.shards[i]? = some shard →
      kvs.foldlM (fun shard kv => shard.put kv.1 kv.2) shard = .ok shard' →
      (kvs.map (fun kv => ShardOp.put kv.1 kv.2)).foldlM perform e
        = .ok { e with shards := e.shards.set i shard' } := by
  intro kvs
  induction kvs with
  | nil =>
      intro e shard shard' _ hi hrun
      obtain rfl : shard = shard' := Except.ok.inj hrun
      obtain ⟨hlt, hget⟩ := List.getElem?_eq_some_iff.mp hi
      rw [← hget, List.set_getElem_self]
      rfl
  | cons kv kvs ih =>
      intro e shard shard' hown hi hrun
      rw [List.foldlM_cons] at hrun
      obtain ⟨shard₁, hput, hrest⟩ := bind_eq_ok.mp hrun
      have hlt : i < e.shards.length := (List.getElem?_eq_some_iff.mp hi).1
      have hlen : (e.shards.set i shard₁).length = e.shards.length := List.length_set
      have hone : perform e (.put kv.1 kv.2) = .ok { e with shards := e.shards.set i shard₁ } := by
        simp only [perform, ShardedKVEngine.put, hown kv List.mem_cons_self,
          ShardedKVEngine.modify, ShardedKVEngine.shard, hi, ok_bind, pure_bind, hput]
        rfl
      have hnext := @ih { e with shards := e.shards.set i shard₁ } shard₁ shard'
        (fun b hb => (getShard_with_shards hlen b.1).trans (hown b (List.mem_cons_of_mem _ hb)))
        (by rw [List.getElem?_set_self hlt]) hrest
      rw [List.map_cons, List.foldlM_cons, hone, ok_bind, hnext, List.set_set]

/-- The iterator of a fresh shard is at its end. -/
theorem newIterator_fresh {shard : KVEngine} (h : Rep shard freshStore) :
    ∃ it, shard.newIterator = .ok it ∧ KvCursor.At it [] [] := by
  have htidy : Tidy freshStore := ⟨List.Pairwise.nil, fun t ht => absurd ht List.not_mem_nil⟩
  obtain ⟨it, all, hnew, hat, hmerge, -⟩ := newIterator_live h htidy
  have hempty : all = [] := by
    refine List.eq_nil_iff_forall_not_mem.mpr ?_
    intro x hx
    obtain ⟨⟨l, hl, hxl⟩, -⟩ := hmerge.chosen x hx
    obtain rfl : l = [] := List.mem_singleton.mp hl
    cases hxl
  exact ⟨it, hnew, hempty ▸ hat⟩

/-- A query up to the first filler searches both shards. -/
theorem shardIterators_two {first second : KVEngine} {it it' : MergingIterator EngineIterator}
    (hnew : first.newIterator = .ok it) (hnew' : second.newIterator = .ok it') :
    (⟨2, [first, second], twoRanges⟩ : ShardedKVEngine).shardIterators [] (fillerKey 0 1 0) twoRanges
      = .ok [it, it'] := by
  have hfirstRange : (uniformRange 2 (uint64Max / 2) 0).noOverlap [] (fillerKey 0 1 0) = false := by
    decide
  have hsecondRange : (uniformRange 2 (uint64Max / 2) 1).noOverlap [] (fillerKey 0 1 0) = false := by
    decide
  have hfirstShard : (⟨2, [first, second], twoRanges⟩ : ShardedKVEngine).shard
      (uniformRange 2 (uint64Max / 2) 0).shardIndex.toNat = .ok first := rfl
  have hsecondShard : (⟨2, [first, second], twoRanges⟩ : ShardedKVEngine).shard
      (uniformRange 2 (uint64Max / 2) 1).shardIndex.toNat = .ok second := rfl
  show ShardedKVEngine.shardIterators _ [] (fillerKey 0 1 0)
    [uniformRange 2 (uint64Max / 2) 0, uniformRange 2 (uint64Max / 2) 1] = _
  simp only [ShardedKVEngine.shardIterators, hfirstRange, hsecondRange, Bool.false_eq_true,
    if_false, hfirstShard, hsecondShard, ok_bind, hnew, hnew']
  rfl

/-- **The merge over an empty shard and one with such a table** begins with the
    entries that are missed. -/
theorem merge_lost {first second : KVEngine} (hfirst : Rep first freshStore) {r : SSTableReader}
    {kv₁ kv₂ : Entry} {l es l₂ : List Entry} (h : Lost r (kv₁ :: kv₂ :: l) es l₂)
    (hlen : 2 ≤ l.length) (hmax : ∀ kv ∈ kv₁ :: kv₂ :: l, (encodeEntry kv).length ≤ r.maxRead)
    (hmem : Models second.skiplist []) (htables : second.sstables = [r]) :
    ∃ it it' m m' out, first.newIterator = .ok it ∧ second.newIterator = .ok it'
      ∧ MergingIterator.new [it, it'] = .ok m ∧ KvIterator.seek m [] = .ok m'
      ∧ Leads m' (toEntry r.sequence kv₁ :: toEntry r.sequence kv₂ :: out) := by
  obtain ⟨it, hnew, hat⟩ := newIterator_fresh hfirst
  obtain ⟨dead, hseekDead, hat'⟩ := KvCursor.seek [] hat
  have hne : l ≠ [] := List.ne_nil_of_length_pos (by omega)
  have hne' : l.dropLast.map (toEntry r.sequence) ≠ [] := by
    refine List.ne_nil_of_length_pos ?_
    rw [List.length_map, List.length_dropLast]
    omega
  obtain ⟨it₁, it₂, hnew₁, hnext, hleads, hleads₂, hseek⟩ := h.newIterator hne hmax hmem htables
  obtain ⟨it₃, hseek₂, hleads₃⟩ := hseek it₂ (Or.inr rfl)
  -- the entries that the second shard's iterator begins with
  have hsorted : KeySorted (kv₁ :: kv₂ :: l.dropLast) :=
    List.Pairwise.sublist (((List.dropLast_sublist l).cons_cons _).cons_cons _)
      (List.pairwise_append.mp h.sorted).1
  have hasc := ascending_map_toEntry hsorted (r.sequence : Sequence)
  obtain ⟨hrun, -⟩ := leads_new_lone hleads hnext hleads₂ hasc (KvCursor.valid hat)
  obtain ⟨m, hm, hlead⟩ := leads_seek_lone hleads₃ (List.cons_ne_nil _ _) hasc hseekDead
    (KvCursor.valid hat') hseek₂ (toEntry r.sequence kv₁)
  refine ⟨it, it₁, _, _, (l.dropLast.map (toEntry r.sequence)).dropLast, hnew, hnew₁, hrun, hm, ?_⟩
  rwa [List.map_cons, List.dropLast_cons_of_ne_nil hne'] at hlead

/-- **A query over a shard whose table misses keys** gives the first of them. -/
theorem rangeQuery_lost {first second : KVEngine} (hfirst : Rep first freshStore)
    {r : SSTableReader} {p : Nat} {l₂ : List Entry}
    (h : Lost r ((fillers 0 1 (p + 4)).map entryOf) [longEntry] l₂) (hmax : 2 ^ 13 ≤ r.maxRead)
    (hmem : Models second.skiplist []) (htables : second.sstables = [r]) :
    (⟨2, [first, second], twoRanges⟩ : ShardedKVEngine).get (fillerKey 0 1 0) = .ok none
      ∧ Yields ((⟨2, [first, second], twoRanges⟩ : ShardedKVEngine).rangeQuery [] (fillerKey 0 1 0))
          (fun out => ∃ x ∈ out, x.key = fillerKey 0 1 0) := by
  have hsmall := small_fillers 0 1 (p + 4) hmax
  obtain ⟨l, hlen, htwo⟩ := fillers_two 0 1 (p + 2)
  rw [htwo] at h hsmall
  constructor
  · simp only [ShardedKVEngine.get, getShard_fillerKey, ok_bind]
    exact h.get_engine hmem htables List.mem_cons_self (List.cons_ne_nil _ _)
  · obtain ⟨it, it', m, m', out, hnew, hnew', hm, hseek, hleads⟩ :=
      merge_lost hfirst h (by omega) hsmall hmem htables
    have hhere : (!decide (fillerKey 0 1 0 > fillerKey 0 1 0)) = true := by
      rw [decide_eq_false (lt_irrefl _)]
      rfl
    have hbeyond : (!decide (fillerKey 0 1 1 > fillerKey 0 1 0)) = false := by
      rw [decide_eq_true (show fillerKey 0 1 1 > _ from fillerKey_lt Nat.one_pos (by decide))]
      rfl
    have hlive : (toEntry (r.sequence : Sequence)
        (entryOf (fillerKey 0 1 0, List.replicate blockSize 0))).type ≠ .kTypeDeletion := by
      show ValueType.kTypeValue ≠ .kTypeDeletion
      decide
    have hcollect := @collect_leads _ _ (fun key => !decide (key > fillerKey 0 1 0)) _ _ _ _ hleads
      hhere hbeyond hlive ((m'.children.map KvIterator.bound).sum)
    simp only [ShardedKVEngine.rangeQuery, shardIterators_two hnew hnew', ok_bind,
      List.isEmpty_cons, Bool.false_eq_true, if_false, hm, hseek]
    rw [show KvIterator.bound m' + 1 = (m'.children.map KvIterator.bound).sum + 2 from rfl, hcollect]
    exact ⟨_, List.mem_singleton_self _, rfl⟩

/-- The last of so many puts flushes the second shard. -/
theorem stray_key_of_puts {p q : Nat} (hp : 4 ≤ p) (hq : 1 ≤ q) (hfull : p + (q + 1) = 20000)
    (hmiddle : (p + (q + 1)) / 2 = p) :
    Yields (fresh 2 (fun _ _ => false) >>= fun e =>
        ((lostPuts p q).map (fun kv => ShardOp.put kv.1 kv.2)).foldlM perform e)
      (fun e => ∀ e', (e' = e ∨ ∃ maxRead, 2 ^ 13 ≤ maxRead ∧ e' = e.upTo maxRead) →
        e'.get (fillerKey 0 1 0) = .ok none
          ∧ Yields (e'.rangeQuery [] (fillerKey 0 1 0))
              (fun out => ∃ x ∈ out, x.key = fillerKey 0 1 0)) := by
  obtain ⟨p, rfl⟩ := Nat.exists_eq_add_of_le' hp
  obtain ⟨q, rfl⟩ := Nat.exists_eq_add_of_le' hq
  obtain ⟨shards, hopen, hreps⟩ := openShards_fresh (fun _ _ => false) (List.range 2)
  obtain ⟨first, _, hfirst, hrest, rfl⟩ := List.forall₂_cons_right_iff.mp hreps
  obtain ⟨second, _, hsecond, hnil, rfl⟩ := List.forall₂_cons_right_iff.mp hrest
  obtain rfl := List.forall₂_nil_right_iff.mp hnil
  have hempty : first.sstables = [] := List.forall₂_nil_right_iff.mp hfirst.tables
  have hfresh : fresh 2 (fun _ _ => false) = .ok ⟨2, [first, second], twoRanges⟩ := by
    have hopen' : openShards (fun _ => []) (fun _ _ => false) (List.range (2 : UInt64).toNat)
        = .ok [first, second] := hopen
    simp only [fresh, ShardedKVEngine.open, hopen',
      initUniformRanges_eq (show (2 : UInt64) ≠ 0 by decide), ok_bind]
    rfl
  obtain ⟨flushed, r, hputs, hmem, htables, hwhole, hlost⟩ := @puts_lost second (p + 4) q
    hsecond.mem (hsecond.maxMemNodes.trans hfull.symm) (by omega) (by omega) hmiddle
  rw [List.forall₂_nil_right_iff.mp hsecond.tables] at htables
  have hrun := @puts_on_shard 1 _ ⟨2, [first, second], twoRanges⟩ _ _ getShard_lostPuts rfl hputs
  rw [hfresh, ok_bind, hrun]
  rintro e' (rfl | ⟨maxRead, hmax, rfl⟩)
  · have hlarge : 2 ^ 13 ≤ r.maxRead := by
      rw [hwhole]
      decide
    exact rangeQuery_lost hfirst (hlost r.maxRead) hlarge hmem htables
  · have hupTo : ShardedKVEngine.upTo maxRead ⟨2, [first, flushed], twoRanges⟩
        = ⟨2, [first, flushed.upTo maxRead], twoRanges⟩ := by
      have hsame : first.upTo maxRead = first := by
        rw [KVEngine.upTo, hempty, List.map_nil, ← hempty]
      rw [ShardedKVEngine.upTo, List.map_cons, List.map_singleton, hsame]
    have htables' : (flushed.upTo maxRead).sstables = [r.upTo maxRead] := by
      rw [KVEngine.upTo, htables, List.map_singleton]
    exact hupTo ▸ @rangeQuery_lost first (flushed.upTo maxRead) hfirst _ _ _ (hlost maxRead) hmax
      hmem htables'

end KvRangeQuery
