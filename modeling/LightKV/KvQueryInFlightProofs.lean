import LightKV.KvSchedulerProofs

/-! # Range queries among the clients

    `RangeQuery` takes the iterators of the shards one after the other, each
    under the lock of its shard only, and merges them when it has them all.
    Clients and the scheduler go on in between.  What the query returns of a
    shard is what had been written when it came to that shard
    (`query_in_flight`); these moments may differ. -/

namespace KvQueryInFlight

open Execution KWayMerge KvBytes KvCompaction KvDirectory KvEngine KvInterleaving KvIterators
open KvMerging KvRangeQuery KvRecency KvScan KvScansInFlight KvScheduler KvSession KvSharding
open KvStore KvTable KvTableIterator Overlay

/-! ## A query in steps -/

/-- A query: the ranges it has still to look at, and the iterators it has taken. -/
structure Query where
  pending : List ShardRange
  iterators : List (MergingIterator EngineIterator)

/-- One turn of the pruning loop. -/
def Query.visit (e : ShardedKVEngine) (startKey endKey : Bytes) (q : Query) :
    Except Fault Query :=
  match q.pending with
  | [] => pure q
  | range :: ranges =>
      if range.noOverlap startKey endKey then pure { q with pending := ranges }
      else do
        let shard ← e.shard range.shardIndex.toNat
        let it ← shard.newIterator
        pure ⟨ranges, q.iterators ++ [it]⟩

/-- What comes behind the pruning loop. -/
def Query.finish (startKey endKey : Bytes) (q : Query) : Except Fault (List IteratorEntry) :=
  if q.iterators.isEmpty then pure []
  else do
    let globalMergeIter ← MergingIterator.new q.iterators
    let globalMergeIter ← KvIterator.seek globalMergeIter startKey
    collect (fun key => !decide (key > endKey)) (KvIterator.bound globalMergeIter + 1)
      globalMergeIter

/-- The turns of the pruning loop in a row. -/
def Query.visitAll (e : ShardedKVEngine) (startKey endKey : Bytes) :
    Nat → Query → Except Fault Query
  | 0, q => pure q
  | n + 1, q => do
      let q ← q.visit e startKey endKey
      Query.visitAll e startKey endKey n q

theorem visitAll_eq (e : ShardedKVEngine) (startKey endKey : Bytes) :
    ∀ (ranges : List ShardRange) (its : List (MergingIterator EngineIterator)),
      Query.visitAll e startKey endKey ranges.length ⟨ranges, its⟩
        = (e.shardIterators startKey endKey ranges).map (fun its' => ⟨[], its ++ its'⟩) := by
  intro ranges
  induction ranges with
  | nil =>
      intro its
      show _ = Except.ok (Query.mk [] (its ++ []))
      rw [List.append_nil]
      rfl
  | cons range ranges ih =>
      intro its
      rw [List.length_cons, Query.visitAll, ShardedKVEngine.shardIterators]
      by_cases hno : range.noOverlap startKey endKey = true
      · simp only [Query.visit, if_pos hno]
        exact ih its
      · simp only [Query.visit, if_neg hno]
        cases e.shard range.shardIndex.toNat with
        | error fault => rfl
        | ok shard =>
            simp only [ok_bind]
            cases shard.newIterator with
            | error fault => rfl
            | ok it =>
                simp only [ok_bind]
                refine (ih (its ++ [it])).trans ?_
                cases e.shardIterators startKey endKey ranges with
                | error fault => rfl
                | ok its' =>
                    show Except.ok (Query.mk [] (its ++ [it] ++ its'))
                      = Except.ok (Query.mk [] (its ++ it :: its'))
                    rw [List.append_assoc]
                    rfl

/-- **`RangeQuery` is its steps in a row**, when nobody comes in between. -/
theorem rangeQuery_eq_visitAll (e : ShardedKVEngine) (startKey endKey : Bytes) :
    e.rangeQuery startKey endKey
      = Query.visitAll e startKey endKey e.ranges.length ⟨e.ranges, []⟩
          >>= Query.finish startKey endKey := by
  rw [visitAll_eq, ShardedKVEngine.rangeQuery]
  cases e.shardIterators startKey endKey e.ranges with
  | error fault => rfl
  | ok its => rfl

/-! ## A query and the clients -/

/-- The engine with its threads, and a query on it. -/
structure Asked where
  fleet : Fleet
  query : Query

/-- What can happen next. -/
inductive Turn
  /-- somebody else acts -/
  | act (a : FleetAction)
  /-- the query goes on -/
  | visit
  deriving DecidableEq

/-- One turn. -/
def Asked.step (startKey endKey : Bytes) (s : Asked) : Turn → Except Fault Asked
  | .act a => do
      let f ← s.fleet.step a
      pure { s with fleet := f }
  | .visit => do
      let q ← s.query.visit s.fleet.engine startKey endKey
      pure { s with query := q }

/-- What the others did. -/
def others : List Turn → List FleetAction
  | [] => []
  | .act a :: ts => a :: others ts
  | .visit :: ts => others ts

/-- What the others had done when the query came to its `i`-th range. -/
def before : List Turn → Nat → List FleetAction
  | [], _ => []
  | .act a :: ts, i => a :: before ts i
  | .visit :: _, 0 => []
  | .visit :: ts, i + 1 => before ts i

/-- The query comes to later ranges not before earlier ones. -/
theorem before_mono (ts : List Turn) {i j : Nat} (hij : i ≤ j) : before ts i <+: before ts j := by
  induction ts generalizing i j with
  | nil => exact List.prefix_rfl
  | cons t ts ih =>
      cases t with
      | act a => exact (List.prefix_cons_inj a).mpr (ih hij)
      | visit =>
          cases i with
          | zero => exact List.nil_prefix
          | succ i =>
              cases j with
              | zero => exact absurd hij (Nat.not_succ_le_zero i)
              | succ j => exact ih (Nat.le_of_succ_le_succ hij)

/-- It comes to none later than it ends. -/
theorem before_others (ts : List Turn) (i : Nat) : before ts i <+: others ts := by
  induction ts generalizing i with
  | nil => exact List.prefix_rfl
  | cons t ts ih =>
      cases t with
      | act a => exact (List.prefix_cons_inj a).mpr (ih i)
      | visit =>
          cases i with
          | zero => exact List.nil_prefix
          | succ i => exact ih i

/-- A query is opened. -/
def ask (f : Fleet) : Asked := ⟨f, ⟨f.ranges, []⟩⟩

/-! ## The iterator of a shard -/

variable {f : Fleet} {g : Bytes → Option Bytes} {startKey endKey : Bytes}

/-- **The iterator of a shard** shows what was written to it. -/
theorem newIterator_shard (h : FleetRep f g) {i : Nat} (hi : i < f.shardNum.toNat) :
    ∃ shard it l, f.engine.shard i = .ok shard ∧ shard.newIterator = .ok it
      ∧ KvCursor.At it l l ∧ Layer (fun key => f.engine.getShard key = .ok i) g l := by
  obtain ⟨sys, hsys, -⟩ := h.system hi
  obtain ⟨s, hs⟩ := h.shards hsys
  obtain ⟨ts, hts⟩ := hs.solo.ordered
  obtain ⟨it, l, hnew, hat, hmerge, hlive⟩ := newIterator_recent hs.rep.rep hts.recent
  have hshard : f.engine.shard i = .ok sys.engine := by
    have hget : f.engine.shards[i]? = some sys.engine := by
      show (f.systems.map System.engine)[i]? = _
      rw [List.getElem?_map, hsys]
      rfl
    rw [ShardedKVEngine.shard, hget]
    rfl
  have hown : ∀ x ∈ l, f.engine.getShard x.key = .ok i := by
    intro x hx
    obtain ⟨⟨m, hm, hxm⟩, -⟩ := hmerge.chosen x hx
    exact hs.holds.scanLayers m hm x hxm
  refine ⟨_, it, l, hshard, hnew, hat, hown, ?_⟩
  intro k v
  rw [hlive k v, hts.agrees.reads k]
  constructor
  · intro hw
    obtain ⟨x, hx, rfl, -⟩ := (hlive k v).mpr ((hts.agrees.reads k).trans hw)
    exact ⟨hown x hx, (hs.written _ (hown x hx)).symm.trans hw⟩
  · rintro ⟨hk, hw⟩
    exact (hs.written k hk).trans hw

/-! ## What has been taken so far -/

/-- **What a query has taken.**  `seen` are the ranges it has looked at, `done`
    is what the others did up to now.  They had done `past i` when the query
    came to shard `i`, and will do `ahead j` before it comes to the range at `j`
    of those it has still to look at. -/
structure Taken (e : ShardedKVEngine) (startKey endKey : Bytes) (past : Nat → List FleetAction)
    (done : List FleetAction) (ahead : Nat → List FleetAction) (seen : List ShardRange)
    (ls : List (List IteratorEntry)) (q : Query) : Prop where
  ranges : e.ranges = seen ++ q.pending
  pending : ∀ {j : Nat}, j < q.pending.length → past (seen.length + j) = done ++ ahead j
  iterators : List.Forall₂ (fun c l => KvCursor.At c l l) q.iterators ls
  layers : List.Forall₂ (fun (r : ShardRange) l =>
    Layer (fun key => e.getShard key = .ok r.shardIndex.toNat)
      (lastWrite (past r.shardIndex.toNat)) l) (searched seen startKey endKey) ls

/-- The ranges are looked at in the order of their shards. -/
theorem map_shardIndex_seen {e : ShardedKVEngine} (h : e.WellFormed) {seen rest : List ShardRange}
    (hr : e.ranges = seen ++ rest) :
    seen.map (fun r => r.shardIndex.toNat) = List.range seen.length := by
  have hmap := congrArg (List.take seen.length) h.map_shardIndex
  have hle : seen.length ≤ e.shardNum.toNat := by
    have hlen := congrArg List.length h.map_shardIndex
    rw [List.length_map, List.length_range, hr, List.length_append] at hlen
    omega
  rwa [hr, List.map_append, List.take_left' (List.length_map _), List.take_range,
    Nat.min_eq_left hle] at hmap

theorem shardIndex_pending {e : ShardedKVEngine} (h : e.WellFormed) {r : ShardRange}
    {seen rest : List ShardRange} (hr : e.ranges = seen ++ r :: rest) :
    r.shardIndex.toNat = seen.length := by
  have hr' : e.ranges = (seen ++ [r]) ++ rest := by
    rw [hr, List.append_assoc]
    rfl
  have hmap := map_shardIndex_seen h hr'
  have hlen : (seen ++ [r]).length = seen.length + 1 := List.length_append
  rw [List.map_append, hlen, List.range_succ, map_shardIndex_seen h hr] at hmap
  exact List.singleton_inj.mp (List.append_cancel_left hmap)

section Taken

variable {e : ShardedKVEngine} {past ahead : Nat → List FleetAction} {done : List FleetAction}
  {seen : List ShardRange} {ls : List (List IteratorEntry)} {q : Query}

/-- **Others act**: what was taken stays as it was. -/
theorem Taken.act {a : FleetAction}
    (h : Taken e startKey endKey past done (fun j => a :: ahead j) seen ls q)
    {e' : ShardedKVEngine} (hranges : e'.ranges = e.ranges)
    (hshard : ∀ key, e'.getShard key = e.getShard key) :
    Taken e' startKey endKey past (done ++ [a]) ahead seen ls q := by
  refine ⟨hranges.trans h.ranges, ?_, h.iterators, ?_⟩
  · intro j hj
    rw [h.pending hj, List.append_assoc]
    rfl
  · simp only [hshard]
    exact h.layers

/-- **The query goes on.** -/
theorem Taken.visit (hf : FleetRep f (lastWrite done))
    (h : Taken f.engine startKey endKey past done ahead seen ls q) (hnow : ahead 0 = []) :
    ∃ q' seen' ls', q.visit f.engine startKey endKey = .ok q'
      ∧ Taken f.engine startKey endKey past done (fun j => ahead (j + 1)) seen' ls' q'
      ∧ q'.pending = q.pending.tail := by
  cases hq : q.pending with
  | nil =>
      refine ⟨q, seen, ls, by simp only [Query.visit, hq]; rfl, ⟨h.ranges, ?_, h.iterators, h.layers⟩,
        hq⟩
      intro j hj
      rw [hq] at hj
      exact absurd hj (Nat.not_lt_zero j)
  | cons r rest =>
      have hr : f.engine.ranges = seen ++ r :: rest := hq ▸ h.ranges
      have hidx := shardIndex_pending hf.wellFormed hr
      have hranges : f.engine.ranges = (seen ++ [r]) ++ rest := by
        rw [hr, List.append_assoc]
        rfl
      have hpending : ∀ {j : Nat}, j < rest.length →
          past ((seen ++ [r]).length + j) = done ++ ahead (j + 1) := by
        intro j hj
        have hlen : (seen ++ [r]).length + j = seen.length + (j + 1) := by
          rw [List.length_append, List.length_singleton]
          omega
        rw [hlen]
        exact h.pending (by rw [hq]; exact Nat.succ_lt_succ hj)
      have hsearched : searched (seen ++ [r]) startKey endKey
          = searched seen startKey endKey ++ searched [r] startKey endKey := List.filter_append ..
      by_cases hno : r.noOverlap startKey endKey = true
      · refine ⟨⟨rest, q.iterators⟩, seen ++ [r], ls, by simp only [Query.visit, hq, if_pos hno]; rfl,
          ⟨hranges, hpending, h.iterators, ?_⟩, rfl⟩
        have hnone : searched [r] startKey endKey = [] := by
          rw [searched, List.filter_cons_of_neg (by simpa using hno)]
          rfl
        rw [hsearched, hnone, List.append_nil]
        exact h.layers
      · have hlt : r.shardIndex.toNat < f.shardNum.toNat :=
          hf.wellFormed.shardIndex_lt (hr ▸ List.mem_append_right _ List.mem_cons_self)
        obtain ⟨shard, it, l, hshard, hnew, hat, hl⟩ := newIterator_shard hf hlt
        have hone : searched [r] startKey endKey = [r] := by
          rw [searched, List.filter_cons_of_pos (by simpa using hno)]
          rfl
        -- the query is at this shard now
        have hpast : past r.shardIndex.toNat = done := by
          have hfirst := h.pending (j := 0) (by rw [hq]; exact Nat.succ_pos _)
          rwa [Nat.add_zero, hnow, List.append_nil, ← hidx] at hfirst
        refine ⟨⟨rest, q.iterators ++ [it]⟩, seen ++ [r], ls ++ [l], ?_, ⟨hranges, hpending,
          List.rel_append h.iterators (List.Forall₂.cons hat List.Forall₂.nil), ?_⟩, rfl⟩
        · simp only [Query.visit, hq, if_neg hno, hshard, hnew, ok_bind]
          rfl
        · rw [hsearched, hone]
          refine List.rel_append h.layers (List.Forall₂.cons ?_ List.Forall₂.nil)
          rw [hpast]
          exact hl

/-- **What a query returns** when it has looked at every range. -/
theorem Taken.finish (hwf : e.WellFormed)
    (h : Taken e startKey endKey past done ahead seen ls q) (hq : q.pending = []) :
    ∃ out, q.finish startKey endKey = .ok out ∧ Ascending IteratorEntry.key out
      ∧ (∀ x ∈ out, x.type ≠ .kTypeDeletion)
      ∧ ∀ k v, (∃ x ∈ out, x.key = k ∧ x.value = v)
        ↔ startKey ≤ k ∧ k ≤ endKey ∧ ¬ Pruned e startKey endKey k
          ∧ ∃ i, e.getShard k = .ok i ∧ lastWrite (past i) k = some v := by
  have hseen : e.ranges = seen := by
    rw [h.ranges, hq, List.append_nil]
  have hnd : ((searched seen startKey endKey).map (fun r => r.shardIndex.toNat)).Nodup := by
    have hall : (seen.map (fun r => r.shardIndex.toNat)).Nodup :=
      map_shardIndex_seen hwf h.ranges ▸ List.nodup_range
    exact hall.sublist (List.filter_sublist.map _)
  have hsep := separate_of_owners (fun key i => e.getShard key = .ok i) getShard_unique
    (h.layers.imp fun _ _ hl => hl.owned) hnd
  obtain ⟨out, hout, hasc, hmem⟩ := query_spec h.iterators hsep startKey endKey
  refine ⟨out, ?_, hasc, fun x hx => ((hmem x).mp hx).2.2.2, ?_⟩
  · rw [Query.finish]
    by_cases hempty : q.iterators.isEmpty = true
    · -- nothing is searched, and nothing would be found
      have hits : q.iterators = [] := List.isEmpty_iff.mp hempty
      have hls := h.iterators
      rw [hits, List.forall₂_nil_left_iff] at hls
      have hnone : out = [] := by
        refine List.eq_nil_iff_forall_not_mem.mpr ?_
        intro x hx
        obtain ⟨⟨l, hl, -⟩, -⟩ := (hmem x).mp hx
        rw [hls] at hl
        cases hl
      rw [if_pos hempty, hnone]
      rfl
    · rw [if_neg hempty]
      exact hout
  · intro k v
    rw [← searched_iff hwf, hseen,
      mem_out_iff (fun key i => e.getShard key = .ok i) (fun i => lastWrite (past i))
        h.layers hmem]
    refine and_congr_right fun _ => and_congr_right fun _ => ?_
    constructor
    · rintro ⟨r, hr, hown, hw⟩
      exact ⟨⟨r, hr, hown⟩, _, hown, hw⟩
    · rintro ⟨⟨r, hr, hown⟩, i, hi, hw⟩
      obtain rfl := getShard_unique hown hi
      exact ⟨r, hr, hown, hw⟩

end Taken

/-! ## Runs -/

theorem lastWrite_append (as : List FleetAction) (a : FleetAction) :
    lastWrite (as ++ [a]) = FleetAction.write (lastWrite as) a := by
  rw [lastWrite, List.foldl_append]
  rfl

/-- **A range query among the clients** is through when it has had a turn for
    every range, and returns of each shard what had been written when it came to
    that shard. -/
theorem query_in_flight {n : UInt64} (hn : 2 ≤ n) (draws : Nat → Nat → Bool)
    {as : List FleetAction} {ts : List Turn} (has : ∀ a ∈ as, a.Fits ∧ a.noCompactAll)
    (hts : ∀ a ∈ others ts, a.Fits ∧ a.noCompactAll) (startKey endKey : Bytes) :
    Runs (launch n draws >>= fun f => as.foldlM Fleet.step f
        >>= fun f => ts.foldlM (Asked.step startKey endKey) (ask f))
      (fun s => (s.fleet.ranges.length ≤ ts.count .visit → s.query.pending = [])
        ∧ (s.query.pending = [] →
          ∃ out, s.query.finish startKey endKey = .ok out ∧ Ascending IteratorEntry.key out
            ∧ (∀ x ∈ out, x.type ≠ .kTypeDeletion)
            ∧ ∀ k v, (∃ x ∈ out, x.key = k ∧ x.value = v)
              ↔ startKey ≤ k ∧ k ≤ endKey ∧ ¬ Pruned s.fleet.engine startKey endKey k
                ∧ ∃ i, s.fleet.engine.getShard k = .ok i
                  ∧ lastWrite (as ++ before ts i) k = some v)) := by
  let I : List Turn → Asked → Prop := fun rest s =>
    (∀ a ∈ others rest, a.Fits ∧ a.noCompactAll) ∧ OneThread s.fleet
      ∧ ∃ done seen ls visits, FleetRep s.fleet (lastWrite done)
        ∧ Taken s.fleet.engine startKey endKey (fun i => as ++ before ts i) done (before rest) seen ls
          s.query
        ∧ visits + rest.count .visit = ts.count .visit
        ∧ s.query.pending = s.fleet.ranges.drop visits
  have hI : ∀ {t : Turn} {rest : List Turn} {s : Asked}, I (t :: rest) s → True →
      Runs (s.step startKey endKey t) (I rest) := by
    rintro t rest s ⟨hrest, hone, done, seen, ls, visits, hrep, htaken, hcount, hpending⟩ _
    cases t with
    | act a =>
        obtain ⟨ha, hno⟩ := hrest a List.mem_cons_self
        refine (scheduled_step hrep hone ha hno).bind ?_
        rintro f' ⟨hrep', hone', hshape⟩
        refine ⟨fun b hb => hrest b (List.mem_cons_of_mem _ hb), hone', done ++ [a], seen, ls, visits,
          ?_, Taken.act htaken hshape.ranges hshape.getShard, ?_, ?_⟩
        · rw [lastWrite_append]
          exact hrep'
        · rwa [List.count_cons_of_ne (by simp)] at hcount
        · exact hpending.trans (congrArg (List.drop visits) hshape.ranges.symm)
    | visit =>
        obtain ⟨q', seen', ls', hvisit, htaken', htail⟩ := htaken.visit hrep rfl
        simp only [Asked.step, hvisit, ok_bind]
        refine ⟨hrest, hone, done, seen', ls', visits + 1, hrep, htaken', ?_, ?_⟩
        · rw [List.count_cons_self] at hcount
          omega
        · rw [htail, hpending, List.tail_drop]
  simp only [← bind_assoc]
  refine (fleet_run hn draws has).bind ?_
  rintro f ⟨hrep, hone⟩
  have hopen : Taken f.engine startKey endKey (fun i => as ++ before ts i) as (before ts) [] []
      (ask f).query := by
    refine ⟨rfl, ?_, List.Forall₂.nil, List.Forall₂.nil⟩
    intro j _
    rw [List.length_nil, Nat.zero_add]
  refine (ends_foldlM I hI ts (meets_of_forall (fun _ _ => trivial) ts _)
    ⟨hts, hone, as, [], [], 0, hrep, hopen, Nat.zero_add _, rfl⟩).mono ?_
  rintro s ⟨-, -, done, seen, ls, visits, hrep', htaken, hcount, hpending⟩
  refine ⟨?_, fun hq => htaken.finish hrep'.wellFormed hq⟩
  intro hall
  rw [hpending, List.drop_eq_nil_iff]
  rw [List.count_nil, Nat.add_zero] at hcount
  exact hcount ▸ hall

/-- Two keys are there; one of them is overwritten when its shard has been visited. -/
def putsBefore : List FleetAction := [.put [0] [1], .put [2] [1], .work 0, .work 0]

def putsBetween : List Turn := [.visit, .act (.put [0] [2]), .act (.put [2] [2]), .act (.work 0), .visit]

/-- The scheduler merges five tables when the query begins, and goes on with it. -/
def mergeBefore : List FleetAction := manyPuts ++ putsBefore ++ List.replicate 3 (.work 0)

theorem mergeBefore_spec : ∀ a ∈ mergeBefore, a.Fits ∧ a.noCompactAll := by
  refine List.forall_mem_append.mpr ⟨List.forall_mem_append.mpr ⟨?_, by decide⟩, by decide⟩
  exact fun a ha => ⟨(manyPuts_spec a ha).1, (manyPuts_spec a ha).2.1⟩

theorem query_in_flight_mergeBefore :
    Runs (launch 2 (fun _ _ => false) >>= fun f => mergeBefore.foldlM Fleet.step f
        >>= fun f => putsBetween.foldlM (Asked.step [] [9]) (ask f))
      (fun s => (s.fleet.ranges.length ≤ putsBetween.count .visit → s.query.pending = [])
        ∧ (s.query.pending = [] →
          ∃ out, s.query.finish [] [9] = .ok out ∧ Ascending IteratorEntry.key out
            ∧ (∀ x ∈ out, x.type ≠ .kTypeDeletion)
            ∧ ∀ k v, (∃ x ∈ out, x.key = k ∧ x.value = v)
              ↔ [] ≤ k ∧ k ≤ [9] ∧ ¬ Pruned s.fleet.engine [] [9] k
                ∧ ∃ i, s.fleet.engine.getShard k = .ok i
                  ∧ lastWrite (mergeBefore ++ before putsBetween i) k = some v)) :=
  query_in_flight (by decide) _ mergeBefore_spec (by decide) [] [9]

/-- The query finds the first key as it was and the second as it is: the engine
    held the two values at no moment. -/
example : Yields (launch 2 (fun _ _ => false) >>= fun f => putsBefore.foldlM Fleet.step f
      >>= fun f => putsBetween.foldlM (Asked.step [] [9]) (ask f)
      >>= fun s => s.query.finish [] [9])
    (fun out => out.map (fun x => (x.key, x.value)) = [([0], [1]), ([2], [2])]) := by
  decide +kernel

/-! ## A query on its own -/

/-- The turns in a row take every shard as it is now. -/
theorem Taken.visitAll {past : Nat → List FleetAction} {done : List FleetAction}
    (hf : FleetRep f (lastWrite done)) :
    ∀ (m : Nat) {seen : List ShardRange} {ls : List (List IteratorEntry)} {q : Query},
      Taken f.engine startKey endKey past done (fun _ => []) seen ls q → q.pending.length = m →
      ∃ q' seen' ls', Query.visitAll f.engine startKey endKey m q = .ok q'
        ∧ Taken f.engine startKey endKey past done (fun _ => []) seen' ls' q' ∧ q'.pending = [] := by
  intro m
  induction m with
  | zero =>
      intro seen ls q h hm
      exact ⟨q, seen, ls, rfl, h, List.length_eq_zero_iff.mp hm⟩
  | succ m ih =>
      intro seen ls q h hm
      obtain ⟨q₁, seen₁, ls₁, hvisit, h₁, htail⟩ := h.visit hf rfl
      obtain ⟨q', seen', ls', hrun, h', hq⟩ := ih h₁ (by rw [htail, List.length_tail, hm]; rfl)
      refine ⟨q', seen', ls', ?_, h', hq⟩
      rw [Query.visitAll, hvisit]
      exact hrun

/-- **`RangeQuery`** on what a run of the engine and its scheduler leaves. -/
theorem rangeQuery_of_fleetRep {as : List FleetAction} (hrep : FleetRep f (lastWrite as))
    (startKey endKey : Bytes) :
    ∃ out, f.engine.rangeQuery startKey endKey = .ok out ∧ Ascending IteratorEntry.key out
      ∧ (∀ x ∈ out, x.type ≠ .kTypeDeletion)
      ∧ ∀ k v, (∃ x ∈ out, x.key = k ∧ x.value = v)
        ↔ startKey ≤ k ∧ k ≤ endKey ∧ ¬ Pruned f.engine startKey endKey k
          ∧ lastWrite as k = some v := by
  have hopen : Taken f.engine startKey endKey (fun _ => as) as (fun _ => []) [] []
      ⟨f.engine.ranges, []⟩ :=
    ⟨rfl, fun _ => (List.append_nil as).symm, List.Forall₂.nil, List.Forall₂.nil⟩
  obtain ⟨q, seen, ls, hvisit, htaken, hq⟩ := Taken.visitAll hrep _ hopen rfl
  obtain ⟨out, hout, hasc, hlive, hmem⟩ := htaken.finish hrep.wellFormed hq
  refine ⟨out, ?_, hasc, hlive, ?_⟩
  · rw [rangeQuery_eq_visitAll, hvisit]
    exact hout
  · intro k v
    rw [hmem k v]
    have hshard : (∃ i, f.engine.getShard k = .ok i ∧ lastWrite as k = some v)
        ↔ lastWrite as k = some v := by
      obtain ⟨i, hi, -⟩ := getShard_spec hrep.wellFormed k
      exact ⟨fun ⟨_, _, hw⟩ => hw, fun hw => ⟨i, hi, hw⟩⟩
    rw [hshard]

/-- **`RangeQuery` is right while the scheduler compacts**, at every stage of its
    calls. -/
theorem rangeQuery_scheduled {n : UInt64} (hn : 2 ≤ n) (draws : Nat → Nat → Bool)
    {as : List FleetAction} (has : ∀ a ∈ as, a.Fits ∧ a.noCompactAll) :
    Runs (launch n draws >>= fun f => as.foldlM Fleet.step f) (fun f => ∀ startKey endKey,
      ∃ out, f.engine.rangeQuery startKey endKey = .ok out ∧ Ascending IteratorEntry.key out
        ∧ (∀ x ∈ out, x.type ≠ .kTypeDeletion)
        ∧ ∀ k v, (∃ x ∈ out, x.key = k ∧ x.value = v)
          ↔ startKey ≤ k ∧ k ≤ endKey ∧ ¬ Pruned f.engine startKey endKey k
            ∧ lastWrite as k = some v) := by
  refine (fleet_run hn draws has).mono ?_
  rintro f ⟨hrep, -⟩ startKey endKey
  exact rangeQuery_of_fleetRep hrep startKey endKey

theorem rangeQuery_scheduled_mergeBefore :
    Runs (launch 2 (fun _ _ => false) >>= fun f => mergeBefore.foldlM Fleet.step f)
      (fun f => ∀ startKey endKey,
        ∃ out, f.engine.rangeQuery startKey endKey = .ok out ∧ Ascending IteratorEntry.key out
          ∧ (∀ x ∈ out, x.type ≠ .kTypeDeletion)
          ∧ ∀ k v, (∃ x ∈ out, x.key = k ∧ x.value = v)
            ↔ startKey ≤ k ∧ k ≤ endKey ∧ ¬ Pruned f.engine startKey endKey k
              ∧ lastWrite mergeBefore k = some v) :=
  rangeQuery_scheduled (by decide) _ mergeBefore_spec

end KvQueryInFlight
