import LightKV.KvScansInFlightProofs
import LightKV.KvRangeQueryProofs

/-! # The scheduler's thread among the clients

    The sharded engine with the threads that compact it: the one of
    `BackgroundCompactScheduler`, and the callers of `CompactAll`.  Each goes
    through the shards one after the other and is in one call of `Compact` at a
    time; the stages of these calls come between the operations of the clients.
    On every shard this is a run of the single engine (`fleet_step`).  With the
    scheduler as the only such thread two calls never meet on a shard
    (`alone_of_scheduler`). -/

namespace KvScheduler

open Execution KvBytes KvCompaction KvDirectory KvEngine KvInterleaving KvRangeQuery KvRecovery
open KvScansInFlight KvSession KvSharding KvStore KvTable Overlay

/-! ## The threads -/

/-- Who goes through the shards. -/
inductive Sweep
  /-- `BackgroundCompactScheduler`: it compacts the shards that need it, turn after turn -/
  | scheduler
  /-- a caller of `CompactAll` -/
  | compactAll
  deriving DecidableEq

/-- Where a thread stands. -/
inductive Place
  /-- between two turns -/
  | asleep
  /-- before shard `i` -/
  | before (i : Nat)
  /-- shard `i` is to be compacted, and `Compact` has not taken its snapshot -/
  | calling (i : Nat)
  /-- in call `j` on shard `i` -/
  | inside (i j : Nat)
  | finished
  deriving DecidableEq

structure Worker where
  sweep : Sweep
  place : Place

/-- The sharded engine, the calls of `Compact` on each shard, and the threads. -/
structure Fleet where
  shardNum : UInt64
  systems : List System
  ranges : List ShardRange
  workers : List Worker
  /-- `stop_bg_thread_` -/
  stopped : Bool

/-- The engine alone. -/
def Fleet.engine (f : Fleet) : ShardedKVEngine :=
  ⟨f.shardNum, f.systems.map System.engine, f.ranges⟩

/-- What can happen next. -/
inductive FleetAction
  | put (key value : Bytes)
  | delete (key : Bytes)
  /-- `CompactAll` is called -/
  | compactAll
  /-- thread `w` goes on -/
  | work (w : Nat)
  /-- the destructor asks the scheduler to stop -/
  | stop
  deriving DecidableEq

/-- `*shards_[i]`, with the calls on it. -/
def Fleet.system (f : Fleet) (i : Nat) : Except Fault System :=
  match f.systems[i]? with
  | some sys => pure sys
  | none => .error .outOfBounds

/-- One action on one shard. -/
def Fleet.act (f : Fleet) (i : Nat) (a : Action) : Except Fault Fleet := do
  let sys ← f.system i
  let sys ← sys.step a
  pure { f with systems := f.systems.set i sys }

/-- The next step of a thread: what it does to a shard, and where it goes. -/
def Fleet.work (f : Fleet) (worker : Worker) : Except Fault (Option (Nat × Action) × Place) :=
  match worker.place with
  | .asleep => pure (none, if f.stopped then .finished else .before 0)
  | .before i =>
      match f.systems[i]?, worker.sweep with
      | none, .scheduler => pure (none, .asleep)
      | none, .compactAll => pure (none, .finished)
      | some sys, .scheduler =>
          if f.stopped then pure (none, .finished)
          else if sys.engine.needsCompaction 5 then pure (none, .calling i)
          else pure (none, .before (i + 1))
      | some _, .compactAll => pure (none, .calling i)
  | .calling i => do
      let sys ← f.system i
      match sys.engine.snapshot with
      | none => pure (none, .before (i + 1))
      | some _ => pure (some (i, .begin), .inside i sys.calls.length)
  | .inside i j => do
      let sys ← f.system i
      match sys.calls[j]? with
      | some .finished => pure (none, .before (i + 1))
      | _ => pure (some (i, .advance j), .inside i j)
  | .finished => pure (none, .finished)

/-- One action. -/
def Fleet.step (f : Fleet) : FleetAction → Except Fault Fleet
  | .put key value => do
      let i ← f.engine.getShard key
      f.act i (.put key value)
  | .delete key => do
      let i ← f.engine.getShard key
      f.act i (.erase key)
  | .compactAll => pure { f with workers := f.workers ++ [⟨.compactAll, .before 0⟩] }
  | .work w =>
      match f.workers[w]? with
      | none => pure f
      | some worker => do
          let (action, place) ← f.work worker
          let workers := f.workers.set w { worker with place := place }
          match action with
          | none => pure { f with workers := workers }
          | some (i, a) => Fleet.act { f with workers := workers } i a
  | .stop => pure { f with stopped := true }

/-- Keys and values that fit their length fields. -/
def FleetAction.Fits : FleetAction → Prop
  | .put key value => key.length < 2 ^ 32 ∧ value.length < 2 ^ 32
  | .delete key => key.length < 2 ^ 32
  | _ => True

instance : DecidablePred FleetAction.Fits := fun a => by
  cases a <;> unfold FleetAction.Fits <;> infer_instance

/-- What an action writes. -/
def FleetAction.write (g : Bytes → Option Bytes) : FleetAction → Bytes → Option Bytes
  | .put key value => fun k => if k = key then some value else g k
  | .delete key => fun k => if k = key then none else g k
  | _ => g

/-- The last write of each key. -/
def lastWrite (as : List FleetAction) : Bytes → Option Bytes :=
  as.foldl FleetAction.write (fun _ => none)

/-- No thread takes a snapshot of a shard on which another call is pending. -/
def Fleet.alone (f : Fleet) : FleetAction → Bool
  | .work w =>
      match f.workers[w]? with
      | some ⟨_, .calling i⟩ =>
          match f.systems[i]? with
          | some sys => KvScansInFlight.alone sys .begin
          | none => true
      | _ => true
  | _ => true

/-- A fresh engine with its scheduler. -/
def launch (shardNum : UInt64) (draws : Nat → Nat → Bool) : Except Fault Fleet := do
  let e ← fresh shardNum draws
  pure ⟨e.shardNum, e.shards.map (fun shard => ⟨shard, []⟩), e.ranges, [⟨.scheduler, .asleep⟩],
    false⟩

/-! ## What a shard holds -/

/-- The key that an action writes has a property. -/
def ActionTouches (p : Bytes → Prop) : Action → Prop
  | .put key _ => p key
  | .erase key => p key
  | _ => True

/-- **Every action on a shard keeps what holds of its keys.** -/
theorem holds_sharedStep {p : Bytes → Prop} {s s' : Shared} {a : Action} (h : Holds p s.store)
    (hsolo : Solo s) (ha : ActionTouches p a) (hs : SharedStep s a s') : Holds p s'.store := by
  cases hs with
  | @put key value t ht hfull =>
      subst ht
      exact h.write (show p key from ha) _
  | @putFlush key value t ht hfull =>
      subst ht
      have hw : Holds p (s.store.write ⟨.PUT, key, value⟩ ⟨.kTypeValue, value⟩) :=
        h.write (show p key from ha) _
      exact hw.flush
  | erase key => exact h.write (show p key from ha) _
  | forceFlush => exact h.flush
  | beginNone hle => exact h
  | begin hlt => exact h
  | advanceNone hi => exact h
  | reserve hi => exact ⟨h.mem, h.tables⟩
  | build hi hm hne => exact ⟨h.mem, h.tables⟩
  | buildEmpty hi hm => exact ⟨h.mem, h.tables⟩
  | @swap i old seen number m hi =>
      obtain ⟨ts, hts⟩ := hsolo.ordered
      obtain ⟨⟨news, olds, htables, -⟩, -, hm⟩ := hts.calls _ (List.mem_of_getElem? hi)
      have hsub : ∀ t ∈ news ++ old, ∀ kv ∈ t.entries, p kv.1 := htables ▸ h.tables
      refine ⟨h.mem, ?_⟩
      rw [Store.swap, remaining_eq htables hsolo.numbered]
      intro t ht
      rcases List.mem_cons.mp ht with rfl | ht'
      · exact Holds.merge (fun u hu => hsub u (List.mem_append_right _ hu)) hm
      · exact hsub t (List.mem_append_left _ ht')
  | @delete i number n ns hi =>
      obtain ⟨h1, -, h3⟩ := deleteOld_memory s.store number n
      refine ⟨?_, ?_⟩
      · show ∀ kv ∈ (s.store.deleteOld number n).mem, p kv.1
        rw [h3]
        exact h.mem
      · show ∀ t ∈ (s.store.deleteOld number n).tables, ∀ kv ∈ t.entries, p kv.1
        rw [h1]
        exact h.tables
  | deleteDone hi => exact h
  | idle hi => exact h

/-- **A shard** holds its own keys only, and shows what was written to them. -/
structure ShardRep (own : Bytes → Prop) (g : Bytes → Option Bytes) (sys : System) (s : Shared) :
    Prop where
  rep : SystemRep sys s
  solo : Solo s
  holds : Holds own s.store
  written : ∀ k, own k → s.written k = g k

/-- What is written to a key does not depend on the other keys. -/
theorem write_congr {g g' : Bytes → Option Bytes} (a : Action) {k : Bytes} (h : g k = g' k) :
    Action.write g a k = Action.write g' a k := by
  cases a with
  | put key value =>
      show (if k = key then some value else g k) = if k = key then some value else g' k
      rw [h]
  | erase key =>
      show (if k = key then none else g k) = if k = key then none else g' k
      rw [h]
  | forceFlush => exact h
  | begin => exact h
  | advance i => exact h

/-- **One action on one shard.** -/
theorem shard_step {own : Bytes → Prop} {g : Bytes → Option Bytes} {sys : System} {s : Shared}
    {a : Action} (h : ShardRep own g sys s) (ha : a.Fits) (ht : ActionTouches own a)
    (hok : KvScansInFlight.alone sys a = true) :
    Runs (sys.step a) (fun sys' => ∃ s', ShardRep own (Action.write g a) sys' s') := by
  refine (step_spec h.rep ha).mono ?_
  rintro sys' ⟨s', hs, hrep'⟩
  refine ⟨s', hrep', solo_step h.rep h.solo ha hok hs, holds_sharedStep h.holds h.solo ht hs, ?_⟩
  intro k hk
  rw [written_step hs]
  exact write_congr a (h.written k hk)

/-! ## The whole engine -/

/-- The shard that a thread is at. -/
def Place.shard : Place → Option Nat
  | .calling i | .inside i _ => some i
  | _ => none

/-- **The engine with its threads stands for a map.** -/
structure FleetRep (f : Fleet) (g : Bytes → Option Bytes) : Prop where
  wellFormed : f.engine.WellFormed
  shards : ∀ {i : Nat} {sys : System}, f.systems[i]? = some sys →
    ∃ s, ShardRep (fun key => f.engine.getShard key = .ok i) g sys s
  places : ∀ w ∈ f.workers, ∀ i, w.place.shard = some i → i < f.systems.length

variable {f : Fleet} {g : Bytes → Option Bytes}

/-- The shards are there. -/
theorem system_of_lt {i : Nat} (hi : i < f.systems.length) :
    ∃ sys, f.systems[i]? = some sys ∧ f.system i = .ok sys := by
  have hsys : f.systems[i]? = some f.systems[i] := List.getElem?_eq_getElem hi
  exact ⟨_, hsys, by rw [Fleet.system, hsys]; rfl⟩

theorem FleetRep.length (h : FleetRep f g) : f.systems.length = f.shardNum.toNat :=
  (List.length_map _).symm.trans h.wellFormed.length

theorem FleetRep.system (h : FleetRep f g) {i : Nat} (hi : i < f.shardNum.toNat) :
    ∃ sys, f.systems[i]? = some sys ∧ f.system i = .ok sys :=
  system_of_lt (h.length ▸ hi)

/-- **An action on shard `i`** changes the map at keys of that shard only. -/
theorem act_spec (h : FleetRep f g) {i : Nat} {sys : System} (hsys : f.systems[i]? = some sys)
    {a : Action} (ha : a.Fits)
    (ht : ActionTouches (fun key => f.engine.getShard key = .ok i) a)
    (hok : KvScansInFlight.alone sys a = true) :
    Runs (f.act i a) (fun f' => FleetRep f' (Action.write g a) ∧ f'.workers = f.workers
      ∧ f'.stopped = f.stopped ∧ ∃ sys', sys.step a = .ok sys'
        ∧ f'.systems = f.systems.set i sys') := by
  obtain ⟨s, hs⟩ := h.shards hsys
  have hget : f.system i = .ok sys := by
    rw [Fleet.system, hsys]
    rfl
  have hrun := shard_step hs ha ht hok
  simp only [Fleet.act, hget, ok_bind]
  cases hstep : sys.step a with
  | error fault =>
      rw [hstep] at hrun
      exact hrun
  | ok sys' =>
      rw [hstep] at hrun
      obtain ⟨s', hs'⟩ := hrun
      have hlen : ((f.systems.set i sys').map System.engine).length
          = (f.systems.map System.engine).length := by
        rw [List.length_map, List.length_map, List.length_set]
      have hshard := getShard_with_shards (e := f.engine) hlen
      refine ⟨⟨h.wellFormed.with_shards hlen, ?_, ?_⟩, rfl, rfl, sys', rfl, rfl⟩
      case refine_2 =>
        intro w hw j hj
        show j < (f.systems.set i sys').length
        rw [List.length_set]
        exact h.places w hw j hj
      intro j sysj hj
      have hown : (fun key => ShardedKVEngine.getShard
          ⟨f.shardNum, (f.systems.set i sys').map System.engine, f.ranges⟩ key = .ok j)
          = fun key => f.engine.getShard key = .ok j := by
        funext key
        exact congrArg (· = Except.ok j) (hshard key)
      show ∃ s, ShardRep (fun key => ShardedKVEngine.getShard
        ⟨f.shardNum, (f.systems.set i sys').map System.engine, f.ranges⟩ key = .ok j) _ sysj s
      rw [hown]
      rw [List.getElem?_set] at hj
      by_cases hij : i = j
      · subst hij
        rw [if_pos rfl, if_pos (List.getElem?_eq_some_iff.mp hsys).1] at hj
        exact ⟨s', Option.some.inj hj ▸ hs'⟩
      · rw [if_neg hij] at hj
        obtain ⟨u, hu⟩ := h.shards hj
        refine ⟨u, hu.rep, hu.solo, hu.holds, ?_⟩
        intro k hk
        rw [hu.written k hk]
        -- a key of shard `j` is not the one that is written
        have hother : ∀ {key : Bytes}, f.engine.getShard key = .ok i → k ≠ key := by
          rintro key hkey rfl
          exact hij (Except.ok.inj (hkey.symm.trans hk))
        cases a with
        | put key value => exact (if_neg (hother ht)).symm
        | erase key => exact (if_neg (hother ht)).symm
        | forceFlush => rfl
        | begin => rfl
        | advance l => rfl

/-- What a thread may do next: nothing, or an action of a call on its shard. -/
structure Next (f : Fleet) (worker : Worker) (action : Option (Nat × Action)) (place : Place) :
    Prop where
  inRange : ∀ i, place.shard = some i → i < f.systems.length
  acts : ∀ i a, action = some (i, a) → ∃ sys, f.systems[i]? = some sys
    ∧ (a = .begin ∧ worker.place = .calling i ∧ place = .inside i sys.calls.length
      ∨ ∃ j, a = .advance j ∧ worker.place = .inside i j ∧ place = .inside i j)
  leaves : action = none → ∀ i j, worker.place = .inside i j →
    ∃ sys, f.systems[i]? = some sys ∧ sys.calls[j]? = some .finished

/-- A thread that is in no call moves on. -/
theorem next_none {worker : Worker} {place : Place}
    (hp : ∀ i, place.shard = some i → i < f.systems.length)
    (hw : ∀ i j, worker.place ≠ .inside i j) : Next f worker none place :=
  ⟨hp, fun i a ha => absurd ha (by simp), fun _ i j hij => absurd hij (hw i j)⟩

/-- A place that is at no shard. -/
theorem inRange_of_none {place : Place} (h : place.shard = none) :
    ∀ i, place.shard = some i → i < f.systems.length := by
  intro i hi
  rw [h] at hi
  cases hi

/-- **A thread always knows what to do next.** -/
theorem work_spec (h : FleetRep f g) {worker : Worker} (hw : worker ∈ f.workers) :
    ∃ action place, f.work worker = .ok (action, place) ∧ Next f worker action place := by
  obtain ⟨sweep, place⟩ := worker
  have hplace := h.places _ hw
  cases place with
  | asleep =>
      refine ⟨none, _, rfl, next_none (inRange_of_none ?_) (by simp)⟩
      split
      · rfl
      · rfl
  | before i =>
      cases hsys : f.systems[i]? with
      | none =>
          cases sweep with
          | scheduler =>
              exact ⟨none, .asleep, by simp only [Fleet.work, hsys]; rfl,
                next_none (inRange_of_none rfl) (by simp)⟩
          | compactAll =>
              exact ⟨none, .finished, by simp only [Fleet.work, hsys]; rfl,
                next_none (inRange_of_none rfl) (by simp)⟩
      | some sys =>
          have hcalling : ∀ j, (Place.calling i).shard = some j → j < f.systems.length := by
            intro j hj
            obtain rfl := Option.some.inj hj
            exact (List.getElem?_eq_some_iff.mp hsys).1
          cases sweep with
          | scheduler =>
              by_cases hstop : f.stopped = true
              · refine ⟨none, .finished, ?_, next_none (inRange_of_none rfl) (by simp)⟩
                simp only [Fleet.work, hsys, hstop, if_true]
                rfl
              · by_cases hneeds : sys.engine.needsCompaction 5 = true
                · refine ⟨none, .calling i, ?_, next_none hcalling (by simp)⟩
                  simp only [Fleet.work, hsys, if_neg hstop, if_pos hneeds]
                  rfl
                · refine ⟨none, .before (i + 1), ?_, next_none (inRange_of_none rfl) (by simp)⟩
                  simp only [Fleet.work, hsys, if_neg hstop, if_neg hneeds]
                  rfl
          | compactAll =>
              exact ⟨none, .calling i, by simp only [Fleet.work, hsys]; rfl,
                next_none hcalling (by simp)⟩
  | calling i =>
      have hlt := hplace i rfl
      obtain ⟨sys, hsys, hget⟩ := system_of_lt hlt
      cases hsnap : sys.engine.snapshot with
      | none =>
          refine ⟨none, .before (i + 1), ?_, next_none (inRange_of_none rfl) (by simp)⟩
          simp only [Fleet.work, hget, ok_bind, hsnap]
          rfl
      | some old =>
          refine ⟨some (i, .begin), .inside i sys.calls.length, ?_, ?_, ?_, by simp⟩
          · simp only [Fleet.work, hget, ok_bind, hsnap]
            rfl
          · intro j hj
            exact Option.some.inj hj ▸ hlt
          · intro j a ha
            obtain ⟨rfl, rfl⟩ := Prod.mk.inj (Option.some.inj ha)
            exact ⟨sys, hsys, Or.inl ⟨rfl, rfl, rfl⟩⟩
  | inside i j =>
      have hlt := hplace i rfl
      obtain ⟨sys, hsys, hget⟩ := system_of_lt hlt
      by_cases hfin : sys.calls[j]? = some .finished
      · refine ⟨none, .before (i + 1), ?_, inRange_of_none rfl, by simp, ?_⟩
        · simp only [Fleet.work, hget, ok_bind, hfin]
          rfl
        · intro _ i' j' hij
          injection hij with hi hj
          subst hi
          subst hj
          exact ⟨sys, hsys, hfin⟩
      · refine ⟨some (i, .advance j), .inside i j, ?_, ?_, ?_, by simp⟩
        · simp only [Fleet.work, hget, ok_bind]
          rfl
        · intro k hk
          exact Option.some.inj hk ▸ hlt
        · intro k a ha
          obtain ⟨rfl, rfl⟩ := Prod.mk.inj (Option.some.inj ha)
          exact ⟨sys, hsys, Or.inr ⟨j, rfl, rfl, rfl⟩⟩
  | finished => exact ⟨none, .finished, rfl, next_none (inRange_of_none rfl) (by simp)⟩

theorem places_set {workers : List Worker} {n w : Nat} {worker : Worker}
    (h : ∀ v ∈ workers, ∀ i, v.place.shard = some i → i < n)
    (hw : ∀ i, worker.place.shard = some i → i < n) :
    ∀ v ∈ workers.set w worker, ∀ i, v.place.shard = some i → i < n := by
  intro v hv
  rcases List.mem_or_eq_of_mem_set hv with hv' | rfl
  · exact h v hv'
  · exact hw

/-- **Every action of the engine with its threads** does to the map what the
    client did, and nothing else. -/
theorem fleet_step (h : FleetRep f g) {a : FleetAction} (ha : a.Fits) (hok : f.alone a = true) :
    Runs (f.step a) (fun f' => FleetRep f' (FleetAction.write g a)) := by
  cases a with
  | put key value =>
      obtain ⟨i, hi, hlt⟩ := getShard_spec h.wellFormed key
      obtain ⟨sys, hsys, -⟩ := h.system hlt
      simp only [Fleet.step, hi, ok_bind]
      exact (act_spec h hsys (a := .put key value) ha hi rfl).mono (fun f' h' => h'.1)
  | delete key =>
      obtain ⟨i, hi, hlt⟩ := getShard_spec h.wellFormed key
      obtain ⟨sys, hsys, -⟩ := h.system hlt
      simp only [Fleet.step, hi, ok_bind]
      exact (act_spec h hsys (a := .erase key) ha hi rfl).mono (fun f' h' => h'.1)
  | compactAll =>
      refine ⟨h.wellFormed, h.shards, ?_⟩
      intro w hw i hi
      rcases List.mem_append.mp hw with hw' | hw'
      · exact h.places w hw' i hi
      · rw [List.mem_singleton.mp hw'] at hi
        cases hi
  | stop => exact ⟨h.wellFormed, h.shards, h.places⟩
  | work w =>
      cases hw : f.workers[w]? with
      | none =>
          simp only [Fleet.step, hw]
          exact h
      | some worker =>
          obtain ⟨action, place, hwork, hnext⟩ := work_spec h (List.mem_of_getElem? hw)
          have hmoved : FleetRep { f with
              workers := f.workers.set w { worker with place := place } } g :=
            ⟨h.wellFormed, h.shards, places_set h.places hnext.inRange⟩
          simp only [Fleet.step, hw, hwork, ok_bind]
          cases action with
          | none => exact hmoved
          | some p =>
              obtain ⟨i, act⟩ := p
              obtain ⟨sys, hsys, hact⟩ := hnext.acts i act rfl
              rcases hact with ⟨rfl, hplace, -⟩ | ⟨j, rfl, -, -⟩
              · have halone : KvScansInFlight.alone sys .begin = true := by
                  obtain ⟨sweep, place'⟩ := worker
                  subst hplace
                  rw [Fleet.alone, hw] at hok
                  simpa only [hsys] using hok
                exact (act_spec hmoved hsys (a := .begin) trivial trivial halone).mono
                  (fun f' h' => h'.1)
              · exact (act_spec hmoved hsys (a := .advance j) trivial trivial rfl).mono
                  (fun f' h' => h'.1)

/-! ## The scheduler alone -/

/-- Nobody calls `CompactAll`. -/
def FleetAction.noCompactAll (a : FleetAction) : Prop := a ≠ .compactAll

instance : DecidablePred FleetAction.noCompactAll := fun a =>
  inferInstanceAs (Decidable (a ≠ .compactAll))

/-- One thread compacts, and a pending call is the one it is in. -/
def OneThread (f : Fleet) : Prop :=
  ∃ w, f.workers = [w] ∧ ∀ {i j : Nat} {sys : System} {call : CompactCall},
    f.systems[i]? = some sys → sys.calls[j]? = some call → CompactCall.pending call = true →
    w.place = .inside i j

/-- What an action leaves of the calls. -/
theorem calls_step {sys sys' : System} {a : Action} (h : sys.step a = .ok sys') :
    sys'.calls = sys.calls ∨ (a = .begin ∧ ∃ call, sys'.calls = sys.calls ++ [call])
      ∨ ∃ j call, a = .advance j ∧ sys'.calls = sys.calls.set j call := by
  cases a with
  | put key value =>
      obtain ⟨e, -, hs⟩ := bind_eq_ok.mp h
      exact Or.inl (congrArg System.calls (Except.ok.inj hs)).symm
  | erase key =>
      obtain ⟨e, -, hs⟩ := bind_eq_ok.mp h
      exact Or.inl (congrArg System.calls (Except.ok.inj hs)).symm
  | forceFlush =>
      obtain ⟨e, -, hs⟩ := bind_eq_ok.mp h
      exact Or.inl (congrArg System.calls (Except.ok.inj hs)).symm
  | begin =>
      cases hsnap : sys.engine.snapshot with
      | none =>
          simp only [System.step, hsnap] at h
          exact Or.inl (congrArg System.calls (Except.ok.inj h)).symm
      | some old =>
          simp only [System.step, hsnap] at h
          exact Or.inr (Or.inl ⟨rfl, _, (congrArg System.calls (Except.ok.inj h)).symm⟩)
  | advance j =>
      cases hcall : sys.calls[j]? with
      | none =>
          simp only [System.step, hcall] at h
          exact Or.inl (congrArg System.calls (Except.ok.inj h)).symm
      | some call =>
          simp only [System.step, hcall] at h
          obtain ⟨⟨e, call'⟩, -, hs⟩ := bind_eq_ok.mp h
          exact Or.inr (Or.inr ⟨j, call', rfl, (congrArg System.calls (Except.ok.inj hs)).symm⟩)

/-- What an action on a shard leaves of the other shards. -/
theorem systems_act {f f' : Fleet} {i : Nat} {a : Action} (h : f.act i a = .ok f') :
    ∃ sys sys', f.systems[i]? = some sys ∧ sys.step a = .ok sys'
      ∧ f' = { f with systems := f.systems.set i sys' } := by
  obtain ⟨sys, hget, hrest⟩ := bind_eq_ok.mp h
  obtain ⟨sys', hstep, hend⟩ := bind_eq_ok.mp hrest
  cases hsys : f.systems[i]? with
  | none =>
      rw [Fleet.system, hsys] at hget
      cases hget
  | some sys₁ =>
      rw [Fleet.system, hsys] at hget
      obtain rfl := Except.ok.inj hget
      exact ⟨_, sys', rfl, hstep, (Except.ok.inj hend).symm⟩

/-- A pending call of the shards is where `place` is, when it was before the step
    or the step brought it about. -/
theorem pending_set {systems : List System} {i : Nat} {sys sys' : System} {place : Place}
    (hsys : systems[i]? = some sys)
    (hold : ∀ {k j : Nat} {u : System} {call : CompactCall}, k ≠ i → systems[k]? = some u →
      u.calls[j]? = some call → CompactCall.pending call = true → place = .inside k j)
    (hnew : ∀ {j : Nat} {call : CompactCall}, sys'.calls[j]? = some call →
      CompactCall.pending call = true → place = .inside i j)
    {k j : Nat} {u : System} {call : CompactCall} (hu : (systems.set i sys')[k]? = some u)
    (hc : u.calls[j]? = some call) (hp : CompactCall.pending call = true) :
    place = .inside k j := by
  rw [List.getElem?_set] at hu
  by_cases hik : i = k
  · subst hik
    rw [if_pos rfl, if_pos (List.getElem?_eq_some_iff.mp hsys).1] at hu
    exact hnew (Option.some.inj hu ▸ hc) hp
  · rw [if_neg hik] at hu
    exact hold (Ne.symm hik) hu hc hp

/-- A client's operation is no matter of the calls. -/
theorem oneThread_client {f f' : Fleet} (h : OneThread f) {i : Nat} {a : Action}
    (ha : a ≠ .begin ∧ ∀ j, a ≠ .advance j) (hs : f.act i a = .ok f') : OneThread f' := by
  obtain ⟨w, hw, hpending⟩ := h
  obtain ⟨sys, sys', hsys, hstep, rfl⟩ := systems_act hs
  refine ⟨w, hw, fun hu hc hp => pending_set hsys (fun _ => hpending) ?_ hu hc hp⟩
  intro j call hj
  rcases calls_step hstep with hcalls | ⟨hbegin, -⟩ | ⟨k, -, hadv, -⟩
  · exact hpending hsys (hcalls ▸ hj)
  · exact absurd hbegin ha.1
  · exact absurd hadv (ha.2 k)

/-- What the thread does to a shard leaves no pending call there but its own. -/
theorem pending_act {w : Worker} {i : Nat} {sys sys' : System} {a : Action} {place : Place}
    (hpending : ∀ {j : Nat} {call : CompactCall}, sys.calls[j]? = some call →
      CompactCall.pending call = true → w.place = .inside i j)
    (hstep : sys.step a = .ok sys')
    (hact : a = .begin ∧ w.place = .calling i ∧ place = .inside i sys.calls.length
      ∨ ∃ j, a = .advance j ∧ w.place = .inside i j ∧ place = .inside i j)
    {j : Nat} {call : CompactCall} (hj : sys'.calls[j]? = some call)
    (hp : CompactCall.pending call = true) : place = .inside i j := by
  rcases hact with ⟨rfl, hcalling, rfl⟩ | ⟨l, rfl, hinside, rfl⟩
  · -- no call was pending, and the new one is the last
    have hold : ∀ c ∈ sys.calls, ¬ CompactCall.pending c = true := by
      intro c hc hpc
      obtain ⟨l, hl⟩ := List.mem_iff_getElem?.mp hc
      have hplace := hpending hl hpc
      rw [hcalling] at hplace
      cases hplace
    rcases calls_step hstep with hcalls | ⟨-, c, hcalls⟩ | ⟨k, c, hadv, -⟩
    · exact absurd hp (hold call (hcalls ▸ List.mem_of_getElem? hj))
    · rw [hcalls] at hj
      rw [eq_length_of_append hold hj hp]
    · cases hadv
  · rcases calls_step hstep with hcalls | ⟨hbegin, -⟩ | ⟨k, c, hadv, hcalls⟩
    · exact hinside.symm.trans (hpending (hcalls ▸ hj) hp)
    · cases hbegin
    · injection hadv with hlk
      subst hlk
      rw [hcalls, List.getElem?_set] at hj
      by_cases hlj : l = j
      · rw [hlj]
      · rw [if_neg hlj] at hj
        exact hinside.symm.trans (hpending hj hp)

/-- **One thread stays alone.** -/
theorem oneThread_step (hrep : FleetRep f g) (h : OneThread f) {a : FleetAction}
    (ha : a.noCompactAll) {f' : Fleet} (hs : f.step a = .ok f') : OneThread f' := by
  cases a with
  | put key value =>
      obtain ⟨i, -, hs⟩ := bind_eq_ok.mp hs
      exact oneThread_client h ⟨by simp, by simp⟩ hs
  | delete key =>
      obtain ⟨i, -, hs⟩ := bind_eq_ok.mp hs
      exact oneThread_client h ⟨by simp, by simp⟩ hs
  | compactAll => exact absurd rfl ha
  | stop =>
      obtain rfl := Except.ok.inj hs
      exact h
  | work n =>
      obtain ⟨w, hw, hpending⟩ := h
      cases hn : f.workers[n]? with
      | none =>
          simp only [Fleet.step, hn] at hs
          obtain rfl := Except.ok.inj hs
          exact ⟨w, hw, hpending⟩
      | some worker =>
          have hmem := List.mem_of_getElem? hn
          obtain ⟨action, place, hwork, hnext⟩ := work_spec hrep hmem
          rw [hw, List.mem_singleton] at hmem
          subst hmem
          have hset : f.workers.set n { worker with place := place }
              = [{ worker with place := place }] := by
            rw [hw] at hn ⊢
            cases n with
            | zero => rfl
            | succ n => cases hn
          simp only [Fleet.step, hn, hwork, ok_bind, hset] at hs
          cases action with
          | none =>
              obtain rfl := Except.ok.inj hs
              refine ⟨_, rfl, ?_⟩
              intro i j sys call hsys hcall hp
              -- the call the thread leaves is finished, and there is no other one
              obtain ⟨sys', hsys', hfin⟩ := hnext.leaves rfl i j (hpending hsys hcall hp)
              obtain rfl := Option.some.inj (hsys.symm.trans hsys')
              obtain rfl := Option.some.inj (hcall.symm.trans hfin)
              cases hp
          | some p =>
              obtain ⟨i, act⟩ := p
              obtain ⟨sys, sys', hsys, hstep, rfl⟩ := systems_act hs
              obtain ⟨sys₁, hsys₁, hact⟩ := hnext.acts i act rfl
              obtain rfl := Option.some.inj (hsys.symm.trans hsys₁)
              refine ⟨_, rfl, fun hu hc hp => pending_set hsys ?_
                (fun hj hp => pending_act (hpending hsys) hstep hact hj hp) hu hc hp⟩
              intro k j u call hk hu hc hp
              have hplace := hpending hu hc hp
              rcases hact with ⟨-, hcalling, -⟩ | ⟨l, -, hinside, -⟩
              · rw [hcalling] at hplace
                cases hplace
              · rw [hinside] at hplace
                injection hplace with hik
                exact absurd hik.symm hk

/-- **With one thread** no two calls are pending on a shard. -/
theorem alone_of_oneThread (h : OneThread f) (a : FleetAction) : f.alone a = true := by
  obtain ⟨w, hw, hpending⟩ := h
  cases a with
  | work n =>
      cases hn : f.workers[n]? with
      | none => simp only [Fleet.alone, hn]
      | some worker =>
          have hmem := List.mem_of_getElem? hn
          rw [hw, List.mem_singleton] at hmem
          subst hmem
          obtain ⟨sweep, place⟩ := worker
          cases place with
          | calling i =>
              cases hsys : f.systems[i]? with
              | none => simp only [Fleet.alone, hn, hsys]
              | some sys =>
                  simp only [Fleet.alone, hn, hsys, KvScansInFlight.alone]
                  refine List.all_eq_true.mpr ?_
                  intro call hcall
                  obtain ⟨j, hj⟩ := List.mem_iff_getElem?.mp hcall
                  rw [Bool.not_eq_true']
                  by_contra hp
                  have hplace := hpending hsys hj (by simpa using hp)
                  cases hplace
          | asleep => simp only [Fleet.alone, hn]
          | before i => simp only [Fleet.alone, hn]
          | inside i j => simp only [Fleet.alone, hn]
          | finished => simp only [Fleet.alone, hn]
  | put key value => rfl
  | delete key => rfl
  | compactAll => rfl
  | stop => rfl

/-! ## Runs -/

theorem shardRep_fresh {own : Bytes → Prop} {e : KVEngine} (h : Rep e freshStore) :
    ∃ s, ShardRep own (fun _ => none) ⟨e, []⟩ s := by
  let c : Config := shardConfig (fun _ => false)
  refine ⟨freshShared c, ⟨h, List.Forall₂.nil⟩, solo_fresh c, ⟨?_, ?_⟩, fun k _ => rfl⟩
  · intro kv hkv
    cases hkv
  · intro t ht
    cases ht

/-- What `launch` makes. -/
theorem launch_eq {n : UInt64} (hn : 2 ≤ n) (draws : Nat → Nat → Bool) :
    ∃ e, ShardsRep e ((List.range n.toNat).map (fun _ => freshStore))
      ∧ launch n draws = .ok ⟨e.shardNum, e.shards.map (fun shard => ⟨shard, []⟩), e.ranges,
        [⟨.scheduler, .asleep⟩], false⟩ := by
  obtain ⟨e, hrun, hrep⟩ := fresh_spec hn draws
  refine ⟨e, hrep, ?_⟩
  simp only [launch, hrun, ok_bind]
  rfl

/-- **A fresh engine** and its sleeping scheduler. -/
theorem launch_spec {n : UInt64} (hn : 2 ≤ n) (draws : Nat → Nat → Bool) :
    ∃ f, launch n draws = .ok f ∧ FleetRep f (fun _ => none) ∧ OneThread f := by
  obtain ⟨e, hrep, hlaunch⟩ := launch_eq hn draws
  have hmap : (e.shards.map (fun shard => System.mk shard [])).map System.engine = e.shards := by
    rw [List.map_map]
    exact List.map_id _
  refine ⟨_, hlaunch, ⟨?_, ?_, ?_⟩, _, rfl, ?_⟩
  · rw [Fleet.engine, hmap]
    exact hrep.wellFormed
  · intro i sys hsys
    rw [List.getElem?_map, Option.map_eq_some_iff] at hsys
    obtain ⟨shard, hshard, rfl⟩ := hsys
    obtain ⟨s, hs, hrep'⟩ := KvMerging.forall₂_mem_left hrep.reps (List.mem_of_getElem? hshard)
    obtain ⟨j, -, rfl⟩ := List.mem_map.mp hs
    exact shardRep_fresh hrep'
  · intro w hw i hi
    rw [List.mem_singleton.mp hw] at hi
    cases hi
  · intro i j sys call hsys hcall _
    rw [List.getElem?_map, Option.map_eq_some_iff] at hsys
    obtain ⟨shard, -, rfl⟩ := hsys
    cases hcall

/-- What no action changes. -/
structure SameShape (f f' : Fleet) : Prop where
  shardNum : f'.shardNum = f.shardNum
  ranges : f'.ranges = f.ranges
  length : f'.systems.length = f.systems.length

theorem sameShape_act {f f' : Fleet} {i : Nat} {a : Action} (h : f.act i a = .ok f') :
    SameShape f f' := by
  obtain ⟨sys, sys', -, -, rfl⟩ := systems_act h
  exact ⟨rfl, rfl, List.length_set⟩

theorem sameShape_step {f f' : Fleet} {a : FleetAction} (h : f.step a = .ok f') :
    SameShape f f' := by
  cases a with
  | put key value =>
      obtain ⟨i, -, h⟩ := bind_eq_ok.mp h
      exact sameShape_act h
  | delete key =>
      obtain ⟨i, -, h⟩ := bind_eq_ok.mp h
      exact sameShape_act h
  | compactAll =>
      obtain rfl := Except.ok.inj h
      exact ⟨rfl, rfl, rfl⟩
  | stop =>
      obtain rfl := Except.ok.inj h
      exact ⟨rfl, rfl, rfl⟩
  | work w =>
      cases hw : f.workers[w]? with
      | none =>
          simp only [Fleet.step, hw] at h
          obtain rfl := Except.ok.inj h
          exact ⟨rfl, rfl, rfl⟩
      | some worker =>
          simp only [Fleet.step, hw] at h
          obtain ⟨⟨action, place⟩, -, h⟩ := bind_eq_ok.mp h
          cases action with
          | none =>
              obtain rfl := Except.ok.inj h
              exact ⟨rfl, rfl, rfl⟩
          | some p =>
              have hact := sameShape_act h
              exact ⟨hact.shardNum, hact.ranges, hact.length⟩

/-- Keys stay with their shards. -/
theorem SameShape.getShard {f f' : Fleet} (h : SameShape f f') (key : Bytes) :
    f'.engine.getShard key = f.engine.getShard key := by
  have hlen : f'.engine.shards.length = f.engine.shards.length :=
    ((List.length_map _).trans h.length).trans (List.length_map _).symm
  have hnum : f'.engine.shardNum = f.engine.shardNum := h.shardNum
  have hranges : f'.engine.ranges = f.engine.ranges := h.ranges
  simp only [ShardedKVEngine.getShard, hlen, hnum, hranges]

/-- **One action**, with the scheduler as the only thread. -/
theorem scheduled_step (h : FleetRep f g) (hone : OneThread f) {a : FleetAction} (ha : a.Fits)
    (hno : a.noCompactAll) : Runs (f.step a) (fun f' => FleetRep f' (FleetAction.write g a)
      ∧ OneThread f' ∧ SameShape f f') := by
  have hstep := fleet_step h ha (alone_of_oneThread hone a)
  cases hs : f.step a with
  | error fault =>
      rw [hs] at hstep
      exact hstep
  | ok f' =>
      rw [hs] at hstep
      exact ⟨hstep, oneThread_step h hone hno hs, sameShape_step hs⟩

/-- **What a run of the engine and its scheduler leaves.** -/
theorem fleet_run {n : UInt64} (hn : 2 ≤ n) (draws : Nat → Nat → Bool) {as : List FleetAction}
    (has : ∀ a ∈ as, a.Fits ∧ a.noCompactAll) :
    Runs (launch n draws >>= fun f => as.foldlM Fleet.step f)
      (fun f => FleetRep f (lastWrite as) ∧ OneThread f) := by
  obtain ⟨f, hrun, hrep, hone⟩ := launch_spec hn draws
  let I : List FleetAction → Fleet → Prop := fun rest f => (∀ a ∈ rest, a.Fits ∧ a.noCompactAll)
    ∧ OneThread f ∧ ∃ g, FleetRep f g ∧ rest.foldl FleetAction.write g = lastWrite as
  have hI : ∀ {a : FleetAction} {rest : List FleetAction} {f : Fleet}, I (a :: rest) f → True →
      Runs (f.step a) (I rest) := by
    rintro a rest f ⟨hrest, hone, g, h, hg⟩ _
    obtain ⟨ha, hno⟩ := hrest a List.mem_cons_self
    refine (scheduled_step h hone ha hno).mono ?_
    rintro f' ⟨h', hone', -⟩
    exact ⟨fun b hb => hrest b (List.mem_cons_of_mem _ hb), hone', _, h', hg⟩
  rw [hrun, ok_bind]
  refine (ends_foldlM I hI as (meets_of_forall (fun _ _ => trivial) as f)
    ⟨has, hone, _, hrep, rfl⟩).mono ?_
  rintro f' ⟨-, hone', g, h', rfl⟩
  exact ⟨h', hone'⟩

/-- Puts that fill five tables of a shard. -/
def manyPuts : List FleetAction := (numberedKeys 100000).map (fun key => .put key [1])

theorem manyPuts_spec : ∀ a ∈ manyPuts, a.Fits ∧ a.noCompactAll ∧ a ≠ .stop := by
  refine List.forall_mem_map.mpr ?_
  intro key hkey
  have hlen := length_of_mem_numberedKeys hkey
  exact ⟨⟨by rw [hlen]; decide, by decide⟩, FleetAction.noConfusion, FleetAction.noConfusion⟩

end KvScheduler
