import LightKV.KvDiskOrderProofs
import LightKV.KvReopenProofs

/-! # Crashes while compactions are in flight

    A process stops between any two steps of its clients and of its calls of
    `Compact`, not inside a flush or the writing of a merged file, and its
    directory is opened again.  The next engine finds the tables of the list,
    files that a call has built and not brought into the list, and files that a
    call had still to delete.  A built file is never wrong: where it is out of date
    a table of the list hides it.  A file that was to be deleted is under the list
    for every key that the list holds (`Sunk`), and a value of another key comes
    back.  So a restart finds the last write of every key exactly when no such
    value is left (`restart_in_flight`), in every life of such sessions. -/

namespace KvCrashInFlight

open Execution KvBytes KvCompaction KvDirectory KvDiskFiles KvDiskOrder KvEngine KvFiles KvInterleaving
open KvLogs KvMerging KvRecovery KvReopen KvSession KvSkipList KvStore KvTable KvTableOrder KvWal Overlay

/-! ## Lives -/

/-- What happens to a directory over its life. -/
inductive LifeEvent
  | act (a : Action)
  /-- the process stops where it is, and the directory is opened again -/
  | crash (c : Config)

/-- One event.  The calls end with their process. -/
def occur (sys : System) : LifeEvent → Except Fault System
  | .act a => sys.step a
  | .crash c => do
      let e ← start sys.engine.dir c
      pure ⟨e, []⟩

/-- What an event writes. -/
def LifeEvent.write (g : Bytes → Option Bytes) : LifeEvent → Bytes → Option Bytes
  | .act a => Action.write g a
  | .crash _ => g

/-- The last write of each key. -/
def lastOf (evs : List LifeEvent) : Bytes → Option Bytes :=
  evs.foldl LifeEvent.write (fun _ => none)

/-- The files that calls have still to delete. -/
def doomed (calls : List CompactCall) : List Bytes :=
  calls.flatMap fun
    | .deleting _ paths => paths
    | _ => []

/-- Reading those files only, as the constructor lists them. -/
def readDoomed (sys : System) (key : Bytes) : Except Fault (Option Bytes) := do
  let names := (sstNames sys.engine.dir).reverse.filter (fun name => name ∈ doomed sys.calls)
  let readers ← openTables sys.engine.dir names
  let found ← getFromTables key readers
  pure (visible found)

/-- **The condition on a crash**: a key that neither the memtable, another log nor
    the list holds has no value in the files that were to be deleted. -/
def NothingRevived (sys : System) : Prop :=
  ∀ key, sys.engine.skiplist.get key = .ok none → (staleOf sys.engine).lookup key = none →
    (∀ r ∈ sys.engine.sstables, r.get key = .ok none) → readDoomed sys key = .ok none

/-- A flush leaves no log behind that disagrees with the memtable. -/
def LogSafe (e : KVEngine) : Action → Prop
  | .put key value => OpSafe e (.put key value)
  | .erase key => OpSafe e (.erase key)
  | .forceFlush => OpSafe e .forceFlush
  | _ => True

/-- **The condition on each event**, in the state before it. -/
def EventSafe (sys : System) : LifeEvent → Prop
  | .act a => KeepsNumberOrder sys a ∧ LogSafe sys.engine a
  | .crash _ => SortsByNumber sys.engine.dir ∧ NothingRevived sys

theorem LogSafe.fits {e : KVEngine} {a : Action} (h : LogSafe e a) : a.Fits := by
  cases a with
  | put key value => exact ⟨h.1, h.2.1⟩
  | erase key => exact h
  | forceFlush => trivial
  | begin => trivial
  | advance i => trivial

/-! ## Files that are to be deleted -/

/-- A file under the list: some table has a larger number, and so has one that
    holds the key, for every key that both hold. -/
structure Sunk (tables : List Table) (t : Table) : Prop where
  below : ∃ u ∈ tables, t.number < u.number
  hidden : ∀ key, Holds t key → (∃ u ∈ tables, Holds u key) →
    ∃ u ∈ tables, Holds u key ∧ t.number < u.number

section Sunk

variable {tables : List Table} {counter : Nat} {flushed : Bytes → Option Bytes}
  {pend : Nat → Option Pending} {t : Table}

theorem Sunk.flush (h : Sunk tables t) (hle : t.number ≤ counter) (es : List Entry) :
    Sunk (⟨counter + 1, counter + 1, es⟩ :: tables) t := by
  have hnew : t.number < counter + 1 := Nat.lt_succ_of_le hle
  refine ⟨⟨_, List.mem_cons_self, hnew⟩, ?_⟩
  rintro key hk ⟨u, hu, hku⟩
  rcases List.mem_cons.mp hu with rfl | hu'
  · exact ⟨_, List.mem_cons_self, hku, hnew⟩
  · obtain ⟨w, hw, hkw, hlt⟩ := h.hidden key hk ⟨u, hu', hku⟩
    exact ⟨w, List.mem_cons_of_mem _ hw, hkw, hlt⟩

section Swap

variable {i n : Nat} {old : List Table} {seen : Bytes → Option Bytes} {m : List Entry}

/-- A table that the swap keeps and that holds a key the merge dropped is above
    all that were merged. -/
theorem above_merged (h : Ordered tables counter flushed pend)
    (hi : pend i = some ⟨old, seen, some n⟩) (hm : ∀ key, visible (m.lookup key) = seen key)
    (hlive : ∀ key tv, m.lookup key = some tv → visible (some tv) ≠ none) {key : Bytes} {u : Table}
    (hu : u ∈ (⟨n, 0, m⟩ : Table) :: kept tables old) (hku : Holds u key) {k : Nat}
    (hk : k ∈ old.map Table.number) :
    ∃ w ∈ (⟨n, 0, m⟩ : Table) :: kept tables old, Holds w key ∧ k < w.number := by
  have hok := h.pending i _ hi
  obtain ⟨q, hq, rfl⟩ := List.mem_map.mp hk
  by_cases hseen : seen key = none
  · rcases mem_swapped.mp hu with rfl | ⟨hut, hnam⟩
    · exact absurd hseen ((holds_merged hm hlive key).mp hku)
    · exact ⟨u, hu, hku, hok.dropped key hseen u hut hnam hku q hq⟩
  · exact ⟨_, List.mem_cons_self, (holds_merged hm hlive key).mpr hseen, hok.numberLt n rfl q hq⟩

/-- **What a swap replaces is under the list**, whatever it holds. -/
theorem sunk_of_merged (h : Ordered tables counter flushed pend)
    (hi : pend i = some ⟨old, seen, some n⟩) (hm : ∀ key, visible (m.lookup key) = seen key)
    (hlive : ∀ key tv, m.lookup key = some tv → visible (some tv) ≠ none)
    (ht : t.number ∈ old.map Table.number) : Sunk (⟨n, 0, m⟩ :: kept tables old) t where
  below := ⟨_, List.mem_cons_self, lt_of_among ht ((h.pending i _ hi).numberLt n rfl)⟩
  hidden := by
    rintro key - ⟨u, hu, hku⟩
    exact above_merged h hi hm hlive hu hku ht

/-- A key that the merged table holds is in the list already. -/
theorem held_of_seen (h : Ordered tables counter flushed pend)
    (hi : pend i = some ⟨old, seen, some n⟩) {key : Bytes} (hseen : seen key ≠ none) :
    ∃ u ∈ tables, Holds u key := by
  by_cases hcur : seen key = flushed key
  · rcases h.newest key with ⟨t, ht, tv, htv, -, -⟩ | ⟨-, hnone⟩
    · exact ⟨t, ht, holds_of_lookup htv⟩
    · exact absurd (hcur.trans hnone) hseen
  · obtain ⟨-, -, t, ht, -, hk, -⟩ := (h.pending i _ hi).hidden key hseen hcur
    exact ⟨t, ht, hk⟩

/-- **What is under the list stays so** when a call replaces its snapshot. -/
theorem Sunk.swap (hs : Sunk tables t) (h : Ordered tables counter flushed pend)
    (hi : pend i = some ⟨old, seen, some n⟩) (hm : ∀ key, visible (m.lookup key) = seen key)
    (hlive : ∀ key tv, m.lookup key = some tv → visible (some tv) ≠ none) :
    Sunk (⟨n, 0, m⟩ :: kept tables old) t where
  below := by
    obtain ⟨u, hu, hlt⟩ := hs.below
    by_cases ham : Among u old
    · exact ⟨_, List.mem_cons_self, hlt.trans (lt_of_among ham ((h.pending i _ hi).numberLt n rfl))⟩
    · exact ⟨u, mem_swapped.mpr (Or.inr ⟨hu, ham⟩), hlt⟩
  hidden := by
    rintro key hk ⟨u, hu, hku⟩
    have hheld : ∃ w ∈ tables, Holds w key := by
      rcases mem_swapped.mp hu with rfl | ⟨hut, -⟩
      · exact held_of_seen h hi ((holds_merged hm hlive key).mp hku)
      · exact ⟨u, hut, hku⟩
    obtain ⟨w, hw, hkw, hlt⟩ := hs.hidden key hk hheld
    by_cases ham : Among w old
    -- the table above it is merged, so that another one is above both
    · obtain ⟨w', hw', hkw', hlt'⟩ := above_merged h hi hm hlive hu hku ham
      exact ⟨w', hw', hkw', hlt.trans hlt'⟩
    · exact ⟨w, mem_swapped.mpr (Or.inr ⟨hw, ham⟩), hkw, hlt⟩

end Swap

end Sunk

/-! ## What a life keeps -/

/-- The store, with other tables in its list. -/
def withTables (s : Store) (ts : List Table) : Store := { s with tables := ts }

/-- The logs hold what they should: over some list that was never compacted they
    agree with what was written. -/
def LogsHold (written : Bytes → Option Bytes) (s : Store) : Prop :=
  ∃ ts, Agrees written (withTables s ts) ∧ Logged (withTables s ts)

/-- A call has still to delete this file. -/
def ToDelete (calls : List Call) (n : Nat) : Prop :=
  ∃ (i c : Nat) (ns : List Nat), calls[i]? = some (.deleting c ns) ∧ n ∈ ns

/-- What calls have still to delete is under the list. -/
def AllSunk (store : Store) (calls : List Call) : Prop :=
  ∀ n, ToDelete calls n → ∀ es, store.files.lookup n = some es → Sunk store.tables ⟨n, n, es⟩

/-- Files have positive numbers, and the log at most the next one. -/
structure Numbered (store : Store) : Prop where
  positive : ∀ n, (store.files.lookup n).isSome → 0 < n
  logTop : store.log ≤ 1 ∨ ∃ n, (store.files.lookup n).isSome ∧ store.log ≤ n + 1

/-- **What a life keeps.** -/
structure Alive (s : Shared) : Prop where
  order : DiskOrder s
  sunk : AllSunk s.store s.calls
  numbered : Numbered s.store
  logs : LogsHold s.written s.store

/-- A table that the constructor loads from these files. -/
def Loaded (files : List (Nat × List Entry)) (t : Table) : Prop :=
  t.sequence = t.number ∧ files.lookup t.number = some t.entries ∧ t.entries ≠ []

section Disk

variable {sys : System} {s : Shared} {key : Bytes}

/-- What a call has built holds what it saw, and no tombstone. -/
theorem built_spec (hrep : SystemRep sys s) (h : DiskOrder s) {i n : Nat} {old : List Table}
    {seen : Bytes → Option Bytes} {m : List Entry} (hi : s.calls[i]? = some (.built old seen n m)) :
    (∀ key, visible (m.lookup key) = seen key)
      ∧ ∀ key tv, m.lookup key = some tv → visible (some tv) ≠ none := by
  have hp : pendAt s.calls i = some ⟨old, seen, some n⟩ := pendAt_of hi
  have hok := h.ordered.pending i _ hp
  obtain ⟨-, -, readers, -, hold, -⟩ := readers_of_pending hrep.calls hp
  have hm := h.merged i old seen n m hi
  exact ⟨visible_merged hm (good_of_forall₂ hold) hok.decides hok.absent,
    visible_merged_ne_none hm (good_of_forall₂ hold)⟩

/-- A table of the list is on disk. -/
theorem loaded_of_mem (h : DiskOrder s) {u : Table} (hu : u ∈ s.store.tables) :
    Loaded s.store.files ⟨u.number, u.number, u.entries⟩ :=
  ⟨rfl, h.disk.tableFile u hu⟩

/-- **What each file on disk says of a key**: it is a table of the list, or it was
    built and holds what is current, or a table of the list hides it, or it was to
    be deleted and the list does not hold the key. -/
theorem loaded_cases (hrep : SystemRep sys s) (h : Alive s) {t : Table}
    (ht : Loaded s.store.files t) {tv : TableValue} (htv : t.entries.lookup key = some tv) :
    (∃ u ∈ s.store.tables, t = ⟨u.number, u.number, u.entries⟩)
      ∨ visible (some tv) = s.flushed key ∧ s.flushed key ≠ none
      ∨ (∃ u ∈ s.store.tables, Holds u key ∧ t.number < u.number)
      ∨ (∀ u ∈ s.store.tables, ¬ Holds u key) ∧ ToDelete s.calls t.number := by
  obtain ⟨hseq, hfile, hne⟩ := ht
  rcases h.order.disk.fileTable _ _ hfile hne with ⟨u, hu, hun⟩ | ⟨i, old, seen, m, hi⟩ | ⟨i, c, ns, hi, hmem⟩
  · have hufile := (h.order.disk.tableFile u hu).1
    rw [hun, hfile] at hufile
    refine Or.inl ⟨u, hu, ?_⟩
    rw [hun, ← Option.some.inj hufile]
    cases t
    simp_all
  · obtain ⟨hm, hlive⟩ := built_spec hrep h.order hi
    have hmfile := (h.order.disk.builtFile i old seen t.number m hi).1
    rw [hfile] at hmfile
    obtain rfl := Option.some.inj hmfile
    have hseen : visible (some tv) = seen key := by rw [← hm key, htv]
    have hsome : seen key ≠ none := hseen ▸ hlive key tv htv
    by_cases hcur : seen key = s.flushed key
    · exact Or.inr (Or.inl ⟨hseen.trans hcur, hcur ▸ hsome⟩)
    · obtain ⟨n, hn, u, hu, -, hku, hlt⟩ :=
        (h.order.ordered.pending i _ (pendAt_of hi)).hidden key hsome hcur
      obtain rfl := Option.some.inj hn
      exact Or.inr (Or.inr (Or.inl ⟨u, hu, hku, hlt⟩))
  · by_cases hheld : ∃ u ∈ s.store.tables, Holds u key
    · have hsunk := h.sunk t.number ⟨i, c, ns, hi, hmem⟩ t.entries hfile
      exact Or.inr (Or.inr (Or.inl (hsunk.hidden key (holds_of_lookup htv) hheld)))
    · refine Or.inr (Or.inr (Or.inr ⟨?_, i, c, ns, hi, hmem⟩))
      intro u hu hku
      exact hheld ⟨u, hu, hku⟩

/-- **The newest file that holds a key of the list holds what was flushed.** -/
theorem visible_of_decides_loaded (hrep : SystemRep sys s) (h : Alive s) {loaded : List Table}
    (hmem : ∀ t, t ∈ loaded ↔ Loaded s.store.files t)
    (hheld : ∃ u ∈ s.store.tables, Holds u key) {tv : TableValue} (hd : Decides loaded key tv) :
    visible (some tv) = s.flushed key := by
  obtain ⟨t, ht, htv, hmax⟩ := hd
  have hle : ∀ u ∈ s.store.tables, Holds u key → u.number ≤ t.number := by
    intro u hu hku
    have hload := loaded_of_mem h.order hu
    have := hmax _ ((hmem _).mpr hload) hku
    rwa [((hmem t).mp ht).1] at this
  rcases loaded_cases hrep h ((hmem t).mp ht) htv with ⟨u, hu, rfl⟩ | ⟨hcur, -⟩ | ⟨u, hu, hku, hlt⟩ | ⟨hno, -⟩
  · rcases h.order.ordered.newest key with ⟨w, hw, tv', htv', hv, hmax'⟩ | ⟨hnone, -⟩
    · have heq : w.number = u.number :=
        Nat.le_antisymm (hle w hw (holds_of_lookup htv')) (hmax' u hu (holds_of_lookup htv))
      obtain rfl := h.order.ordered.eq_of_number hw hu heq
      rw [htv'] at htv
      rw [← Option.some.inj htv, hv]
    · exact absurd (holds_of_lookup htv) (hnone u hu)
  · exact hcur
  · exact absurd (hle u hu hku) (Nat.not_le_of_lt hlt)
  · obtain ⟨u, hu, hku⟩ := hheld
    exact absurd hku (hno u hu)

/-- A file that holds a key which the list does not hold was to be deleted. -/
theorem doomed_of_loaded (hrep : SystemRep sys s) (h : Alive s) {t : Table}
    (ht : Loaded s.store.files t) (hk : Holds t key) (hno : ∀ u ∈ s.store.tables, ¬ Holds u key) :
    ToDelete s.calls t.number := by
  obtain ⟨tv, htv⟩ := lookup_of_holds hk
  rcases loaded_cases hrep h ht htv with ⟨u, hu, rfl⟩ | ⟨-, hne⟩ | ⟨u, hu, hku, -⟩ | ⟨-, hdel⟩
  · exact absurd hk (hno u hu)
  · rcases h.order.ordered.newest key with ⟨u, hu, tv', htv', -, -⟩ | ⟨-, hnone⟩
    · exact absurd (holds_of_lookup htv') (hno u hu)
    · exact absurd hnone hne
  · exact absurd hku (hno u hu)
  · exact hdel

/-! ## What a restart finds -/

/-- The tables that the constructor loads, when the names sort as the numbers do. -/
def loadedOf (s : Store) : List Table := loadTables s.files (s.files.map Prod.fst).reverse

theorem mem_loadedOf (store : Store) (t : Table) :
    t ∈ loadedOf store ↔ Loaded store.files t := by
  rw [loadedOf, mem_loadTables, List.mem_reverse, mem_map_fst_iff]
  constructor
  · exact And.right
  · intro h
    exact ⟨by rw [h.2.1]; rfl, h⟩

theorem descending_loadedOf {store : Store} (hs : KeySorted store.files) :
    (loadedOf store).Pairwise (fun t u => u.sequence < t.sequence) :=
  descending_loadTables store.files (List.pairwise_map.mpr hs)

/-- The first of the loaded tables decides. -/
theorem overlay_of_decides {ts : List Table} (hd : ts.Pairwise (fun t u => u.sequence < t.sequence))
    {tv : TableValue} (h : Decides ts key tv) : overlay (ts.map Table.entries) key = some tv := by
  obtain ⟨t, ht, htv, hmax⟩ := h
  have hw : Wins (ts.map ranked) key tv := by
    refine ⟨_, List.mem_map_of_mem ht, htv, ?_⟩
    intro r hr hne
    obtain ⟨u, hu, rfl⟩ := List.mem_map.mp hr
    exact WithTop.coe_le_coe.mpr (hmax u hu hne)
  rw [← map_snd_ranked, overlay_of_wins (pairwise_ranked hd) hw]

/-- Leaving out files that do not hold a key changes nothing for it. -/
theorem overlay_loadTables_filter (files : List (Nat × List Entry)) (p : Nat → Bool)
    (key : Bytes) :
    ∀ (ns : List Nat), (∀ t ∈ loadTables files ns, Holds t key → p t.number = true) →
      overlay ((loadTables files (ns.filter p)).map Table.entries) key
        = overlay ((loadTables files ns).map Table.entries) key := by
  intro ns
  induction ns with
  | nil =>
      intro _
      rfl
  | cons n ns ih =>
      intro h
      have hrest := ih (fun t ht => h t (by
        rw [loadTables, List.filterMap_cons]
        split
        · exact ht
        · exact List.mem_cons_of_mem _ ht))
      cases hload : loadTable files n with
      | none =>
          have hskip : loadTables files (n :: ns) = loadTables files ns :=
            List.filterMap_cons_none hload
          rw [hskip, ← hrest, List.filter_cons]
          split
          · exact congrArg (fun ts => overlay (ts.map Table.entries) key)
              (List.filterMap_cons_none hload)
          · rfl
      | some t =>
          have hall : loadTables files (n :: ns) = t :: loadTables files ns :=
            List.filterMap_cons_some hload
          rw [hall, List.map_cons, overlay_cons, ← hrest, List.filter_cons]
          split
          · have htake : loadTables files (n :: ns.filter p) = t :: loadTables files (ns.filter p) :=
              List.filterMap_cons_some hload
            rw [htake, List.map_cons, overlay_cons]
          · rename_i hp
            have hnot : t.entries.lookup key = none := by
              by_contra hk
              have hnum := h t (hall ▸ List.mem_cons_self) hk
              rw [(loadTable_eq_some hload).1] at hnum
              exact hp hnum
            rw [hnot, Option.none_or]

/-- The paths that are to be deleted are those of the numbers that are. -/
theorem mem_doomed {ccalls : List CompactCall} {calls : List Call}
    (h : List.Forall₂ CallRep ccalls calls) (n : Nat) :
    getSstPath n ∈ doomed ccalls ↔ ToDelete calls n := by
  induction h with
  | nil =>
      constructor
      · intro hn
        cases hn
      · rintro ⟨i, c, ns, hi, -⟩
        cases hi
  | @cons ccall call ccalls calls hcall _ ih =>
      have htail : ToDelete (call :: calls) n
          ↔ (∃ (c : Nat) (ns : List Nat), call = .deleting c ns ∧ n ∈ ns) ∨ ToDelete calls n := by
        constructor
        · rintro ⟨i, c, ns, hi, hn⟩
          cases i with
          | zero => exact Or.inl ⟨c, ns, Option.some.inj hi, hn⟩
          | succ i => exact Or.inr ⟨i, c, ns, hi, hn⟩
        · rintro (⟨c, ns, rfl, hn⟩ | ⟨i, c, ns, hi, hn⟩)
          · exact ⟨0, c, ns, rfl, hn⟩
          · exact ⟨i + 1, c, ns, hi, hn⟩
      rw [htail, ← ih, doomed, List.flatMap_cons, List.mem_append]
      refine or_congr ?_ Iff.rfl
      cases ccall <;> cases call <;> try exact hcall.elim
      case deleting.deleting number paths number' ns =>
        obtain ⟨rfl, rfl⟩ := hcall
        constructor
        · intro hn
          obtain ⟨k, hk, heq⟩ := List.mem_map.mp hn
          exact ⟨number, ns, rfl, getSstPath_injective heq ▸ hk⟩
        · rintro ⟨c, ns', heq, hn⟩
          obtain ⟨rfl, rfl⟩ := Call.deleting.inj heq
          exact List.mem_map_of_mem hn
      all_goals
        constructor
        · intro hn
          cases hn
        · rintro ⟨c, ns, heq, -⟩
          cases heq

/-- **Reading the files that were to be deleted** is reading all of them, for a key
    that the list does not hold. -/
theorem readDoomed_spec (hrep : SystemRep sys s) (h : Alive s)
    (hnames : NamesSorted getSstPath sys.engine.dir)
    (hno : ∀ u ∈ s.store.tables, ¬ Holds u key) :
    readDoomed sys key = .ok (visible (overlay ((loadedOf s.store).map Table.entries) key)) := by
  let p : Nat → Bool := fun n => decide (getSstPath n ∈ doomed sys.calls)
  have hfilter : (sstNames sys.engine.dir).reverse.filter (fun name => name ∈ doomed sys.calls)
      = ((s.store.files.map Prod.fst).reverse.filter p).map getSstPath := by
    rw [sstNames_eq hrep.rep.dir hnames, ← List.map_reverse, List.filter_map]
    rfl
  obtain ⟨readers, hopen, hreaders⟩ := openTables_spec hrep.rep.dir
    ((s.store.files.map Prod.fst).reverse.filter p)
    (fun n hn => List.mem_reverse.mp (List.mem_filter.mp hn).1)
  have hread := overlay_loadTables_filter s.store.files p key
    (s.store.files.map Prod.fst).reverse (fun t ht hk => decide_eq_true
      ((mem_doomed hrep.calls t.number).mpr
        (doomed_of_loaded hrep h ((mem_loadedOf s.store t).mp ht) hk hno)))
  simp only [readDoomed, hfilter, hopen, ok_bind, getFromTables_spec hreaders, hread]
  rfl

/-- What the next engine reads: the logs over the loaded tables. -/
def readAfter (s : Store) (key : Bytes) : Option Bytes :=
  visible (((replayed s.logs).lookup key).or (overlay ((loadedOf s).map Table.entries) key))

/-- The logs say nothing of a key exactly when neither the memtable nor another
    log does. -/
theorem replayed_eq_none_iff {written : Bytes → Option Bytes} {store : Store}
    (h : LogsHold written store) :
    (replayed store.logs).lookup key = none
      ↔ store.mem.lookup key = none ∧ (stale store).lookup key = none := by
  obtain ⟨ts, -, hlogged⟩ := h
  have hsplit : (replayed store.logs).lookup key
      = ((replayed [(store.log, current store)]).lookup key).or ((stale store).lookup key) :=
    hlogged.lookup_replayed key
  constructor
  · intro hnone
    refine ⟨?_, (Option.or_eq_none_iff.mp (hsplit ▸ hnone)).2⟩
    by_contra hmem
    obtain ⟨tv, htv⟩ := Option.ne_none_iff_exists'.mp hmem
    have hkept : (replayed store.logs).lookup key = some tv := hlogged.kept key tv htv
    rw [hkept] at hnone
    cases hnone
  · rintro ⟨hmem, hstale⟩
    rw [hsplit, hstale, Option.or_none]
    by_contra hcur
    obtain ⟨tv, htv⟩ := Option.ne_none_iff_exists'.mp hcur
    have htold : store.mem.lookup key = some tv := hlogged.told key tv htv
    rw [htold] at hmem
    cases hmem

/-- What the logs say of a key is what was written last. -/
theorem readAfter_of_replayed {written : Bytes → Option Bytes} {store : Store}
    (h : LogsHold written store) (hsome : (replayed store.logs).lookup key ≠ none) :
    readAfter store key = written key := by
  obtain ⟨ts, hagrees, hlogged⟩ := h
  obtain ⟨tv, htv⟩ := Option.ne_none_iff_exists'.mp hsome
  rw [readAfter, htv, Option.some_or, ← hagrees.reads key]
  exact hlogged.agree key tv htv

/-- A key that the list holds is read as it was flushed. -/
theorem readAfter_of_held (hrep : SystemRep sys s) (h : Alive s)
    (hnone : (replayed s.store.logs).lookup key = none)
    (hheld : ∃ u ∈ s.store.tables, Holds u key) : readAfter s.store key = s.written key := by
  have hloaded : ∃ t ∈ loadedOf s.store, Holds t key := by
    obtain ⟨u, hu, hku⟩ := hheld
    exact ⟨_, (mem_loadedOf s.store _).mpr (loaded_of_mem h.order hu), hku⟩
  obtain ⟨tv, hd⟩ := exists_decides hloaded
  have hmem := ((replayed_eq_none_iff h.logs).mp hnone).1
  rw [readAfter, hnone, Option.none_or,
    overlay_of_decides (descending_loadedOf hrep.rep.dir.filesSorted) hd,
    visible_of_decides_loaded hrep h (mem_loadedOf s.store) hheld hd, h.order.written,
    flushOver_of_none hmem]

/-- A key that the list does not hold is read from the files that were to be
    deleted. -/
theorem readAfter_of_not_held (hrep : SystemRep sys s) (h : Alive s)
    (hnames : NamesSorted getSstPath sys.engine.dir)
    (hnone : (replayed s.store.logs).lookup key = none)
    (hno : ∀ u ∈ s.store.tables, ¬ Holds u key) :
    readDoomed sys key = .ok (readAfter s.store key) ∧ s.written key = none := by
  refine ⟨?_, ?_⟩
  · rw [readAfter, hnone, Option.none_or]
    exact readDoomed_spec hrep h hnames hno
  · rw [h.order.written, flushOver_of_none ((replayed_eq_none_iff h.logs).mp hnone).1]
    rcases h.order.ordered.newest key with ⟨u, hu, tv, htv, -, -⟩ | ⟨-, hv⟩
    · exact absurd (holds_of_lookup htv) (hno u hu)
    · exact hv

/-- **The next engine reads what was written** exactly when nothing is revived. -/
theorem readAfter_iff (hrep : SystemRep sys s) (h : Alive s)
    (hnames : SortsByNumber sys.engine.dir) :
    (∀ key, readAfter s.store key = s.written key) ↔ NothingRevived sys := by
  have hlist : ∀ key, (∀ r ∈ sys.engine.sstables, r.get key = .ok none)
      ↔ ∀ u ∈ s.store.tables, ¬ Holds u key := by
    intro key
    constructor
    · intro hr u hu hku
      obtain ⟨r, hrm, hru⟩ := forall₂_mem_right hrep.rep.tables hu
      exact (get_ne_none hru key).mpr hku (hr r hrm)
    · intro hno r hr
      obtain ⟨u, hu, hru⟩ := forall₂_mem_left hrep.rep.tables hr
      by_contra hne
      exact hno u hu ((get_ne_none hru key).mp hne)
  constructor
  · intro hread key hmem hstale hno
    rw [models_get hrep.rep.mem, Except.ok.injEq] at hmem
    rw [staleOf_eq hrep.rep hnames.2] at hstale
    obtain ⟨hdoomed, hw⟩ := readAfter_of_not_held hrep h hnames.1
      ((replayed_eq_none_iff h.logs).mpr ⟨hmem, hstale⟩) ((hlist key).mp hno)
    rw [hdoomed, hread, hw]
  · intro hrevived key
    by_cases hlog : (replayed s.store.logs).lookup key = none
    · by_cases hheld : ∃ u ∈ s.store.tables, Holds u key
      · exact readAfter_of_held hrep h hlog hheld
      · have hno : ∀ u ∈ s.store.tables, ¬ Holds u key := fun u hu hku => hheld ⟨u, hu, hku⟩
        obtain ⟨hdoomed, hw⟩ := readAfter_of_not_held hrep h hnames.1 hlog hno
        obtain ⟨hmem, hstale⟩ := (replayed_eq_none_iff h.logs).mp hlog
        have hnone := hrevived key (by rw [models_get hrep.rep.mem, hmem])
          (by rw [staleOf_eq hrep.rep hnames.2, hstale]) ((hlist key).mpr hno)
        rw [hdoomed, Except.ok.injEq] at hnone
        rw [hnone, hw]
    · exact readAfter_of_replayed h.logs hlog

end Disk

/-! ## The logs -/

section Logs

variable {written : Bytes → Option Bytes} {store store' : Store}

theorem logsHold_write (h : LogsHold written store) (r : ParsedLogRecord) (tv : TableValue)
    (hw : Writes r tv) (hf : RecordFits r) (hfit : Fits (r.key, tv)) :
    LogsHold (fun k => if k = r.key then visible (some tv) else written k) (store.write r tv) := by
  obtain ⟨ts, hagrees, hlogged⟩ := h
  exact ⟨ts, agrees_write hagrees r tv hfit, hlogged.write hw hf⟩

/-- A flush keeps it, if the logs that stay behind do not disagree. -/
theorem logsHold_flush {e : KVEngine} (hrep : Rep e store) (h : LogsHold written store)
    (hsafe : FlushSafe e) : LogsHold written store.flush := by
  obtain ⟨ts, hagrees, hlogged⟩ := h
  have hflush : LogsHold written (withTables store ts).flush := by
    refine ⟨(withTables store ts).flush.tables, agrees_flush hagrees, ?_⟩
    refine hlogged.flush hagrees.fits hrep.logLe ?_
    intro k tv tv' hmem hstale
    refine hsafe.2 k tv tv' (by rw [models_get hrep.mem]; exact congrArg Except.ok hmem) ?_
    rw [staleOf_eq hrep hsafe.1]
    exact hstale
  rw [Store.flush]
  rw [Store.flush] at hflush
  by_cases hmem : store.mem = []
  · rw [if_pos hmem]
    exact ⟨ts, hagrees, hlogged⟩
  · rw [if_neg hmem]
    rw [if_neg (show (withTables store ts).mem ≠ [] from hmem)] at hflush
    exact hflush

/-- A step that touches neither the memtable nor a log. -/
theorem logsHold_of_same (h : LogsHold written store) (hmem : store'.mem = store.mem)
    (hlog : store'.log = store.log) (hlogs : store'.logs = store.logs)
    (hcounter : store.counter ≤ store'.counter) : LogsHold written store' := by
  obtain ⟨ts, hagrees, hlogged⟩ := h
  have hview : ∀ k, (withTables store' ts).view k = (withTables store ts).view k := by
    intro k
    show overlay (store'.mem :: _) k = overlay (store.mem :: _) k
    rw [hmem]
    rfl
  refine ⟨ts, ⟨⟨hagrees.tidy.ordered, fun t ht => (hagrees.tidy.below t ht).trans hcounter⟩, ?_, ?_⟩,
    hlogged.of_view hmem hlog hlogs (fun k => congrArg visible (hview k))⟩
  · intro kv hkv
    have hkv' : kv ∈ store'.mem := hkv
    rw [hmem] at hkv'
    exact hagrees.fits kv hkv'
  · intro k
    rw [hview]
    exact hagrees.reads k

/-- What a deletion leaves as it was. -/
theorem logsHold_deleteOld (h : LogsHold written store) (number n : Nat) :
    LogsHold written (store.deleteOld number n) := by
  rw [Store.deleteOld]
  split
  · exact h
  · exact logsHold_of_same h rfl rfl rfl (Nat.le_refl _)

/-- **Every action keeps what the logs hold.** -/
theorem logsHold_step {sys : System} {s s' : Shared} {a : Action} (hrep : SystemRep sys s)
    (h : LogsHold s.written s.store) (hsafe : LogSafe sys.engine a) (hs : SharedStep s a s') :
    LogsHold s'.written s'.store := by
  cases hs with
  | put key value ht hfull =>
      subst ht
      exact logsHold_write h ⟨.PUT, key, value⟩ ⟨.kTypeValue, value⟩ (Or.inl ⟨rfl, rfl⟩)
        ⟨hsafe.1, hsafe.2.1⟩ ⟨hsafe.1, Or.inr ⟨rfl, hsafe.2.1⟩⟩
  | putFlush key value ht hfull =>
      subst ht
      have hw : LogsHold (Action.write s.written (.put key value))
          (s.store.write ⟨.PUT, key, value⟩ ⟨.kTypeValue, value⟩) :=
        logsHold_write h ⟨.PUT, key, value⟩ ⟨.kTypeValue, value⟩ (Or.inl ⟨rfl, rfl⟩)
          ⟨hsafe.1, hsafe.2.1⟩ ⟨hsafe.1, Or.inr ⟨rfl, hsafe.2.1⟩⟩
      obtain ⟨e', hrun, hrep'⟩ :=
        hrep.rep.write .PUT value ⟨.kTypeValue, value⟩ hsafe.1 (Or.inr rfl)
      refine logsHold_flush hrep' hw (hsafe.2.2 e' hrun ?_)
      rw [models_size hrep'.mem, hrep'.maxMemNodes]
      exact hfull
  | erase key =>
      exact logsHold_write h ⟨.ERASE, key, []⟩ ⟨.kTypeDeletion, []⟩ (Or.inr ⟨rfl, rfl⟩)
        ⟨hsafe, by simp⟩ ⟨hsafe, Or.inl ⟨rfl, rfl⟩⟩
  | forceFlush => exact logsHold_flush hrep.rep h hsafe
  | beginNone hle => exact h
  | begin hlt => exact h
  | advanceNone hi => exact h
  | reserve hi => exact logsHold_of_same h rfl rfl rfl (Nat.le_succ _)
  | build hi hm hne => exact logsHold_of_same h rfl rfl rfl (Nat.le_refl _)
  | buildEmpty hi hm => exact logsHold_of_same h rfl rfl rfl (Nat.le_refl _)
  | swap hi => exact logsHold_of_same h rfl rfl rfl (Nat.le_refl _)
  | @delete i number n ns hi => exact logsHold_deleteOld h number n
  | deleteDone hi => exact h
  | idle hi => exact h

end Logs

/-! ## The files -/

section Files

variable {store store' : Store} {calls calls' : List Call}

/-- What is to be deleted after one call has changed. -/
theorem toDelete_set {i n : Nat} {c call : Call} (hi : calls[i]? = some c)
    (h : ToDelete (calls.set i call) n) :
    (∃ (k : Nat) (ns : List Nat), call = .deleting k ns ∧ n ∈ ns) ∨ ToDelete calls n := by
  obtain ⟨j, k, ns, hj, hn⟩ := h
  rw [getElem?_set_of hi] at hj
  split at hj
  · exact Or.inl ⟨k, ns, Option.some.inj hj, hn⟩
  · exact Or.inr ⟨j, k, ns, hj, hn⟩

/-- A call that is not deleting brings nothing to delete. -/
theorem toDelete_set_of {i n : Nat} {c call : Call} (hi : calls[i]? = some c)
    (hcall : ∀ (k : Nat) (ns : List Nat), call ≠ .deleting k ns)
    (h : ToDelete (calls.set i call) n) : ToDelete calls n :=
  (toDelete_set hi h).resolve_left (fun ⟨k, ns, heq, _⟩ => hcall k ns heq)

theorem toDelete_append {n : Nat} {old : List Table} {seen : Bytes → Option Bytes}
    (h : ToDelete (calls ++ [.snapped old seen]) n) : ToDelete calls n := by
  obtain ⟨j, k, ns, hj, hn⟩ := h
  rcases Nat.lt_or_ge j calls.length with hlt | hge
  · rw [List.getElem?_append_left hlt] at hj
    exact ⟨j, k, ns, hj, hn⟩
  · rw [List.getElem?_append_right hge] at hj
    have hmem := List.mem_singleton.mp (List.mem_of_getElem? hj)
    cases hmem

/-- The list stays, and what is to be deleted was so before. -/
theorem AllSunk.of_same (h : AllSunk store calls) (ht : store'.tables = store.tables)
    (hdel : ∀ n, ToDelete calls' n → ToDelete calls n
      ∧ ∀ es, store'.files.lookup n = some es → store.files.lookup n = some es) :
    AllSunk store' calls' := by
  intro n hn es hes
  obtain ⟨hn', hfile⟩ := hdel n hn
  rw [ht]
  exact h n hn' es (hfile es hes)

/-- What a flush of a memtable that is not empty does to tables and files. -/
theorem flush_files (hne : store.mem ≠ []) :
    store.flush.tables = ⟨store.counter + 1, store.counter + 1, storedLayer store.mem⟩ :: store.tables
      ∧ store.flush.log = store.counter + 1 + 1
      ∧ ∀ n, store.flush.files.lookup n
        = if n = store.counter + 1 then some (storedLayer store.mem) else store.files.lookup n := by
  rw [Store.flush, if_neg hne]
  exact ⟨rfl, rfl, fun n => lookup_upsert _ _ _ _⟩

theorem AllSunk.flush (h : AllSunk store calls) (hd : OnDisk store calls) :
    AllSunk store.flush calls := by
  by_cases hne : store.mem = []
  · rw [Store.flush, if_pos hne]
    exact h
  · obtain ⟨ht, -, hf⟩ := flush_files hne
    rintro n ⟨i, c, ns, hi, hn⟩ es hes
    have hle := (hd.deleting i c ns hi n hn).2.1
    rw [hf, if_neg (by omega)] at hes
    rw [ht]
    exact (h n ⟨i, c, ns, hi, hn⟩ es hes).flush hle _

/-- The file that a call writes is none that another has still to delete. -/
theorem AllSunk.writeMerged (h : AllSunk store calls) (hd : OnDisk store calls) {i number : Nat}
    {old : List Table} {seen : Bytes → Option Bytes} (hi : calls[i]? = some (.reserved old seen number))
    {call : Call} (hcall : ∀ (k : Nat) (ns : List Nat), call ≠ .deleting k ns) (m : List Entry) :
    AllSunk (store.writeMerged number m) (calls.set i call) := by
  refine h.of_same rfl ?_
  intro n hn
  have hn' := toDelete_set_of hi hcall hn
  refine ⟨hn', ?_⟩
  obtain ⟨j, c, ns, hj, hmem⟩ := hn'
  intro es hes
  have hlook : (store.writeMerged number m).files.lookup n
      = if n = number then some m else store.files.lookup n := lookup_upsert _ _ _ _
  rw [hlook, if_neg] at hes
  · exact hes
  · rintro rfl
    exact (hd.deleting j c ns hj n hmem).2.2.2 i _ (pendAt_of hi) rfl

theorem Numbered.flush (h : Numbered store) : Numbered store.flush := by
  by_cases hne : store.mem = []
  · rw [Store.flush, if_pos hne]
    exact h
  · obtain ⟨-, hlog, hf⟩ := flush_files hne
    refine ⟨?_, Or.inr ⟨store.counter + 1, ?_, Nat.le_of_eq hlog⟩⟩
    · intro n hn
      rw [hf] at hn
      split at hn
      · omega
      · exact h.positive n hn
    · rw [hf, if_pos rfl]
      rfl

theorem Numbered.writeMerged (h : Numbered store) {n : Nat} (hn : 0 < n) (m : List Entry) :
    Numbered (store.writeMerged n m) := by
  have hlook : ∀ k, (store.writeMerged n m).files.lookup k
      = if k = n then some m else store.files.lookup k := fun k => lookup_upsert _ _ _ _
  constructor
  · intro k hk
    rw [hlook] at hk
    split at hk
    · omega
    · exact h.positive k hk
  · rcases h.logTop with hone | ⟨k, hk, hle⟩
    · exact Or.inl hone
    · refine Or.inr ⟨k, ?_, hle⟩
      rw [hlook]
      split
      · rfl
      · exact hk

/-- **A deletion** takes no file that the log's number stands on: a table of the
    list has a larger one. -/
theorem Numbered.deleteOld (h : Numbered store) (hsunk : AllSunk store calls)
    (hd : OnDisk store calls) {i c n : Nat} {ns : List Nat}
    (hi : calls[i]? = some (.deleting c (n :: ns))) : Numbered (store.deleteOld c n) := by
  obtain ⟨hnc, -, hnt, -⟩ := hd.deleting i c _ hi n List.mem_cons_self
  rw [Store.deleteOld, if_neg hnc]
  have hlook : ∀ k, (discard n store.files).lookup k
      = if k = n then none else store.files.lookup k := fun k => lookup_discard _ _ _
  constructor
  · intro k hk
    rw [hlook] at hk
    split at hk
    · cases hk
    · exact h.positive k hk
  · rcases h.logTop with hone | ⟨k, hk, hle⟩
    · exact Or.inl hone
    · by_cases hkn : k = n
      · subst hkn
        obtain ⟨es, hes⟩ := Option.isSome_iff_exists.mp hk
        obtain ⟨u, hu, hlt⟩ := (hsunk k ⟨i, c, _, hi, List.mem_cons_self⟩ es hes).below
        have hlt' : k < u.number := hlt
        refine Or.inr ⟨u.number, ?_, by
          show store.log ≤ u.number + 1
          omega⟩
        rw [hlook, if_neg (hnt u hu), (hd.tableFile u hu).1]
        rfl
      · refine Or.inr ⟨k, ?_, hle⟩
        rw [hlook, if_neg hkn]
        exact hk

/-- **Every action keeps what is to be deleted under the list.** -/
theorem sunk_step {sys : System} {s s' : Shared} {a : Action} (hrep : SystemRep sys s)
    (h : DiskOrder s) (hsunk : AllSunk s.store s.calls) (hs : SharedStep s a s') :
    AllSunk s'.store s'.calls := by
  cases hs with
  | put key value ht hfull =>
      subst ht
      exact hsunk.of_same rfl (fun n hn => ⟨hn, fun es hes => hes⟩)
  | putFlush key value ht hfull =>
      subst ht
      refine AllSunk.flush (hsunk.of_same rfl (fun n hn => ⟨hn, fun es hes => hes⟩)) ?_
      exact ⟨h.disk.tableFile, h.disk.fileLe, h.disk.fileTable, h.disk.builtFile, h.disk.deleting⟩
  | erase key => exact hsunk.of_same rfl (fun n hn => ⟨hn, fun es hes => hes⟩)
  | forceFlush => exact hsunk.flush h.disk
  | beginNone hle => exact hsunk
  | begin hlt => exact hsunk.of_same rfl (fun n hn => ⟨toDelete_append hn, fun es hes => hes⟩)
  | advanceNone hi => exact hsunk
  | reserve hi =>
      exact hsunk.of_same rfl (fun n hn => ⟨toDelete_set_of hi (by simp) hn, fun es hes => hes⟩)
  | @build i old seen number m hi hm hne => exact hsunk.writeMerged h.disk hi (by simp) m
  | @buildEmpty i old seen number hi hm => exact hsunk.writeMerged h.disk hi (by simp) []
  | @swap i old seen number m hi =>
      obtain ⟨hm, hlive⟩ := built_spec hrep h hi
      intro n hn es hes
      rcases toDelete_set hi hn with ⟨k, ns, heq, hmem⟩ | hn'
      · obtain ⟨-, rfl⟩ := Call.deleting.inj heq
        exact sunk_of_merged h.ordered (pendAt_of hi) hm hlive hmem
      · exact (hsunk n hn' es hes).swap h.ordered (pendAt_of hi) hm hlive
  | @delete i number n ns hi =>
      obtain ⟨htables, -, -⟩ := deleteOld_memory s.store number n
      refine hsunk.of_same htables ?_
      intro k hk
      refine ⟨?_, ?_⟩
      · rcases toDelete_set hi hk with ⟨c, ns', heq, hmem⟩ | hk'
        · obtain ⟨rfl, rfl⟩ := Call.deleting.inj heq
          exact ⟨i, number, n :: ns, hi, List.mem_cons_of_mem _ hmem⟩
        · exact hk'
      · intro es hes
        rw [Store.deleteOld] at hes
        split at hes
        · exact hes
        · rw [show (discard n s.store.files).lookup k = _ from lookup_discard _ _ _] at hes
          split at hes
          · cases hes
          · exact hes
  | deleteDone hi =>
      exact hsunk.of_same rfl (fun n hn => ⟨toDelete_set_of hi (by simp) hn, fun es hes => hes⟩)
  | idle hi =>
      exact hsunk.of_same rfl (fun n hn => ⟨toDelete_set_of hi (by simp) hn, fun es hes => hes⟩)

/-- **Every action keeps the numbers.** -/
theorem numbered_step {s s' : Shared} {a : Action} (h : DiskOrder s)
    (hsunk : AllSunk s.store s.calls) (hnum : Numbered s.store) (hs : SharedStep s a s') :
    Numbered s'.store := by
  have hpos : ∀ {i n : Nat} {old : List Table} {seen : Bytes → Option Bytes},
      s.calls[i]? = some (.reserved old seen n) → 0 < n :=
    fun hi => (h.ordered.pending _ _ (pendAt_of hi)).numberPos _ rfl
  cases hs with
  | put key value ht hfull =>
      subst ht
      exact ⟨hnum.positive, hnum.logTop⟩
  | putFlush key value ht hfull =>
      subst ht
      exact Numbered.flush ⟨hnum.positive, hnum.logTop⟩
  | erase key => exact ⟨hnum.positive, hnum.logTop⟩
  | forceFlush => exact hnum.flush
  | beginNone hle => exact hnum
  | begin hlt => exact hnum
  | advanceNone hi => exact hnum
  | reserve hi => exact ⟨hnum.positive, hnum.logTop⟩
  | @build i old seen number m hi hm hne => exact hnum.writeMerged (hpos hi) m
  | @buildEmpty i old seen number hi hm => exact hnum.writeMerged (hpos hi) []
  | swap hi => exact ⟨hnum.positive, hnum.logTop⟩
  | delete hi => exact hnum.deleteOld hsunk h.disk hi
  | deleteDone hi => exact hnum
  | idle hi => exact hnum

end Files

/-- **Every action keeps what a life keeps.** -/
theorem alive_step {sys : System} {s s' : Shared} {a : Action} (hrep : SystemRep sys s)
    (h : Alive s) (hok : KeepsNumberOrder sys a) (hsafe : LogSafe sys.engine a)
    (hs : SharedStep s a s') : Alive s' where
  order := diskOrder_step hrep h.order hsafe.fits hok hs
  sunk := sunk_step hrep h.order h.sunk hs
  numbered := numbered_step h.order h.sunk h.numbered hs
  logs := logsHold_step hrep h.logs hsafe hs

/-! ## A crash -/

section Crash

variable {g : Bytes → Option Bytes} {store : Store}

/-- What the loaded tables read. -/
def diskReads (s : Store) (key : Bytes) : Option Bytes :=
  visible (overlay ((loadedOf s).map Table.entries) key)

/-- **Loaded tables are in the order of their numbers**, and nothing is pending. -/
theorem ordered_loadedOf (hs : KeySorted store.files)
    (hpos : ∀ n, (store.files.lookup n).isSome → 0 < n) :
    Ordered (loadedOf store) (maxOf (store.files.map Prod.fst)) (diskReads store) (pendAt []) := by
  have hdesc := descending_loadedOf hs
  have hload : ∀ t ∈ loadedOf store, Loaded store.files t := fun t ht => (mem_loadedOf store t).mp ht
  have hthere : ∀ t ∈ loadedOf store, (store.files.lookup t.number).isSome := by
    intro t ht
    rw [(hload t ht).2.1]
    rfl
  have hread : ∀ {key : Bytes} {tv : TableValue}, Decides (loadedOf store) key tv →
      visible (some tv) = diskReads store key := by
    intro key tv hd
    rw [diskReads, overlay_of_decides hdesc hd]
  refine
    { nodup := ?_
      positive := fun t ht => hpos _ (hthere t ht)
      numberLe := fun t ht => le_maxOf (mem_map_fst_iff.mpr (hthere t ht))
      sequence := fun t ht => Or.inl (hload t ht).1
      newest := ?_
      newestFlushed := ?_
      pending := fun i p hp => by cases hp
      pairs := fun i j p q _ hp => by cases hp
      cross := fun i j p q hp => by cases hp
      distinct := fun i j p q n _ hp => by cases hp }
  · refine List.pairwise_map.mpr (hdesc.imp_of_mem ?_)
    intro t u ht hu hlt heq
    rw [(hload t ht).1, (hload u hu).1] at hlt
    omega
  · intro key
    by_cases hex : ∃ t ∈ loadedOf store, Holds t key
    · obtain ⟨tv, hd⟩ := exists_decides hex
      obtain ⟨t, ht, htv, hmax⟩ := hd
      refine Or.inl ⟨t, ht, tv, htv, hread ⟨t, ht, htv, hmax⟩, ?_⟩
      intro u hu hku
      have := hmax u hu hku
      rwa [(hload u hu).1, (hload t ht).1] at this
    · have hno : ∀ t ∈ loadedOf store, ¬ Holds t key := fun t ht hk => hex ⟨t, ht, hk⟩
      refine Or.inr ⟨hno, ?_⟩
      have hnone : overlay ((loadedOf store).map Table.entries) key = none := by
        rw [overlay_eq_none]
        intro l hl
        obtain ⟨t, ht, rfl⟩ := List.mem_map.mp hl
        by_contra hk
        exact hno t ht hk
      rw [diskReads, hnone]
      rfl
  · intro key t ht _ tv htv hmax
    refine hread ⟨t, ht, htv, ?_⟩
    intro u hu hku
    rw [(hload u hu).1, (hload t ht).1]
    exact hmax u hu ((hload u hu).1 ▸ hpos _ (hthere u hu)) hku

/-- **An engine that opens a durable store** begins a session. -/
theorem alive_reopened (store : Store) {maxMemNodes : Nat}
    (h : Durable g (reopened store maxMemNodes)) (hpos : ∀ n, (store.files.lookup n).isSome → 0 < n) :
    Alive ⟨reopened store maxMemNodes, g, diskReads store, []⟩ where
  order :=
    { fits := h.agrees.fits
      written := by
        intro k
        show g k = flushOver (reopened store maxMemNodes).mem (diskReads store) k
        rw [← h.agrees.reads k, Store.view, overlay_cons, flushOver]
        cases (reopened store maxMemNodes).mem.lookup k with
        | some tv => rfl
        | none => rfl
      ordered := ordered_loadedOf h.filed.sorted hpos
      merged := fun i old seen n m hi => by cases hi
      disk :=
        ⟨h.filed.tableFile, h.filed.fileLe,
          fun n es hn hne => Or.inl (h.filed.fileTable n es hn hne),
          fun i old seen n m hi => (by cases hi), fun i c ns hi => (by cases hi)⟩ }
  sunk := by
    rintro n ⟨i, c, ns, hi, -⟩
    cases hi
  numbered := by
    refine ⟨hpos, ?_⟩
    show maxOf (store.files.map Prod.fst) + 1 ≤ 1 ∨ ∃ n, (store.files.lookup n).isSome
      ∧ maxOf (store.files.map Prod.fst) + 1 ≤ n + 1
    rcases maxOf_mem (store.files.map Prod.fst) with hz | hm
    · exact Or.inl (by omega)
    · exact Or.inr ⟨_, mem_map_fst_iff.mp hm, Nat.le_refl _⟩
  logs := ⟨(reopened store maxMemNodes).tables, h.agrees, h.logged⟩

/-- The store as the files on disk have it. -/
def diskStore (s : Store) : Store :=
  { s with tables := loadedOf s, counter := maxOf (s.files.map Prod.fst) }

variable {sys : System} {s : Shared}

/-- The next engine, whatever the calls were doing. -/
theorem restart_spec (hrep : SystemRep sys s) (hnames : SortsByNumber sys.engine.dir) (c : Config) :
    ∃ e, start sys.engine.dir c = .ok e ∧ Rep e (reopened s.store c.maxMemNodes)
      ∧ ∀ key, e.get key = .ok (readAfter s.store key) := by
  obtain ⟨e, hrun, hrep'⟩ := start_reopened hrep.rep.dir hnames c
  refine ⟨e, hrun, hrep', ?_⟩
  intro key
  rw [hrep'.get, Store.view, overlay_cons, mem_reopened hrep.rep.dir.logsSorted]
  rfl

/-- **A crash that revives nothing** leaves a directory whose next engine begins a
    session with the same writes. -/
theorem alive_crash (hrep : SystemRep sys s) (h : Alive s) (hnames : SortsByNumber sys.engine.dir)
    (hrevived : NothingRevived sys) (c : Config) :
    Runs (occur sys (.crash c)) (fun sys' => ∃ s', SystemRep sys' s' ∧ Alive s'
      ∧ s'.written = s.written) := by
  obtain ⟨e, hrun, hrep', -⟩ := restart_spec hrep hnames c
  obtain ⟨ts, hagrees, hlogged⟩ := h.logs
  have hlast : ∀ n, (s.store.logs.lookup n).isSome → n ≤ maxOf (s.store.files.map Prod.fst) + 1 := by
    intro n hn
    have hle : n ≤ s.store.log := hlogged.last n hn
    rcases h.numbered.logTop with hone | ⟨k, hk, hlog⟩
    · omega
    · have := le_maxOf (mem_map_fst_iff.mpr hk)
      omega
  have hf := filed_reopened (s := s.store) hrep.rep.dir.filesSorted c.maxMemNodes
  have hdisk : Restartable s.written sys.engine.dir (diskStore s.store) :=
    { dir := hrep.rep.dir
      filed := ⟨hf.sorted, hf.descending, hf.tableFile, hf.fileTable, hf.fileLe, hf.top⟩
      clean := hlogged.clean
      logLe := hlast
      reads := (readAfter_iff hrep h hnames).mpr hrevived }
  refine ends_of_eq_ok (a := ⟨e, []⟩) (by simp only [occur, hrun, ok_bind]; rfl)
    ⟨_, ⟨hrep', List.Forall₂.nil⟩, alive_reopened s.store (hdisk.durable c.maxMemNodes)
      h.numbered.positive, rfl⟩

end Crash

/-! ## Lives, from their beginning -/

/-- **Every event that is safe** keeps the session alive, and the writes. -/
theorem occur_spec {sys : System} {s : Shared} {ev : LifeEvent} (hrep : SystemRep sys s)
    (h : Alive s) (hsafe : EventSafe sys ev) :
    Runs (occur sys ev) (fun sys' => ∃ s', SystemRep sys' s' ∧ Alive s'
      ∧ s'.written = ev.write s.written) := by
  cases ev with
  | act a =>
      obtain ⟨hok, hlog⟩ := hsafe
      refine (step_spec hrep hlog.fits).mono ?_
      rintro sys' ⟨s', hs, hrep'⟩
      exact ⟨s', hrep', alive_step hrep h hok hlog hs, written_step hs⟩
  | crash c => exact alive_crash hrep h hsafe.1 hsafe.2 c

/-- **A life** whose events are safe keeps its writes. -/
theorem life_spec (c : Config) {evs : List LifeEvent}
    (hmeets : ∀ e, start [] c = .ok e → Meets occur EventSafe ⟨e, []⟩ evs) :
    Runs (start [] c >>= fun e => evs.foldlM occur ⟨e, []⟩)
      (fun sys => ∃ s, SystemRep sys s ∧ Alive s ∧ s.written = lastOf evs) := by
  obtain ⟨e, hrun, hrep⟩ := start_nil c
  let I : List LifeEvent → System → Prop := fun rest sys =>
    ∃ s, SystemRep sys s ∧ Alive s ∧ rest.foldl LifeEvent.write s.written = lastOf evs
  have hI : ∀ {ev : LifeEvent} {rest : List LifeEvent} {sys : System}, I (ev :: rest) sys →
      EventSafe sys ev → Runs (occur sys ev) (I rest) := by
    rintro ev rest sys ⟨s, h, halive, hw⟩ hsafe
    refine (occur_spec h halive hsafe).mono ?_
    rintro sys' ⟨s', h', halive', hw'⟩
    exact ⟨s', h', halive', by rw [hw']; exact hw⟩
  have hfresh : Alive ⟨opened [] [] [] [] c.maxMemNodes, fun _ => none, fun _ => none, []⟩ :=
    alive_reopened ⟨[], [], 0, c.maxMemNodes, [], 0, []⟩ (durable_fresh c.maxMemNodes) (by simp)
  rw [hrun, ok_bind]
  exact ends_foldlM I hI evs (hmeets e hrun) ⟨_, ⟨hrep, List.Forall₂.nil⟩, hfresh, rfl⟩

/-- Where no call is deleting, nothing is revived. -/
theorem nothingRevived_of_isEmpty {sys : System} (h : (doomed sys.calls).isEmpty = true) :
    NothingRevived sys := by
  intro key _ _ _
  have hnone : (sstNames sys.engine.dir).reverse.filter (fun name => name ∈ doomed sys.calls) = [] := by
    rw [List.isEmpty_iff.mp h]
    simp
  simp only [readDoomed, hnone]
  rfl

/-- A test for `EventSafe`: a crash comes when no call is deleting. -/
def eventTest (sys : System) : LifeEvent → Bool
  | .act (.put key value) =>
      noneOvertaken sys (.put key value) && safeTest sys.engine (.op (.put key value))
  | .act (.erase key) => safeTest sys.engine (.op (.erase key))
  | .act .forceFlush => noneOvertaken sys .forceFlush && safeTest sys.engine (.op .forceFlush)
  | .act .begin => noneOvertaken sys .begin
  | .act (.advance _) => true
  | .crash _ => shortNames sys.engine.dir && (doomed sys.calls).isEmpty

theorem eventSafe_of_eventTest (sys : System) (ev : LifeEvent) (h : eventTest sys ev = true) :
    EventSafe sys ev := by
  cases ev with
  | crash c =>
      obtain ⟨hnames, hempty⟩ := Bool.and_eq_true_iff.mp h
      exact ⟨sortsByNumber_of_shortNames hnames, nothingRevived_of_isEmpty hempty⟩
  | act a =>
      cases a with
      | put key value =>
          obtain ⟨horder, hlog⟩ := Bool.and_eq_true_iff.mp h
          exact ⟨keepsNumberOrder_of_noneOvertaken sys _ horder,
            safe_of_safeTest sys.engine (.op (.put key value)) hlog⟩
      | erase key => exact ⟨trivial, safe_of_safeTest sys.engine (.op (.erase key)) h⟩
      | forceFlush =>
          obtain ⟨horder, hlog⟩ := Bool.and_eq_true_iff.mp h
          exact ⟨keepsNumberOrder_of_noneOvertaken sys _ horder,
            safe_of_safeTest sys.engine (.op .forceFlush) hlog⟩
      | begin => exact ⟨keepsNumberOrder_of_noneOvertaken sys _ h, trivial⟩
      | advance i => exact ⟨trivial, trivial⟩

/-- A crash where a merged file is built and overtaken, and a session that ends
    while another call deletes. -/
def builtThenDeleting : List LifeEvent :=
  [.act (.put [107] [1]), .act .forceFlush, .act (.put [97] [1]), .act .forceFlush, .act .begin,
    .act (.advance 0), .act (.put [107] [2]), .act .forceFlush, .act (.advance 0),
    .crash plainConfig, .act (.erase [97]), .act (.put [98] [1]), .act .forceFlush, .act .begin,
    .act (.advance 0), .act (.advance 0), .act (.advance 0), .act (.put [99] [1]),
    .act (.advance 0)]

theorem meets_builtThenDeleting (e : KVEngine) (he : start [] plainConfig = .ok e) :
    Meets occur EventSafe ⟨e, []⟩ builtThenDeleting := by
  have hcheck : Yields (start [] plainConfig)
      (fun e => checkAll occur eventTest ⟨e, []⟩ builtThenDeleting = true) := by
    decide +kernel
  exact meets_of_checkAll eventSafe_of_eventTest (hcheck.of_eq_ok he)

/-- A call has deleted the file of a tombstone, and not yet that of the value. -/
def halfDeleted : List LifeEvent :=
  [.act (.put [107] [1]), .act .forceFlush, .act (.erase [107]), .act (.put [97] [1]),
    .act .forceFlush, .act .begin, .act (.advance 0), .act (.advance 0), .act (.advance 0),
    .act (.advance 0)]

/-- A value that was erased is still in a file that was to be deleted. -/
example : Yields (start [] plainConfig >>= fun e => halfDeleted.foldlM occur ⟨e, []⟩)
      (fun sys => readDoomed sys [107] = .ok (some [1]))
    ∧ lastOf halfDeleted [107] = none := by
  decide +kernel

end KvCrashInFlight
