import LightKV.KvSessionProofs
import LightKV.KvLongKeyProofs

/-! # Scans

    A range scan opens the engine's iterator, seeks to its first key and
    collects what is live below its last one.  While the tables are in the order
    of their sequence numbers the merge chooses the entries that `get` would
    find, so a scan and point reads agree, over any number of sessions
    (`scan_agrees`).  A key that does not fit its length field may cost the table
    its block and leave the index out of order: the halving search then misses
    entries that the iterator still walks over (`scan_long_key`). -/

namespace KvScan

open Execution KvBytes KvCompaction KvDirectory KvEngine KvIterators KvLongKey KvMerging KvRecovery
open KvSession KvSkipList KvStore KvTable KvTableIterator KWayMerge LittleEndian Overlay

/-! ## A client's scan -/

/-- Collect live entries while the key is `within` the range. -/
def collect {I : Type} [KvIterator I] (within : Bytes → Bool) :
    Nat → I → Except Fault (List IteratorEntry)
  | 0, _ => .error .noProgress
  | fuel + 1, it =>
      if KvIterator.valid it then
        let entry := KvIterator.entry it
        if within entry.key then do
          let it ← KvIterator.next it
          let rest ← collect within fuel it
          if entry.type = .kTypeDeletion then pure rest
          else pure (entry :: rest)
        else pure []
      else pure []

/-- `NewIterator`, `Seek` to the first key, and collect what is below the last. -/
def scan (e : KVEngine) (startKey endKey : Bytes) : Except Fault (List (Bytes × Bytes)) := do
  let it ← e.newIterator
  let it ← KvIterator.seek it startKey
  let entries ← collect (fun key => key < endKey) (KvIterator.bound it + 1) it
  pure (entries.map (fun entry => (entry.key, entry.value)))

/-- What is collected from entries that are still to come. -/
def collected (within : Bytes → Bool) (rest : List IteratorEntry) : List IteratorEntry :=
  (rest.takeWhile (fun e => within e.key)).filter (fun e => e.type != .kTypeDeletion)

/-- **The collecting loop.** -/
theorem collect_spec {I : Type} [KvIterator I] (within : Bytes → Bool) {it : I}
    {rest : List IteratorEntry} (hs : Streams it rest) :
    ∀ {fuel : Nat}, rest.length < fuel → collect within fuel it = .ok (collected within rest) := by
  induction hs with
  | done hv =>
      intro fuel hfuel
      obtain ⟨fuel, rfl⟩ := Nat.exists_eq_succ_of_ne_zero (Nat.ne_of_gt hfuel)
      simp only [collect, hv, Bool.false_eq_true, if_false]
      rfl
  | @more it it' rest hv hn _ ih =>
      intro fuel hfuel
      obtain ⟨fuel, rfl⟩ := Nat.exists_eq_succ_of_ne_zero (Nat.ne_of_gt (Nat.zero_lt_of_lt hfuel))
      simp only [collect, hv, if_true]
      by_cases hin : within (KvIterator.entry it).key = true
      · rw [if_pos hin, hn, ok_bind, ih (Nat.lt_of_succ_lt_succ hfuel), ok_bind]
        have htake : collected within (KvIterator.entry it :: rest)
            = List.filter (fun e => e.type != .kTypeDeletion)
              (KvIterator.entry it :: rest.takeWhile (fun e => within e.key)) := by
          simp only [collected, List.takeWhile_cons, hin, if_true]
        by_cases hd : (KvIterator.entry it).type = .kTypeDeletion
        · rw [if_pos hd, htake, List.filter_cons_of_neg (by simpa using hd)]
          rfl
        · rw [if_neg hd, htake, List.filter_cons_of_pos (by simpa using hd)]
          rfl
      · have hnone : collected within (KvIterator.entry it :: rest) = [] := by
          simp only [collected, List.takeWhile_cons, if_neg hin, List.filter_nil]
        rw [if_neg hin, hnone]
        rfl

/-- What is collected after a seek, when the range is closed downwards. -/
theorem mem_collected {all : List IteratorEntry} (hasc : Ascending IteratorEntry.key all)
    {within : Bytes → Bool} (hdown : ∀ {j k : Bytes}, j < k → within k = true → within j = true)
    (startKey : Bytes) {e : IteratorEntry} :
    e ∈ collected within (dropBelow IteratorEntry.key startKey all)
      ↔ e ∈ all ∧ startKey ≤ e.key ∧ within e.key = true ∧ e.type ≠ .kTypeDeletion := by
  have hmem := (hasc.dropBelow startKey).mem_takeWhile hdown (a := e)
  rw [collected, List.mem_filter, hmem, hasc.mem_dropBelow, bne_iff_ne, and_assoc, and_assoc]

/-- What is collected is in order. -/
theorem ascending_collected {all : List IteratorEntry} (hasc : Ascending IteratorEntry.key all)
    (within : Bytes → Bool) (startKey : Bytes) :
    Ascending IteratorEntry.key (collected within (dropBelow IteratorEntry.key startKey all)) :=
  List.Pairwise.sublist (List.filter_sublist.trans (List.takeWhile_sublist _))
    (hasc.dropBelow startKey)

/-! ## The layers of a scan -/

/-- The memtable and the tables, ranked. -/
def scanRanks (s : Store) : List Ranked := (⊤, s.mem) :: s.tables.map ranked

theorem map_layerOf_scanRanks (s : Store) : (scanRanks s).map layerOf = scanLayers s := by
  rw [scanRanks, List.map_cons, map_layerOf_ranked]
  rfl

theorem pairwise_scanRanks {s : Store} (h : Tidy s) :
    (scanRanks s).Pairwise (fun r q => q.1 < r.1) := by
  refine List.pairwise_cons.mpr ⟨?_, pairwise_ranked h.ordered⟩
  intro q hq
  obtain ⟨t, -, rfl⟩ := List.mem_map.mp hq
  exact WithTop.coe_lt_top t.sequence

/-- Layers in order hold no key twice with one sequence number. -/
theorem untied_of_descending {rs : List Ranked} (hd : rs.Pairwise (fun r q => q.1 < r.1)) :
    Untied IteratorEntry.key IteratorEntry.sequence (rs.map layerOf) := by
  rw [Untied, List.pairwise_map]
  refine hd.imp ?_
  intro r q hlt a ha b hb _
  obtain ⟨kv, -, rfl⟩ := List.mem_map.mp ha
  obtain ⟨kv', -, rfl⟩ := List.mem_map.mp hb
  exact hlt.ne'

theorem mem_liveEntries {out : List IteratorEntry} {k : Bytes} {tv : TableValue} :
    (k, tv) ∈ liveEntries out
      ↔ ∃ e ∈ out, e.type ≠ .kTypeDeletion ∧ e.key = k ∧ ⟨e.type, e.value⟩ = tv := by
  simp only [liveEntries, List.mem_map, List.mem_filter, bne_iff_ne, Prod.mk.injEq]
  constructor
  · rintro ⟨e, ⟨he, hd⟩, hk, htv⟩
    exact ⟨e, he, hd, hk, htv⟩
  · rintro ⟨e, he, hd, hk, htv⟩
    exact ⟨e, ⟨he, hd⟩, hk, htv⟩

theorem visible_eq_some {o : Option TableValue} {v : Bytes} :
    visible o = some v ↔ ∃ tv, live o = some tv ∧ tv.value = v := by
  cases o with
  | none => simp [visible, live]
  | some tv =>
      by_cases h : tv.type = .kTypeDeletion
      · simp [visible, live, h]
      · simp [visible, live, h]

/-- A merge of layers in order is live exactly where a read finds a value. -/
theorem live_iff_visible {s : Store} (ht : Tidy s) (hmem : KeySorted s.mem)
    (hs : ∀ t ∈ s.tables, KeySorted t.entries) {all : List IteratorEntry}
    (hmerge : IsMerge IteratorEntry.key IteratorEntry.sequence (scanLayers s) all)
    (k v : Bytes) :
    (∃ e ∈ all, e.key = k ∧ e.type ≠ .kTypeDeletion ∧ e.value = v)
      ↔ visible (s.view k) = some v := by
  have hs' : ∀ r ∈ scanRanks s, KeySorted r.2 := by
    intro r hr
    rcases List.mem_cons.mp hr with rfl | hr'
    · exact hmem
    · exact forall_ranked hs r hr'
  have hlayers : IsMerge IteratorEntry.key IteratorEntry.sequence ((scanRanks s).map layerOf) all :=
    map_layerOf_scanRanks s ▸ hmerge
  have hlook := lookup_merge_of_descending hlayers hs' (pairwise_scanRanks ht) k
  rw [scanRanks, List.map_cons, map_snd_ranked] at hlook
  rw [visible_eq_some, Store.view, ← hlook]
  simp only [lookup_eq_some_iff (keySorted_liveEntries hmerge.ascending), mem_liveEntries]
  constructor
  · rintro ⟨e, he, hk, hd, rfl⟩
    exact ⟨_, ⟨e, he, hd, hk, rfl⟩, rfl⟩
  · rintro ⟨tv, ⟨e, he, hd, hk, rfl⟩, rfl⟩
    exact ⟨e, he, hk, hd, rfl⟩

/-- The layers of a store in order hold no key twice with one sequence number. -/
theorem untied_scanLayers {s : Store} (ht : Tidy s) :
    Untied IteratorEntry.key IteratorEntry.sequence (scanLayers s) :=
  map_layerOf_scanRanks s ▸ untied_of_descending (pairwise_scanRanks ht)

/-- **The iterator of a store in order** goes through entries that are live
    exactly where a read finds their value. -/
theorem newIterator_live {e : KVEngine} {s : Store} (h : Rep e s) (ht : Tidy s) :
    ∃ it all, e.newIterator = .ok it ∧ KvCursor.At it all all
      ∧ IsMerge IteratorEntry.key IteratorEntry.sequence (scanLayers s) all
      ∧ ∀ k v, (∃ e ∈ all, e.key = k ∧ e.type ≠ .kTypeDeletion ∧ e.value = v)
        ↔ visible (s.view k) = some v := by
  obtain ⟨it, all, hnew, hat, hmerge⟩ := newIterator_at h.mem
    (h.tables.imp fun _ _ => searches_of_readerOf) (untied_scanLayers ht)
  exact ⟨it, all, hnew, hat, hmerge,
    live_iff_visible ht h.mem.keySorted (fun t ht => (good_of_rep h t ht).1) hmerge⟩

/-- **A scan** gives what its iterator shows of the range. -/
theorem scan_of_iterator {e : KVEngine} {it : MergingIterator EngineIterator}
    {all : List IteratorEntry} {g : Bytes → Option Bytes} (hnew : e.newIterator = .ok it)
    (hat : KvCursor.At it all all)
    (hlive : ∀ k v, (∃ e ∈ all, e.key = k ∧ e.type ≠ .kTypeDeletion ∧ e.value = v)
      ↔ g k = some v) (startKey endKey : Bytes) :
    ∃ out, scan e startKey endKey = .ok out ∧ KeySorted out
      ∧ ∀ k v, (k, v) ∈ out ↔ startKey ≤ k ∧ k < endKey ∧ g k = some v := by
  have hasc := KvCursor.ascending hat
  obtain ⟨it', hseek, hat'⟩ := KvCursor.seek startKey hat
  have hlen := KvCursor.bound hat'
  have hcollect := collect_spec (fun key => decide (key < endKey)) (streams_of_at _ hat')
    (Nat.lt_succ_of_le hlen)
  refine ⟨(collected (fun key => decide (key < endKey))
    (dropBelow IteratorEntry.key startKey all)).map (fun e => (e.key, e.value)), ?_, ?_, ?_⟩
  · simp only [scan, hnew, hseek, ok_bind, hcollect]
    rfl
  · rw [KeySorted, List.pairwise_map]
    exact ascending_collected hasc _ startKey
  · intro k v
    have hdown : ∀ {i j : Bytes}, i < j → decide (j < endKey) = true →
        decide (i < endKey) = true := by
      intro i j hij hj
      exact decide_eq_true (hij.trans (of_decide_eq_true hj))
    rw [← hlive k v, List.mem_map]
    constructor
    · rintro ⟨e, he, heq⟩
      obtain ⟨rfl, rfl⟩ := Prod.mk.inj heq
      obtain ⟨hall, hlo, hhi, hd⟩ := (mem_collected hasc hdown startKey).mp he
      exact ⟨hlo, of_decide_eq_true hhi, e, hall, rfl, hd, rfl⟩
    · rintro ⟨hlo, hhi, e, hall, rfl, hd, rfl⟩
      exact ⟨e, (mem_collected hasc hdown startKey).mpr
        ⟨hall, hlo, decide_eq_true hhi, hd⟩, rfl⟩

/-- **A scan of a store in order** gives the live part of its range. -/
theorem scan_spec {e : KVEngine} {s : Store} (h : Rep e s) (ht : Tidy s)
    (startKey endKey : Bytes) :
    ∃ out, scan e startKey endKey = .ok out ∧ KeySorted out
      ∧ ∀ k v, (k, v) ∈ out
        ↔ startKey ≤ k ∧ k < endKey ∧ visible (s.view k) = some v := by
  obtain ⟨it, all, hnew, hat, -, hlive⟩ := newIterator_live h ht
  exact scan_of_iterator hnew hat hlive startKey endKey

/-! ## Over sessions -/

/-- A session: the directory is opened, used and closed. -/
def session (dir : Directory) (p : Config × List Op) : Except Fault Directory := do
  let e ← start dir p.1
  let e ← p.2.foldlM execute e
  pure e.close

/-- **Sessions leave a directory of tables and logs.** -/
theorem sessions_spec (ss : List (Config × List Op)) {dir : Directory}
    (hss : ∀ p ∈ ss, ∀ o ∈ p.2, o.KeyFits) (h : ∃ files logs, DirRep dir files logs) :
    Runs (ss.foldlM session dir) (fun dir' => ∃ files logs, DirRep dir' files logs) := by
  let I : List (Config × List Op) → Directory → Prop := fun rest dir =>
    (∀ p ∈ rest, ∀ o ∈ p.2, o.KeyFits) ∧ ∃ files logs, DirRep dir files logs
  have hI : ∀ {p : Config × List Op} {rest : List (Config × List Op)} {dir : Directory},
      I (p :: rest) dir → True → Runs (session dir p) (I rest) := by
    rintro ⟨c, os⟩ rest dir ⟨hrest, files, logs, h⟩ _
    obtain ⟨ns, ms, e, -, -, -, hrun, hrep⟩ :=
      open_spec h c.maxMemNodes c.one_le_maxLevel c.draws
    have hkeys := hrest (c, os) List.mem_cons_self
    have hstep := session_rep os hkeys hrep
    simp only [session, start, hrun, ok_bind]
    refine hstep.bind ?_
    rintro e' ⟨s', hrep'⟩
    exact ⟨fun q hq => hrest q (List.mem_cons_of_mem _ hq), _, _, hrep'.dir⟩
  exact (ends_foldlM I hI ss (meets_of_forall (fun _ _ => trivial) ss dir) ⟨hss, h⟩).mono
    (fun dir' h' => h'.2)

theorem counter_step {s s' : Store} {o : Op} (h : Step s o s') : s.counter ≤ s'.counter := by
  have hflush : ∀ s : Store, s.counter ≤ s.flush.counter := by
    intro s
    rw [Store.flush]
    split
    · exact Nat.le_refl _
    · exact Nat.le_succ _
  cases h with
  | put key value =>
      rw [Store.put]
      split
      · exact hflush (s.write _ _)
      · exact Nat.le_refl _
  | erase key => exact Nat.le_refl _
  | forceFlush => exact hflush s
  | compactNone hle => exact Nat.le_refl _
  | compact hlt hm =>
      rw [counter_compacted]
      exact Nat.le_succ _

/-- **Scans and point reads agree.**  After any number of sessions and any
    operations of the last one, while fewer than a million tables were numbered,
    a scan is the ascending list of the pairs in its range that `get` finds. -/
theorem scan_agrees {ss : List (Config × List Op)} {c : Config} {os : List Op}
    (hss : ∀ p ∈ ss, ∀ o ∈ p.2, o.KeyFits) (hos : ∀ o ∈ os, o.KeyFits) :
    Runs (do
        let dir ← ss.foldlM session []
        let e ← start dir c
        os.foldlM execute e)
      (fun e => e.sstCounter < 10 ^ 6 → ∀ startKey endKey,
        ∃ out, scan e startKey endKey = .ok out ∧ KeySorted out
          ∧ ∀ k v, (k, v) ∈ out ↔ startKey ≤ k ∧ k < endKey ∧ e.get k = .ok (some v)) := by
  refine (sessions_spec ss hss ⟨_, _, dirRep_nil⟩).bind ?_
  rintro dir ⟨files, logs, hdir⟩
  obtain ⟨ns, ms, e, hperm, hord, -, hrun, hrep⟩ :=
    open_spec hdir c.maxMemNodes c.one_le_maxLevel c.draws
  have htidy : (opened files logs ns ms c.maxMemNodes).counter < 10 ^ 6 →
      Tidy (opened files logs ns ms c.maxMemNodes) := by
    intro hlt
    refine tidy_opened hdir.filesSorted (hord ?_) logs ms c.maxMemNodes
    refine namesInOrder_of_lt getSstPath_lt hdir.filesSorted ?_
    intro f hf
    have hmem : f.1 ∈ ns := hperm.mem_iff.mpr (List.mem_map_of_mem hf)
    exact Nat.lt_of_le_of_lt (le_maxOf hmem) hlt
  have hstep := session_spec (fun (_ : Unit) s => s.counter < 10 ^ 6 → Tidy s)
    (fun g _ => g) (fun _ => True) (fun _ hj _ hs hlt =>
      tidy_step (hj (Nat.lt_of_le_of_lt (counter_step hs) hlt)) hs)
    os () (fun o ho => ⟨hos o ho, trivial⟩) hrep htidy
  simp only [start, hrun, ok_bind]
  refine hstep.mono ?_
  rintro e' ⟨s', hrep', htidy'⟩ hlt startKey endKey
  rw [hrep'.counter] at hlt
  obtain ⟨out, hscan, hsorted, hmem⟩ := scan_spec hrep' (htidy' hlt) startKey endKey
  refine ⟨out, hscan, hsorted, ?_⟩
  intro k v
  rw [hmem, hrep'.get k, Except.ok.injEq]

/-- Two sessions, the second of them on the files of the first. -/
def twoSessions : List (Config × List Op) :=
  [(plainConfig, [.put [97] [1], .put [98] [2], .forceFlush, .erase [97]]),
    (plainConfig, [.put [99] [3], .forceFlush, .compact])]

theorem scan_agrees_plain :
    Runs (do
        let dir ← twoSessions.foldlM session []
        let e ← start dir plainConfig
        [Op.put [98] [4], .erase [99]].foldlM execute e)
      (fun e => e.sstCounter < 10 ^ 6 → ∀ startKey endKey,
        ∃ out, scan e startKey endKey = .ok out ∧ KeySorted out
          ∧ ∀ k v, (k, v) ∈ out ↔ startKey ≤ k ∧ k < endKey ∧ e.get k = .ok (some v)) :=
  scan_agrees (by decide) (by decide)

/-! ## A key of `2 ^ 32` bytes -/

/-- Collecting stops at the second entry, when that is out of range. -/
theorem collect_leads {I : Type} [KvIterator I] {within : Bytes → Bool} {it : I}
    {x y : IteratorEntry} {out : List IteratorEntry} (h : Leads it (x :: y :: out))
    (hx : within x.key = true) (hy : within y.key = false) (hlive : x.type ≠ .kTypeDeletion)
    (fuel : Nat) : collect within (fuel + 2) it = .ok [x] := by
  obtain ⟨hv, hentry⟩ := h.head
  obtain ⟨it', hn, hs⟩ := h.tail
  obtain ⟨hv', hentry'⟩ := hs.head
  have hstop : collect within (fuel + 1) it' = .ok [] := by
    simp only [collect, hv', hentry', hy, if_true, Bool.false_eq_true, if_false]
    rfl
  rw [collect, if_pos hv, hentry, if_pos hx, hn, ok_bind, hstop, ok_bind, if_neg hlive]
  rfl

/-- **An engine with a table that misses keys** scans the first of them. -/
theorem scan_lost {e : KVEngine} {r : SSTableReader} {kv₁ kv₂ : Entry} {l es l₂ : List Entry}
    (h : Lost r (kv₁ :: kv₂ :: l) es l₂) (hne : l ≠ [])
    (hmax : ∀ kv ∈ kv₁ :: kv₂ :: l, (encodeEntry kv).length ≤ r.maxRead)
    (hmem : Models e.skiplist []) (htables : e.sstables = [r]) (hlive : kv₁.2.type ≠ .kTypeDeletion) :
    scan e [] kv₂.1 = .ok [(kv₁.1, kv₁.2.value)] := by
  obtain ⟨it, it', hnew, -, -, -, hseek⟩ := h.newIterator hne hmax hmem htables
  obtain ⟨m, hm, hleads⟩ := hseek it (Or.inl rfl)
  have hlt : kv₁.1 < kv₂.1 := (List.pairwise_cons.mp h.sorted).1 kv₂ (by simp)
  have hcollect := @collect_leads _ _ (fun key => decide (key < kv₂.1)) _ _ _ _ hleads
    (decide_eq_true hlt) (decide_eq_false (lt_irrefl kv₂.1)) hlive
    ((m.children.map KvIterator.bound).sum)
  simp only [scan, hnew, ok_bind, hm]
  rw [show KvIterator.bound m + 1 = (m.children.map KvIterator.bound).sum + 2 from rfl, hcollect]
  rfl

/-- A configuration whose memtable is full with seven keys. -/
def sevenKeys : Config := { plainConfig with maxMemNodes := 7 }

/-- The first filler is scanned and not found. -/
theorem scan_fillers {e : KVEngine} {r : SSTableReader} {l₂ : List Entry}
    (h : Lost r ((fillers 0 1 3).map entryOf) [longEntry] l₂) (hmax : 2 ^ 13 ≤ r.maxRead)
    (hmem : Models e.skiplist []) (htables : e.sstables = [r]) :
    e.get (fillerKey 0 1 0) = .ok none
      ∧ scan e [] (fillerKey 0 1 1) = .ok [(fillerKey 0 1 0, List.replicate blockSize 0)] := by
  have hsmall := small_fillers 0 1 3 hmax
  obtain ⟨l, hlen, htwo⟩ := fillers_two 0 1 1
  rw [htwo] at h hsmall
  have hne : l ≠ [] := by
    rintro rfl
    cases hlen
  have hfirst : (entryOf (fillerKey 0 1 0, List.replicate blockSize 0)).2.type
      ≠ .kTypeDeletion := by
    show ValueType.kTypeValue ≠ .kTypeDeletion
    decide
  exact ⟨h.get_engine hmem htables List.mem_cons_self (List.cons_ne_nil _ _),
    scan_lost h hne hsmall hmem htables hfirst⟩

/-- **A scan gives a key that `get` does not find**, however many bytes a `pread`
    moves if it moves a block of the usual size; and without a level no scan begins. -/
theorem scan_long_key :
    Yields (start [] sevenKeys >>= fun e =>
        ((lostPuts 3 3).map (fun kv => Op.put kv.1 kv.2)).foldlM execute e)
      (fun e => ∀ e', (e' = e ∨ ∃ maxRead, 2 ^ 13 ≤ maxRead ∧ e' = e.upTo maxRead) →
        e'.get (fillerKey 0 1 0) = .ok none
          ∧ scan e' [] (fillerKey 0 1 1) = .ok [(fillerKey 0 1 0, List.replicate blockSize 0)])
      ∧ (KVEngine.open [] 7 0 (fun _ => false) >>= fun e => scan e [] [1])
        = .error .outOfBounds := by
  constructor
  · obtain ⟨e, hrun, hrep⟩ := start_nil sevenKeys
    obtain ⟨e', r, hputs, hmem, htables, hwhole, hlost⟩ := @puts_lost e 3 2 hrep.mem
      hrep.maxMemNodes (by decide) (by decide) (by decide)
    rw [List.forall₂_nil_right_iff.mp hrep.tables] at htables
    have hops : ((lostPuts 3 3).map (fun kv => Op.put kv.1 kv.2)).foldlM execute e = .ok e' := by
      rw [List.foldlM_map]
      exact hputs
    rw [hrun, ok_bind, hops]
    rintro e'' (rfl | ⟨maxRead, hmax, rfl⟩)
    · have hlarge : 2 ^ 13 ≤ r.maxRead := by
        rw [hwhole]
        decide
      exact scan_fillers (hlost r.maxRead) hlarge hmem htables
    · exact scan_fillers (hlost maxRead) hmax hmem (by rw [KVEngine.upTo, htables, List.map_singleton])
  · decide +kernel

end KvScan
