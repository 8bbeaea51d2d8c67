import LightKV.KvInterleavingProofs

/-! # Reads while one compaction is in flight

    One call of `Compact` runs in stages between the operations of other
    clients.  Until the swap the list is what was flushed since the snapshot and
    then the snapshot; the swap puts the merged table in front of both.  Reads
    stay current when no key that the merge brings to the front has a newer
    value in what was flushed since (`get_in_flight`), and a run where one has
    reads the old value (`swap_reads_old_value`). -/

namespace KvCurrentReads

open Execution KvBytes KvCompaction KvDirectory KvEngine KvInterleaving KvRecovery KvSession KvStore KvTable
open KvSkipList LittleEndian Overlay

/-! ## The condition -/

/-- A swap of the snapshot `old` hides nothing: a key that the memtable does not
    hold, and the snapshot holds with a value, has that value also in what was
    flushed since, if that holds the key at all. -/
def SwapHidesNothing (e : KVEngine) (old : List SSTableReader) : Prop :=
  ∀ key tv tv', e.skiplist.get key = .ok none → getFromTables key old = .ok (some tv) →
    visible (some tv) ≠ none → getFromTables key (e.remaining old) = .ok (some tv') →
    visible (some tv') = visible (some tv)

/-- Every swap of a run hides nothing. -/
def SwapsHideNothing (sys : System) : Action → Prop
  | .advance i => ∀ old number reader, sys.calls[i]? = some (.built old number reader) →
      SwapHidesNothing sys.engine old
  | _ => True

/-! ## The stages of the call -/

/-- Every table is a flushed one, in order. -/
structure Flushed (s : Store) : Prop where
  tidy : Tidy s
  numbered : ∀ t ∈ s.tables, t.number = t.sequence

/-- Behind what was flushed since, the list still ends in the snapshot. -/
def Overtaken (s : Store) (old : List Table) : Prop :=
  ∃ news, s.tables = news ++ old ∧ Flushed s

/-- What holds of the list at each stage of the call. -/
def CallStage (s : Store) : Call → Prop
  | .snapped old _ => Overtaken s old
  | .reserved old _ _ => Overtaken s old
  | .built old _ _ m => Overtaken s old ∧ Merged old m
  | _ => True

/-- There is one call at most. -/
def Stage (s : Store) : List Call → Prop
  | [] => Flushed s
  | [call] => CallStage s call
  | _ :: _ :: _ => False

theorem flushed_flush {s : Store} (h : Flushed s) : Flushed s.flush := by
  refine ⟨tidy_flush h.tidy, ?_⟩
  rw [Store.flush]
  split
  · exact h.numbered
  · intro t ht
    rcases List.mem_cons.mp ht with rfl | ht'
    · rfl
    · exact h.numbered t ht'

theorem overtaken_flush {s : Store} {old : List Table} (h : Overtaken s old) :
    Overtaken s.flush old := by
  obtain ⟨news, hnews, hf⟩ := h
  have hf' := flushed_flush hf
  rw [Store.flush] at hf' ⊢
  split
  · exact ⟨news, hnews, hf⟩
  · rename_i hne
    rw [if_neg hne] at hf'
    exact ⟨⟨s.counter + 1, s.counter + 1, storedLayer s.mem⟩ :: news,
      congrArg (_ :: ·) hnews, hf'⟩

theorem stage_mono {s s' : Store} (hflushed : Flushed s → Flushed s')
    (hover : ∀ {old : List Table}, Overtaken s old → Overtaken s' old) {calls : List Call}
    (h : Stage s calls) : Stage s' calls := by
  rcases calls with _ | ⟨call, _ | ⟨call', calls⟩⟩
  · exact hflushed h
  · cases call with
    | snapped old seen => exact hover h
    | reserved old seen number => exact hover h
    | built old seen number m => exact ⟨hover h.1, h.2⟩
    | deleting number ns => trivial
    | finished => trivial
  · exact h.elim

/-- A store with the same tables is at the same stage. -/
theorem stage_of_tables (s s' : Store) (ht : s'.tables = s.tables) (hc : s.counter ≤ s'.counter)
    {calls : List Call} (h : Stage s calls) : Stage s' calls := by
  have hflushed : Flushed s → Flushed s' := by
    intro hf
    refine ⟨⟨by rw [ht]; exact hf.tidy.ordered, ?_⟩, by rw [ht]; exact hf.numbered⟩
    intro t htm
    exact (hf.tidy.below t (ht ▸ htm)).trans hc
  refine stage_mono hflushed ?_ h
  rintro old ⟨news, hnews, hf⟩
  exact ⟨news, ht.trans hnews, hflushed hf⟩

theorem stage_flush {s : Store} {calls : List Call} (h : Stage s calls) : Stage s.flush calls :=
  stage_mono flushed_flush overtaken_flush h

/-- What a swap keeps of an overtaken list is what was flushed since. -/
theorem remaining_overtaken {s : Store} {old news : List Table} (hnews : s.tables = news ++ old)
    (hf : Flushed s) : s.remaining old = news := by
  have hd := hf.tidy.ordered
  rw [hnews] at hd
  have hcross := (List.pairwise_append.mp hd).2.2
  rw [Store.remaining, hnews, List.filter_append]
  have hkeep : news.filter (fun u => !(old.map Table.number).contains u.number) = news := by
    rw [List.filter_eq_self]
    intro u hu
    rw [Bool.not_eq_true', ← Bool.not_eq_true, List.contains_iff_mem]
    intro hc
    obtain ⟨t, ht, heq⟩ := List.mem_map.mp hc
    have hlt := hcross u hu t ht
    have hu' := hf.numbered u (hnews ▸ List.mem_append_left _ hu)
    have ht' := hf.numbered t (hnews ▸ List.mem_append_right _ ht)
    omega
  have hdrop : old.filter (fun u => !(old.map Table.number).contains u.number) = [] := by
    rw [List.filter_eq_nil_iff]
    intro u hu
    have : (old.map Table.number).contains u.number = true :=
      List.contains_iff_mem.mpr (List.mem_map_of_mem hu)
    simp only [this, Bool.not_true, Bool.false_eq_true, not_false_eq_true]
  rw [hkeep, hdrop, List.append_nil]

/-- **A swap that hides nothing changes no read.** -/
theorem visible_swap {s : Store} {old : List Table} {m : List Entry} (h : Overtaken s old)
    (hg : ∀ t ∈ s.tables, GoodTable t) (hm : Merged old m) (number : Nat) (k : Bytes)
    (hides : ∀ tv tv', s.mem.lookup k = none → overlay (old.map Table.entries) k = some tv →
      visible (some tv) ≠ none → overlay ((s.remaining old).map Table.entries) k = some tv' →
      visible (some tv') = visible (some tv)) :
    visible ((s.swap old ⟨number, 0, m⟩).view k) = visible (s.view k) := by
  obtain ⟨news, hnews, hf⟩ := h
  have hd := hf.tidy.ordered
  rw [hnews] at hd
  have hlook := lookup_merged_of_descending hm
    (fun t ht => (hg t (hnews ▸ List.mem_append_right _ ht)).1) (List.pairwise_append.mp hd).2.1 k
  rw [remaining_overtaken hnews hf] at hides
  have hview : s.view k = (s.mem.lookup k).or ((overlay (news.map Table.entries) k).or
      (overlay (old.map Table.entries) k)) := by
    rw [Store.view, overlay_cons, hnews, List.map_append, overlay_append]
  have hview' : (s.swap old ⟨number, 0, m⟩).view k = (s.mem.lookup k).or
      ((live (overlay (old.map Table.entries) k)).or (overlay (news.map Table.entries) k)) := by
    rw [Store.view, overlay_cons]
    show (s.mem.lookup k).or (overlay (m :: (s.remaining old).map Table.entries) k) = _
    rw [remaining_overtaken hnews hf, overlay_cons, hlook]
  rw [hview, hview']
  cases hmem : s.mem.lookup k with
  | some tv => rfl
  | none =>
      rw [Option.none_or, Option.none_or]
      cases hold : overlay (old.map Table.entries) k with
      | none =>
          rw [Option.or_none]
          rfl
      | some tv =>
          by_cases hlive : tv.type = .kTypeDeletion
          · -- the merge drops the tombstone, and what was flushed since stays
            have hnone : live (some tv) = none := if_pos hlive
            rw [hnone, Option.none_or]
            cases overlay (news.map Table.entries) k with
            | some tv' => rfl
            | none => exact (if_pos hlive).symm
          · have hsome : live (some tv) = some tv := if_neg hlive
            have hvis : visible (some tv) ≠ none := by
              rw [visible, if_neg hlive]
              exact Option.some_ne_none _
            rw [hsome, Option.some_or]
            cases hn : overlay (news.map Table.entries) k with
            | none => rfl
            | some tv' => exact (hides tv tv' hmem hold hvis hn).symm

/-! ## Runs -/

/-- What holds while at most one call is in flight. -/
structure InFlight (as : List Action) (s : Shared) : Prop where
  fits : MemFits s.store
  reads : ∀ k, visible (s.store.view k) = s.written k
  once : as.count .begin ≤ 1
  quiet : s.calls = [] ∨ as.count .begin = 0
  stage : Stage s.store s.calls

/-- At one call's stage, an index that is in range is its. -/
theorem calls_of_stage {s : Shared} {i : Nat} {call : Call} (h : Stage s.store s.calls)
    (hi : s.calls[i]? = some call) : s.calls = [call] ∧ i = 0 := by
  rcases hc : s.calls with _ | ⟨c, _ | ⟨c', cs⟩⟩
  · rw [hc] at hi
    cases hi
  · rw [hc] at hi
    cases i with
    | zero => exact ⟨congrArg (fun x => [x]) (Option.some.inj hi), rfl⟩
    | succ i => cases hi
  · rw [hc] at h
    exact h.elim

theorem view_eq_of_layers {s s' : Store} (hm : s'.mem = s.mem) (ht : s'.tables = s.tables)
    (k : Bytes) : s'.view k = s.view k := by
  rw [Store.view, Store.view, hm, ht]

section Step

variable {sys : System} {s s' : Shared} {a : Action} {as : List Action}

/-- A call in the list is the one call, and no other one will begin. -/
theorem InFlight.call (h : InFlight (a :: as) s) {i : Nat} {call : Call}
    (hi : s.calls[i]? = some call) :
    CallStage s.store call ∧ as.count .begin = 0
      ∧ ∀ call', s.calls.set i call' = [call'] := by
  obtain ⟨hcalls, rfl⟩ := calls_of_stage h.stage hi
  refine ⟨?_, ?_, ?_⟩
  · have hst := h.stage
    rw [hcalls] at hst
    exact hst
  · have hquiet := h.quiet
    rw [hcalls, List.count_cons] at hquiet
    simp only [List.cons_ne_nil, false_or] at hquiet
    omega
  · intro call'
    rw [hcalls]
    rfl

/-- The call goes on to another stage. -/
theorem InFlight.goOn (h : InFlight (a :: as) s) {i : Nat} {call call' : Call}
    (hi : s.calls[i]? = some call) {t : Store} (hfits : MemFits t)
    (hreads : ∀ k, visible (t.view k) = s.written k) (hstage : CallStage t call') :
    InFlight as { s with store := t, calls := s.calls.set i call' } := by
  obtain ⟨-, hcount, hset⟩ := h.call hi
  refine ⟨hfits, hreads, hcount.le.trans (Nat.zero_le 1), Or.inr hcount, ?_⟩
  show Stage t (s.calls.set i call')
  rw [hset]
  exact hstage

/-- What a client does besides leaves the call where it is. -/
theorem InFlight.keep (h : InFlight (a :: as) s) (ha : a ≠ .begin) {t : Store}
    {written flushed : Bytes → Option Bytes} (hfits : MemFits t)
    (hreads : ∀ k, visible (t.view k) = written k) (hstage : Stage t s.calls) :
    InFlight as { s with store := t, written := written, flushed := flushed } := by
  have honce := h.once
  have hquiet := h.quiet
  rw [List.count_cons_of_ne ha] at honce hquiet
  exact ⟨hfits, hreads, honce, hquiet, hstage⟩

/-- A write, before the flush it may bring about. -/
theorem InFlight.write (h : InFlight (a :: as) s) (r : KvWal.ParsedLogRecord) (tv : TableValue)
    (hf : Fits (r.key, tv)) :
    MemFits (s.store.write r tv) ∧ (∀ k, visible ((s.store.write r tv).view k)
      = if k = r.key then visible (some tv) else s.written k)
      ∧ Stage (s.store.write r tv) s.calls := by
  refine ⟨memFits_write h.fits hf, ?_,
    stage_of_tables s.store (s.store.write r tv) rfl (Nat.le_refl _) h.stage⟩
  intro k
  rw [view_write]
  split
  · rfl
  · exact h.reads k

/-- The condition on a swap, for the store behind the engine. -/
theorem swap_hides_nothing (hrep : SystemRep sys s) {i number : Nat}
    (hok : SwapsHideNothing sys (.advance i)) {old : List Table} {seen : Bytes → Option Bytes}
    {m : List Entry} (hi : s.calls[i]? = some (.built old seen number m)) (k : Bytes)
    (tv tv' : TableValue) (hmem : s.store.mem.lookup k = none)
    (hold : overlay (old.map Table.entries) k = some tv) (hvis : visible (some tv) ≠ none)
    (hnews : overlay ((s.store.remaining old).map Table.entries) k = some tv') :
    visible (some tv') = visible (some tv) := by
  obtain ⟨ccall, hci, hcall⟩ := KvMerging.forall₂_exists hrep.calls hi
  cases ccall with
  | built old number reader =>
      obtain ⟨hold', -, -, -⟩ := hcall
      refine hok old number reader hci k tv tv' ?_ ?_ hvis ?_
      · rw [models_get hrep.rep.mem, hmem]
      · rw [getFromTables_spec hold', hold]
      · rw [getFromTables_spec (forall₂_remaining hrep.rep hold'), hnews]
  | snapped old => exact hcall.elim
  | reserved old number => exact hcall.elim
  | deleting number paths => exact hcall.elim
  | finished => exact hcall.elim

/-- **Every action keeps reads current**, if its swap hides nothing. -/
theorem inFlight_step (hrep : SystemRep sys s) (h : InFlight (a :: as) s) (ha : a.Fits)
    (hok : SwapsHideNothing sys a) (hs : SharedStep s a s') : InFlight as s' := by
  cases hs with
  | put key value ht hfull =>
      subst ht
      obtain ⟨h1, h2, h3⟩ := h.write ⟨.PUT, key, value⟩ ⟨.kTypeValue, value⟩
        ⟨ha.1, Or.inr ⟨rfl, ha.2⟩⟩
      exact h.keep (by simp) h1 h2 h3
  | putFlush key value ht hfull =>
      subst ht
      obtain ⟨h1, h2, h3⟩ := h.write ⟨.PUT, key, value⟩ ⟨.kTypeValue, value⟩
        ⟨ha.1, Or.inr ⟨rfl, ha.2⟩⟩
      refine h.keep (by simp) (memFits_flush h1) ?_ (stage_flush h3)
      intro k
      rw [view_flush h1, h2 k]
      rfl
  | erase key =>
      obtain ⟨h1, h2, h3⟩ := h.write ⟨.ERASE, key, []⟩ ⟨.kTypeDeletion, []⟩
        ⟨ha, Or.inl ⟨rfl, rfl⟩⟩
      exact h.keep (by simp) h1 h2 h3
  | forceFlush =>
      refine h.keep (by simp) (memFits_flush h.fits) ?_ (stage_flush h.stage)
      intro k
      rw [view_flush h.fits, h.reads k]
  | beginNone hle =>
      -- this was the one call that a run may begin
      have honce := h.once
      rw [List.count_cons_self] at honce
      exact ⟨h.fits, h.reads, by omega, Or.inr (by omega), h.stage⟩
  | begin hlt =>
      have honce := h.once
      have hquiet := h.quiet
      rw [List.count_cons_self] at honce hquiet
      have hnil : s.calls = [] := hquiet.resolve_right (Nat.succ_ne_zero _)
      refine ⟨h.fits, h.reads, by omega, Or.inr (by omega), ?_⟩
      have hst := h.stage
      rw [hnil] at hst ⊢
      exact ⟨[], rfl, hst⟩
  | advanceNone hi => exact h.keep (by simp) h.fits h.reads h.stage
  | @reserve i old seen hi =>
      have hst : Stage s.store [.reserved old seen (s.store.counter + 1)] := (h.call hi).1
      exact h.goOn hi h.fits h.reads (stage_of_tables s.store s.store.reserve rfl (Nat.le_succ _) hst)
  | @build i old seen number m hi hm hne =>
      have hst : Stage s.store [.built old seen number m] := ⟨(h.call hi).1, hm⟩
      exact h.goOn hi h.fits h.reads
        (stage_of_tables s.store (s.store.writeMerged number m) rfl (Nat.le_refl _) hst)
  | buildEmpty hi hm => exact h.goOn hi h.fits h.reads trivial
  | swap hi =>
      obtain ⟨hover, hm⟩ := (h.call hi).1
      refine h.goOn hi h.fits ?_ trivial
      intro k
      rw [← h.reads k]
      exact visible_swap hover (good_of_rep hrep.rep) hm _ k (swap_hides_nothing hrep hok hi k)
  | @delete i number n ns hi =>
      -- only a file goes
      obtain ⟨h1, -, h3⟩ := deleteOld_memory s.store number n
      refine h.goOn hi ?_ ?_ trivial
      · intro kv hkv
        rw [h3] at hkv
        exact h.fits kv hkv
      · intro k
        rw [view_eq_of_layers h3 h1, h.reads k]
  | deleteDone hi => exact h.goOn hi h.fits h.reads trivial
  | idle hi => exact h.goOn hi h.fits h.reads trivial

end Step

/-- **Reads stay current while one compaction is in flight**, in every run whose
    swap hides nothing. -/
theorem get_in_flight (c : Config) {as : List Action} (hfits : ∀ a ∈ as, a.Fits)
    (hone : as.count .begin ≤ 1)
    (hmeets : ∀ e, start [] c = .ok e → Meets System.step SwapsHideNothing ⟨e, []⟩ as) :
    Runs (start [] c >>= fun e => as.foldlM System.step ⟨e, []⟩)
      (fun sys => ∀ key, sys.engine.get key = .ok (latestWrite as key)) := by
  obtain ⟨e, hrun, hrep⟩ := start_nil c
  have hfresh : InFlight as (freshShared c) := by
    refine ⟨?_, fun k => rfl, hone, Or.inl rfl, ⟨⟨List.Pairwise.nil, ?_⟩, ?_⟩⟩
    · intro kv hkv
      cases hkv
    · intro t ht
      cases ht
    · intro t ht
      cases ht
  have hsys : SystemRep ⟨e, []⟩ (freshShared c) := ⟨hrep, List.Forall₂.nil⟩
  rw [hrun, ok_bind]
  refine (actions_spec InFlight SwapsHideNothing inFlight_step as hfits (hmeets e hrun) hsys
    hfresh).mono ?_
  rintro sys' ⟨s', hrep', hj, hw⟩ key
  rw [hrep'.rep.get key, hj.reads key, hw]
  rfl

/-! ## A test of the condition -/

/-- The keys that a search of a block may come to. -/
def keysIn : Nat → Bytes → List Bytes
  | 0, _ => []
  | fuel + 1, mem =>
      let kLen := leNat ((mem.drop 1).take 4)
      let vLen := leNat ((mem.drop 5).take 4)
      (mem.drop 9).take kLen :: keysIn fuel (mem.drop (9 + kLen + vLen))

/-- What a search finds is among them. -/
theorem mem_keysIn {key : Bytes} {tv : TableValue} (fuel : Nat) :
    ∀ mem : Bytes, searchInDataBlock key fuel mem = .ok (some tv) → key ∈ keysIn fuel mem := by
  induction fuel with
  | zero =>
      intro mem h
      cases mem <;> cases h
  | succ fuel ih =>
      intro mem h
      cases mem with
      | nil => cases h
      | cons b bs =>
          rw [searchInDataBlock] at h
          · obtain ⟨rawType, -, h⟩ := bind_eq_ok.mp h
            obtain ⟨kLen, hk, h⟩ := bind_eq_ok.mp h
            obtain ⟨vLen, hv, h⟩ := bind_eq_ok.mp h
            obtain ⟨order, hcmp, h⟩ := bind_eq_ok.mp h
            rw [eq_take_of_readBytes hk] at hcmp h
            rw [eq_take_of_readBytes hv] at h
            simp only [List.drop_drop] at hcmp h
            rw [keysIn, List.mem_cons]
            by_cases hzero : order = 0
            · left
              subst hzero
              exact (take_of_compare_eq_zero hcmp).symm
            · right
              rw [if_neg hzero] at h
              split at h
              · cases h
              · exact ih _ h
          · intro hnil
            cases hnil

/-- The keys that a lookup in a table may find. -/
def keysOf (r : SSTableReader) : List Bytes :=
  r.indexEntries.flatMap fun e =>
    match pread r.maxRead r.fd e.size e.offset with
    | .ok (some data) => keysIn data.length data
    | _ => []

theorem mem_keysOf {r : SSTableReader} {key : Bytes} {tv : TableValue}
    (h : r.get key = .ok (some tv)) : key ∈ keysOf r := by
  rw [SSTableReader.get] at h
  split at h
  · cases h
  · rename_i e he
    obtain ⟨data, hread, h⟩ := bind_eq_ok.mp h
    cases data with
    | none => cases h
    | some data =>
        rw [keysOf, List.mem_flatMap]
        refine ⟨e, List.mem_of_getElem? he, ?_⟩
        rw [hread]
        exact mem_keysIn _ _ h

theorem mem_keysOf_of_getFromTables {key : Bytes} {tv : TableValue} :
    ∀ {rs : List SSTableReader}, getFromTables key rs = .ok (some tv) → key ∈ rs.flatMap keysOf := by
  intro rs
  induction rs with
  | nil =>
      intro h
      cases h
  | cons r rs ih =>
      intro h
      rw [getFromTables] at h
      obtain ⟨found, hget, h⟩ := bind_eq_ok.mp h
      rw [List.flatMap_cons, List.mem_append]
      cases found with
      | some tv' => exact Or.inl (mem_keysOf hget)
      | none => exact Or.inr (ih h)

/-- Whether a swap would hide a newer value of a key. -/
def hidesNothingAt (e : KVEngine) (old : List SSTableReader) (key : Bytes) : Bool :=
  match getFromTables key old, getFromTables key (e.remaining old) with
  | .ok (some tv), .ok (some tv') =>
      visible (some tv) = none || visible (some tv') = visible (some tv)
  | _, _ => true

/-- A test for `SwapsHideNothing`, over the keys of what was flushed since. -/
def swapTest (sys : System) : Action → Bool
  | .advance i =>
      match sys.calls[i]? with
      | some (.built old _ _) =>
          ((sys.engine.remaining old).flatMap keysOf).all (hidesNothingAt sys.engine old)
      | _ => true
  | _ => true

theorem swapsHideNothing_of_swapTest (sys : System) (a : Action) (h : swapTest sys a = true) :
    SwapsHideNothing sys a := by
  cases a with
  | advance i =>
      intro old number reader hi key tv tv' _ hold hvis hnews
      rw [swapTest, hi] at h
      have hkey := List.all_eq_true.mp h key (mem_keysOf_of_getFromTables hnews)
      rw [hidesNothingAt, hold, hnews] at hkey
      simpa [hvis] using hkey
  | _ => trivial

/-- Two tables are merged while others are flushed, an old value among them, and
    a put and an erase follow. -/
def writesInFlight : List Action :=
  [.put [107] [1], .forceFlush, .put [97] [1], .forceFlush, .begin, .put [122] [3], .put [107] [1],
    .forceFlush, .advance 0, .put [107] [2], .advance 0, .erase [97], .advance 0, .advance 0]

theorem get_in_flight_plain :
    Runs (start [] plainConfig >>= fun e => writesInFlight.foldlM System.step ⟨e, []⟩)
      (fun sys => ∀ key, sys.engine.get key = .ok (latestWrite writesInFlight key)) := by
  refine get_in_flight plainConfig (by decide) (by decide) ?_
  intro e he
  have hcheck : Yields (start [] plainConfig)
      (fun e => checkAll System.step swapTest ⟨e, []⟩ writesInFlight = true) := by
    decide +kernel
  exact meets_of_checkAll swapsHideNothing_of_swapTest (hcheck.of_eq_ok he)

/-- A key is overwritten and flushed between the snapshot and the swap. -/
def overtakenSwap : List Action :=
  [.put [107] [1], .forceFlush, .put [97] [1], .forceFlush, .begin, .put [107] [2], .forceFlush,
    .advance 0, .advance 0, .advance 0]

/-- **The swap puts the old value in front of the new one.** -/
theorem swap_reads_old_value :
    (∀ a ∈ overtakenSwap, a.Fits) ∧ overtakenSwap.count .begin = 1
      ∧ Yields (start [] plainConfig >>= fun e => overtakenSwap.foldlM System.step ⟨e, []⟩)
        (fun sys => sys.engine.get [107] = .ok (some [1]))
      ∧ latestWrite overtakenSwap [107] = some [2] := by
  refine ⟨by decide, by decide, ?_, by decide⟩
  decide +kernel

end KvCurrentReads
