import LightKV.KvCurrentReadsProofs
import LightKV.KvRecencyProofs

/-! # Scans and reads while compactions are in flight

    Calls of `Compact` run in stages between the operations of other clients,
    any number of them, as long as none takes its snapshot before the one before
    has replaced the list.  The list is then in order behind what a pending call
    has not merged yet, and out of order behind each swap; with its tables put in
    order the store shows the last writes at every moment (`Solo`).  So scans are
    always right (`scan_in_flight`), and point reads exactly while no swap hides
    a newer value (`get_in_flight_iff`). -/

namespace KvScansInFlight

open Execution KvBytes KvCompaction KvCurrentReads KvDirectory KvEngine KvInterleaving KvRecency
open KvRecovery KvScan KvSession KvSkipList KvStore KvTable Overlay

/-! ## One pending call at a time -/

/-- A call that has not replaced the list yet. -/
def CompactCall.pending : CompactCall → Bool
  | .snapped _ | .reserved _ _ | .built _ _ _ => true
  | .deleting _ _ | .finished => false

/-- Nobody takes a snapshot while a call is pending. -/
def alone (sys : System) : Action → Bool
  | .begin => sys.calls.all (fun call => !CompactCall.pending call)
  | _ => true

/-- The same of a call on the store. -/
def Call.pending : Call → Bool
  | .snapped _ _ | .reserved _ _ _ | .built _ _ _ _ => true
  | .deleting _ _ | .finished => false

theorem pending_of_callRep {cc : CompactCall} {c : Call} (h : CallRep cc c) :
    CompactCall.pending cc = Call.pending c := by
  cases cc <;> cases c <;> first | rfl | exact h.elim

theorem not_pending_of_alone {sys : System} {s : Shared} (h : SystemRep sys s)
    (ha : alone sys .begin = true) : ∀ c ∈ s.calls, Call.pending c = false := by
  intro c hc
  obtain ⟨cc, hcc, hrep⟩ := KvMerging.forall₂_mem_right h.calls hc
  have hnot := List.all_eq_true.mp ha cc hcc
  rwa [Bool.not_eq_true', pending_of_callRep hrep] at hnot

/-- What no call had before is at the call that was added. -/
theorem eq_length_of_append {C : Type} {calls : List C} {p : C → Prop} (h : ∀ c ∈ calls, ¬ p c)
    {call c : C} {i : Nat} (hi : (calls ++ [call])[i]? = some c) (hc : p c) :
    i = calls.length := by
  rcases Nat.lt_or_ge i calls.length with hlt | hge
  · rw [List.getElem?_append_left hlt] at hi
    exact absurd hc (h c (List.mem_of_getElem? hi))
  · have hbound := (List.getElem?_eq_some_iff.mp hi).1
    rw [List.length_append, List.length_singleton] at hbound
    omega

/-! ## The invariant -/

/-- File numbers are taken once. -/
structure Numbered (s : Store) : Prop where
  nodup : (s.tables.map Table.number).Nodup
  le_counter : ∀ t ∈ s.tables, t.number ≤ s.counter

/-- A number that was taken and is not a table's. -/
def Reserved (s : Store) (number : Nat) : Prop :=
  number ≤ s.counter ∧ ∀ t ∈ s.tables, t.number ≠ number

/-- Both in the list and in order, the snapshot comes last. -/
def Awaits (s : Store) (ts old : List Table) : Prop :=
  ∃ news olds, s.tables = news ++ old ∧ ts = news ++ olds ∧ olds.Perm old ∧ old ≠ []

/-- What holds of a call at its stage. -/
def CallAwaits (s : Store) (ts : List Table) : Call → Prop
  | .snapped old _ => Awaits s ts old
  | .reserved old _ number => Awaits s ts old ∧ Reserved s number
  | .built old _ number m => Awaits s ts old ∧ Reserved s number ∧ Merged old m
  | _ => True

/-- **The store with its tables in order shows what was written.** -/
structure InOrder (s : Store) (written : Bytes → Option Bytes) (calls : List Call)
    (ts : List Table) : Prop where
  perm : ts.Perm s.tables
  agrees : Agrees written (Store.reorder s ts)
  calls : ∀ c ∈ calls, CallAwaits s ts c

/-- **What holds while no two calls are pending.** -/
structure Solo (s : Shared) : Prop where
  numbered : Numbered s.store
  alone : ∀ {i j : Nat} {c d : Call}, s.calls[i]? = some c → s.calls[j]? = some d →
    Call.pending c = true → Call.pending d = true → i = j
  ordered : ∃ ts, InOrder s.store s.written s.calls ts

theorem callAwaits_of_not_pending {c : Call} (h : Call.pending c = false) (s : Store)
    (ts : List Table) : CallAwaits s ts c := by
  cases c with
  | snapped old seen => cases h
  | reserved old seen n => cases h
  | built old seen n m => cases h
  | deleting n ns => trivial
  | finished => trivial

theorem InOrder.recent {s : Store} {g : Bytes → Option Bytes} {calls : List Call}
    {ts : List Table} (h : InOrder s g calls ts) : Recent s ts := ⟨h.perm, h.agrees.tidy⟩

/-! ## What other clients do -/

variable {s : Store} {ts : List Table}

/-- A store that differs in what scans do not look at. -/
theorem agrees_of_memory (s s' : Store) {g : Bytes → Option Bytes} (ht : s'.tables = s.tables)
    (hm : s'.mem = s.mem) (hc : s.counter ≤ s'.counter) (h : Agrees g s) : Agrees g s' := by
  refine ⟨⟨ht ▸ h.tidy.ordered, ?_⟩, ?_, ?_⟩
  · intro t hmem
    exact (h.tidy.below t (ht ▸ hmem)).trans hc
  · intro kv hkv
    exact h.fits kv (hm ▸ hkv)
  · intro k
    rw [view_eq_of_layers hm ht, h.reads k]

theorem numbered_of_tables {s' : Store} (ht : s'.tables = s.tables) (hc : s.counter ≤ s'.counter)
    (h : Numbered s) : Numbered s' :=
  ⟨ht ▸ h.nodup, fun t hmem => (h.le_counter t (ht ▸ hmem)).trans hc⟩

theorem Numbered.write (h : Numbered s) (r : KvWal.ParsedLogRecord) (tv : TableValue) :
    Numbered (s.write r tv) := ⟨h.nodup, h.le_counter⟩

theorem callAwaits_of_tables {s' : Store} (ht : s'.tables = s.tables)
    (hc : s.counter ≤ s'.counter) {c : Call} (h : CallAwaits s ts c) : CallAwaits s' ts c := by
  have hawaits : ∀ {old : List Table}, Awaits s ts old → Awaits s' ts old := by
    rintro old ⟨news, olds, hs, hts⟩
    exact ⟨news, olds, ht.trans hs, hts⟩
  have hreserved : ∀ {n : Nat}, Reserved s n → Reserved s' n := by
    rintro n ⟨hle, hne⟩
    exact ⟨hle.trans hc, fun t hmem => hne t (ht ▸ hmem)⟩
  cases c with
  | snapped old seen => exact hawaits h
  | reserved old seen n => exact ⟨hawaits h.1, hreserved h.2⟩
  | built old seen n m => exact ⟨hawaits h.1, hreserved h.2.1, h.2.2⟩
  | deleting n ns => trivial
  | finished => trivial

/-- What a scan does not look at may change. -/
theorem InOrder.of_memory {s' : Store} {g : Bytes → Option Bytes} {calls : List Call}
    (h : InOrder s g calls ts) (ht : s'.tables = s.tables) (hm : s'.mem = s.mem)
    (hc : s.counter ≤ s'.counter) : InOrder s' g calls ts :=
  ⟨ht ▸ h.perm, agrees_of_memory (Store.reorder s ts) (Store.reorder s' ts) rfl hm hc h.agrees,
    fun c hmem => callAwaits_of_tables ht hc (h.calls c hmem)⟩

/-- A flush changes nothing, or it puts a new table in front. -/
theorem flush_cases (s : Store) : s.flush = s
    ∨ ∃ t, t.number = s.counter + 1 ∧ s.flush.tables = t :: s.tables
      ∧ s.flush.counter = s.counter + 1
      ∧ ∀ ts, (Store.reorder s ts).flush = Store.reorder s.flush (t :: ts) := by
  by_cases hnil : s.mem = []
  · exact Or.inl (if_pos hnil)
  · have hflush : s.flush = { s.writeTable.rotateWal with
        mem := []
        logs := discard s.log s.writeTable.rotateWal.logs } := if_neg hnil
    refine Or.inr ⟨⟨s.counter + 1, s.counter + 1, storedLayer s.mem⟩, rfl, ?_, ?_, ?_⟩
    · rw [hflush]
      rfl
    · rw [hflush]
      rfl
    · intro ts
      rw [hflush]
      exact if_neg hnil

theorem numbered_flush (h : Numbered s) : Numbered s.flush := by
  rcases flush_cases s with heq | ⟨t, hnum, htables, hcounter, -⟩
  · rwa [heq]
  · refine ⟨?_, ?_⟩
    · rw [htables, List.map_cons, List.nodup_cons]
      refine ⟨?_, h.nodup⟩
      intro hmem
      obtain ⟨u, hu, heq⟩ := List.mem_map.mp hmem
      have hle := h.le_counter u hu
      omega
    · rw [htables, hcounter]
      intro u hu
      rcases List.mem_cons.mp hu with rfl | hu'
      · exact hnum.le
      · exact (h.le_counter u hu').trans (Nat.le_succ _)

theorem callAwaits_flush {t : Table} (hnum : t.number = s.counter + 1)
    (htables : s.flush.tables = t :: s.tables) (hcounter : s.flush.counter = s.counter + 1)
    {c : Call} (h : CallAwaits s ts c) : CallAwaits s.flush (t :: ts) c := by
  have hawaits : ∀ {old : List Table}, Awaits s ts old → Awaits s.flush (t :: ts) old := by
    rintro old ⟨news, olds, hs, hts, hrest⟩
    exact ⟨t :: news, olds, by rw [htables, hs]; rfl, by rw [hts]; rfl, hrest⟩
  have hreserved : ∀ {n : Nat}, Reserved s n → Reserved s.flush n := by
    rintro n ⟨hle, hne⟩
    refine ⟨by omega, ?_⟩
    rw [htables]
    intro u hu
    rcases List.mem_cons.mp hu with rfl | hu'
    · omega
    · exact hne u hu'
  cases c with
  | snapped old seen => exact hawaits h
  | reserved old seen n => exact ⟨hawaits h.1, hreserved h.2⟩
  | built old seen n m => exact ⟨hawaits h.1, hreserved h.2.1, h.2.2⟩
  | deleting n ns => trivial
  | finished => trivial

theorem inOrder_flush {g : Bytes → Option Bytes} {calls : List Call}
    (h : ∃ ts, InOrder s g calls ts) : ∃ ts, InOrder s.flush g calls ts := by
  obtain ⟨ts, h⟩ := h
  have hflush := agrees_flush h.agrees
  rcases flush_cases s with heq | ⟨t, hnum, htables, hcounter, hts⟩
  · rw [heq]
    exact ⟨ts, h⟩
  · rw [hts] at hflush
    refine ⟨t :: ts, htables ▸ h.perm.cons t, hflush, ?_⟩
    intro c hc
    exact callAwaits_flush hnum htables hcounter (h.calls c hc)

theorem InOrder.write {g : Bytes → Option Bytes} {calls : List Call} (h : InOrder s g calls ts)
    (r : KvWal.ParsedLogRecord) (tv : TableValue) (hf : Fits (r.key, tv)) :
    InOrder (s.write r tv) (fun k => if k = r.key then visible (some tv) else g k) calls ts :=
  ⟨h.perm, agrees_write h.agrees r tv hf,
    fun c hc => callAwaits_of_tables (s := s) (rfl : (s.write r tv).tables = s.tables)
      (Nat.le_refl _) (h.calls c hc)⟩

/-! ## The swap -/

/-- Putting the live part of a layer in the place of it changes no read. -/
theorem visible_or_live (a b : Option TableValue) :
    visible (a.or (live b)) = visible (a.or b) := by
  cases a with
  | some tv => rfl
  | none =>
      rw [Option.none_or, Option.none_or]
      exact visible_live b

/-- A swap keeps what was flushed since the snapshot. -/
theorem remaining_eq {news old : List Table} (hs : s.tables = news ++ old) (h : Numbered s) :
    s.remaining old = news := by
  have hnodup := h.nodup
  rw [hs, List.map_append, List.nodup_append] at hnodup
  rw [Store.remaining, hs, List.filter_append]
  have hkeep : news.filter (fun u => !(old.map Table.number).contains u.number) = news := by
    rw [List.filter_eq_self]
    intro u hu
    rw [Bool.not_eq_true', ← Bool.not_eq_true, List.contains_iff_mem]
    exact fun hmem => hnodup.2.2 u.number (List.mem_map_of_mem hu) u.number hmem rfl
  have hdrop : old.filter (fun u => !(old.map Table.number).contains u.number) = [] := by
    rw [List.filter_eq_nil_iff]
    intro u hu
    have hmem : (old.map Table.number).contains u.number = true :=
      List.contains_iff_mem.mpr (List.mem_map_of_mem hu)
    simp only [hmem, Bool.not_true, Bool.false_eq_true, not_false_eq_true]
  rw [hkeep, hdrop, List.append_nil]

theorem numbered_swap {news old : List Table} (hs : s.tables = news ++ old) (h : Numbered s)
    {number : Nat} (hres : Reserved s number) (m : List Entry) :
    Numbered (s.swap old ⟨number, 0, m⟩) := by
  have htables : (s.swap old ⟨number, 0, m⟩).tables = ⟨number, 0, m⟩ :: news := by
    rw [Store.swap, remaining_eq hs h]
  have hsub : ∀ t ∈ news, t ∈ s.tables := fun t ht => hs ▸ List.mem_append_left _ ht
  constructor
  · rw [htables, List.map_cons, List.nodup_cons]
    refine ⟨?_, ?_⟩
    · intro hmem
      obtain ⟨u, hu, heq⟩ := List.mem_map.mp hmem
      exact hres.2 u (hsub u hu) heq
    · have hnodup := h.nodup
      rw [hs, List.map_append] at hnodup
      exact (List.nodup_append.mp hnodup).1
  · rw [htables]
    intro t ht
    rcases List.mem_cons.mp ht with rfl | ht'
    · exact hres.1
    · exact h.le_counter t (hsub t ht')

/-- **A swap keeps what scans show.**  In order, the merged table comes last, in
    the place of the tables it was merged from. -/
theorem inOrder_swap {g : Bytes → Option Bytes} {old : List Table}
    (h : ∃ ts, ts.Perm s.tables ∧ Agrees g (Store.reorder s ts) ∧ Awaits s ts old)
    (hnum : Numbered s) (hgood : ∀ t ∈ s.tables, GoodTable t) {m : List Entry}
    (hm : Merged old m) (number : Nat) :
    ∃ ts, ts.Perm (s.swap old ⟨number, 0, m⟩).tables
      ∧ Agrees g (Store.reorder (s.swap old ⟨number, 0, m⟩) ts) := by
  obtain ⟨ts, -, hagrees, news, olds, hs, rfl, hperm, hne⟩ := h
  obtain ⟨hnews, holds, hcross⟩ := List.pairwise_append.mp hagrees.tidy.ordered
  refine ⟨news ++ [⟨number, 0, m⟩], ?_, ⟨?_, ?_⟩, hagrees.fits, ?_⟩
  · rw [Store.swap, remaining_eq hs hnum]
    exact List.perm_append_singleton _ _
  · -- what was flushed since has a positive number
    refine List.pairwise_append.mpr ⟨hnews, List.pairwise_singleton _ _, ?_⟩
    intro t ht u hu
    obtain ⟨o, ho⟩ := List.exists_mem_of_ne_nil old hne
    rw [List.mem_singleton.mp hu]
    exact Nat.lt_of_le_of_lt (Nat.zero_le _) (hcross t ht o (hperm.mem_iff.mpr ho))
  · intro t ht
    rcases List.mem_append.mp ht with ht' | ht'
    · exact hagrees.tidy.below t (List.mem_append_left _ ht')
    · rw [List.mem_singleton.mp ht']
      exact Nat.zero_le _
  · intro k
    have hlook := lookup_merged_of_descending (merged_of_perm hm hperm.symm)
      (fun t ht => (hgood t (hs ▸ List.mem_append_right _ (hperm.mem_iff.mp ht))).1) holds k
    have hview : (Store.reorder s (news ++ olds)).view k = (s.mem.lookup k).or
        ((overlay (news.map Table.entries) k).or (overlay (olds.map Table.entries) k)) := by
      rw [Store.view, overlay_cons]
      show (s.mem.lookup k).or (overlay ((news ++ olds).map Table.entries) k) = _
      rw [List.map_append, overlay_append]
    rw [← hagrees.reads k, hview, Store.view, overlay_cons]
    show visible ((s.mem.lookup k).or
      (overlay ((news ++ [Table.mk number 0 m]).map Table.entries) k)) = _
    rw [List.map_append, overlay_append, List.map_singleton, overlay_cons, overlay_nil,
      Option.or_none, hlook, ← Option.or_assoc, ← Option.or_assoc, visible_or_live]

/-! ## Every action -/

section Step

variable {sys : System} {s s' : Shared} {a : Action}

/-- The calls that a set leaves, when one of them is pending. -/
theorem callAwaits_set {calls : List Call} {i : Nat} {call call' : Call} {t : Store}
    {ts : List Table}
    (halone : ∀ {i j : Nat} {c d : Call}, calls[i]? = some c → calls[j]? = some d →
      Call.pending c = true → Call.pending d = true → i = j)
    (hi : calls[i]? = some call) (hcall : Call.pending call = true)
    (h : CallAwaits t ts call') : ∀ c ∈ calls.set i call', CallAwaits t ts c := by
  intro c hc
  obtain ⟨j, hj⟩ := List.mem_iff_getElem?.mp hc
  rw [List.getElem?_set] at hj
  by_cases hij : i = j
  · subst hij
    rw [if_pos rfl, if_pos (List.getElem?_eq_some_iff.mp hi).1] at hj
    exact Option.some.inj hj ▸ h
  · rw [if_neg hij] at hj
    cases hp : Call.pending c with
    | true => exact absurd (halone hi hj hcall hp) hij
    | false => exact callAwaits_of_not_pending hp t ts

/-- A call that goes on is pending only if it was. -/
theorem alone_set {calls : List Call} {i : Nat} {call call' : Call}
    (halone : ∀ {i j : Nat} {c d : Call}, calls[i]? = some c → calls[j]? = some d →
      Call.pending c = true → Call.pending d = true → i = j)
    (hi : calls[i]? = some call)
    (hcall : Call.pending call' = true → Call.pending call = true) {j k : Nat} {c d : Call}
    (hj : (calls.set i call')[j]? = some c) (hk : (calls.set i call')[k]? = some d)
    (hc : Call.pending c = true) (hd : Call.pending d = true) : j = k := by
  have hold : ∀ {l : Nat} {b : Call}, (calls.set i call')[l]? = some b → Call.pending b = true →
      ∃ b', calls[l]? = some b' ∧ Call.pending b' = true := by
    intro l b hl hb
    rw [List.getElem?_set] at hl
    by_cases hil : i = l
    · subst hil
      rw [if_pos rfl, if_pos (List.getElem?_eq_some_iff.mp hi).1] at hl
      exact ⟨call, hi, hcall (Option.some.inj hl ▸ hb)⟩
    · rw [if_neg hil] at hl
      exact ⟨b, hl, hb⟩
  obtain ⟨c', hj', hc'⟩ := hold hj hc
  obtain ⟨d', hk', hd'⟩ := hold hk hd
  exact halone hj' hk' hc' hd'

/-- What other clients do leaves the calls as they are. -/
theorem Solo.keep (h : Solo s) {t : Store} {written flushed : Bytes → Option Bytes}
    (hnum : Numbered t) (hord : ∃ ts, InOrder t written s.calls ts) :
    Solo { s with store := t, written := written, flushed := flushed } :=
  ⟨hnum, h.alone, hord⟩

/-- A call goes on, and no scan looks at what it does. -/
theorem Solo.goOn (h : Solo s) {i : Nat} {call call' : Call} (hi : s.calls[i]? = some call)
    {t : Store} (ht : t.tables = s.store.tables) (hm : t.mem = s.store.mem)
    (hc : s.store.counter ≤ t.counter)
    (hpending : Call.pending call' = true → Call.pending call = true)
    (hcall : ∀ ts, CallAwaits t ts call → CallAwaits t ts call') :
    Solo { s with store := t, calls := s.calls.set i call' } := by
  obtain ⟨ts, hts⟩ := h.ordered
  have hts' := hts.of_memory ht hm hc
  refine ⟨numbered_of_tables ht hc h.numbered, alone_set h.alone hi hpending, ts, hts'.perm,
    hts'.agrees, ?_⟩
  intro c hmem
  rcases List.mem_or_eq_of_mem_set hmem with hmem' | rfl
  · exact hts'.calls c hmem'
  · exact hcall ts (hts'.calls call (List.mem_of_getElem? hi))

/-- **Every action keeps what scans show.** -/
theorem solo_step (hrep : SystemRep sys s) (h : Solo s) (ha : a.Fits) (hok : alone sys a = true)
    (hs : SharedStep s a s') : Solo s' := by
  cases hs with
  | @put key value t ht hfull =>
      subst ht
      obtain ⟨ts, hts⟩ := h.ordered
      exact h.keep (h.numbered.write _ _)
        ⟨ts, hts.write ⟨.PUT, key, value⟩ ⟨.kTypeValue, value⟩ ⟨ha.1, Or.inr ⟨rfl, ha.2⟩⟩⟩
  | @putFlush key value t ht hfull =>
      subst ht
      obtain ⟨ts, hts⟩ := h.ordered
      exact h.keep (numbered_flush (h.numbered.write _ _))
        (inOrder_flush ⟨ts, hts.write ⟨.PUT, key, value⟩ ⟨.kTypeValue, value⟩
          ⟨ha.1, Or.inr ⟨rfl, ha.2⟩⟩⟩)
  | erase key =>
      obtain ⟨ts, hts⟩ := h.ordered
      exact h.keep (h.numbered.write _ _)
        ⟨ts, hts.write ⟨.ERASE, key, []⟩ ⟨.kTypeDeletion, []⟩ ⟨ha, Or.inl ⟨rfl, rfl⟩⟩⟩
  | forceFlush => exact h.keep (numbered_flush h.numbered) (inOrder_flush h.ordered)
  | beginNone hle => exact h
  | begin hlt =>
      obtain ⟨ts, hts⟩ := h.ordered
      have hnone := not_pending_of_alone hrep hok
      have hne : s.store.tables ≠ [] := by
        intro hnil
        rw [hnil] at hlt
        cases hlt
      refine ⟨h.numbered, ?_, ts, hts.perm, hts.agrees, ?_⟩
      · -- only the new call is pending
        have hlast : ∀ {i : Nat} {c : Call},
            (s.calls ++ [Call.snapped s.store.tables s.flushed])[i]? = some c →
            Call.pending c = true → i = s.calls.length :=
          fun hi hc => eq_length_of_append (p := fun c => Call.pending c = true)
            (fun c hc' => Bool.eq_false_iff.mp (hnone c hc')) hi hc
        intro i j c d hi hj hc hd
        rw [hlast hi hc, hlast hj hd]
      · intro c hc
        rcases List.mem_append.mp hc with hc' | hc'
        · exact hts.calls c hc'
        · rw [List.mem_singleton.mp hc']
          exact ⟨[], ts, rfl, rfl, hts.perm, hne⟩
  | advanceNone hi => exact h
  | @reserve i old seen hi =>
      refine h.goOn hi rfl rfl (Nat.le_succ _) (fun _ => rfl) ?_
      intro ts hts
      refine ⟨hts, Nat.le_refl _, ?_⟩
      intro t ht
      have hle := h.numbered.le_counter t ht
      omega
  | @build i old seen number m hi hm hne =>
      exact h.goOn hi rfl rfl (Nat.le_refl _) (fun _ => rfl) (fun ts hts => ⟨hts.1, hts.2, hm⟩)
  | buildEmpty hi hm =>
      exact h.goOn hi rfl rfl (Nat.le_refl _) (fun hp => by cases hp) (fun _ _ => trivial)
  | @swap i old seen number m hi =>
      obtain ⟨ts, hts⟩ := h.ordered
      obtain ⟨hawaits, hres, hm⟩ := hts.calls _ (List.mem_of_getElem? hi)
      obtain ⟨ts', hperm, hagrees⟩ := inOrder_swap ⟨ts, hts.perm, hts.agrees, hawaits⟩ h.numbered
        (good_of_rep hrep.rep) hm number
      obtain ⟨news, olds, htables, -⟩ := hawaits
      exact ⟨numbered_swap htables h.numbered hres m, alone_set h.alone hi (fun hp => by cases hp),
        ts', hperm, hagrees, callAwaits_set h.alone hi rfl trivial⟩
  | @delete i number n ns hi =>
      obtain ⟨h1, h2, h3⟩ := deleteOld_memory s.store number n
      exact h.goOn hi h1 h3 h2.ge (fun hp => by cases hp) (fun _ _ => trivial)
  | deleteDone hi =>
      exact h.goOn hi rfl rfl (Nat.le_refl _) (fun hp => by cases hp) (fun _ _ => trivial)
  | idle hi => exact h.goOn hi rfl rfl (Nat.le_refl _) (fun hp => by cases hp) (fun _ _ => trivial)

end Step

/-! ## Scans -/

theorem solo_fresh (c : Config) : Solo (freshShared c) := by
  refine ⟨⟨List.nodup_nil, fun t ht => absurd ht List.not_mem_nil⟩, ?_, [], List.Perm.refl _,
    ⟨⟨List.Pairwise.nil, fun t ht => absurd ht List.not_mem_nil⟩,
      fun kv hkv => absurd hkv List.not_mem_nil, fun k => rfl⟩,
    fun c hc => absurd hc List.not_mem_nil⟩
  intro i j c d hi
  cases hi

/-- **What a run leaves**, while no two calls are pending. -/
theorem solo_run (c : Config) {as : List Action} (hfits : ∀ a ∈ as, a.Fits)
    (halone : ∀ e, start [] c = .ok e →
      Meets System.step (fun sys a => alone sys a = true) ⟨e, []⟩ as) :
    Runs (start [] c >>= fun e => as.foldlM System.step ⟨e, []⟩)
      (fun sys => ∃ s, SystemRep sys s ∧ Solo s ∧ s.written = latestWrite as) := by
  obtain ⟨e, hrun, hrep⟩ := start_nil c
  rw [hrun, ok_bind]
  exact actions_spec (fun _ s => Solo s) (fun sys a => alone sys a = true)
    (fun hrep h ha hok hs => solo_step hrep h ha hok hs) as hfits (halone e hrun)
    ⟨hrep, List.Forall₂.nil⟩ (solo_fresh c)

/-- **Scans are right at every moment**, also while a compaction is in flight and
    behind a swap that brought old values to the front. -/
theorem scan_in_flight (c : Config) {as : List Action} (hfits : ∀ a ∈ as, a.Fits)
    (halone : ∀ e, start [] c = .ok e →
      Meets System.step (fun sys a => alone sys a = true) ⟨e, []⟩ as) :
    Runs (start [] c >>= fun e => as.foldlM System.step ⟨e, []⟩)
      (fun sys => ∀ startKey endKey, ∃ out, scan sys.engine startKey endKey = .ok out
        ∧ KeySorted out ∧ ∀ k v, (k, v) ∈ out
          ↔ startKey ≤ k ∧ k < endKey ∧ latestWrite as k = some v) := by
  refine (solo_run c hfits halone).mono ?_
  rintro sys ⟨s, hrep, h, hw⟩ startKey endKey
  obtain ⟨ts, hts⟩ := h.ordered
  obtain ⟨out, hscan, hsorted, hmem⟩ := scan_recent hrep.rep hts.recent startKey endKey
  refine ⟨out, hscan, hsorted, ?_⟩
  intro k v
  rw [hmem, hts.agrees.reads k, hw]

/-- After the swap that hides a newer value, another compaction is in flight. -/
def twoCompactions : List Action :=
  overtakenSwap ++ [.advance 0, .erase [97], .forceFlush, .begin, .put [98] [3], .advance 1,
    .forceFlush, .advance 1, .advance 1]

theorem scan_in_flight_twoCompactions :
    Runs (start [] plainConfig >>= fun e => twoCompactions.foldlM System.step ⟨e, []⟩)
      (fun sys => ∀ startKey endKey, ∃ out, scan sys.engine startKey endKey = .ok out
        ∧ KeySorted out ∧ ∀ k v, (k, v) ∈ out
          ↔ startKey ≤ k ∧ k < endKey ∧ latestWrite twoCompactions k = some v) := by
  refine scan_in_flight plainConfig (by decide) ?_
  intro e he
  have hcheck : Yields (start [] plainConfig)
      (fun e => checkAll System.step alone ⟨e, []⟩ twoCompactions = true) := by
    decide +kernel
  exact meets_of_checkAll (fun _ _ h => h) (hcheck.of_eq_ok he)

/-! ## Point reads -/

/-- **A swap agrees with what was flushed since**: no key that the memtable does
    not hold has one value in the merged table and another in the tables that
    the swap keeps. -/
def SwapAgrees (sys : System) : Action → Prop
  | .advance i => ∀ old number reader, sys.calls[i]? = some (.built old number reader) →
      ∀ key tv tv', sys.engine.skiplist.get key = .ok none → reader.get key = .ok (some tv) →
        getFromTables key (sys.engine.remaining old) = .ok (some tv') →
        visible (some tv') = visible (some tv)
  | _ => True

/-- Point reads find the last writes. -/
def Current (s : Shared) : Prop := ∀ k, visible (s.store.view k) = s.written k

/-- **The reads behind a swap**, whatever they were before it. -/
theorem current_swap_iff {g : Bytes → Option Bytes} {old : List Table}
    (h : ∃ ts, Agrees g (Store.reorder s ts) ∧ Awaits s ts old) (hnum : Numbered s)
    (hgood : ∀ t ∈ s.tables, GoodTable t) {m : List Entry} (hm : Merged old m) (number : Nat) :
    (∀ k, visible ((s.swap old ⟨number, 0, m⟩).view k) = g k)
      ↔ ∀ k tv tv', s.mem.lookup k = none → m.lookup k = some tv →
        overlay ((s.remaining old).map Table.entries) k = some tv' →
        visible (some tv') = visible (some tv) := by
  obtain ⟨ts, hagrees, news, olds, hs, rfl, hperm, -⟩ := h
  have holds := (List.pairwise_append.mp hagrees.tidy.ordered).2.1
  have hlook := fun k => lookup_merged_of_descending (merged_of_perm hm hperm.symm)
    (fun t ht => (hgood t (hs ▸ List.mem_append_right _ (hperm.mem_iff.mp ht))).1) holds k
  have hg : ∀ k, g k = visible ((s.mem.lookup k).or
      ((overlay (news.map Table.entries) k).or (m.lookup k))) := by
    intro k
    rw [hlook k, ← Option.or_assoc, visible_or_live, Option.or_assoc, ← hagrees.reads k,
      Store.view, overlay_cons]
    show visible ((s.mem.lookup k).or (overlay ((news ++ olds).map Table.entries) k)) = _
    rw [List.map_append, overlay_append]
  have hview : ∀ k, (s.swap old ⟨number, 0, m⟩).view k = (s.mem.lookup k).or
      ((m.lookup k).or (overlay (news.map Table.entries) k)) := by
    intro k
    rw [Store.view, overlay_cons, Store.swap, List.map_cons, overlay_cons,
      remaining_eq hs hnum]
  rw [remaining_eq hs hnum]
  constructor
  · intro hreads k tv tv' hmem hmerged hnews
    have hk := hreads k
    rw [hview k, hg k, hmem, hmerged, hnews] at hk
    exact hk.symm
  · intro hsame k
    rw [hview k, hg k]
    cases hmem : s.mem.lookup k with
    | some tv => rfl
    | none =>
        cases hmerged : m.lookup k with
        | none => rw [Option.none_or, Option.or_none]
        | some tv =>
            cases hnews : overlay (news.map Table.entries) k with
            | none => rfl
            | some tv' => exact (hsame k tv tv' hmem hmerged hnews).symm

section Step

variable {sys : System} {s s' : Shared} {a : Action}

/-- The condition on a swap, for the store behind the engine. -/
theorem swapAgrees_iff (hrep : SystemRep sys s) {i number : Nat} {old : List Table}
    {seen : Bytes → Option Bytes} {m : List Entry}
    (hi : s.calls[i]? = some (.built old seen number m)) :
    SwapAgrees sys (.advance i) ↔ ∀ k tv tv', s.store.mem.lookup k = none → m.lookup k = some tv →
      overlay ((s.store.remaining old).map Table.entries) k = some tv' →
      visible (some tv') = visible (some tv) := by
  obtain ⟨cc, hcc, hcall⟩ := KvMerging.forall₂_exists hrep.calls hi
  cases cc with
  | built readers number' reader =>
      obtain ⟨hold, -, -, hreader⟩ := hcall
      have hkey : ∀ k, sys.engine.skiplist.get k = .ok (s.store.mem.lookup k)
          ∧ reader.get k = .ok (m.lookup k)
          ∧ getFromTables k (sys.engine.remaining readers)
            = .ok (overlay ((s.store.remaining old).map Table.entries) k) := fun k =>
        ⟨models_get hrep.rep.mem k, get_of_readerOf hreader k,
          getFromTables_spec (forall₂_remaining hrep.rep hold) k⟩
      constructor
      · intro h k tv tv' hmem hm hnews
        obtain ⟨h1, h2, h3⟩ := hkey k
        exact h readers number' reader hcc k tv tv' (hmem ▸ h1) (hm ▸ h2) (hnews ▸ h3)
      · intro h readers' n r hcc' k tv tv' hmem hm hnews
        have hsame := Option.some.inj (hcc.symm.trans hcc')
        injection hsame with hreaders _ hr
        subst hreaders
        subst hr
        obtain ⟨h1, h2, h3⟩ := hkey k
        exact h k tv tv' (Except.ok.inj (h1.symm.trans hmem)) (Except.ok.inj (h2.symm.trans hm))
          (Except.ok.inj (h3.symm.trans hnews))
  | snapped old => exact hcall.elim
  | reserved old number => exact hcall.elim
  | deleting number paths => exact hcall.elim
  | finished => exact hcall.elim

/-- Where no call is about to swap, there is no condition. -/
theorem swapAgrees_of_call (hrep : SystemRep sys s) {i : Nat} {c : Call}
    (hi : s.calls[i]? = some c) (hc : ∀ old seen number m, c ≠ .built old seen number m) :
    SwapAgrees sys (.advance i) := by
  intro old number reader hcc
  obtain ⟨cc, hcc', hcall⟩ := KvMerging.forall₂_exists hrep.calls hi
  obtain rfl : cc = .built old number reader := Option.some.inj (hcc'.symm.trans hcc)
  cases c with
  | built old' seen number' m => exact absurd rfl (hc _ _ _ _)
  | snapped old seen => exact hcall.elim
  | reserved old seen number => exact hcall.elim
  | deleting number ns => exact hcall.elim
  | finished => exact hcall.elim

/-- **Reads stay current** in a step exactly when its swap agrees. -/
theorem current_step (hrep : SystemRep sys s) (h : Solo s) (hcur : Current s) (ha : a.Fits)
    (hs : SharedStep s a s') : Current s' ↔ SwapAgrees sys a := by
  obtain ⟨ts, hts⟩ := h.ordered
  have hfits : MemFits s.store := hts.agrees.fits
  have hwrite : ∀ (r : KvWal.ParsedLogRecord) (tv : TableValue) (k : Bytes),
      visible ((s.store.write r tv).view k)
        = if k = r.key then visible (some tv) else s.written k := by
    intro r tv k
    rw [view_write]
    split
    · rfl
    · exact hcur k
  have hsame : ∀ {t : Store} {i : Nat} {c c' : Call}, s.calls[i]? = some c →
      (∀ old seen number m, c ≠ .built old seen number m) → t.mem = s.store.mem →
      t.tables = s.store.tables →
      (Current { s with store := t, calls := s.calls.set i c' } ↔ SwapAgrees sys (.advance i)) := by
    intro t i c c' hi hc hm ht
    refine iff_of_true ?_ (swapAgrees_of_call hrep hi hc)
    intro k
    show visible (t.view k) = s.written k
    rw [view_eq_of_layers hm ht, hcur k]
  cases hs with
  | @put key value t ht hfull =>
      subst ht
      exact iff_of_true (hwrite ⟨.PUT, key, value⟩ ⟨.kTypeValue, value⟩) trivial
  | @putFlush key value t ht hfull =>
      subst ht
      refine iff_of_true ?_ trivial
      intro k
      show visible ((s.store.write ⟨.PUT, key, value⟩ ⟨.kTypeValue, value⟩).flush.view k) = _
      rw [view_flush (memFits_write hfits ⟨ha.1, Or.inr ⟨rfl, ha.2⟩⟩)]
      exact hwrite ⟨.PUT, key, value⟩ ⟨.kTypeValue, value⟩ k
  | erase key => exact iff_of_true (hwrite ⟨.ERASE, key, []⟩ ⟨.kTypeDeletion, []⟩) trivial
  | forceFlush =>
      refine iff_of_true ?_ trivial
      intro k
      show visible (s.store.flush.view k) = s.written k
      rw [view_flush hfits, hcur k]
  | beginNone hle => exact iff_of_true hcur trivial
  | begin hlt => exact iff_of_true hcur trivial
  | @advanceNone i hi =>
      refine iff_of_true hcur ?_
      intro old number reader hcc
      have hlen := hrep.calls.length_eq
      have hbound := (List.getElem?_eq_some_iff.mp hcc).1
      rw [List.getElem?_eq_none_iff] at hi
      omega
  | reserve hi => exact hsame hi (by simp) rfl rfl
  | build hi hm hne => exact hsame hi (by simp) rfl rfl
  | buildEmpty hi hm => exact hsame hi (by simp) rfl rfl
  | @swap i old seen number m hi =>
      obtain ⟨hawaits, -, hm⟩ := hts.calls _ (List.mem_of_getElem? hi)
      rw [swapAgrees_iff hrep hi]
      exact current_swap_iff ⟨ts, hts.agrees, hawaits⟩ h.numbered (good_of_rep hrep.rep) hm number
  | @delete i number n ns hi =>
      obtain ⟨h1, -, h3⟩ := deleteOld_memory s.store number n
      exact hsame hi (by simp) h3 h1
  | deleteDone hi => exact hsame hi (by simp) rfl rfl
  | idle hi => exact hsame hi (by simp) rfl rfl

end Step

end KvScansInFlight
