import Mathlib.Algebra.Order.BigOperators.Group.List
import LightKV.KvSchedulerProofs
import LightKV.KvTableBoundProofs

/-! # The scheduler comes to rest

    While clients write, the scheduler may always have something to compact.
    When they stop, it finishes the call it is in, goes through the shards once
    more, and then finds nothing to do (`scheduler_settles`).  A merge never
    comes out empty here, since a table is made by a put that fills the
    memtable: with a list of deletions alone `Compact` would end without
    replacing anything, and the scheduler would call it for ever.

    The files come to rest as well.  While a call is in flight a file is one of
    the list's, or the call answers for it (`Kept`). -/

namespace KvSettling

open Execution KvBytes KvCompaction KvDirectory KvEngine KvInterleaving KvRangeQuery KvRecency
open KvRecovery KvScansInFlight KvScheduler KvSession KvSharding KvStore KvTable KvTableBound Overlay

/-! ## The files of a shard -/

/-- The file numbers that a call answers for. -/
def Call.Owns : Call → Nat → Prop
  | .built _ _ number _, n => n = number
  | .deleting _ ns, n => n ∈ ns
  | _, _ => False

/-- **A file is one of the list's, or a call answers for it**; there is one log. -/
structure Kept (s : Store) (calls : List Call) : Prop where
  tableFile : ∀ t ∈ s.tables, (s.files.lookup t.number).isSome
  builtFile : ∀ old seen number m, Call.built old seen number m ∈ calls →
    (s.files.lookup number).isSome
  owner : ∀ n, (s.files.lookup n).isSome →
    n ≤ s.counter ∧ ((∃ t ∈ s.tables, t.number = n) ∨ ∃ c ∈ calls, Call.Owns c n)
  deleting : ∀ number ns, Call.deleting number ns ∈ calls → ∀ n ∈ ns,
    n ≠ number ∧ n ≤ s.counter ∧ ∀ t ∈ s.tables, t.number ≠ n
  log : ∃ b, s.logs = [(s.log, b)]

variable {s : Store} {calls : List Call}

theorem kept_freshStore : Kept freshStore [] := by
  refine ⟨?_, ?_, ?_, ?_, [], rfl⟩
  · intro t ht
    cases ht
  · intro old seen number m hc
    cases hc
  · intro n hn
    cases hn
  · intro number ns hc
    cases hc

theorem Kept.write (h : Kept s calls) (r : KvWal.ParsedLogRecord) (tv : TableValue) :
    Kept (s.write r tv) calls := by
  obtain ⟨b, hb⟩ := h.log
  exact ⟨h.tableFile, h.builtFile, h.owner, h.deleting, logs_write hb r tv⟩

theorem Kept.flush (h : Kept s calls) (hlog : s.log ≤ s.counter + 1) : Kept s.flush calls := by
  obtain ⟨b, hb⟩ := h.log
  by_cases hne : s.mem = []
  · rwa [Store.flush, if_pos hne]
  have hlogs := logs_flush hb hlog hne
  rw [Store.flush, if_neg hne] at hlogs ⊢
  have hlook : ∀ n, (upsert (s.counter + 1) (storedLayer s.mem) s.files).lookup n
      = if n = s.counter + 1 then some (storedLayer s.mem) else s.files.lookup n :=
    fun n => lookup_upsert _ n _ _
  have hkeep : ∀ n, (s.files.lookup n).isSome →
      ((upsert (s.counter + 1) (storedLayer s.mem) s.files).lookup n).isSome := by
    intro n hn
    rw [hlook]
    split
    · rfl
    · exact hn
  refine ⟨?_, fun old seen number m hc => hkeep number (h.builtFile old seen number m hc), ?_, ?_,
    [], hlogs⟩
  · intro t ht
    rcases List.mem_cons.mp ht with rfl | ht'
    · show ((upsert (s.counter + 1) (storedLayer s.mem) s.files).lookup (s.counter + 1)).isSome
      rw [hlook, if_pos rfl]
      rfl
    · exact hkeep t.number (h.tableFile t ht')
  · intro n hn
    have hn' : ((upsert (s.counter + 1) (storedLayer s.mem) s.files).lookup n).isSome := hn
    rw [hlook] at hn'
    split at hn'
    · rename_i heq
      exact ⟨heq.le, Or.inl ⟨_, List.mem_cons_self, heq.symm⟩⟩
    · obtain ⟨hle, ⟨t, ht, heq⟩ | hcall⟩ := h.owner n hn'
      · exact ⟨Nat.le_succ_of_le hle, Or.inl ⟨t, List.mem_cons_of_mem _ ht, heq⟩⟩
      · exact ⟨Nat.le_succ_of_le hle, Or.inr hcall⟩
  · intro number ns hc n hn
    obtain ⟨hne', hle, htables⟩ := h.deleting number ns hc n hn
    refine ⟨hne', Nat.le_succ_of_le hle, ?_⟩
    intro t ht
    rcases List.mem_cons.mp ht with rfl | ht'
    · exact (Nat.lt_succ_of_le hle).ne'
    · exact htables t ht'

/-! ### Calls that go on -/

section GoesOn

variable {i : Nat} {c c' : Call}

/-- The other calls stay. -/
theorem mem_set_of_ne (hi : calls[i]? = some c) {d : Call} (hd : d ∈ calls) (hne : d ≠ c) :
    d ∈ calls.set i c' := by
  obtain ⟨j, hj⟩ := List.mem_iff_getElem?.mp hd
  refine List.mem_of_getElem? (i := j) ?_
  rw [List.getElem?_set_ne]
  · exact hj
  · rintro rfl
    exact hne (Option.some.inj (hj.symm.trans hi))

theorem mem_set_self (hi : calls[i]? = some c) : c' ∈ calls.set i c' :=
  List.mem_set (List.getElem?_eq_some_iff.mp hi).1 c'

/-- A call without files goes on to a stage without files. -/
theorem Kept.goOn (h : Kept s calls) (hi : calls[i]? = some c) (hc : ∀ n, ¬ Call.Owns c n)
    (hc' : ∀ n, ¬ Call.Owns c' n) {counter : Nat} (hle : s.counter ≤ counter) :
    Kept { s with counter := counter } (calls.set i c') := by
  refine ⟨h.tableFile, ?_, ?_, ?_, h.log⟩
  · intro old seen number m hmem
    rcases List.mem_or_eq_of_mem_set hmem with hmem' | rfl
    · exact h.builtFile old seen number m hmem'
    · exact absurd rfl (hc' number)
  · intro n hn
    obtain ⟨hn', ⟨t, ht, heq⟩ | ⟨d, hd, howns⟩⟩ := h.owner n hn
    · exact ⟨hn'.trans hle, Or.inl ⟨t, ht, heq⟩⟩
    · refine ⟨hn'.trans hle, Or.inr ⟨d, mem_set_of_ne hi hd ?_, howns⟩⟩
      rintro rfl
      exact hc n howns
  · intro number ns hmem n hn
    rcases List.mem_or_eq_of_mem_set hmem with hmem' | rfl
    · obtain ⟨hne, hn', htables⟩ := h.deleting number ns hmem' n hn
      exact ⟨hne, hn'.trans hle, htables⟩
    · exact absurd hn (hc' n)

/-- **The merged file is written**: the call answers for it. -/
theorem Kept.build {old : List Table} {seen : Bytes → Option Bytes} {number : Nat}
    (h : Kept s calls) (hi : calls[i]? = some (.reserved old seen number))
    (hle : number ≤ s.counter) (m : List Entry) :
    Kept (s.writeMerged number m) (calls.set i (.built old seen number m)) := by
  have hkeep : ∀ n, (s.files.lookup n).isSome ∨ n = number →
      ((upsert number m s.files).lookup n).isSome := by
    intro n hn
    rw [lookup_upsert]
    split
    · rfl
    · exact hn.resolve_right ‹_›
  refine ⟨fun t ht => hkeep _ (Or.inl (h.tableFile t ht)), ?_, ?_, ?_, h.log⟩
  · intro old' seen' number' m' hmem
    refine hkeep number' ?_
    rcases List.mem_or_eq_of_mem_set hmem with hmem' | heq
    · exact Or.inl (h.builtFile old' seen' number' m' hmem')
    · injection heq with _ _ hnumber
      exact Or.inr hnumber
  · intro n hn
    have hn' : ((upsert number m s.files).lookup n).isSome := hn
    rw [lookup_upsert] at hn'
    split at hn'
    · rename_i heq
      exact ⟨heq ▸ hle, Or.inr ⟨_, mem_set_self hi, heq⟩⟩
    · obtain ⟨hle', ht | ⟨d, hd, howns⟩⟩ := h.owner n hn'
      · exact ⟨hle', Or.inl ht⟩
      · refine ⟨hle', Or.inr ⟨d, mem_set_of_ne hi hd ?_, howns⟩⟩
        rintro rfl
        exact howns
  · intro number' ns hmem n hn
    rcases List.mem_or_eq_of_mem_set hmem with hmem' | heq
    · exact h.deleting number' ns hmem' n hn
    · cases heq

/-- **The list is replaced**: the call answers for the files of the merged tables. -/
theorem Kept.swap {news old : List Table} {seen : Bytes → Option Bytes} {number : Nat}
    {m : List Entry} (h : Kept s calls) (hi : calls[i]? = some (.built old seen number m))
    (hone : ∀ d ∈ calls, d ≠ .finished → d = .built old seen number m)
    (hs : s.tables = news ++ old) (hnum : Numbered s) (hres : Reserved s number) :
    Kept (s.swap old ⟨number, 0, m⟩) (calls.set i (.deleting number (old.map Table.number))) := by
  have htables : (s.swap old ⟨number, 0, m⟩).tables = ⟨number, 0, m⟩ :: news := by
    rw [Store.swap, remaining_eq hs hnum]
  have hnew : ∀ t ∈ news, t ∈ s.tables := fun t ht => hs ▸ List.mem_append_left _ ht
  have hold : ∀ t ∈ old, t ∈ s.tables := fun t ht => hs ▸ List.mem_append_right _ ht
  refine ⟨?_, ?_, ?_, ?_, h.log⟩
  · rw [htables]
    intro t ht
    rcases List.mem_cons.mp ht with rfl | ht'
    · exact h.builtFile old seen number m (List.mem_of_getElem? hi)
    · exact h.tableFile t (hnew t ht')
  · intro old' seen' number' m' hmem
    rcases List.mem_or_eq_of_mem_set hmem with hmem' | heq
    · exact h.builtFile old' seen' number' m' hmem'
    · cases heq
  · intro n hn
    rw [htables]
    obtain ⟨hle, ⟨t, ht, heq⟩ | ⟨d, hd, howns⟩⟩ := h.owner n hn
    · refine ⟨hle, ?_⟩
      rw [hs] at ht
      rcases List.mem_append.mp ht with ht' | ht'
      · exact Or.inl ⟨t, List.mem_cons_of_mem _ ht', heq⟩
      · exact Or.inr ⟨_, mem_set_self hi, List.mem_map.mpr ⟨t, ht', heq⟩⟩
    · obtain rfl := hone d hd (by rintro rfl; exact howns)
      exact ⟨hle, Or.inl ⟨_, List.mem_cons_self, Eq.symm howns⟩⟩
  · intro number' ns hmem n hn
    rcases List.mem_or_eq_of_mem_set hmem with hmem' | heq
    · cases hone _ hmem' (by simp)
    · injection heq with hnumber hns
      subst hnumber
      subst hns
      obtain ⟨u, hu, rfl⟩ := List.mem_map.mp hn
      refine ⟨hres.2 u (hold u hu), hnum.le_counter u (hold u hu), ?_⟩
      rw [htables]
      intro t ht
      rcases List.mem_cons.mp ht with rfl | ht'
      · exact (hres.2 u (hold u hu)).symm
      · have hnodup := hnum.nodup
        rw [hs, List.map_append] at hnodup
        exact (List.nodup_append.mp hnodup).2.2 _ (List.mem_map_of_mem ht') _
          (List.mem_map_of_mem hu)

/-- **A file of a merged table goes.** -/
theorem Kept.delete {number n : Nat} {ns : List Nat} (h : Kept s calls)
    (hi : calls[i]? = some (.deleting number (n :: ns)))
    (hone : ∀ d ∈ calls, d ≠ .finished → d = .deleting number (n :: ns)) :
    Kept (s.deleteOld number n) (calls.set i (.deleting number ns)) := by
  have hmem := List.mem_of_getElem? hi
  obtain ⟨hne, -, htables⟩ := h.deleting number _ hmem n List.mem_cons_self
  have hlook : ∀ k, ((discard n s.files).lookup k).isSome ↔ k ≠ n ∧ (s.files.lookup k).isSome := by
    intro k
    rw [lookup_discard]
    split
    · simp [*]
    · simp [*]
  rw [Store.deleteOld, if_neg hne]
  refine ⟨?_, ?_, ?_, ?_, h.log⟩
  · exact fun t ht => (hlook _).mpr ⟨htables t ht, h.tableFile t ht⟩
  · intro old seen number' m hmem'
    rcases List.mem_or_eq_of_mem_set hmem' with hmem' | heq
    · cases hone _ hmem' (by simp)
    · cases heq
  · intro k hk
    obtain ⟨hkn, hk'⟩ := (hlook k).mp hk
    obtain ⟨hle, ht | ⟨d, hd, howns⟩⟩ := h.owner k hk'
    · exact ⟨hle, Or.inl ht⟩
    · obtain rfl := hone d hd (by rintro rfl; exact howns)
      exact ⟨hle, Or.inr ⟨_, mem_set_self hi, (List.mem_cons.mp howns).resolve_left hkn⟩⟩
  · intro number' ns' hmem' k hk
    rcases List.mem_or_eq_of_mem_set hmem' with hmem' | heq
    · exact h.deleting number' ns' hmem' k hk
    · injection heq with hnumber hns
      subst hnumber
      subst hns
      exact h.deleting number' _ hmem k (List.mem_cons_of_mem _ hk)

end GoesOn

/-! ## One shard -/

/-- **A shard that only the scheduler compacts**: one call at most is at work on it,
    and every table has a value. -/
structure Tended (s : Shared) : Prop where
  solo : Solo s
  one : ∀ {i j : Nat} {c d : Call}, s.calls[i]? = some c → s.calls[j]? = some d →
    c ≠ .finished → d ≠ .finished → i = j
  valued : ∀ t ∈ s.store.tables, ∃ kv ∈ t.entries, kv.2.type = .kTypeValue
  kept : Kept s.store s.calls

section Step

variable {sys : System} {s s' : Shared} {a : Action}

/-- The call at work is the only one. -/
theorem Tended.eq_of_mem (h : Tended s) {i : Nat} {c d : Call} (hi : s.calls[i]? = some c)
    (hc : c ≠ .finished) (hd : d ∈ s.calls) (hne : d ≠ .finished) : d = c := by
  obtain ⟨j, hj⟩ := List.mem_iff_getElem?.mp hd
  obtain rfl := h.one hj hi hne hc
  exact Option.some.inj (hj.symm.trans hi)

/-- **A merge of its tables is not empty.** -/
theorem Tended.merged_ne_nil (h : Tended s) (hgood : ∀ t ∈ s.store.tables, GoodTable t)
    {c : Call} (hc : c ∈ s.calls) {old : List Table}
    (hold : ∀ ts, CallAwaits s.store ts c → Awaits s.store ts old) {m : List Entry}
    (hm : Merged old m) : m ≠ [] := by
  obtain ⟨ts, hts⟩ := h.solo.ordered
  obtain ⟨news, olds, htables, rfl, hperm, hne⟩ := hold ts (hts.calls c hc)
  have hmem : ∀ t ∈ olds, t ∈ s.store.tables :=
    fun t ht => htables ▸ List.mem_append_right _ (hperm.mem_iff.mp ht)
  cases olds with
  | nil => exact absurd hperm.nil_eq hne.symm
  | cons t rest =>
      exact KvCompaction.merged_ne_nil (merged_of_perm hm hperm.symm)
        (fun u hu => (hgood u (hmem u hu)).1)
        (List.pairwise_append.mp hts.agrees.tidy.ordered).2.1
        (h.valued t (hmem t List.mem_cons_self))

/-- When a call goes on, the call at work is that one. -/
theorem one_set {calls : List Call} {i : Nat} {c c' : Call}
    (h : ∀ {i j : Nat} {c d : Call}, calls[i]? = some c → calls[j]? = some d →
      c ≠ .finished → d ≠ .finished → i = j)
    (hi : calls[i]? = some c) (hc : c ≠ .finished) {j k : Nat} {d e : Call}
    (hj : (calls.set i c')[j]? = some d) (hk : (calls.set i c')[k]? = some e)
    (hd : d ≠ .finished) (he : e ≠ .finished) : j = k := by
  have hat : ∀ {l : Nat} {b : Call}, (calls.set i c')[l]? = some b → b ≠ .finished → l = i := by
    intro l b hl hb
    by_cases hil : i = l
    · exact hil.symm
    · rw [List.getElem?_set_ne hil] at hl
      exact h hl hi hb hc
  rw [hat hj hd, hat hk he]

/-- A finished call that is asked to go on changes nothing. -/
theorem set_finished {calls : List Call} {i : Nat} (hi : calls[i]? = some .finished) :
    calls.set i .finished = calls := by
  obtain ⟨hlt, heq⟩ := List.getElem?_eq_some_iff.mp hi
  rw [← heq]
  exact List.set_getElem_self hlt

theorem one_step (hrep : SystemRep sys s) (h : Tended s)
    (hidle : a = .begin → ∀ call ∈ sys.calls, call = .finished) (hs : SharedStep s a s') :
    ∀ {i j : Nat} {c d : Call}, s'.calls[i]? = some c → s'.calls[j]? = some d →
      c ≠ .finished → d ≠ .finished → i = j := by
  cases hs with
  | put key value ht hfull => exact h.one
  | putFlush key value ht hfull => exact h.one
  | erase key => exact h.one
  | forceFlush => exact h.one
  | beginNone hle => exact h.one
  | begin hlt =>
      -- the calls before it have finished
      have hfinished : ∀ c ∈ s.calls, ¬ c ≠ .finished := by
        intro c hc hne
        obtain ⟨cc, hcc, hcall⟩ := KvMerging.forall₂_mem_right hrep.calls hc
        rw [hidle rfl cc hcc] at hcall
        cases c with
        | finished => exact hne rfl
        | snapped old seen => exact hcall.elim
        | reserved old seen n => exact hcall.elim
        | built old seen n m => exact hcall.elim
        | deleting n ns => exact hcall.elim
      intro i j c d hi hj hc hd
      rw [eq_length_of_append hfinished hi hc, eq_length_of_append hfinished hj hd]
  | advanceNone hi => exact h.one
  | reserve hi => exact one_set h.one hi (by simp)
  | build hi hm hne => exact one_set h.one hi (by simp)
  | buildEmpty hi hm => exact one_set h.one hi (by simp)
  | swap hi => exact one_set h.one hi (by simp)
  | delete hi => exact one_set h.one hi (by simp)
  | deleteDone hi => exact one_set h.one hi (by simp)
  | idle hi =>
      show ∀ {i' j' : Nat} {c d : Call}, (s.calls.set _ .finished)[i']? = some c →
        (s.calls.set _ .finished)[j']? = some d → c ≠ .finished → d ≠ .finished → i' = j'
      rw [set_finished hi]
      exact h.one

/-- **Every table has a value**: a put makes it, or a merge. -/
theorem valued_step (hrep : SystemRep sys s) (h : Tended s) (hno : a ≠ .forceFlush)
    (hs : SharedStep s a s') :
    ∀ t ∈ s'.store.tables, ∃ kv ∈ t.entries, kv.2.type = .kTypeValue := by
  cases hs with
  | put key value ht hfull =>
      subst ht
      exact h.valued
  | @putFlush key value t ht hfull =>
      subst ht
      have hmem : (key, ⟨.kTypeValue, value⟩)
          ∈ (s.store.write ⟨.PUT, key, value⟩ ⟨.kTypeValue, value⟩).mem := by
        refine (lookup_eq_some_iff (keySorted_upsert hrep.rep.mem.keySorted)).mp ?_
        rw [lookup_upsert, if_pos rfl]
      show ∀ t ∈ (s.store.write _ _).flush.tables, _
      rw [Store.flush, if_neg (List.ne_nil_of_mem hmem)]
      intro t ht
      rcases List.mem_cons.mp ht with rfl | ht'
      · exact value_storedLayer hmem rfl
      · exact h.valued t ht'
  | erase key => exact h.valued
  | forceFlush => exact absurd rfl hno
  | beginNone hle => exact h.valued
  | begin hlt => exact h.valued
  | advanceNone hi => exact h.valued
  | reserve hi => exact h.valued
  | build hi hm hne => exact h.valued
  | buildEmpty hi hm => exact h.valued
  | @swap i old seen number m hi =>
      have hc := List.mem_of_getElem? hi
      obtain ⟨ts, hts⟩ := h.solo.ordered
      obtain ⟨⟨news, olds, htables, -⟩, -, hm⟩ := hts.calls _ hc
      have hgood := good_of_rep hrep.rep
      obtain ⟨kv, hkv⟩ := List.exists_mem_of_ne_nil m
        (h.merged_ne_nil hgood hc (fun _ hawaits => hawaits.1) hm)
      have hvalues := values_of_merged hm
        (fun t ht => hgood t (htables ▸ List.mem_append_right _ ht))
      show ∀ t ∈ (s.store.swap old ⟨number, 0, m⟩).tables, _
      rw [Store.swap, remaining_eq htables h.solo.numbered]
      intro t ht
      rcases List.mem_cons.mp ht with rfl | ht'
      · exact ⟨kv, hkv, hvalues kv hkv⟩
      · exact h.valued t (htables ▸ List.mem_append_left _ ht')
  | @delete i number n ns hi =>
      show ∀ t ∈ (s.store.deleteOld number n).tables, _
      rw [(deleteOld_memory s.store number n).1]
      exact h.valued
  | deleteDone hi => exact h.valued
  | idle hi => exact h.valued

/-- **Every action keeps the files.** -/
theorem kept_step (hrep : SystemRep sys s) (h : Tended s) (hs : SharedStep s a s') :
    Kept s'.store s'.calls := by
  have hlog := hrep.rep.logLe
  cases hs with
  | put key value ht hfull =>
      subst ht
      exact h.kept.write _ _
  | putFlush key value ht hfull =>
      subst ht
      exact (h.kept.write _ _).flush hlog
  | erase key => exact h.kept.write _ _
  | forceFlush => exact h.kept.flush hlog
  | beginNone hle => exact h.kept
  | begin hlt =>
      have hk := h.kept
      refine ⟨hk.tableFile, ?_, ?_, ?_, hk.log⟩
      · intro old seen number m hc
        rcases List.mem_append.mp hc with hc' | hc'
        · exact hk.builtFile old seen number m hc'
        · cases List.mem_singleton.mp hc'
      · intro n hn
        obtain ⟨hle, ht | ⟨c, hc, howns⟩⟩ := hk.owner n hn
        · exact ⟨hle, Or.inl ht⟩
        · exact ⟨hle, Or.inr ⟨c, List.mem_append_left _ hc, howns⟩⟩
      · intro number ns hc
        rcases List.mem_append.mp hc with hc' | hc'
        · exact hk.deleting number ns hc'
        · cases List.mem_singleton.mp hc'
  | advanceNone hi => exact h.kept
  | reserve hi => exact h.kept.goOn hi (by simp [Call.Owns]) (by simp [Call.Owns]) (Nat.le_succ _)
  | @build i old seen number m hi hm hne =>
      obtain ⟨ts, hts⟩ := h.solo.ordered
      exact h.kept.build hi (hts.calls _ (List.mem_of_getElem? hi)).2.1 m
  | buildEmpty hi hm =>
      exact absurd rfl (h.merged_ne_nil (good_of_rep hrep.rep) (List.mem_of_getElem? hi)
        (fun _ hawaits => hawaits.1) hm)
  | @swap i old seen number m hi =>
      obtain ⟨ts, hts⟩ := h.solo.ordered
      obtain ⟨⟨news, olds, htables, -⟩, hres, -⟩ := hts.calls _ (List.mem_of_getElem? hi)
      exact h.kept.swap hi (fun d hd => h.eq_of_mem hi (by simp) hd) htables h.solo.numbered hres
  | delete hi => exact h.kept.delete hi (fun d hd => h.eq_of_mem hi (by simp) hd)
  | deleteDone hi =>
      exact h.kept.goOn hi (by simp [Call.Owns]) (by simp [Call.Owns]) (Nat.le_refl _)
  | idle hi => exact h.kept.goOn hi (by simp [Call.Owns]) (by simp [Call.Owns]) (Nat.le_refl _)

/-- **Every action**, when a call begins only where all have finished. -/
theorem tended_step (hrep : SystemRep sys s) (h : Tended s) (ha : a.Fits) (hno : a ≠ .forceFlush)
    (hidle : a = .begin → ∀ call ∈ sys.calls, call = .finished) (hs : SharedStep s a s') :
    Tended s' := by
  have halone : KvScansInFlight.alone sys a = true := by
    cases a with
    | begin =>
        refine List.all_eq_true.mpr ?_
        intro call hcall
        rw [hidle rfl call hcall]
        rfl
    | put key value => rfl
    | erase key => rfl
    | forceFlush => rfl
    | advance i => rfl
  exact ⟨solo_step hrep h.solo ha halone hs, one_step hrep h hidle hs, valued_step hrep h hno hs,
    kept_step hrep h hs⟩

/-- A call that goes on does not lengthen the list. -/
theorem length_advance (h : Tended s) {i : Nat} (hs : SharedStep s (.advance i) s') :
    s'.store.tables.length ≤ s.store.tables.length := by
  cases hs with
  | advanceNone hi => exact le_rfl
  | reserve hi => exact le_rfl
  | build hi hm hne => exact le_rfl
  | buildEmpty hi hm => exact le_rfl
  | @swap i old seen number m hi =>
      obtain ⟨ts, hts⟩ := h.solo.ordered
      obtain ⟨⟨news, olds, htables, -, -, hne⟩, -⟩ := hts.calls _ (List.mem_of_getElem? hi)
      have hpos := List.length_pos_iff.mpr hne
      show (s.store.swap old ⟨number, 0, m⟩).tables.length ≤ _
      rw [Store.swap, remaining_eq htables h.solo.numbered, htables, List.length_cons,
        List.length_append]
      omega
  | @delete i number n ns hi =>
      show (s.store.deleteOld number n).tables.length ≤ _
      rw [(deleteOld_memory s.store number n).1]
  | deleteDone hi => exact le_rfl
  | idle hi => exact le_rfl

end Step

/-! ## One call -/

/-- The stages that a call has before it. -/
def stagesLeft : CompactCall → Nat
  | .snapped old => old.length + 4
  | .reserved old _ => old.length + 3
  | .built old _ _ => old.length + 2
  | .deleting _ paths => paths.length + 1
  | .finished => 0

/-- A call that merges the whole list, or has left it short. -/
def Whole (e : KVEngine) : CompactCall → Prop
  | .snapped old | .reserved old _ | .built old _ _ => old = e.sstables
  | .deleting _ _ | .finished => e.sstables.length < 5

/-- **A stage of a call** brings it nearer to its end. -/
theorem advance_cases {e e' : KVEngine} {cc cc' : CompactCall}
    (h : CompactCall.advance e cc = .ok (e', cc')) (hc : cc ≠ .finished)
    (hmerge : ∀ old number, cc = .reserved old number → cc' ≠ .finished) :
    stagesLeft cc' < stagesLeft cc ∧ (Whole e cc → Whole e' cc') := by
  cases cc with
  | snapped old =>
      obtain ⟨rfl, rfl⟩ := Prod.mk.inj (Except.ok.inj h)
      exact ⟨Nat.lt_succ_self _, id⟩
  | reserved old number =>
      obtain ⟨file, -, h⟩ := bind_eq_ok.mp h
      obtain ⟨⟨e₁, reader⟩, hwrite, h⟩ := bind_eq_ok.mp h
      obtain ⟨reader', -, hwrite⟩ := bind_eq_ok.mp hwrite
      obtain ⟨rfl, rfl⟩ := Prod.mk.inj (Except.ok.inj hwrite)
      cases reader' with
      | none =>
          obtain ⟨rfl, rfl⟩ := Prod.mk.inj (Except.ok.inj h)
          exact absurd rfl (hmerge old number rfl)
      | some reader =>
          obtain ⟨rfl, rfl⟩ := Prod.mk.inj (Except.ok.inj h)
          exact ⟨Nat.lt_succ_self _, id⟩
  | built old number reader =>
      obtain ⟨rfl, rfl⟩ := Prod.mk.inj (Except.ok.inj h)
      refine ⟨?_, ?_⟩
      · rw [stagesLeft, stagesLeft, List.length_map]
        exact Nat.lt_succ_self _
      · -- nothing of the list remains
        rintro rfl
        have hnone : e.remaining e.sstables = [] := by
          refine List.filter_eq_nil_iff.mpr ?_
          intro sst hsst
          have hmem : (e.sstables.map SSTableReader.filename).contains sst.filename = true :=
            List.contains_iff_mem.mpr (List.mem_map_of_mem hsst)
          rw [hmem]
          decide
        show (reader :: e.remaining e.sstables).length < 5
        rw [hnone]
        exact (by decide : 1 < 5)
  | deleting number paths =>
      cases paths with
      | nil =>
          obtain ⟨rfl, rfl⟩ := Prod.mk.inj (Except.ok.inj h)
          exact ⟨Nat.lt_succ_self _, id⟩
      | cons path paths =>
          obtain ⟨rfl, rfl⟩ := Prod.mk.inj (Except.ok.inj h)
          refine ⟨Nat.lt_succ_self _, ?_⟩
          intro hshort
          show (e.deleteOld (getSstPath number) path).sstables.length < 5
          rw [KVEngine.deleteOld]
          split
          · exact hshort
          · exact hshort
  | finished => exact absurd rfl hc

/-- A shard with its calls, as the scheduler leaves it. -/
def Shard (sys : System) : Prop := ∃ s, SystemRep sys s ∧ Tended s

theorem Shard.step {sys : System} (h : Shard sys) {a : Action} (ha : a.Fits)
    (hno : a ≠ .forceFlush) (hidle : a = .begin → ∀ call ∈ sys.calls, call = .finished) :
    Runs (sys.step a) Shard := by
  obtain ⟨s, hrep, hs⟩ := h
  refine (step_spec hrep ha).mono ?_
  rintro sys' ⟨s', hstep, hrep'⟩
  exact ⟨s', hrep', tended_step hrep hs ha hno hidle hstep⟩

/-- A call that has its number goes on to build its file. -/
theorem built_of_reserved {s s' : Shared} (h : Tended s) (hgood : ∀ t ∈ s.store.tables, GoodTable t)
    {i : Nat} {old : List Table} {seen : Bytes → Option Bytes} {number : Nat}
    (hi : s.calls[i]? = some (.reserved old seen number)) (hs : SharedStep s (.advance i) s') :
    ∃ m, s'.calls[i]? = some (.built old seen number m) := by
  cases hs with
  | advanceNone hi' => cases hi.symm.trans hi'
  | reserve hi' => cases hi.symm.trans hi'
  | @build _ old' seen' number' m hi' hm hne =>
      have hset := List.getElem?_set_self (List.getElem?_eq_some_iff.mp hi).1
        (a := Call.built old' seen' number' m)
      have hsame := Option.some.inj (hi.symm.trans hi')
      injection hsame with hold hseen hnumber
      subst hold hseen hnumber
      exact ⟨m, hset⟩
  | @buildEmpty _ old' seen' number' hi' hm =>
      exact absurd rfl (h.merged_ne_nil hgood (List.mem_of_getElem? hi')
        (fun _ hawaits => hawaits.1) hm)
  | swap hi' => cases hi.symm.trans hi'
  | delete hi' => cases hi.symm.trans hi'
  | deleteDone hi' => cases hi.symm.trans hi'
  | idle hi' => cases hi.symm.trans hi'

/-- **One stage of the call at work on a shard.** -/
theorem Shard.advance {sys : System} (h : Shard sys) {j : Nat} {cc : CompactCall}
    (hj : sys.calls[j]? = some cc) (hc : cc ≠ .finished) :
    Runs (sys.step (.advance j)) (fun sys' => Shard sys'
      ∧ sys'.engine.sstables.length ≤ sys.engine.sstables.length
      ∧ ∃ cc', sys'.calls = sys.calls.set j cc' ∧ stagesLeft cc' < stagesLeft cc
        ∧ (Whole sys.engine cc → Whole sys'.engine cc')) := by
  obtain ⟨s, hrep, hs⟩ := h
  have hgood := good_of_rep hrep.rep
  have hrun := step_spec hrep (a := .advance j) trivial
  cases hstep : sys.step (.advance j) with
  | error fault =>
      rw [hstep] at hrun
      exact hrun
  | ok sys' =>
      rw [hstep] at hrun
      obtain ⟨s', hshared, hrep'⟩ := hrun
      have hlen := length_advance hs hshared
      rw [← hrep.rep.tables.length_eq, ← hrep'.rep.tables.length_eq] at hlen
      refine ⟨⟨s', hrep', tended_step hrep hs (a := .advance j) trivial (by simp) (by simp)
        hshared⟩, hlen, ?_⟩
      simp only [System.step, hj] at hstep
      obtain ⟨⟨e', cc'⟩, hadvance, hend⟩ := bind_eq_ok.mp hstep
      obtain rfl := Except.ok.inj hend
      refine ⟨cc', rfl, advance_cases hadvance hc ?_⟩
      rintro old number rfl rfl
      -- a merge that came out empty would have finished the call
      obtain ⟨c, hi, hcall⟩ := KvMerging.forall₂_exists hrep.calls.flip hj
      cases c with
      | reserved ts seen number' =>
          obtain ⟨m, hbuilt⟩ := built_of_reserved hs hgood hi hshared
          obtain ⟨cc, hcc, hcall'⟩ := KvMerging.forall₂_exists hrep'.calls hbuilt
          have hset : (sys.calls.set j CompactCall.finished)[j]? = some .finished :=
            List.getElem?_set_self (List.getElem?_eq_some_iff.mp hj).1
          obtain rfl := Option.some.inj (hset.symm.trans hcc)
          exact hcall'
      | snapped ts seen => exact hcall
      | built ts seen n m => exact hcall
      | deleting n ns => exact hcall
      | finished => exact hcall

/-! ## The thread -/

/-- The steps that a shard costs the thread in a sweep, at most. -/
def cost (sys : System) : Nat := sys.engine.sstables.length + 7

/-- The steps of a sweep from shard `i` on, at most. -/
def sweepFrom (systems : List System) (i : Nat) : Nat := ((systems.drop i).map cost).sum + 1

/-- **The thread is asleep again** after `n` steps at most. -/
def BackWithin (systems : List System) (n : Nat) : Place → Prop
  | .asleep => True
  | .before i => sweepFrom systems i ≤ n
  | .calling i => ∃ sys, systems[i]? = some sys
      ∧ sys.engine.sstables.length + 6 + sweepFrom systems (i + 1) ≤ n
  | .inside i j => ∃ sys call, systems[i]? = some sys ∧ sys.calls[j]? = some call
      ∧ stagesLeft call + 1 + sweepFrom systems (i + 1) ≤ n
  | .finished => False

/-- The shards that the thread has behind it. -/
def Passed (i : Nat) : Place → Prop
  | .asleep => True
  | .before k | .calling k | .inside k _ => i < k
  | .finished => False

/-- **A sweep with nobody else at work** leaves short lists behind it. -/
structure Swept (systems : List System) (place : Place) : Prop where
  passed : ∀ {i : Nat} {sys : System}, systems[i]? = some sys → Passed i place →
    sys.engine.sstables.length < 5
  inside : ∀ {i j : Nat} {sys : System} {call : CompactCall}, place = .inside i j →
    systems[i]? = some sys → sys.calls[j]? = some call → Whole sys.engine call

/-- **The scheduler at `place`**, the only thread: a call that has not finished is
    the one it is in. -/
structure Working (f : Fleet) (place : Place) : Prop where
  workers : f.workers = [⟨.scheduler, place⟩]
  running : f.stopped = false
  shards : ∀ {i : Nat} {sys : System}, f.systems[i]? = some sys → Shard sys
  calls : ∀ {i j : Nat} {sys : System} {call : CompactCall}, f.systems[i]? = some sys →
    sys.calls[j]? = some call → call ≠ .finished → place = .inside i j

variable {f : Fleet} {place : Place}

theorem sweepFrom_eq {systems : List System} {i : Nat} {sys : System}
    (hsys : systems[i]? = some sys) :
    sweepFrom systems i = sys.engine.sstables.length + 7 + sweepFrom systems (i + 1) := by
  obtain ⟨hlt, rfl⟩ := List.getElem?_eq_some_iff.mp hsys
  rw [sweepFrom, List.drop_eq_getElem_cons hlt, List.map_cons, List.sum_cons, Nat.add_assoc]
  rfl

theorem sweepFrom_le (systems : List System) (i : Nat) :
    sweepFrom systems i ≤ sweepFrom systems 0 := by
  have hsum := List.sum_take_add_sum_drop (systems.map cost) i
  rw [← List.map_drop] at hsum
  rw [sweepFrom, sweepFrom, List.drop_zero]
  omega

/-- The shards behind one that changes. -/
theorem sweepFrom_set (systems : List System) (i : Nat) (sys : System) :
    sweepFrom (systems.set i sys) (i + 1) = sweepFrom systems (i + 1) := by
  rw [sweepFrom, List.drop_set_of_lt (Nat.lt_succ_self i)]
  rfl

/-- A list that does not grow costs no more than before. -/
theorem sweepFrom_set_le {systems : List System} {i : Nat} {sys sys' : System}
    (hsys : systems[i]? = some sys)
    (hlen : sys'.engine.sstables.length ≤ sys.engine.sstables.length) :
    sweepFrom (systems.set i sys') 0 ≤ sweepFrom systems 0 := by
  have hrest : ∀ (l : List System) (k : Nat), l[k]? = some sys →
      ((l.set k sys').map cost).sum ≤ (l.map cost).sum := by
    intro l
    induction l with
    | nil =>
        intro k hk
        cases hk
    | cons u l ih =>
        intro k hk
        cases k with
        | zero =>
            obtain rfl := Option.some.inj hk
            rw [List.set_cons_zero, List.map_cons, List.map_cons, List.sum_cons, List.sum_cons]
            exact Nat.add_le_add_right (Nat.add_le_add_right hlen 7) _
        | succ k =>
            rw [List.set_cons_succ, List.map_cons, List.map_cons, List.sum_cons, List.sum_cons]
            exact Nat.add_le_add_left (ih k hk) _
  rw [sweepFrom, sweepFrom, List.drop_zero, List.drop_zero]
  exact Nat.succ_le_succ (hrest systems i hsys)

/-! ### Steps of the thread -/

/-- The thread goes somewhere else. -/
theorem step_moves {w : Worker} {place' : Place} (hw : f.workers = [w])
    (hwork : f.work w = .ok (none, place')) :
    f.step (.work 0) = .ok { f with workers := [{ w with place := place' }] } := by
  simp only [Fleet.step, hw, List.getElem?_cons_zero, hwork, ok_bind, List.set_cons_zero]
  rfl

/-- The thread does something to a shard. -/
theorem step_acts {w : Worker} {place' : Place} {i : Nat} {a : Action} (hw : f.workers = [w])
    (hwork : f.work w = .ok (some (i, a), place')) :
    f.step (.work 0) = Fleet.act { f with workers := [{ w with place := place' }] } i a := by
  simp only [Fleet.step, hw, List.getElem?_cons_zero, hwork, ok_bind, List.set_cons_zero]

theorem runs_act {i : Nat} {sys : System} {a : Action} {P : Fleet → Prop} {Q : System → Prop}
    (hsys : f.systems[i]? = some sys) (h : Runs (sys.step a) Q)
    (hp : ∀ sys', Q sys' → P { f with systems := f.systems.set i sys' }) : Runs (f.act i a) P := by
  have hget : f.system i = .ok sys := by
    rw [Fleet.system, hsys]
    rfl
  simp only [Fleet.act, hget, ok_bind]
  exact h.bind hp

/-- Nothing but the place changes. -/
theorem Working.moves (h : Working f place)
    (hleave : ∀ {i j : Nat} {sys : System} {call : CompactCall}, place = .inside i j →
      f.systems[i]? = some sys → sys.calls[j]? = some call → call = .finished) (place' : Place) :
    Working { f with workers := [⟨.scheduler, place'⟩] } place' := by
  refine ⟨rfl, h.running, h.shards, ?_⟩
  intro i j sys call hsys hcall hne
  exact absurd (hleave (h.calls hsys hcall hne) hsys hcall) hne

/-- A call on shard `i` goes on, or begins. -/
theorem Working.acts (h : Working f place) {i j : Nat} {sys' : System} (hshard : Shard sys')
    (hplace : ∀ {i' j' : Nat}, place = .inside i' j' → i' = i)
    (hcalls : ∀ {l : Nat} {call : CompactCall}, sys'.calls[l]? = some call →
      call ≠ .finished → l = j) :
    Working { f with
      workers := [⟨.scheduler, .inside i j⟩]
      systems := f.systems.set i sys' } (.inside i j) := by
  refine ⟨rfl, h.running, ?_, ?_⟩
  · intro k sys hsys
    rcases List.mem_or_eq_of_mem_set (List.mem_of_getElem? hsys) with hmem | rfl
    · obtain ⟨l, hl⟩ := List.mem_iff_getElem?.mp hmem
      exact h.shards hl
    · exact hshard
  · intro k l sys call hsys hcall hne
    by_cases hik : i = k
    · subst hik
      rw [List.getElem?_set] at hsys
      split at hsys
      · split at hsys
        · obtain rfl := Option.some.inj hsys
          rw [hcalls hcall hne]
        · cases hsys
      · exact absurd rfl ‹_›
    · rw [List.getElem?_set_ne hik] at hsys
      exact absurd (hplace (h.calls hsys hcall hne)).symm hik

theorem Swept.acts {systems : List System} (h : Swept systems place) {i j : Nat}
    {sys' : System} (hpassed : ∀ {k : Nat}, k < i → Passed k place)
    (hwhole : ∀ {call : CompactCall}, sys'.calls[j]? = some call → Whole sys'.engine call) :
    Swept (systems.set i sys') (.inside i j) := by
  refine ⟨?_, ?_⟩
  · intro k sys hsys hk
    rw [List.getElem?_set_ne (Nat.ne_of_gt hk)] at hsys
    exact h.passed hsys (hpassed hk)
  · intro i' j' sys call hplace hsys hcall
    injection hplace with hi hj
    subst hi
    subst hj
    rw [List.getElem?_set] at hsys
    split at hsys
    · split at hsys
      · obtain rfl := Option.some.inj hsys
        exact hwhole hcall
      · cases hsys
    · exact absurd rfl ‹_›

/-- The thread leaves a shard with a short list. -/
theorem Swept.next {systems : List System} (h : Swept systems place) {i : Nat} {sys : System}
    (hsys : systems[i]? = some sys) (hshort : sys.engine.sstables.length < 5)
    (hpassed : ∀ {k : Nat}, k < i → Passed k place) : Swept systems (.before (i + 1)) := by
  refine ⟨?_, by simp⟩
  intro k sys' hk hlt
  rcases Nat.lt_succ_iff_lt_or_eq.mp hlt with hlt' | rfl
  · exact h.passed hk (hpassed hlt')
  · obtain rfl := Option.some.inj (hsys.symm.trans hk)
    exact hshort

/-- What a step of the thread comes to, with `n` steps left. -/
def Turned (f : Fleet) (place : Place) (n : Nat) (f' : Fleet) : Prop :=
  ∃ place', Working f' place' ∧ BackWithin f'.systems n place'
    ∧ sweepFrom f'.systems 0 ≤ sweepFrom f.systems 0
    ∧ (Swept f.systems place → Swept f'.systems place')

theorem turned_moves (h : Working f place) (place' : Place)
    (hleave : ∀ {i j : Nat} {sys : System} {call : CompactCall}, place = .inside i j →
      f.systems[i]? = some sys → sys.calls[j]? = some call → call = .finished)
    (hwork : f.work ⟨.scheduler, place⟩ = .ok (none, place')) {n : Nat}
    (hback : BackWithin f.systems n place')
    (hswept : Swept f.systems place → Swept f.systems place') :
    Runs (f.step (.work 0)) (Turned f place n) := by
  rw [step_moves h.workers hwork]
  exact ⟨place', h.moves hleave place', hback, Nat.le_refl _, hswept⟩

/-- The thread looks at a shard. -/
theorem turn_before {i n : Nat} (h : Working f (.before i))
    (hback : sweepFrom f.systems i ≤ n + 1) :
    Runs (f.step (.work 0)) (Turned f (.before i) n) := by
  cases hsys : f.systems[i]? with
  | none =>
      refine turned_moves h .asleep (by simp) ?_ trivial ?_
      · simp only [Fleet.work, hsys]
        rfl
      · intro hs
        refine ⟨?_, by simp⟩
        intro k sys hk _
        have hlen := List.getElem?_eq_none_iff.mp hsys
        exact hs.passed hk (Nat.lt_of_lt_of_le (List.getElem?_eq_some_iff.mp hk).1 hlen)
  | some sys =>
      rw [sweepFrom_eq hsys] at hback
      by_cases hneeds : sys.engine.needsCompaction 5 = true
      · refine turned_moves h (.calling i) (by simp) ?_ ⟨sys, hsys, by omega⟩ ?_
        · simp only [Fleet.work, hsys, h.running, hneeds, if_true]
          rfl
        · intro hs
          exact ⟨fun hk hlt => hs.passed hk hlt, by simp⟩
      · refine turned_moves h (.before (i + 1)) (by simp) ?_ ?_ ?_
        · simp only [Fleet.work, hsys, h.running, if_neg hneeds]
          rfl
        · show sweepFrom f.systems (i + 1) ≤ n
          omega
        · intro hs
          rw [KVEngine.needsCompaction, decide_eq_true_eq] at hneeds
          exact hs.next hsys (Nat.lt_of_not_le hneeds) (fun hk => hk)

/-- The thread calls `Compact` on a shard. -/
theorem turn_calling {i n : Nat} (h : Working f (.calling i)) {sys : System}
    (hsys : f.systems[i]? = some sys)
    (hback : sys.engine.sstables.length + 6 + sweepFrom f.systems (i + 1) ≤ n + 1) :
    Runs (f.step (.work 0)) (Turned f (.calling i) n) := by
  have hget : f.system i = .ok sys := by
    rw [Fleet.system, hsys]
    rfl
  have hidle : ∀ call ∈ sys.calls, call = .finished := by
    intro call hcall
    obtain ⟨j, hj⟩ := List.mem_iff_getElem?.mp hcall
    by_contra hne
    cases h.calls hsys hj hne
  by_cases hle : sys.engine.sstables.length ≤ 1
  · have hsnap : sys.engine.snapshot = none := by
      rw [KVEngine.snapshot, if_pos hle]
    refine turned_moves h (.before (i + 1)) (by simp) ?_ ?_ ?_
    · simp only [Fleet.work, hget, ok_bind, hsnap]
      rfl
    · show sweepFrom f.systems (i + 1) ≤ n
      omega
    · intro hs
      exact hs.next hsys (Nat.lt_of_le_of_lt hle (by decide)) (fun hk => hk)
  · have hsnap : sys.engine.snapshot = some sys.engine.sstables := by
      rw [KVEngine.snapshot, if_neg hle]
    have hwork : f.work ⟨.scheduler, .calling i⟩
        = .ok (some (i, .begin), .inside i sys.calls.length) := by
      simp only [Fleet.work, hget, ok_bind, hsnap]
      rfl
    rw [step_acts h.workers hwork]
    have hshard := (h.shards hsys).step (a := .begin) trivial (by simp) (fun _ => hidle)
    simp only [System.step, hsnap] at hshard
    refine runs_act (Q := fun sys' => Shard sys'
      ∧ sys' = { sys with calls := sys.calls ++ [.snapped sys.engine.sstables] }) hsys ?_ ?_
    · simp only [System.step, hsnap]
      exact ⟨hshard, rfl⟩
    · rintro sys' ⟨hshard', rfl⟩
      have hfinished : ∀ call ∈ sys.calls, ¬ call ≠ .finished :=
        fun call hcall hne => hne (hidle call hcall)
      have hnew : (sys.calls ++ [CompactCall.snapped sys.engine.sstables])[sys.calls.length]?
          = some (.snapped sys.engine.sstables) := by
        rw [List.getElem?_append_right (Nat.le_refl _), Nat.sub_self]
        rfl
      refine ⟨.inside i sys.calls.length,
        h.acts hshard' (by simp) (fun hl hne => eq_length_of_append hfinished hl hne), ?_,
        sweepFrom_set_le hsys (Nat.le_refl _), ?_⟩
      · refine ⟨_, _, List.getElem?_set_self (List.getElem?_eq_some_iff.mp hsys).1, hnew, ?_⟩
        rw [sweepFrom_set]
        show sys.engine.sstables.length + 4 + 1 + sweepFrom f.systems (i + 1) ≤ n
        omega
      · intro hs
        refine hs.acts (fun hk => hk) ?_
        intro call hcall
        obtain rfl := Option.some.inj (hnew.symm.trans hcall)
        rfl

/-- The thread is in a call. -/
theorem turn_inside {i j n : Nat} (h : Working f (.inside i j)) {sys : System}
    {call : CompactCall} (hsys : f.systems[i]? = some sys) (hcall : sys.calls[j]? = some call)
    (hback : stagesLeft call + 1 + sweepFrom f.systems (i + 1) ≤ n + 1) :
    Runs (f.step (.work 0)) (Turned f (.inside i j) n) := by
  have hget : f.system i = .ok sys := by
    rw [Fleet.system, hsys]
    rfl
  by_cases hfin : call = .finished
  · subst hfin
    refine turned_moves h (.before (i + 1)) ?_ ?_ ?_ ?_
    · intro i' j' sys' call' hplace hsys' hcall'
      injection hplace with hi hj
      subst hi
      subst hj
      obtain rfl := Option.some.inj (hsys.symm.trans hsys')
      exact (Option.some.inj (hcall.symm.trans hcall')).symm
    · simp only [Fleet.work, hget, ok_bind, hcall]
      rfl
    · show sweepFrom f.systems (i + 1) ≤ n
      omega
    · intro hs
      exact hs.next hsys (hs.inside rfl hsys hcall) (fun hk => hk)
  · have hwork : f.work ⟨.scheduler, .inside i j⟩ = .ok (some (i, .advance j), .inside i j) := by
      have hne : sys.calls[j]? ≠ some .finished := by
        rw [hcall]
        exact fun heq => hfin (Option.some.inj heq)
      simp only [Fleet.work, hget, ok_bind]
      rfl
    rw [step_acts h.workers hwork]
    refine runs_act hsys ((h.shards hsys).advance hcall hfin) ?_
    rintro sys' ⟨hshard', hlen, call', hcalls', hless, hwhole⟩
    have hat : sys'.calls[j]? = some call' := by
      rw [hcalls']
      exact List.getElem?_set_self (List.getElem?_eq_some_iff.mp hcall).1
    refine ⟨.inside i j, h.acts hshard' ?_ ?_, ?_, sweepFrom_set_le hsys hlen, ?_⟩
    · intro i' j' hplace
      injection hplace with hi
      exact hi.symm
    · intro l d hl hd
      by_contra hlj
      rw [hcalls', List.getElem?_set_ne (Ne.symm hlj)] at hl
      have hplace := h.calls hsys hl hd
      injection hplace with _ hj
      exact hlj hj.symm
    · refine ⟨sys', call', List.getElem?_set_self (List.getElem?_eq_some_iff.mp hsys).1, hat, ?_⟩
      rw [sweepFrom_set]
      show stagesLeft call' + 1 + sweepFrom f.systems (i + 1) ≤ n
      omega
    · intro hs
      refine hs.acts (fun hk => hk) ?_
      intro d hd
      obtain rfl := Option.some.inj (hat.symm.trans hd)
      exact hwhole (hs.inside rfl hsys hcall)

/-- **One step of the thread**, when it is not asleep. -/
theorem turn (h : Working f place) {n : Nat} (hback : BackWithin f.systems n place) :
    place = .asleep ∨ ∃ m, n = m + 1 ∧ Runs (f.step (.work 0)) (Turned f place m) := by
  have hn : place ≠ .asleep → ∃ m, n = m + 1 := by
    intro hne
    refine Nat.exists_eq_succ_of_ne_zero ?_
    rintro rfl
    cases place with
    | asleep => exact hne rfl
    | before i => exact absurd hback (Nat.not_succ_le_zero _)
    | calling i =>
        obtain ⟨sys, -, hle⟩ := hback
        omega
    | inside i j =>
        obtain ⟨sys, call, -, -, hle⟩ := hback
        omega
    | finished => exact hback
  cases place with
  | asleep => exact Or.inl rfl
  | before i =>
      obtain ⟨m, rfl⟩ := hn (by simp)
      exact Or.inr ⟨m, rfl, turn_before h hback⟩
  | calling i =>
      obtain ⟨m, rfl⟩ := hn (by simp)
      obtain ⟨sys, hsys, hle⟩ := hback
      exact Or.inr ⟨m, rfl, turn_calling h hsys hle⟩
  | inside i j =>
      obtain ⟨m, rfl⟩ := hn (by simp)
      obtain ⟨sys, call, hsys, hcall, hle⟩ := hback
      exact Or.inr ⟨m, rfl, turn_inside h hsys hcall hle⟩
  | finished => exact hback.elim

/-! ## Sweeps -/

/-- The thread takes `k` steps, and nobody else takes any. -/
def goesOn (k : Nat) (f : Fleet) : Except Fault Fleet :=
  (List.replicate k (FleetAction.work 0)).foldlM Fleet.step f

theorem goesOn_add (j k : Nat) (f : Fleet) : goesOn (j + k) f = goesOn j f >>= goesOn k := by
  rw [goesOn, List.replicate_add, List.foldlM_append]
  rfl

theorem goesOn_succ (k : Nat) (f : Fleet) : goesOn (k + 1) f = f.step (.work 0) >>= goesOn k := rfl

/-- **The thread ends its sweep.** -/
theorem sweep (h : Working f place) {n : Nat} (hback : BackWithin f.systems n place) :
    ∃ k, k ≤ n ∧ Runs (goesOn k f) (fun f' => Working f' .asleep
      ∧ sweepFrom f'.systems 0 ≤ sweepFrom f.systems 0
      ∧ (Swept f.systems place → Swept f'.systems .asleep)) := by
  refine ends_replicate (I := fun m f' => ∃ place', Working f' place'
    ∧ BackWithin f'.systems m place' ∧ sweepFrom f'.systems 0 ≤ sweepFrom f.systems 0
    ∧ (Swept f.systems place → Swept f'.systems place')) ?_ n ⟨place, h, hback, Nat.le_refl _, id⟩
  rintro m f' ⟨place', h', hback', hle, hswept⟩
  rcases turn h' hback' with rfl | ⟨m', rfl, hrun⟩
  · exact Or.inl ⟨h', hle, hswept⟩
  · refine Or.inr ⟨m', rfl, hrun.mono ?_⟩
    rintro f'' ⟨place'', h'', hback'', hle', hswept'⟩
    exact ⟨place'', h'', hback'', hle'.trans hle, fun hs => hswept' (hswept hs)⟩

/-- A new sweep begins. -/
theorem woken (h : Working f .asleep) :
    ∃ f', f.step (.work 0) = .ok f' ∧ Working f' (.before 0) ∧ f'.systems = f.systems := by
  have hwork : f.work ⟨.scheduler, .asleep⟩ = .ok (none, .before 0) := by
    simp only [Fleet.work, h.running]
    rfl
  exact ⟨_, step_moves h.workers hwork, h.moves (by simp) (.before 0), rfl⟩

/-- **The scheduler finds nothing to do.** -/
structure AtRest (f : Fleet) : Prop where
  place : ∃ place, Working f place ∧ (place = .asleep ∨ ∃ i, place = .before i)
  short : ∀ sys ∈ f.systems, sys.engine.sstables.length < 5

theorem atRest_step (h : AtRest f) : Runs (f.step (.work 0)) AtRest := by
  obtain ⟨place, hw, rfl | ⟨i, rfl⟩⟩ := h.place
  · obtain ⟨f', hstep, hw', hsys⟩ := woken hw
    rw [hstep]
    exact ⟨⟨_, hw', Or.inr ⟨0, rfl⟩⟩, hsys ▸ h.short⟩
  · cases hsys : f.systems[i]? with
    | none =>
        have hwork : f.work ⟨.scheduler, .before i⟩ = .ok (none, .asleep) := by
          simp only [Fleet.work, hsys]
          rfl
        rw [step_moves hw.workers hwork]
        exact ⟨⟨_, hw.moves (by simp) .asleep, Or.inl rfl⟩, h.short⟩
    | some sys =>
        have hshort := h.short sys (List.mem_of_getElem? hsys)
        have hneeds : ¬ sys.engine.needsCompaction 5 = true := by
          rw [KVEngine.needsCompaction, decide_eq_true_eq]
          omega
        have hwork : f.work ⟨.scheduler, .before i⟩ = .ok (none, .before (i + 1)) := by
          simp only [Fleet.work, hsys, hw.running, if_neg hneeds]
          rfl
        rw [step_moves hw.workers hwork]
        exact ⟨⟨_, hw.moves (by simp) (.before (i + 1)), Or.inr ⟨i + 1, rfl⟩⟩, h.short⟩

theorem atRest_goesOn (k : Nat) : ∀ {f : Fleet}, AtRest f → Runs (goesOn k f) AtRest := by
  induction k with
  | zero => exact fun h => h
  | succ k ih =>
      intro f h
      rw [goesOn_succ]
      exact (atRest_step h).bind (fun f' h' => ih h')

/-- **Two sweeps are enough**: the first ends what had begun before, and nobody is
    at work during the second. -/
theorem atRest_of_working (h : Working f place) {n : Nat} (hback : BackWithin f.systems n place)
    {k : Nat} (hk : n + 1 + sweepFrom f.systems 0 ≤ k) : Runs (goesOn k f) AtRest := by
  obtain ⟨k₁, hk₁, hrun⟩ := sweep h hback
  obtain ⟨r, rfl⟩ : ∃ r, k = k₁ + (r + 1) := ⟨k - k₁ - 1, by omega⟩
  rw [goesOn_add]
  refine hrun.bind ?_
  rintro f₁ ⟨h₁, hle, -⟩
  obtain ⟨f₂, hstep, h₂, hsys⟩ := woken h₁
  rw [goesOn_succ, hstep, ok_bind]
  obtain ⟨k₂, hk₂, hrun₂⟩ := sweep h₂ (n := sweepFrom f₂.systems 0) (Nat.le_refl _)
  rw [hsys] at hk₂
  obtain ⟨r', rfl⟩ : ∃ r', r = k₂ + r' := ⟨r - k₂, by omega⟩
  rw [goesOn_add]
  refine hrun₂.bind ?_
  rintro f₃ ⟨h₃, -, hswept⟩
  have hs := hswept ⟨fun _ hlt => absurd hlt (Nat.not_lt_zero _), by simp⟩
  refine atRest_goesOn r' ⟨⟨_, h₃, Or.inl rfl⟩, ?_⟩
  intro sys hmem
  obtain ⟨i, hi⟩ := List.mem_iff_getElem?.mp hmem
  exact hs.passed hi trivial

/-! ### How many steps -/

/-- The stages that the calls have before them. -/
def stages (systems : List System) : Nat :=
  (systems.map (fun sys => (sys.calls.map stagesLeft).sum)).sum

/-- The steps after which the scheduler is at rest. -/
def turns (f : Fleet) : Nat := 2 * sweepFrom f.systems 0 + stages f.systems + 2

theorem stagesLeft_le {systems : List System} {i j : Nat} {sys : System} {call : CompactCall}
    (hsys : systems[i]? = some sys) (hcall : sys.calls[j]? = some call) :
    stagesLeft call ≤ stages systems := by
  have hone : stagesLeft call ≤ (sys.calls.map stagesLeft).sum :=
    List.single_le_sum (fun _ _ => Nat.zero_le _) _
      (List.mem_map_of_mem (List.mem_of_getElem? hcall))
  exact hone.trans (List.single_le_sum (fun _ _ => Nat.zero_le _) _
    (List.mem_map_of_mem (f := fun sys => (sys.calls.map stagesLeft).sum)
      (List.mem_of_getElem? hsys)))

/-- The sweep that has begun is a part of a whole one. -/
theorem backWithin_stages {systems : List System} {n : Nat} (h : BackWithin systems n place) :
    BackWithin systems (sweepFrom systems 0 + stages systems + 1) place := by
  cases place with
  | asleep => trivial
  | before i =>
      have hle := sweepFrom_le systems i
      show sweepFrom systems i ≤ _
      omega
  | calling i =>
      obtain ⟨sys, hsys, -⟩ := h
      have hle := sweepFrom_le systems i
      rw [sweepFrom_eq hsys] at hle
      exact ⟨sys, hsys, by omega⟩
  | inside i j =>
      obtain ⟨sys, call, hsys, hcall, -⟩ := h
      have hle := sweepFrom_le systems (i + 1)
      have hstages := stagesLeft_le hsys hcall
      exact ⟨sys, call, hsys, hcall, by omega⟩
  | finished => exact h.elim

/-! ## Runs -/

/-- The scheduler is on its way, wherever it is. -/
def Attended (f : Fleet) : Prop := ∃ place n, Working f place ∧ BackWithin f.systems n place

/-- Where the calls stay, the thread stays on its way. -/
theorem backWithin_congr {systems systems' : List System} {n : Nat}
    (h : BackWithin systems n place)
    (hcalls : ∀ {i : Nat} {sys : System}, systems[i]? = some sys →
      ∃ sys', systems'[i]? = some sys' ∧ sys'.calls = sys.calls) :
    ∃ n', BackWithin systems' n' place := by
  cases place with
  | asleep => exact ⟨0, trivial⟩
  | before i => exact ⟨sweepFrom systems' i, Nat.le_refl _⟩
  | calling i =>
      obtain ⟨sys, hsys, -⟩ := h
      obtain ⟨sys', hsys', -⟩ := hcalls hsys
      exact ⟨_, sys', hsys', Nat.le_refl _⟩
  | inside i j =>
      obtain ⟨sys, call, hsys, hcall, -⟩ := h
      obtain ⟨sys', hsys', heq⟩ := hcalls hsys
      exact ⟨_, sys', call, hsys', heq ▸ hcall, Nat.le_refl _⟩
  | finished => exact h.elim

/-- A client's operation. -/
theorem attended_client (h : Attended f) {i : Nat} {a : Action} (ha : a.Fits)
    (hclient : a ≠ .forceFlush ∧ a ≠ .begin ∧ ∀ j, a ≠ .advance j) {f' : Fleet}
    (hs : f.act i a = .ok f') : Attended f' := by
  obtain ⟨place, n, hw, hback⟩ := h
  obtain ⟨sys, sys', hsys, hstep, rfl⟩ := systems_act hs
  have hcalls : sys'.calls = sys.calls := by
    rcases calls_step hstep with hsame | ⟨hbegin, -⟩ | ⟨j, -, hadvance, -⟩
    · exact hsame
    · exact absurd hbegin hclient.2.1
    · exact absurd hadvance (hclient.2.2 j)
  have hold : ∀ {k : Nat} {u : System}, (f.systems.set i sys')[k]? = some u →
      ∃ u', f.systems[k]? = some u' ∧ u.calls = u'.calls ∧ (u = sys' ∨ u = u') := by
    intro k u hu
    rw [List.getElem?_set] at hu
    split at hu
    · rename_i hik
      subst hik
      split at hu
      · obtain rfl := Option.some.inj hu
        exact ⟨sys, hsys, hcalls, Or.inl rfl⟩
      · cases hu
    · exact ⟨u, hu, rfl, Or.inr rfl⟩
  have hnew : ∀ {k : Nat} {u : System}, f.systems[k]? = some u →
      ∃ u', (f.systems.set i sys')[k]? = some u' ∧ u'.calls = u.calls := by
    intro k u hu
    rw [List.getElem?_set]
    split
    · rename_i hik
      subst hik
      obtain rfl := Option.some.inj (hsys.symm.trans hu)
      rw [if_pos (List.getElem?_eq_some_iff.mp hu).1]
      exact ⟨sys', rfl, hcalls⟩
    · exact ⟨u, hu, rfl⟩
  obtain ⟨n', hback'⟩ := backWithin_congr hback hnew
  refine ⟨place, n', ⟨hw.workers, hw.running, ?_, ?_⟩, hback'⟩
  · intro k u hu
    obtain ⟨u', hu', -, rfl | rfl⟩ := hold hu
    · exact ((hw.shards hsys).step ha hclient.1
        (fun hbegin => absurd hbegin hclient.2.1)).of_eq_ok hstep
    · exact hw.shards hu'
  · intro k j u call hu hcall hne
    obtain ⟨u', hu', heq, -⟩ := hold hu
    exact hw.calls hu' (heq ▸ hcall) hne

/-- **Every action leaves the scheduler on its way.** -/
theorem attended_step (h : Attended f) {a : FleetAction} (ha : a.Fits) (hno : a.noCompactAll)
    (hrunning : a ≠ .stop) {f' : Fleet} (hs : f.step a = .ok f') : Attended f' := by
  cases a with
  | put key value =>
      obtain ⟨i, -, hs⟩ := bind_eq_ok.mp hs
      exact attended_client h (a := .put key value) ha (by simp) hs
  | delete key =>
      obtain ⟨i, -, hs⟩ := bind_eq_ok.mp hs
      exact attended_client h (a := .erase key) ha (by simp) hs
  | compactAll => exact absurd rfl hno
  | stop => exact absurd rfl hrunning
  | work w =>
      obtain ⟨place, n, hw, hback⟩ := h
      cases w with
      | zero =>
          rcases turn hw hback with rfl | ⟨m, rfl, hrun⟩
          · obtain ⟨f₁, hstep, hw', -⟩ := woken hw
            obtain rfl := Except.ok.inj (hs.symm.trans hstep)
            exact ⟨_, _, hw', Nat.le_refl _⟩
          · obtain ⟨place', hw', hback', -⟩ := hrun.of_eq_ok hs
            exact ⟨place', m, hw', hback'⟩
      | succ w =>
          have hnone : f.workers[w + 1]? = none := by
            rw [hw.workers]
            rfl
          simp only [Fleet.step, hnone] at hs
          obtain rfl := Except.ok.inj hs
          exact ⟨place, n, hw, hback⟩

theorem shard_fresh {e : KVEngine} (h : Rep e freshStore) : Shard ⟨e, []⟩ := by
  refine ⟨freshShared (shardConfig (fun _ => false)), ⟨h, List.Forall₂.nil⟩, solo_fresh _, ?_, ?_,
    kept_freshStore⟩
  · intro i j c d hi
    cases hi
  · intro t ht
    cases ht

/-- **After any run** of clients and scheduler. -/
theorem attended_run {n : UInt64} (hn : 2 ≤ n) (draws : Nat → Nat → Bool) {as : List FleetAction}
    (has : ∀ a ∈ as, a.Fits ∧ a.noCompactAll ∧ a ≠ .stop) :
    Runs (launch n draws >>= fun f => as.foldlM Fleet.step f) Attended := by
  obtain ⟨e, hshards, hlaunch⟩ := launch_eq hn draws
  obtain ⟨f, hrun, hrep, hone⟩ := launch_spec hn draws
  have hstart : Attended f := by
    obtain rfl := Except.ok.inj (hlaunch.symm.trans hrun)
    have hfresh : ∀ {i : Nat} {sys : System},
        (e.shards.map (fun shard => System.mk shard []))[i]? = some sys →
        Shard sys ∧ sys.calls = [] := by
      intro i sys hsys
      rw [List.getElem?_map, Option.map_eq_some_iff] at hsys
      obtain ⟨shard, hshard, rfl⟩ := hsys
      obtain ⟨s, hs, hrep'⟩ := KvMerging.forall₂_mem_left hshards.reps
        (List.mem_of_getElem? hshard)
      obtain ⟨j, -, rfl⟩ := List.mem_map.mp hs
      exact ⟨shard_fresh hrep', rfl⟩
    refine ⟨.asleep, 0, ⟨rfl, rfl, fun hsys => (hfresh hsys).1, ?_⟩, trivial⟩
    intro i j sys call hsys hcall _
    rw [(hfresh hsys).2] at hcall
    cases hcall
  let I : List FleetAction → Fleet → Prop := fun rest f =>
    (∀ a ∈ rest, a.Fits ∧ a.noCompactAll ∧ a ≠ .stop) ∧ OneThread f ∧ (∃ g, FleetRep f g)
      ∧ Attended f
  have hI : ∀ {a : FleetAction} {rest : List FleetAction} {f : Fleet}, I (a :: rest) f → True →
      Runs (f.step a) (I rest) := by
    rintro a rest f ⟨hrest, hone, ⟨g, hrep⟩, hf⟩ _
    obtain ⟨ha, hno, hrunning⟩ := hrest a List.mem_cons_self
    have hstep := scheduled_step hrep hone ha hno
    cases hs : f.step a with
    | error fault =>
        rw [hs] at hstep
        exact hstep
    | ok f' =>
        rw [hs] at hstep
        obtain ⟨hrep', hone', -⟩ := hstep
        exact ⟨fun b hb => hrest b (List.mem_cons_of_mem _ hb), hone', ⟨_, hrep'⟩,
          attended_step hf ha hno hrunning hs⟩
  rw [hrun, ok_bind]
  refine (ends_foldlM I hI as (meets_of_forall (fun _ _ => trivial) as f)
    ⟨has, hone, ⟨_, hrep⟩, hstart⟩).mono ?_
  rintro f' ⟨-, -, -, hf'⟩
  exact hf'

/-! ## At rest -/

/-- **A shard at rest**: a short list, no call at work, a file for each table, and one
    log. -/
structure Settled (sys : System) : Prop where
  short : sys.engine.sstables.length < 5
  calls : ∀ call ∈ sys.calls, call = .finished
  tables : (sstNames sys.engine.dir).Perm (sys.engine.sstables.map SSTableReader.filename)
  log : walNames sys.engine.dir = [sys.engine.currentWalPath]

theorem settled_of_atRest (h : AtRest f) {sys : System} (hsys : sys ∈ f.systems) : Settled sys := by
  obtain ⟨place, hw, hplace⟩ := h.place
  obtain ⟨i, hi⟩ := List.mem_iff_getElem?.mp hsys
  obtain ⟨s, hrep, hs⟩ := hw.shards hi
  have hfinished : ∀ call ∈ sys.calls, call = .finished := by
    intro call hcall
    obtain ⟨j, hj⟩ := List.mem_iff_getElem?.mp hcall
    by_contra hne
    have hinside := hw.calls hi hj hne
    rcases hplace with rfl | ⟨k, rfl⟩
    · cases hinside
    · cases hinside
  have hfiles : ∀ n, (s.store.files.lookup n).isSome ↔ ∃ t ∈ s.store.tables, t.number = n := by
    intro n
    constructor
    · intro hn
      obtain ⟨-, ht | ⟨c, hc, howns⟩⟩ := hs.kept.owner n hn
      · exact ht
      · -- no call answers for a file any more
        obtain ⟨cc, hcc, hcall⟩ := KvMerging.forall₂_mem_right hrep.calls hc
        rw [hfinished cc hcc] at hcall
        cases c with
        | finished => exact howns.elim
        | snapped old seen => exact hcall.elim
        | reserved old seen number => exact hcall.elim
        | built old seen number m => exact hcall.elim
        | deleting number ns => exact hcall.elim
    · rintro ⟨t, ht, rfl⟩
      exact hs.kept.tableFile t ht
  obtain ⟨htables, hlog⟩ := names_of_files hrep.rep hs.solo.numbered.nodup hfiles hs.kept.log
  exact ⟨h.short sys hsys, hfinished, htables, hlog⟩

/-- **The scheduler comes to rest.**  Whatever the clients have written and wherever
    its thread is, when they stop it needs at most `turns f` steps until every shard
    has fewer than five tables and nothing but their files and one log, and from
    then on it finds nothing to do. -/
theorem scheduler_settles {n : UInt64} (hn : 2 ≤ n) (draws : Nat → Nat → Bool)
    {as : List FleetAction} (has : ∀ a ∈ as, a.Fits ∧ a.noCompactAll ∧ a ≠ .stop) :
    Runs (launch n draws >>= fun f => as.foldlM Fleet.step f) (fun f => ∀ k, turns f ≤ k →
      Runs ((List.replicate k (FleetAction.work 0)).foldlM Fleet.step f)
        (fun f' => ∀ sys ∈ f'.systems, Settled sys)) := by
  refine (attended_run hn draws has).mono ?_
  rintro f ⟨place, m, hw, hback⟩ k hk
  rw [turns] at hk
  refine (atRest_of_working hw (backWithin_stages hback) (k := k) (by omega)).mono ?_
  intro f' hrest sys hsys
  exact settled_of_atRest hrest hsys

/-- The clients stop while the thread is in the middle of a merge of five tables. -/
def stoppedOnTheWay : List FleetAction :=
  manyPuts ++ [.work 0, .work 0, .work 0, .delete [1], .work 0, .put [2] [8], .work 0]

theorem scheduler_settles_stoppedOnTheWay :
    Runs (launch 2 (fun _ _ => false) >>= fun f => stoppedOnTheWay.foldlM Fleet.step f)
      (fun f => ∀ k, turns f ≤ k →
        Runs ((List.replicate k (FleetAction.work 0)).foldlM Fleet.step f)
          (fun f' => ∀ sys ∈ f'.systems, Settled sys)) :=
  scheduler_settles (by decide) _ (List.forall_mem_append.mpr ⟨manyPuts_spec, by decide⟩)

end KvSettling
