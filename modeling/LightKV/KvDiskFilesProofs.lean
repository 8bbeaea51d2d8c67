import LightKV.KvInterleavingProofs
import LightKV.KvTableOrderProofs

/-! # Files on disk while compactions are in flight

    A call of `Compact` is pending until it replaces the list.  `OnDisk` says
    which files there are: those of the list, those that a call has built and
    not yet brought into the list, and those that a call is about to delete.
    Every stage of a call keeps it. -/

namespace KvDiskFiles

open KvBytes KvInterleaving KvStore KvTable KvTableOrder Overlay

/-! ## Calls as pending compactions -/

/-- What is pending of a call. -/
def pendingOf : Call → Option Pending
  | .snapped old seen => some ⟨old, seen, none⟩
  | .reserved old seen number => some ⟨old, seen, some number⟩
  | .built old seen number _ => some ⟨old, seen, some number⟩
  | _ => none

/-- What is pending at each index. -/
def pendAt (calls : List Call) (i : Nat) : Option Pending := calls[i]?.bind pendingOf

theorem getElem?_set_of {calls : List Call} {i : Nat} {call : Call} (hi : calls[i]? = some call)
    (call' : Call) (j : Nat) :
    (calls.set i call')[j]? = if j = i then some call' else calls[j]? := by
  have hlt : i < calls.length := (List.getElem?_eq_some_iff.mp hi).1
  rw [List.getElem?_set]
  by_cases hj : i = j
  · rw [if_pos hj, if_pos hj.symm, if_pos hlt]
  · rw [if_neg hj, if_neg (fun h => hj h.symm)]

theorem getElem?_set_here {calls : List Call} {i : Nat} {call : Call} (hi : calls[i]? = some call)
    (call' : Call) : (calls.set i call')[i]? = some call' := by
  rw [getElem?_set_of hi, if_pos rfl]

/-- A stage that is not the one that ends is still there. -/
theorem set_keeps {calls : List Call} {i j : Nat} {call call' c : Call}
    (hi : calls[i]? = some call) (hj : calls[j]? = some c) (hne : c ≠ call) :
    (calls.set i call')[j]? = some c := by
  rw [getElem?_set_of hi, if_neg]
  · exact hj
  · rintro rfl
    rw [hi] at hj
    exact hne (Option.some.inj hj).symm

/-- A stage that is not the one that begins was there before. -/
theorem set_adds {calls : List Call} {i j : Nat} {call call' c : Call}
    (hi : calls[i]? = some call) (hj : (calls.set i call')[j]? = some c) (hne : c ≠ call') :
    calls[j]? = some c := by
  rw [getElem?_set_of hi] at hj
  split at hj
  · exact absurd (Option.some.inj hj).symm hne
  · exact hj

theorem pendAt_set {calls : List Call} {i : Nat} {call : Call} (hi : calls[i]? = some call)
    (call' : Call) :
    pendAt (calls.set i call') = setPending (pendAt calls) i (pendingOf call') := by
  funext j
  rw [pendAt, getElem?_set_of hi, setPending]
  split
  · rfl
  · rfl

theorem pendAt_of {calls : List Call} {i : Nat} {call : Call} (hi : calls[i]? = some call) :
    pendAt calls i = pendingOf call := by
  rw [pendAt, hi]
  rfl

/-- A call that is replaced by one with the same pending part changes nothing. -/
theorem pendAt_set_same {calls : List Call} {i : Nat} {call call' : Call}
    (hi : calls[i]? = some call) (h : pendingOf call' = pendingOf call) :
    pendAt (calls.set i call') = pendAt calls := by
  rw [pendAt_set hi, h]
  funext j
  rw [setPending]
  split
  · rename_i hj
    rw [hj, pendAt_of hi]
  · rfl

theorem ordered_set_same {tables : List Table} {counter : Nat} {flushed : Bytes → Option Bytes}
    {calls : List Call} {i : Nat} {call call' : Call}
    (h : Ordered tables counter flushed (pendAt calls)) (hi : calls[i]? = some call)
    (hsame : pendingOf call' = pendingOf call) :
    Ordered tables counter flushed (pendAt (calls.set i call')) := by
  rw [pendAt_set_same hi hsame]
  exact h

theorem pendAt_append (calls : List Call) (call : Call) :
    pendAt (calls ++ [call])
      = fun j => if j = calls.length then pendingOf call else pendAt calls j := by
  funext j
  rw [pendAt]
  split
  · rename_i hj
    rw [hj, List.getElem?_append_right (Nat.le_refl _), Nat.sub_self]
    rfl
  · rename_i hj
    rcases Nat.lt_or_gt_of_ne hj with hlt | hgt
    · rw [List.getElem?_append_left hlt]
      rfl
    · rw [List.getElem?_eq_none (by rw [List.length_append, List.length_singleton]; omega), pendAt,
        List.getElem?_eq_none (Nat.le_of_lt hgt)]

theorem pendAt_eq_some {calls : List Call} {i : Nat} {p : Pending} (h : pendAt calls i = some p) :
    ∃ call, calls[i]? = some call ∧ pendingOf call = some p := Option.bind_eq_some_iff.mp h

theorem pendAt_none {calls : List Call} {j : Nat} (h : calls.length ≤ j) :
    pendAt calls j = none := by
  rw [pendAt, List.getElem?_eq_none h]
  rfl

/-! ## The files of a system -/

/-- The files on disk: those of the list, those a call has built, and those a
    call is about to delete. -/
structure OnDisk (store : Store) (calls : List Call) : Prop where
  tableFile : ∀ t ∈ store.tables,
    store.files.lookup t.number = some t.entries ∧ t.entries ≠ []
  fileLe : ∀ n es, store.files.lookup n = some es → n ≤ store.counter
  fileTable : ∀ n es, store.files.lookup n = some es → es ≠ [] →
    (∃ t ∈ store.tables, t.number = n)
      ∨ (∃ (i : Nat) (old : List Table) (seen : Bytes → Option Bytes) (m : List Entry),
        calls[i]? = some (Call.built old seen n m))
      ∨ ∃ (i c : Nat) (ns : List Nat), calls[i]? = some (Call.deleting c ns) ∧ n ∈ ns
  builtFile : ∀ (i : Nat) old seen n m, calls[i]? = some (Call.built old seen n m) →
    store.files.lookup n = some m ∧ m ≠ []
  deleting : ∀ (i c : Nat) (ns : List Nat), calls[i]? = some (Call.deleting c ns) → ∀ n ∈ ns,
    n ≠ c ∧ n ≤ store.counter ∧ (∀ t ∈ store.tables, t.number ≠ n)
      ∧ ∀ j p, pendAt calls j = some p → p.number ≠ some n

section Disk

variable {store : Store} {calls : List Call} {flushed : Bytes → Option Bytes}

/-- The files when the memtable goes to a new table. -/
theorem OnDisk.flush (h : OnDisk store calls)
    (ho : Ordered store.tables store.counter flushed (pendAt calls)) {es : List Entry}
    (hne : es ≠ []) {store' : Store} (hc : store'.counter = store.counter + 1)
    (hf : store'.files = upsert (store.counter + 1) es store.files)
    (ht : store'.tables = ⟨store.counter + 1, store.counter + 1, es⟩ :: store.tables) :
    OnDisk store' calls := by
  have hlook : ∀ n, n ≤ store.counter → store'.files.lookup n = store.files.lookup n := by
    intro n hn
    rw [hf, lookup_upsert, if_neg (by omega)]
  have hself : store'.files.lookup (store.counter + 1) = some es := by
    rw [hf, lookup_upsert, if_pos rfl]
  refine ⟨?_, ?_, ?_, ?_, ?_⟩
  · intro t htm
    rw [ht] at htm
    rcases List.mem_cons.mp htm with rfl | htm'
    · exact ⟨hself, hne⟩
    · rw [hlook _ (ho.numberLe t htm')]
      exact h.tableFile t htm'
  · intro n es' hn
    rw [hf, lookup_upsert] at hn
    rw [hc]
    split at hn
    · omega
    · exact Nat.le_succ_of_le (h.fileLe n es' hn)
  · intro n es' hn hne'
    rw [ht]
    rw [hf, lookup_upsert] at hn
    split at hn
    · rename_i hnc
      exact Or.inl ⟨_, List.mem_cons_self, hnc.symm⟩
    · rcases h.fileTable n es' hn hne' with ⟨t, htm, heq⟩ | hrest
      · exact Or.inl ⟨t, List.mem_cons_of_mem _ htm, heq⟩
      · exact Or.inr hrest
  · intro i old seen n m hi
    have hp : pendAt calls i = some ⟨old, seen, some n⟩ := pendAt_of hi
    rw [hlook n ((ho.pending i _ hp).numberLe n rfl)]
    exact h.builtFile i old seen n m hi
  · intro i c ns hi n hn
    obtain ⟨h1, h2, h3, h4⟩ := h.deleting i c ns hi n hn
    refine ⟨h1, by omega, ?_, h4⟩
    intro t htm
    rw [ht] at htm
    rcases List.mem_cons.mp htm with rfl | htm'
    · intro heq
      have : store.counter + 1 = n := heq
      omega
    · exact h3 t htm'

/-- The files when calls change that neither have built nor delete anything. -/
theorem OnDisk.of_calls (h : OnDisk store calls) {calls' : List Call} {store' : Store}
    (hf : store'.files = store.files) (ht : store'.tables = store.tables)
    (hc : store.counter ≤ store'.counter)
    (hbuilt : ∀ (i : Nat) old seen n m, calls'[i]? = some (Call.built old seen n m)
      ↔ calls[i]? = some (Call.built old seen n m))
    (hdel : ∀ (i c n : Nat) (ns : List Nat), calls'[i]? = some (Call.deleting c (n :: ns))
      ↔ calls[i]? = some (Call.deleting c (n :: ns)))
    (hpend : ∀ j p n, pendAt calls' j = some p → p.number = some n →
      n ≤ store.counter → ∃ q, pendAt calls j = some q ∧ q.number = some n) :
    OnDisk store' calls' := by
  have hdel' : ∀ {i c n : Nat} {ns : List Nat}, n ∈ ns → (calls'[i]? = some (Call.deleting c ns)
      ↔ calls[i]? = some (Call.deleting c ns)) := by
    intro i c n ns hn
    cases ns with
    | nil => cases hn
    | cons k ns => exact hdel i c k ns
  refine ⟨by rw [hf, ht]; exact h.tableFile, ?_, ?_, ?_, ?_⟩
  · intro n es hn
    rw [hf] at hn
    exact (h.fileLe n es hn).trans hc
  · intro n es hn hne
    rw [hf] at hn
    rw [ht]
    rcases h.fileTable n es hn hne with hl | ⟨i, old, seen, m, hi⟩ | ⟨i, c, ns, hi, hmem⟩
    · exact Or.inl hl
    · exact Or.inr (Or.inl ⟨i, old, seen, m, (hbuilt i old seen n m).mpr hi⟩)
    · exact Or.inr (Or.inr ⟨i, c, ns, (hdel' hmem).mpr hi, hmem⟩)
  · intro i old seen n m hi
    rw [hf]
    exact h.builtFile i old seen n m ((hbuilt i old seen n m).mp hi)
  · intro i c ns hi n hn
    obtain ⟨h1, h2, h3, h4⟩ := h.deleting i c ns ((hdel' hn).mp hi) n hn
    refine ⟨h1, h2.trans hc, by rw [ht]; exact h3, ?_⟩
    intro j p hp hpn
    obtain ⟨q, hq, hqn⟩ := hpend j p n hp hpn h2
    exact h4 j q hq hqn

/-- A call that has no file of its own on disk. -/
def Quiet : Call → Prop
  | .built _ _ _ _ => False
  | .deleting _ (_ :: _) => False
  | _ => True

/-- The files when a call without files goes on to a stage without files. -/
theorem OnDisk.set_quiet (h : OnDisk store calls) {i : Nat} {c call : Call}
    (hi : calls[i]? = some c) (hq : Quiet c) (hq' : Quiet call) {store' : Store}
    (hf : store'.files = store.files) (ht : store'.tables = store.tables)
    (hc : store.counter ≤ store'.counter)
    (hpend : ∀ p n, pendingOf call = some p → p.number = some n → n ≤ store.counter →
      ∃ q, pendingOf c = some q ∧ q.number = some n) :
    OnDisk store' (calls.set i call) := by
  have hiff : ∀ (j : Nat) (c' : Call), ¬ Quiet c' →
      ((calls.set i call)[j]? = some c' ↔ calls[j]? = some c') := by
    intro j c' hn
    constructor
    · intro hj
      refine set_adds hi hj ?_
      rintro rfl
      exact hn hq'
    · intro hj
      refine set_keeps hi hj ?_
      rintro rfl
      exact hn hq
  refine h.of_calls hf ht hc (fun j old seen n m => hiff j _ not_false)
    (fun j k n ns => hiff j _ not_false) ?_
  intro j p n hp hn hle
  rw [pendAt_set hi, setPending] at hp
  split at hp
  · rename_i hj
    rw [hj, pendAt_of hi]
    exact hpend p n hp hn hle
  · exact ⟨p, hp, hn⟩

/-- The files when a call without files ends. -/
theorem OnDisk.set_finished (h : OnDisk store calls) {i : Nat} {c : Call}
    (hi : calls[i]? = some c) (hq : Quiet c) : OnDisk store (calls.set i .finished) := by
  have hquiet : Quiet .finished := trivial
  exact h.set_quiet hi hq hquiet rfl rfl (Nat.le_refl _) (fun p n hp => by cases hp)

/-- The files when a call has written its merged file. -/
theorem OnDisk.build (h : OnDisk store calls)
    (ho : Ordered store.tables store.counter flushed (pendAt calls)) {i n : Nat}
    {old : List Table} {seen : Bytes → Option Bytes} {m : List Entry}
    (hi : calls[i]? = some (Call.reserved old seen n)) {call : Call}
    (hcall : m ≠ [] ∧ call = Call.built old seen n m ∨ m = [] ∧ call = Call.finished) :
    OnDisk (store.writeMerged n m) (calls.set i call) := by
  have hp : pendAt calls i = some ⟨old, seen, some n⟩ := pendAt_of hi
  have hok := ho.pending i _ hp
  have hlook : ∀ k, (store.writeMerged n m).files.lookup k
      = if k = n then some m else store.files.lookup k := fun k => lookup_upsert _ _ _ _
  have hpend : ∀ j p, pendAt (calls.set i call) j = some p → pendAt calls j = some p := by
    intro j p hj
    rw [pendAt_set hi, setPending] at hj
    split at hj
    · rename_i hji
      rcases hcall with ⟨-, rfl⟩ | ⟨-, rfl⟩
      · rw [hji, hp]
        exact hj
      · cases hj
    · exact hj
  refine ⟨?_, ?_, ?_, ?_, ?_⟩
  · intro t ht
    rw [hlook, if_neg]
    · exact h.tableFile t ht
    · intro heq
      exact hok.numberNew n rfl (heq ▸ List.mem_map_of_mem ht)
  · intro k es hk
    rw [hlook] at hk
    split at hk
    · rename_i hkn
      rw [hkn]
      exact hok.numberLe n rfl
    · exact h.fileLe k es hk
  · intro k es hk hne
    rw [hlook] at hk
    split at hk
    · rename_i hkn
      obtain rfl := Option.some.inj hk
      rcases hcall with ⟨-, rfl⟩ | ⟨hnil, -⟩
      · refine Or.inr (Or.inl ⟨i, old, seen, m, ?_⟩)
        rw [getElem?_set_here hi, hkn]
      · exact absurd hnil hne
    · rcases h.fileTable k es hk hne with hl | ⟨j, old', seen', m', hj⟩ | ⟨j, c, ns, hj, hmem⟩
      · exact Or.inl hl
      · exact Or.inr (Or.inl ⟨j, old', seen', m', set_keeps hi hj (by simp)⟩)
      · exact Or.inr (Or.inr ⟨j, c, ns, set_keeps hi hj (by simp), hmem⟩)
  · intro j old' seen' k m' hj
    by_cases hc : Call.built old' seen' k m' = call
    · rcases hcall with ⟨hne, rfl⟩ | ⟨-, rfl⟩
      · simp only [Call.built.injEq] at hc
        obtain ⟨-, -, rfl, rfl⟩ := hc
        exact ⟨by rw [hlook, if_pos rfl], hne⟩
      · cases hc
    · have hj' := set_adds hi hj hc
      rw [hlook, if_neg]
      · exact h.builtFile j old' seen' k m' hj'
      · rintro rfl
        refine ho.distinct j i ⟨old', seen', some k⟩ _ k ?_ (pendAt_of hj') hp rfl rfl
        rintro rfl
        rw [hi] at hj'
        cases Option.some.inj hj'
  · intro j c ns hj k hk
    have hne : Call.deleting c ns ≠ call := by
      rcases hcall with ⟨-, rfl⟩ | ⟨-, rfl⟩ <;> simp
    obtain ⟨h1, h2, h3, h4⟩ := h.deleting j c ns (set_adds hi hj hne) k hk
    exact ⟨h1, h2, h3, fun j' p hp' => h4 j' p (hpend j' p hp')⟩

/-- The files when a call has replaced the list. -/
theorem OnDisk.swap (h : OnDisk store calls)
    (ho : Ordered store.tables store.counter flushed (pendAt calls)) {i n : Nat}
    {old : List Table} {seen : Bytes → Option Bytes} {m : List Entry}
    (hi : calls[i]? = some (Call.built old seen n m)) :
    OnDisk (store.swap old ⟨n, 0, m⟩) (calls.set i (Call.deleting n (old.map Table.number))) := by
  have hp : pendAt calls i = some ⟨old, seen, some n⟩ := pendAt_of hi
  have hok := ho.pending i _ hp
  have hpend : ∀ j p, pendAt (calls.set i (Call.deleting n (old.map Table.number))) j = some p →
      j ≠ i ∧ pendAt calls j = some p := by
    intro j p hj
    rw [pendAt_set hi, setPending] at hj
    split at hj
    · cases hj
    · rename_i hji
      exact ⟨hji, hj⟩
  refine ⟨?_, h.fileLe, ?_, ?_, ?_⟩
  · intro t ht
    rcases List.mem_cons.mp ht with rfl | ht'
    · exact h.builtFile i old seen n m hi
    · exact h.tableFile t (mem_kept.mp ht').1
  · intro k es hk hne
    rcases h.fileTable k es hk hne with ⟨t, ht, rfl⟩ | ⟨j, old', seen', m', hj⟩ | ⟨j, c, ns, hj, hmem⟩
    · by_cases ham : Among t old
      · exact Or.inr (Or.inr ⟨i, n, old.map Table.number, getElem?_set_here hi _, ham⟩)
      · exact Or.inl ⟨t, List.mem_cons_of_mem _ (mem_kept.mpr ⟨ht, ham⟩), rfl⟩
    · by_cases hji : j = i
      · rw [hji, hi] at hj
        simp only [Option.some.injEq, Call.built.injEq] at hj
        exact Or.inl ⟨_, List.mem_cons_self, hj.2.2.1⟩
      · refine Or.inr (Or.inl ⟨j, old', seen', m', ?_⟩)
        rw [getElem?_set_of hi, if_neg hji]
        exact hj
    · exact Or.inr (Or.inr ⟨j, c, ns, set_keeps hi hj (by simp), hmem⟩)
  · intro j old' seen' k m' hj
    exact h.builtFile j old' seen' k m' (set_adds hi hj (by simp))
  · intro j c ns hj k hk
    rw [getElem?_set_of hi] at hj
    split at hj
    · simp only [Option.some.injEq, Call.deleting.injEq] at hj
      obtain ⟨rfl, rfl⟩ := hj
      obtain ⟨t, ht, rfl⟩ := List.mem_map.mp hk
      have hlt := hok.numberLt n rfl t ht
      refine ⟨by omega, hok.oldLe t ht, ?_, ?_⟩
      · intro u hu heq
        rcases List.mem_cons.mp hu with rfl | hu'
        · have : n = t.number := heq
          omega
        · exact (mem_kept.mp hu').2 (List.mem_map.mpr ⟨t, ht, heq.symm⟩)
      · intro j' p hp' hn
        exact (ho.cross i j' _ p hp (hpend j' p hp').2).number _ hn (List.mem_map_of_mem ht)
    · obtain ⟨h1, h2, h3, h4⟩ := h.deleting j c ns hj k hk
      refine ⟨h1, h2, ?_, fun j' p hp' => h4 j' p (hpend j' p hp').2⟩
      intro u hu heq
      rcases List.mem_cons.mp hu with rfl | hu'
      · exact h4 i _ hp (congrArg some heq)
      · exact h3 u (mem_kept.mp hu').1 heq

/-- The files when a call has deleted one. -/
theorem OnDisk.delete (h : OnDisk store calls) {i c n : Nat}
    {ns : List Nat} (hi : calls[i]? = some (Call.deleting c (n :: ns))) :
    OnDisk (store.deleteOld c n) (calls.set i (Call.deleting c ns)) := by
  obtain ⟨hnc, -, hnt, hnp⟩ := h.deleting i c _ hi n List.mem_cons_self
  rw [Store.deleteOld, if_neg hnc]
  have hlook : ∀ k, (discard n store.files).lookup k
      = if k = n then none else store.files.lookup k := fun k => lookup_discard _ _ _
  have hpend : pendAt (calls.set i (Call.deleting c ns)) = pendAt calls := pendAt_set_same hi rfl
  refine ⟨?_, ?_, ?_, ?_, ?_⟩
  · intro t ht
    rw [hlook, if_neg (hnt t ht)]
    exact h.tableFile t ht
  · intro k es hk
    rw [hlook] at hk
    split at hk
    · cases hk
    · exact h.fileLe k es hk
  · intro k es hk hne
    rw [hlook] at hk
    split at hk
    · cases hk
    · rename_i hkn
      rcases h.fileTable k es hk hne with hl | ⟨j, old', seen', m', hj⟩ | ⟨j, c', ns', hj, hmem⟩
      · exact Or.inl hl
      · exact Or.inr (Or.inl ⟨j, old', seen', m', set_keeps hi hj (by simp)⟩)
      · by_cases hji : j = i
        · rw [hji, hi] at hj
          simp only [Option.some.injEq, Call.deleting.injEq] at hj
          obtain ⟨rfl, rfl⟩ := hj
          exact Or.inr (Or.inr ⟨i, c, ns, getElem?_set_here hi _,
            (List.mem_cons.mp hmem).resolve_left hkn⟩)
        · refine Or.inr (Or.inr ⟨j, c', ns', ?_, hmem⟩)
          rw [getElem?_set_of hi, if_neg hji]
          exact hj
  · intro j old' seen' k m' hj
    have hj' := set_adds hi hj (by simp)
    rw [hlook, if_neg]
    · exact h.builtFile j old' seen' k m' hj'
    · rintro rfl
      exact hnp j _ (pendAt_of hj') rfl
  · intro j c' ns' hj k hk
    rw [hpend]
    rw [getElem?_set_of hi] at hj
    split at hj
    · simp only [Option.some.injEq, Call.deleting.injEq] at hj
      obtain ⟨rfl, rfl⟩ := hj
      exact h.deleting i _ _ hi k (List.mem_cons_of_mem _ hk)
    · exact h.deleting j c' ns' hj k hk

end Disk

end KvDiskFiles
