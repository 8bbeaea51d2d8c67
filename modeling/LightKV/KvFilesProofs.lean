import LightKV.KvSessionProofs

/-! # Tables and their files

    In a run without overlapping compactions the tables of the list are the
    files on disk, newest first by number, and the counter is the largest number
    of a file (`Filed`).  Every operation keeps this, so opening the directory
    again gives the layers of the list and the same counter. -/

namespace KvFiles

open KvBytes KvCompaction KvDirectory KvRecovery KvSession KvStore KvTable Overlay

/-- The tables of the list are the files on disk that `Open` accepts, and the
    counter is the largest number of a file. -/
structure Filed (s : Store) : Prop where
  sorted : KeySorted s.files
  descending : s.tables.Pairwise (fun t u => u.number < t.number)
  tableFile : ∀ t ∈ s.tables, s.files.lookup t.number = some t.entries ∧ t.entries ≠ []
  fileTable : ∀ n es, s.files.lookup n = some es → es ≠ [] → ∃ t ∈ s.tables, t.number = n
  fileLe : ∀ n es, s.files.lookup n = some es → n ≤ s.counter
  top : s.counter = 0 ∨ (s.files.lookup s.counter).isSome

variable {s : Store}

theorem Filed.numberLe (h : Filed s) {t : Table} (ht : t ∈ s.tables) : t.number ≤ s.counter :=
  h.fileLe _ _ (h.tableFile t ht).1

/-- A file under the next number becomes the top one. -/
theorem Filed.topmost (h : Filed s) {es : List Entry} {s' : Store}
    (hlook : ∀ n, s'.files.lookup n = if n = s.counter + 1 then some es else s.files.lookup n)
    (hc : s'.counter = s.counter + 1) :
    (∀ n es', s'.files.lookup n = some es' → n ≤ s'.counter)
      ∧ (s'.files.lookup s'.counter).isSome := by
  constructor
  · intro n es' hn
    rw [hlook] at hn
    split at hn
    · omega
    · have := h.fileLe n es' hn
      omega
  · rw [hlook, hc, if_pos rfl]
    rfl

/-- The next file is one that `Open` rejects. -/
theorem Filed.addEmpty (h : Filed s) {s' : Store} (hf : s'.files = upsert (s.counter + 1) [] s.files)
    (ht : s'.tables = s.tables) (hc : s'.counter = s.counter + 1) : Filed s' := by
  have hlook : ∀ n, s'.files.lookup n
      = if n = s.counter + 1 then some [] else s.files.lookup n := by
    intro n
    rw [hf, lookup_upsert]
  obtain ⟨hle, htop⟩ := h.topmost hlook hc
  refine ⟨hf ▸ keySorted_upsert h.sorted, ht ▸ h.descending, ?_, ?_, hle, Or.inr htop⟩
  · intro t htm
    rw [ht] at htm
    have := h.numberLe htm
    rw [hlook, if_neg (by omega)]
    exact h.tableFile t htm
  · intro n es hn hne
    rw [hlook] at hn
    split at hn
    · exact absurd (Option.some.inj hn).symm hne
    · rw [ht]
      exact h.fileTable n es hn hne

/-- The next file is a table that goes to the front of the list. -/
theorem Filed.addTable (h : Filed s) {es : List Entry} (hne : es ≠ []) {sequence : Nat} {s' : Store}
    (hf : s'.files = upsert (s.counter + 1) es s.files)
    (ht : s'.tables = ⟨s.counter + 1, sequence, es⟩ :: s.tables)
    (hc : s'.counter = s.counter + 1) : Filed s' := by
  have hlook : ∀ n, s'.files.lookup n
      = if n = s.counter + 1 then some es else s.files.lookup n := by
    intro n
    rw [hf, lookup_upsert]
  obtain ⟨hle, htop⟩ := h.topmost hlook hc
  refine ⟨hf ▸ keySorted_upsert h.sorted, ?_, ?_, ?_, hle, Or.inr htop⟩
  · rw [ht]
    exact List.pairwise_cons.mpr ⟨fun t htm => Nat.lt_succ_of_le (h.numberLe htm), h.descending⟩
  · intro t htm
    rw [ht] at htm
    rcases List.mem_cons.mp htm with rfl | htm'
    · exact ⟨by rw [hlook, if_pos rfl], hne⟩
    · have := h.numberLe htm'
      rw [hlook, if_neg (by omega)]
      exact h.tableFile t htm'
  · intro n es' hn hne'
    rw [hlook] at hn
    rw [ht]
    split at hn
    · rename_i hnc
      exact ⟨_, List.mem_cons_self, hnc.symm⟩
    · obtain ⟨t, htm, heq⟩ := h.fileTable n es' hn hne'
      exact ⟨t, List.mem_cons_of_mem _ htm, heq⟩

theorem Filed.writeTable (h : Filed s) (hne : s.mem ≠ []) : Filed s.writeTable := by
  have hstored : storedLayer s.mem ≠ [] := by simpa [storedLayer] using hne
  exact h.addTable hstored rfl rfl rfl

theorem Filed.flush (h : Filed s) : Filed s.flush := by
  rw [Store.flush]
  split
  · exact h
  · rename_i hne
    have hw := h.writeTable hne
    exact ⟨hw.sorted, hw.descending, hw.tableFile, hw.fileTable, hw.fileLe, hw.top⟩

/-- The files that a deletion loop leaves. -/
theorem lookup_deleteAll (number : Nat) (ns : List Nat) (n : Nat) :
    ∀ (s : Store), (Store.deleteAll s number ns).files.lookup n
      = if n ∈ ns ∧ n ≠ number then none else s.files.lookup n := by
  induction ns with
  | nil =>
      intro s
      rw [if_neg (fun h => by cases h.1)]
      rfl
  | cons m ns ih =>
      intro s
      have hone : (s.deleteOld number m).files.lookup n
          = if n = m ∧ n ≠ number then none else s.files.lookup n := by
        by_cases hm : m = number
        · rw [Store.deleteOld, if_pos hm, if_neg]
          rintro ⟨rfl, hne⟩
          exact hne hm
        · rw [Store.deleteOld, if_neg hm, lookup_discard]
          by_cases hn : n = m
          · rw [if_pos hn, if_pos ⟨hn, hn ▸ hm⟩]
          · rw [if_neg hn, if_neg (fun h => hn h.1)]
      show (Store.deleteAll (s.deleteOld number m) number ns).files.lookup n = _
      rw [ih, hone]
      by_cases h1 : n ∈ ns ∧ n ≠ number
      · rw [if_pos h1, if_pos ⟨List.mem_cons_of_mem _ h1.1, h1.2⟩]
      · rw [if_neg h1]
        by_cases h2 : n = m ∧ n ≠ number
        · rw [if_pos h2, if_pos ⟨h2.1 ▸ List.mem_cons_self, h2.2⟩]
        · rw [if_neg h2, if_neg]
          rintro ⟨hmem, hne⟩
          rcases List.mem_cons.mp hmem with heq | hmem'
          · exact h2 ⟨heq, hne⟩
          · exact h1 ⟨hmem', hne⟩

theorem keySorted_deleteAll (number : Nat) (ns : List Nat) :
    ∀ {s : Store}, KeySorted s.files → KeySorted (Store.deleteAll s number ns).files := by
  induction ns with
  | nil => exact id
  | cons m ns ih =>
      intro s hs
      have hone : KeySorted (s.deleteOld number m).files := by
        rw [Store.deleteOld]
        split
        · exact hs
        · exact keySorted_discard hs _
      exact ih hone

theorem files_deleteAll_congr (number : Nat) (ns : List Nat) :
    ∀ {s s' : Store}, s.files = s'.files →
      (Store.deleteAll s number ns).files = (Store.deleteAll s' number ns).files := by
  induction ns with
  | nil => exact id
  | cons n ns ih =>
      intro s s' heq
      have hone : (s.deleteOld number n).files = (s'.deleteOld number n).files := by
        rw [Store.deleteOld, Store.deleteOld]
        split
        · exact heq
        · exact congrArg (discard n) heq
      exact ih hone

/-- The files of a compaction whose deletion loop has come to its `d`-th file. -/
theorem Filed.cut (h : Filed s) {m : List Entry} (hm : m ≠ []) (d : Nat) {s' : Store}
    (hf : s'.files = (Store.deleteAll (s.writeMerged (s.counter + 1) m) (s.counter + 1)
      ((s.tables.map Table.number).take d)).files)
    (ht : s'.tables = ⟨s.counter + 1, 0, m⟩ :: s.tables.drop d)
    (hc : s'.counter = s.counter + 1) : Filed s' := by
  have hlook : ∀ n, s'.files.lookup n
      = if n ∈ (s.tables.map Table.number).take d ∧ n ≠ s.counter + 1 then none
        else if n = s.counter + 1 then some m else s.files.lookup n := by
    intro n
    rw [hf, lookup_deleteAll]
    congr 1
    exact lookup_upsert _ _ _ _
  have hself : s'.files.lookup (s.counter + 1) = some m := by
    rw [hlook, if_neg (fun hc => hc.2 rfl), if_pos rfl]
  have hnd : ((s.tables.map Table.number).take d ++ (s.tables.map Table.number).drop d).Nodup := by
    rw [List.take_append_drop, List.Nodup, List.pairwise_map]
    exact h.descending.imp (fun hlt => Nat.ne_of_gt hlt)
  have hdisj := List.disjoint_of_nodup_append hnd
  refine ⟨?_, ?_, ?_, ?_, ?_, Or.inr ?_⟩
  · rw [hf]
    exact keySorted_deleteAll _ _ (keySorted_upsert h.sorted)
  · rw [ht]
    refine List.pairwise_cons.mpr ⟨?_, h.descending.sublist (List.drop_sublist d _)⟩
    intro t htm
    exact Nat.lt_succ_of_le (h.numberLe (List.mem_of_mem_drop htm))
  · intro t htm
    rw [ht] at htm
    rcases List.mem_cons.mp htm with rfl | htm'
    · exact ⟨hself, hm⟩
    · have hle := h.numberLe (List.mem_of_mem_drop htm')
      have hkeep : t.number ∉ (s.tables.map Table.number).take d := by
        intro hdel
        refine hdisj hdel ?_
        rw [← List.map_drop]
        exact List.mem_map_of_mem htm'
      rw [hlook, if_neg (fun hc => hkeep hc.1), if_neg (by omega)]
      exact h.tableFile t (List.mem_of_mem_drop htm')
  · intro n es hn hne
    rw [ht]
    rw [hlook] at hn
    split at hn
    · cases hn
    · rename_i hdel
      split at hn
      · exact ⟨_, List.mem_cons_self, Eq.symm ‹_›⟩
      · obtain ⟨t, htm, rfl⟩ := h.fileTable n es hn hne
        refine ⟨t, List.mem_cons_of_mem _ ?_, rfl⟩
        rcases List.mem_append.mp ((List.take_append_drop d s.tables).symm ▸ htm) with hl | hr
        · rw [← List.map_take] at hdel
          exact absurd ⟨List.mem_map_of_mem hl, ‹_›⟩ hdel
        · exact hr
  · intro n es hn
    rw [hlook] at hn
    rw [hc]
    split at hn
    · cases hn
    · split at hn
      · exact Nat.le_of_eq ‹_›
      · exact Nat.le_succ_of_le (h.fileLe n es hn)
  · rw [hc, hself]
    rfl

theorem Filed.compacted (h : Filed s) (m : List Entry) : Filed (Store.compacted s m) := by
  by_cases hm : m = []
  · have hs : Store.compacted s m = s.reserve.writeMerged (s.counter + 1) m := by
      rw [Store.compacted, if_pos hm]
    rw [hs, hm]
    exact h.addEmpty rfl rfl rfl
  · have ht := tables_compacted s m
    rw [if_neg hm] at ht
    refine h.cut hm s.tables.length ?_ ?_ (counter_compacted s m)
    · rw [Store.compacted, if_neg hm, List.take_of_length_le (Nat.le_of_eq (List.length_map _))]
      exact files_deleteAll_congr _ _ rfl
    · rw [ht, List.drop_length]

/-- Opening the files again gives the layers of the list. -/
theorem Filed.loadTables (h : Filed s) :
    (loadTables s.files (s.files.map Prod.fst).reverse).map Table.entries
      = s.tables.map Table.entries := by
  let pair : Table → Nat × List Entry := fun t => (t.number, t.entries)
  have hasc : (s.files.map Prod.fst).Pairwise (· < ·) := List.pairwise_map.mpr h.sorted
  have hd : ((KvRecovery.loadTables s.files (s.files.map Prod.fst).reverse).map pair).Pairwise
      (fun a b => b.1 < a.1) := by
    rw [List.pairwise_map]
    refine (descending_loadTables s.files hasc).imp_of_mem ?_
    intro t u ht hu hlt
    rwa [(mem_loadTables.mp ht).2.1, (mem_loadTables.mp hu).2.1] at hlt
  have hd' : (s.tables.map pair).Pairwise (fun a b => b.1 < a.1) :=
    List.pairwise_map.mpr h.descending
  have hmem : ∀ a, a ∈ (KvRecovery.loadTables s.files (s.files.map Prod.fst).reverse).map pair
      ↔ a ∈ s.tables.map pair := by
    intro a
    constructor
    · intro ha
      obtain ⟨t, ht, rfl⟩ := List.mem_map.mp ha
      obtain ⟨-, -, hlook, hne⟩ := mem_loadTables.mp ht
      obtain ⟨u, hu, hnum⟩ := h.fileTable _ _ hlook hne
      have hfile := (h.tableFile u hu).1
      rw [hnum, hlook] at hfile
      refine List.mem_map.mpr ⟨u, hu, ?_⟩
      exact Prod.ext hnum (Option.some.inj hfile).symm
    · intro ha
      obtain ⟨u, hu, rfl⟩ := List.mem_map.mp ha
      obtain ⟨hfile, hne⟩ := h.tableFile u hu
      refine List.mem_map.mpr ⟨⟨u.number, u.number, u.entries⟩, ?_, rfl⟩
      refine mem_loadTables.mpr ⟨?_, rfl, hfile, hne⟩
      rw [List.mem_reverse, mem_map_fst_iff, hfile]
      rfl
  -- both descend, so they are sorted by the dual order
  have heq := @eq_of_mem_iff _ _ _ (fun a : Nat × List Entry => OrderDual.toDual a.1) _ _ hd hd' hmem
  have hsnd := congrArg (List.map Prod.snd) heq
  rwa [List.map_map, List.map_map] at hsnd

theorem Filed.maxOf_eq (h : Filed s) : maxOf (s.files.map Prod.fst) = s.counter := by
  have hmem : ∀ n, n ∈ s.files.map Prod.fst → n ≤ s.counter := by
    intro n hn
    obtain ⟨es, hes⟩ := Option.isSome_iff_exists.mp (mem_map_fst_iff.mp hn)
    exact h.fileLe n es hes
  have hle : maxOf (s.files.map Prod.fst) ≤ s.counter := by
    rcases maxOf_mem (s.files.map Prod.fst) with hz | hm
    · omega
    · exact hmem _ hm
  rcases h.top with hz | hs
  · omega
  · exact Nat.le_antisymm hle (le_maxOf (mem_map_fst_iff.mpr hs))

end KvFiles
