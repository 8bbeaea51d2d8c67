import LightKV.KvStoreProofs

/-! # Opening a directory

    The constructor reads the tables' names in their order, the largest number
    among them, and replays the logs.  Whatever the directory stands for, the
    new engine stands for its tables and the replay of its logs (`open_spec`);
    the files are taken in the order of their numbers when their names sort so. -/

namespace KvRecovery

open KvBytes KvDirectory KvEngine KvSkipList KvStore KvTable KvTableIterator KvWal Overlay

/-! ## What a reopened store is -/

/-- Replaying records into a memtable. -/
def replayLayer : List ParsedLogRecord → List Entry → List Entry
  | [], l => l
  | r :: rs, l =>
      if r.op = .PUT then replayLayer rs (upsert r.key ⟨.kTypeValue, r.value⟩ l)
      else if r.op = .ERASE then replayLayer rs (upsert r.key ⟨.kTypeDeletion, []⟩ l)
      else replayLayer rs l

/-- The records of some logs, one log after the other. -/
def recovered (logs : List (Nat × Bytes)) (ns : List Nat) : List ParsedLogRecord :=
  ns.flatMap (fun n => recoverFile ((logs.lookup n).getD []))

/-- The table of a file, unless `Open` rejects it. -/
def loadTable (files : List (Nat × List Entry)) (n : Nat) : Option Table :=
  match files.lookup n with
  | none => none
  | some es => if es = [] then none else some ⟨n, n, es⟩

/-- The tables of some files. -/
def loadTables (files : List (Nat × List Entry)) (ns : List Nat) : List Table :=
  ns.filterMap (loadTable files)

/-- The largest of some numbers. -/
def maxOf (ns : List Nat) : Nat := ns.foldl max 0

/-- The store after opening: tables in the order `ns`, logs in the order `ms`. -/
def opened (files : List (Nat × List Entry)) (logs : List (Nat × Bytes)) (ns ms : List Nat)
    (maxMemNodes : Nat) : Store where
  mem := replayLayer (recovered logs ms) []
  tables := loadTables files ns.reverse
  counter := maxOf ns
  maxMemNodes := maxMemNodes
  files := files
  log := maxOf ns + 1
  logs := openLog (maxOf ns + 1) logs

theorem loadTable_eq_some {files : List (Nat × List Entry)} {n : Nat} {t : Table}
    (h : loadTable files n = some t) :
    t.number = n ∧ t.sequence = n ∧ files.lookup n = some t.entries := by
  cases hl : files.lookup n with
  | none =>
      simp only [loadTable, hl] at h
      cases h
  | some es =>
      simp only [loadTable, hl] at h
      split at h
      · cases h
      · obtain rfl := Option.some.inj h
        exact ⟨rfl, rfl, rfl⟩

theorem loadTable_of_lookup {files : List (Nat × List Entry)} {n : Nat} {es : List Entry}
    (h : files.lookup n = some es) (hne : es ≠ []) : loadTable files n = some ⟨n, n, es⟩ := by
  rw [loadTable, h]
  exact if_neg hne

theorem mem_loadTables {files : List (Nat × List Entry)} {ns : List Nat} {t : Table} :
    t ∈ loadTables files ns ↔ t.number ∈ ns ∧ t.sequence = t.number
      ∧ files.lookup t.number = some t.entries ∧ t.entries ≠ [] := by
  rw [loadTables, List.mem_filterMap]
  constructor
  · rintro ⟨n, hn, hload⟩
    obtain ⟨rfl, hseq, hlook⟩ := loadTable_eq_some hload
    refine ⟨hn, hseq, hlook, ?_⟩
    intro hnil
    rw [loadTable, hlook, hnil] at hload
    cases hload
  · rintro ⟨hn, hseq, hlook, hne⟩
    refine ⟨t.number, hn, ?_⟩
    rw [loadTable_of_lookup hlook hne]
    cases t
    cases hseq
    rfl

/-- The tables of ascending numbers, backwards, descend. -/
theorem descending_loadTables (files : List (Nat × List Entry)) {ns : List Nat}
    (hasc : ns.Pairwise (· < ·)) :
    (loadTables files ns.reverse).Pairwise (fun t u => u.sequence < t.sequence) := by
  refine (List.pairwise_filterMap).mpr ((List.pairwise_reverse.mpr hasc).imp ?_)
  intro m n hlt t ht u hu
  rw [(loadTable_eq_some ht).2.1, (loadTable_eq_some hu).2.1]
  exact hlt

/-! ## Numbers -/

theorem foldl_max_spec (ns : List Nat) : ∀ c, c ≤ ns.foldl max c
    ∧ (∀ n ∈ ns, n ≤ ns.foldl max c) ∧ (ns.foldl max c = c ∨ ns.foldl max c ∈ ns) := by
  induction ns with
  | nil =>
      intro c
      exact ⟨Nat.le_refl c, by simp, Or.inl rfl⟩
  | cons a ns ih =>
      intro c
      obtain ⟨h1, h2, h3⟩ := ih (max c a)
      refine ⟨(Nat.le_max_left c a).trans h1, ?_, ?_⟩
      · intro n hn
        rcases List.mem_cons.mp hn with rfl | hn'
        · exact (Nat.le_max_right c n).trans h1
        · exact h2 n hn'
      · rcases h3 with h3 | h3
        · rw [List.foldl_cons, h3]
          rcases Nat.le_total c a with hca | hca
          · right
            rw [Nat.max_eq_right hca]
            exact List.mem_cons_self
          · left
            exact Nat.max_eq_left hca
        · exact Or.inr (List.mem_cons_of_mem _ h3)

theorem le_maxOf {ns : List Nat} {n : Nat} (h : n ∈ ns) : n ≤ maxOf ns :=
  (foldl_max_spec ns 0).2.1 n h

theorem maxOf_mem (ns : List Nat) : maxOf ns = 0 ∨ maxOf ns ∈ ns := (foldl_max_spec ns 0).2.2

theorem maxNumber_spec (ns : List Nat) : ∀ c, maxNumber (ns.map getSstPath) c = ns.foldl max c := by
  induction ns with
  | nil =>
      intro c
      rfl
  | cons n ns ih =>
      intro c
      simp only [List.map_cons, maxNumber, stoull_stem_getSstPath, ih, List.foldl_cons]

/-! ## Names in the order of their numbers -/

/-- The names of numbered files sort as their numbers do. -/
def NamesInOrder {V : Type} (path : Nat → Bytes) (fs : List (Nat × V)) : Prop :=
  (fs.map Prod.fst).Pairwise (fun m n => path m < path n)

/-- Numbers below a million do. -/
theorem namesInOrder_of_lt {V : Type} {path : Nat → Bytes}
    (hpath : ∀ {m n}, m < 10 ^ 6 → n < 10 ^ 6 → m < n → path m < path n) {fs : List (Nat × V)}
    (hs : KeySorted fs) (hlt : ∀ f ∈ fs, f.1 < 10 ^ 6) : NamesInOrder path fs := by
  rw [NamesInOrder, List.pairwise_map]
  exact hs.imp_of_mem (fun ha hb hab => hpath (hlt _ ha) (hlt _ hb) hab)

theorem exists_map_eq {A B : Type} {f : A → B} {l : List B} (h : ∀ b ∈ l, ∃ a, b = f a) :
    ∃ xs : List A, l = xs.map f := by
  induction l with
  | nil => exact ⟨[], rfl⟩
  | cons b l ih =>
      obtain ⟨a, rfl⟩ := h b List.mem_cons_self
      obtain ⟨xs, rfl⟩ := ih (fun c hc => h c (List.mem_cons_of_mem _ hc))
      exact ⟨a :: xs, rfl⟩

/-- **The names of one kind** in a directory are those of the numbered files, in
    their order if the names are. -/
theorem names_spec {V : Type} (path : Nat → Bytes) (isName : Bytes → Bool)
    (hinj : ∀ {m n}, path m = path n → m = n) (his : ∀ n, isName (path n) = true)
    {dir : Directory} (hdir : KeySorted dir)
    (hnames : ∀ f ∈ dir, isName f.1 = true → ∃ n, f.1 = path n) {fs : List (Nat × V)}
    (hfs : KeySorted fs)
    (hlook : ∀ n, (dir.lookup (path n)).isSome = (fs.lookup n).isSome) :
    ∃ ns, (dir.map Prod.fst).filter isName = ns.map path ∧ ns.Perm (fs.map Prod.fst)
      ∧ (NamesInOrder path fs → ns = fs.map Prod.fst) := by
  have hex : ∀ b ∈ (dir.map Prod.fst).filter isName, ∃ n, b = path n := by
    intro b hb
    obtain ⟨hb', hn⟩ := List.mem_filter.mp hb
    obtain ⟨f, hf, rfl⟩ := List.mem_map.mp hb'
    exact hnames f hf hn
  obtain ⟨ns, hns⟩ := exists_map_eq hex
  have hsorted : (ns.map path).Pairwise (· < ·) := by
    rw [← hns]
    exact List.Pairwise.sublist List.filter_sublist (List.pairwise_map.mpr hdir)
  have hpath : ns.Pairwise (fun m n => path m < path n) := List.pairwise_map.mp hsorted
  have hmem : ∀ n, n ∈ ns ↔ n ∈ fs.map Prod.fst := by
    intro n
    rw [mem_map_fst_iff, ← hlook, ← mem_map_fst_iff]
    constructor
    · intro hn
      have : path n ∈ (dir.map Prod.fst).filter isName := hns ▸ List.mem_map_of_mem hn
      exact (List.mem_filter.mp this).1
    · intro hn
      have : path n ∈ ns.map path := hns ▸ List.mem_filter.mpr ⟨hn, his n⟩
      obtain ⟨m, hm, heq⟩ := List.mem_map.mp this
      exact hinj heq ▸ hm
  have hnd : ns.Nodup := hpath.imp (fun h heq => absurd (congrArg path heq) h.ne)
  have hndf : (fs.map Prod.fst).Nodup :=
    (List.pairwise_map.mpr hfs).imp (fun h heq => absurd heq (Nat.ne_of_lt h))
  have hperm : ns.Perm (fs.map Prod.fst) := (List.perm_ext_iff_of_nodup hnd hndf).mpr hmem
  refine ⟨ns, hns, hperm, ?_⟩
  intro hord
  refine hperm.eq_of_pairwise ?_ hpath hord
  intro a b _ _ hab hba
  exact absurd hab (not_lt.mpr hba.le)

/-! ## The stages of the constructor -/

variable {dir : Directory} {files : List (Nat × List Entry)} {logs : List (Nat × Bytes)}

/-- **Opening the tables.** -/
theorem openTables_spec (h : DirRep dir files logs) :
    ∀ (ns : List Nat), (∀ n ∈ ns, n ∈ files.map Prod.fst) →
      ∃ readers, openTables dir (ns.map getSstPath) = .ok readers
        ∧ List.Forall₂ ReaderOf readers (loadTables files ns) := by
  intro ns
  induction ns with
  | nil =>
      intro _
      exact ⟨[], rfl, List.Forall₂.nil⟩
  | cons n ns ih =>
      intro hns
      obtain ⟨readers, hrun, hreaders⟩ := ih (fun m hm => hns m (List.mem_cons_of_mem _ hm))
      obtain ⟨es, hes⟩ := Option.isSome_iff_exists.mp
        (mem_map_fst_iff.mp (hns n List.mem_cons_self))
      have hat := h.tableAt n
      rw [hes] at hat
      cases hfile : dir.lookup (getSstPath n) with
      | none =>
          rw [hfile] at hat
          exact hat.elim
      | some file =>
          rw [hfile] at hat
          have hload : loadTable files n = if es = [] then none else some ⟨n, n, es⟩ := by
            simp only [loadTable, hes]
          simp only [List.map_cons, openTables, stoull_stem_getSstPath, Option.getD_some, hfile]
          rcases open_fileOf hat (getSstPath n) n with ⟨hnil, hopen⟩ | ⟨hne, r, bs, hopen, hr⟩
          · refine ⟨readers, ?_, ?_⟩
            · simp only [hopen, hrun, ok_bind]
              rfl
            · rw [loadTables, List.filterMap_cons_none (by rw [hload, if_pos hnil])]
              exact hreaders
          · refine ⟨r :: readers, ?_, ?_⟩
            · simp only [hopen, hrun, ok_bind]
              rfl
            · rw [loadTables, List.filterMap_cons_some (by rw [hload, if_neg hne])]
              exact List.Forall₂.cons ⟨hr.1, hr.2.1, bs, hr.2.2⟩ hreaders

/-- **Replaying a log.** -/
theorem replay_spec :
    ∀ (rs : List ParsedLogRecord) {skiplist : SkipList Bytes TableValue} {l : List Entry},
      Models skiplist l →
      ∃ skiplist', replay rs skiplist = .ok skiplist' ∧ Models skiplist' (replayLayer rs l) := by
  intro rs
  induction rs with
  | nil =>
      intro skiplist l h
      exact ⟨skiplist, rfl, h⟩
  | cons r rs ih =>
      intro skiplist l h
      rw [replay, replayLayer]
      split
      · obtain ⟨skiplist', hput, h', -⟩ := models_put h r.key ⟨.kTypeValue, r.value⟩
        simp only [hput, ok_bind]
        exact ih h'
      · split
        · obtain ⟨skiplist', hput, h', -⟩ := models_put h r.key ⟨.kTypeDeletion, []⟩
          simp only [hput, ok_bind]
          exact ih h'
        · exact ih h

theorem replayLayer_append (rs qs : List ParsedLogRecord) (l : List Entry) :
    replayLayer (rs ++ qs) l = replayLayer qs (replayLayer rs l) := by
  induction rs generalizing l with
  | nil => rfl
  | cons r rs ih =>
      rw [List.cons_append, replayLayer, replayLayer]
      split
      · exact ih _
      · split
        · exact ih _
        · exact ih _

theorem recover_eq (h : DirRep dir files logs) (n : Nat) :
    WalLogger.recover ⟨getWalPath n, false⟩ dir = recoverFile ((logs.lookup n).getD []) := by
  rw [WalLogger.recover, h.logAt n]
  cases logs.lookup n <;> rfl

theorem replay_append (qs rs : List ParsedLogRecord) :
    ∀ (skiplist : SkipList Bytes TableValue),
      replay (qs ++ rs) skiplist = replay qs skiplist >>= replay rs := by
  induction qs with
  | nil =>
      intro skiplist
      rfl
  | cons q qs ih =>
      intro skiplist
      rw [List.cons_append, replay, replay]
      split
      · rw [bind_assoc]
        exact congrArg _ (funext ih)
      · split
        · rw [bind_assoc]
          exact congrArg _ (funext ih)
        · exact ih skiplist

/-- **Replaying logs** one after the other is replaying their records. -/
theorem recoverAllWals_eq_replay (walPaths : List Bytes) :
    ∀ (skiplist : SkipList Bytes TableValue),
      recoverAllWals dir walPaths skiplist
        = replay (walPaths.flatMap (fun walPath => WalLogger.recover ⟨walPath, false⟩ dir))
          skiplist := by
  induction walPaths with
  | nil =>
      intro skiplist
      rfl
  | cons walPath walPaths ih =>
      intro skiplist
      rw [recoverAllWals, List.flatMap_cons, replay_append]
      exact congrArg _ (funext ih)

/-- **Replaying the logs** gives a memtable, whatever they say. -/
theorem models_recoverAllWals (dir : Directory) (walPaths : List Bytes)
    {skiplist : SkipList Bytes TableValue} {l : List Entry} (h : Models skiplist l) :
    ∃ skiplist', recoverAllWals dir walPaths skiplist = .ok skiplist'
      ∧ Models skiplist' (replayLayer
        (walPaths.flatMap (fun walPath => WalLogger.recover ⟨walPath, false⟩ dir)) l) := by
  rw [recoverAllWals_eq_replay]
  exact replay_spec _ h

/-- Replaying the logs that a directory represents. -/
theorem recoverAllWals_spec (h : DirRep dir files logs) (ms : List Nat)
    {skiplist : SkipList Bytes TableValue} {l : List Entry} (hmem : Models skiplist l) :
    ∃ skiplist', recoverAllWals dir (ms.map getWalPath) skiplist = .ok skiplist'
      ∧ Models skiplist' (replayLayer (recovered logs ms) l) := by
  have hrecords : (ms.map getWalPath).flatMap (fun walPath => WalLogger.recover ⟨walPath, false⟩ dir)
      = recovered logs ms := by
    rw [recovered, List.flatMap_map]
    exact List.flatMap_congr fun m _ => recover_eq h m
  rw [← hrecords]
  exact models_recoverAllWals dir _ hmem

/-- What holds of the entries of every record holds of the replayed ones. -/
theorem forall_replayLayer {P : Entry → Prop} {rs : List ParsedLogRecord}
    (h : ∀ r ∈ rs, P (r.key, ⟨.kTypeValue, r.value⟩) ∧ P (r.key, ⟨.kTypeDeletion, []⟩)) :
    ∀ {l : List Entry}, (∀ kv ∈ l, P kv) → ∀ kv ∈ replayLayer rs l, P kv := by
  induction rs with
  | nil =>
      intro l hl
      exact hl
  | cons r rs ih =>
      intro l hl
      have hr := h r List.mem_cons_self
      have hup : ∀ tv : TableValue, P (r.key, tv) → ∀ kv ∈ upsert r.key tv l, P kv := by
        intro tv htv kv hkv
        rcases mem_upsert_key hkv with rfl | hkv'
        · exact htv
        · exact hl kv hkv'
      have hrest := fun {l} => ih (fun q hq => h q (List.mem_cons_of_mem _ hq)) (l := l)
      rw [replayLayer]
      split
      · exact hrest (hup _ hr.1)
      · split
        · exact hrest (hup _ hr.2)
        · exact hrest hl

/-- A memtable that was replayed can be stored. -/
theorem storable_replayLayer {rs : List ParsedLogRecord} (h : ∀ r ∈ rs, RecordFits r) :
    ∀ kv ∈ replayLayer rs [], Storable kv :=
  forall_replayLayer (fun r hr => ⟨⟨(h r hr).1, Or.inr rfl⟩, ⟨(h r hr).1, Or.inl rfl⟩⟩) (by simp)

/-- Its values fit their length fields. -/
theorem fits_replayLayer {rs : List ParsedLogRecord} (h : ∀ r ∈ rs, RecordFits r) :
    ∀ kv ∈ replayLayer rs [], Fits kv :=
  forall_replayLayer (fun r hr => ⟨⟨(h r hr).1, Or.inr ⟨rfl, (h r hr).2⟩⟩,
    ⟨(h r hr).1, Or.inl ⟨rfl, rfl⟩⟩⟩) (by simp)

theorem recordFits_recovered (logs : List (Nat × Bytes)) (ms : List Nat) :
    ∀ r ∈ recovered logs ms, RecordFits r := by
  intro r hr
  obtain ⟨m, -, hr'⟩ := List.mem_flatMap.mp hr
  exact (recoverFile_cases rfl).1 r hr'

/-- The names of the tables. -/
theorem sstNames_spec (h : DirRep dir files logs) :
    ∃ ns, sstNames dir = ns.map getSstPath ∧ ns.Perm (files.map Prod.fst)
      ∧ (NamesInOrder getSstPath files → ns = files.map Prod.fst) := by
  refine names_spec getSstPath isSstName getSstPath_injective isSstName_getSstPath h.sorted ?_
    h.filesSorted (fun n => fileRel_isSome (h.tableAt n))
  intro f hf his
  rcases h.names f hf with hn | ⟨n, hn⟩
  · exact hn
  · rw [hn, isSstName_getWalPath] at his
    cases his

/-- The names of the logs. -/
theorem walNames_spec (h : DirRep dir files logs) :
    ∃ ms, walNames dir = ms.map getWalPath ∧ ms.Perm (logs.map Prod.fst)
      ∧ (NamesInOrder getWalPath logs → ms = logs.map Prod.fst) := by
  refine names_spec getWalPath isWalName getWalPath_injective isWalName_getWalPath h.sorted ?_
    h.logsSorted (fun n => by rw [h.logAt n])
  intro f hf his
  rcases h.names f hf with ⟨n, hn⟩ | hn
  · rw [hn, isWalName_getSstPath] at his
    cases his
  · exact hn

/-- **Opening a directory** gives an engine for what the directory stands for. -/
theorem open_spec (h : DirRep dir files logs) (maxMemNodes : Nat) {maxLevel : Nat}
    (hlevel : 1 ≤ maxLevel) (draws : Nat → Bool) :
    ∃ ns ms e, ns.Perm (files.map Prod.fst)
      ∧ (NamesInOrder getSstPath files → ns = files.map Prod.fst)
      ∧ (NamesInOrder getWalPath logs → ms = logs.map Prod.fst)
      ∧ KVEngine.open dir maxMemNodes maxLevel draws = .ok e
      ∧ Rep e (opened files logs ns ms maxMemNodes) := by
  obtain ⟨ns, hns, hperm, hord⟩ := sstNames_spec h
  obtain ⟨ms, hms, -, hord'⟩ := walNames_spec h
  obtain ⟨readers, hopen, hreaders⟩ := openTables_spec h
    ns.reverse (fun n hn => hperm.mem_iff.mp (List.mem_reverse.mp hn))
  obtain ⟨skiplist, hrec, hmem⟩ := recoverAllWals_spec h ms
    (models_empty hlevel draws)
  refine ⟨ns, ms, ⟨skiplist, getWalPath (maxOf ns + 1), ⟨getWalPath (maxOf ns + 1), true⟩, readers,
    maxMemNodes, maxOf ns, (WalLogger.open dir (getWalPath (maxOf ns + 1))).1⟩,
    hperm, hord, hord', ?_, ?_⟩
  · simp only [KVEngine.open, hns, hms, ← List.map_reverse, hopen, hrec,
      ok_bind, maxNumber_spec]
    rfl
  · exact
      { mem := hmem
        storable := storable_replayLayer (recordFits_recovered logs ms)
        tables := hreaders
        counter := rfl
        maxMemNodes := rfl
        dir := h.openLog _
        path := rfl
        wal := rfl
        logExists := by simp [opened, lookup_openLog]
        logLe := Nat.le_refl _ }

end KvRecovery
