import LightKV.KvStoreProofs

/-! # Compaction and scans over the store

    `Compact` merges the tables of its snapshot and keeps what is live; the
    engine's iterator merges the memtable and all tables.  Both are merges of
    the store's layers (`Merged`, `scanLayers`), and each stage of `Compact`
    keeps `Rep`.  When the tables' sequence numbers descend, what a compaction
    writes is the live part of the overlay (`lookup_merged_of_descending`). -/

namespace KvCompaction

open KvBytes KvDirectory KvEngine KvIterators KvMerging KvSkipList KvStore KvTable KvTableIterator
open KWayMerge Overlay

/-! ## The merge loop -/

theorem liveEntries_cons (e : IteratorEntry) (out : List IteratorEntry) :
    liveEntries (e :: out) = if e.type = .kTypeDeletion then liveEntries out
      else (e.key, ⟨e.type, e.value⟩) :: liveEntries out := by
  by_cases h : e.type = .kTypeDeletion
  · simp [liveEntries, h]
  · simp [liveEntries, h]

/-- **The merge loop** hands the live entries of the merge to the builder. -/
theorem compactLoop_spec {it : MergingIterator EngineIterator} {out : List IteratorEntry}
    (hs : Streams it out) :
    ∀ {fuel : Nat} {lastKey : Option Bytes} {builder : SSTableBuilder}, out.length < fuel →
      Ascending IteratorEntry.key out → (∀ e ∈ out, lastKey ≠ some e.key) →
      compactLoop fuel it lastKey builder = .ok (builder.addAll (liveEntries out)) := by
  induction hs with
  | done hv =>
      intro fuel lastKey builder hfuel _ _
      obtain ⟨fuel, rfl⟩ := Nat.exists_eq_succ_of_ne_zero (Nat.ne_of_gt hfuel)
      simp only [compactLoop, hv, Bool.false_eq_true, if_false]
      rfl
  | @more it it' out hv hn _ ih =>
      intro fuel lastKey builder hfuel hasc hlast
      obtain ⟨fuel, rfl⟩ := Nat.exists_eq_succ_of_ne_zero (Nat.ne_of_gt (Nat.zero_lt_of_lt hfuel))
      have hlt : out.length < fuel := Nat.lt_of_succ_lt_succ hfuel
      have hnext : ∀ e ∈ out, some (KvIterator.entry it).key ≠ some e.key := by
        intro e he hc
        exact (hasc.head_lt e he).ne (Option.some.inj hc)
      simp only [compactLoop, hv, if_true, if_neg (hlast _ List.mem_cons_self), hn, ok_bind,
        liveEntries_cons]
      by_cases hd : (KvIterator.entry it).type = .kTypeDeletion
      · rw [if_pos hd, if_pos hd]
        exact ih hlt hasc.tail hnext
      · rw [if_neg hd, if_neg hd, ih hlt hasc.tail hnext]
        rfl

/-- The live entries of a merge are sorted. -/
theorem keySorted_liveEntries {out : List IteratorEntry}
    (h : Ascending IteratorEntry.key out) : KeySorted (liveEntries out) := by
  rw [KeySorted, liveEntries, List.pairwise_map]
  exact List.Pairwise.sublist List.filter_sublist h

/-! ## The layers of a merge -/

/-- The entries of a table that are kept as they are. -/
def GoodTable (t : Table) : Prop := KeySorted t.entries ∧ ∀ kv ∈ t.entries, Fits kv

theorem good_of_readerOf {r : SSTableReader} {t : Table} (h : ReaderOf r t) : GoodTable t := by
  obtain ⟨-, -, bs, hreads⟩ := h
  exact ⟨hreads.file.sorted, hreads.file.fits⟩

theorem good_of_forall₂ {readers : List SSTableReader} {ts : List Table}
    (h : List.Forall₂ ReaderOf readers ts) : ∀ t ∈ ts, GoodTable t := by
  intro t ht
  obtain ⟨r, -, hr⟩ := forall₂_mem_right h ht
  exact good_of_readerOf hr

/-- Only what is not a tombstone. -/
def live : Option TableValue → Option TableValue
  | none => none
  | some tv => if tv.type = .kTypeDeletion then none else some tv

theorem visible_live (o : Option TableValue) : visible (live o) = visible o := by
  cases o with
  | none => rfl
  | some tv =>
      by_cases h : tv.type = .kTypeDeletion
      · simp [live, visible, h]
      · simp [live, visible, h]

theorem toEntry_eq {sequence : Sequence} {kv : Entry} {e : IteratorEntry}
    (h : toEntry sequence kv = e) : kv = (e.key, ⟨e.type, e.value⟩) ∧ e.sequence = sequence := by
  subst h
  exact ⟨rfl, rfl⟩

/-- What a merge of layers holds of a key is an entry of the highest sequence. -/
theorem lookup_liveEntries {ls : List (List IteratorEntry)} {out : List IteratorEntry}
    (h : IsMerge IteratorEntry.key IteratorEntry.sequence ls out) (key : Bytes) :
    (∃ e ∈ out, e.key = key ∧ (liveEntries out).lookup key = live (some ⟨e.type, e.value⟩))
      ∨ (∀ l ∈ ls, ∀ e ∈ l, e.key ≠ key) ∧ (liveEntries out).lookup key = none := by
  have hsorted := keySorted_liveEntries h.ascending
  by_cases hex : ∃ e ∈ out, e.key = key
  · obtain ⟨e, he, hkey⟩ := hex
    refine Or.inl ⟨e, he, hkey, ?_⟩
    by_cases hd : e.type = .kTypeDeletion
    · have hnone : live (some ⟨e.type, e.value⟩) = none := by simp [live, hd]
      rw [hnone, lookup_eq_none_iff_forall]
      intro b hb hbk
      obtain ⟨e', he', rfl⟩ := List.mem_map.mp hb
      obtain ⟨hmem, hlive⟩ := List.mem_filter.mp he'
      have heq : e' = e := h.ascending.eq_of_key hmem he (hbk.trans hkey.symm)
      rw [heq] at hlive
      simp [hd] at hlive
    · have hsome : live (some ⟨e.type, e.value⟩) = some ⟨e.type, e.value⟩ := by simp [live, hd]
      rw [hsome, lookup_eq_some_iff hsorted, ← hkey]
      exact List.mem_map.mpr ⟨e, List.mem_filter.mpr ⟨he, by simpa using hd⟩, rfl⟩
  · refine Or.inr ⟨?_, ?_⟩
    · intro l hl a ha hak
      obtain ⟨e, he, hek⟩ := h.covers l hl a ha
      exact hex ⟨e, he, hek.trans hak⟩
    · rw [lookup_eq_none_iff_forall]
      intro b hb hbk
      obtain ⟨e, he, rfl⟩ := List.mem_map.mp hb
      exact hex ⟨e, (List.mem_filter.mp he).1, hbk⟩

/-- A layer with the sequence number its entries have in a merge. -/
abbrev Ranked := Sequence × List Entry

/-- The entries of a layer in a merge. -/
def layerOf (r : Ranked) : List IteratorEntry := r.2.map (toEntry r.1)

/-- The entry that decides a key in a merge: one of the highest sequence. -/
def Wins (rs : List Ranked) (key : Bytes) (tv : TableValue) : Prop :=
  ∃ r ∈ rs, r.2.lookup key = some tv ∧ ∀ q ∈ rs, q.2.lookup key ≠ none → q.1 ≤ r.1

/-- **What a merge keeps**: for each key the entry that wins, unless it is a
    tombstone. -/
theorem lookup_merge {rs : List Ranked} {out : List IteratorEntry}
    (h : IsMerge IteratorEntry.key IteratorEntry.sequence (rs.map layerOf) out)
    (hs : ∀ r ∈ rs, KeySorted r.2) (key : Bytes) :
    (∃ tv, Wins rs key tv ∧ (liveEntries out).lookup key = live (some tv))
      ∨ (∀ r ∈ rs, r.2.lookup key = none) ∧ (liveEntries out).lookup key = none := by
  rcases lookup_liveEntries h key with ⟨e, he, hkey, hlook⟩ | ⟨hnone, hlook⟩
  · obtain ⟨⟨l, hl, hel⟩, hmax⟩ := h.chosen e he
    obtain ⟨r, hr, rfl⟩ := List.mem_map.mp hl
    obtain ⟨kv, hkv, hto⟩ := List.mem_map.mp hel
    obtain ⟨rfl, hseq⟩ := toEntry_eq hto
    refine Or.inl ⟨_, ⟨r, hr, (lookup_eq_some_iff (hs r hr)).mpr (hkey ▸ hkv), ?_⟩, hlook⟩
    intro q hq hne
    obtain ⟨tv, htv⟩ := Option.ne_none_iff_exists'.mp hne
    have hmem := (lookup_eq_some_iff (hs q hq)).mp htv
    have := hmax (layerOf q) (List.mem_map_of_mem hq) (toEntry q.1 (key, tv))
      (List.mem_map_of_mem hmem) hkey.symm
    rwa [hseq] at this
  · refine Or.inr ⟨?_, hlook⟩
    intro r hr
    rw [lookup_eq_none_iff_forall]
    intro b hb hbk
    exact hnone (layerOf r) (List.mem_map_of_mem hr) (toEntry r.1 b) (List.mem_map_of_mem hb) hbk

/-- When sequence numbers descend, the first layer that holds a key wins. -/
theorem overlay_of_wins {rs : List Ranked} {key : Bytes} {tv : TableValue}
    (hd : rs.Pairwise (fun r q => q.1 < r.1)) (h : Wins rs key tv) :
    overlay (rs.map Prod.snd) key = some tv := by
  induction rs with
  | nil =>
      obtain ⟨r, hr, -⟩ := h
      cases hr
  | cons a rs ih =>
      obtain ⟨ha, hd'⟩ := List.pairwise_cons.mp hd
      obtain ⟨r, hr, hlook, hmax⟩ := h
      rw [List.map_cons, overlay_cons]
      rcases List.mem_cons.mp hr with heq | hr'
      · rw [← heq, hlook]
        rfl
      · have hnone : a.2.lookup key = none := by
          by_contra hne
          exact absurd (ha r hr') (not_lt.mpr (hmax a List.mem_cons_self hne))
        rw [hnone, Option.none_or]
        exact ih hd' ⟨r, hr', hlook, fun q hq => hmax q (List.mem_cons_of_mem _ hq)⟩

theorem overlay_eq_none {ls : List (List Entry)} {key : Bytes} :
    overlay ls key = none ↔ ∀ l ∈ ls, l.lookup key = none := by
  simp [overlay, List.findSome?_eq_none_iff]

/-- **A merge of layers in order** keeps the live part of their overlay. -/
theorem lookup_merge_of_descending {rs : List Ranked} {out : List IteratorEntry}
    (h : IsMerge IteratorEntry.key IteratorEntry.sequence (rs.map layerOf) out)
    (hs : ∀ r ∈ rs, KeySorted r.2) (hd : rs.Pairwise (fun r q => q.1 < r.1)) (key : Bytes) :
    (liveEntries out).lookup key = live (overlay (rs.map Prod.snd) key) := by
  rcases lookup_merge h hs key with ⟨tv, hw, hlook⟩ | ⟨hnone, hlook⟩
  · rw [hlook, overlay_of_wins hd hw]
  · have : overlay (rs.map Prod.snd) key = none := by
      rw [overlay_eq_none]
      intro l hl
      obtain ⟨r, hr, rfl⟩ := List.mem_map.mp hl
      exact hnone r hr
    rw [hlook, this]
    rfl

/-- A table, ranked by its sequence number. -/
def ranked (t : Table) : Ranked := (t.sequence, t.entries)

theorem map_layerOf_ranked (ts : List Table) :
    (ts.map ranked).map layerOf = ts.map Table.layer := by
  rw [List.map_map]
  rfl

theorem map_snd_ranked (ts : List Table) :
    (ts.map ranked).map Prod.snd = ts.map Table.entries := by
  rw [List.map_map]
  rfl

theorem forall_ranked {ts : List Table} (hs : ∀ t ∈ ts, KeySorted t.entries) :
    ∀ r ∈ ts.map ranked, KeySorted r.2 := by
  intro r hr
  obtain ⟨t, ht, rfl⟩ := List.mem_map.mp hr
  exact hs t ht

theorem pairwise_ranked {ts : List Table}
    (hd : ts.Pairwise (fun t u => u.sequence < t.sequence)) :
    (ts.map ranked).Pairwise (fun r q => q.1 < r.1) :=
  List.pairwise_map.mpr (hd.imp (fun h => WithTop.coe_lt_coe.mpr h))

/-- **What a compaction writes.** -/
theorem lookup_merged {old : List Table} {m : List Entry} (h : Merged old m)
    (hs : ∀ t ∈ old, KeySorted t.entries) (key : Bytes) :
    (∃ t ∈ old, ∃ tv, t.entries.lookup key = some tv
        ∧ (∀ u ∈ old, u.entries.lookup key ≠ none → u.sequence ≤ t.sequence)
        ∧ m.lookup key = live (some tv))
      ∨ (∀ t ∈ old, t.entries.lookup key = none) ∧ m.lookup key = none := by
  obtain ⟨out, hmerge, rfl⟩ := h
  rw [← map_layerOf_ranked] at hmerge
  rcases lookup_merge hmerge (forall_ranked hs) key with ⟨tv, ⟨r, hr, hlook, hmax⟩, heq⟩ | ⟨hn, heq⟩
  · obtain ⟨t, ht, rfl⟩ := List.mem_map.mp hr
    refine Or.inl ⟨t, ht, tv, hlook, ?_, heq⟩
    intro u hu hne
    exact WithTop.coe_le_coe.mp (hmax (ranked u) (List.mem_map_of_mem hu) hne)
  · exact Or.inr ⟨fun t ht => hn (ranked t) (List.mem_map_of_mem ht), heq⟩

/-- **A compaction of tables in order** writes the live part of their overlay. -/
theorem lookup_merged_of_descending {old : List Table} {m : List Entry} (h : Merged old m)
    (hs : ∀ t ∈ old, KeySorted t.entries)
    (hd : old.Pairwise (fun t u => u.sequence < t.sequence)) (key : Bytes) :
    m.lookup key = live (overlay (old.map Table.entries) key) := by
  obtain ⟨out, hmerge, rfl⟩ := h
  rw [← map_layerOf_ranked] at hmerge
  rw [lookup_merge_of_descending hmerge (forall_ranked hs) (pairwise_ranked hd), map_snd_ranked]

/-- **A merge is not empty** when the newest table has a value: no other table hides it. -/
theorem merged_ne_nil {t : Table} {ts : List Table} {m : List Entry} (h : Merged (t :: ts) m)
    (hs : ∀ u ∈ t :: ts, KeySorted u.entries)
    (hd : (t :: ts).Pairwise (fun u v => v.sequence < u.sequence))
    (hvalue : ∃ kv ∈ t.entries, kv.2.type = .kTypeValue) : m ≠ [] := by
  obtain ⟨kv, hkv, htype⟩ := hvalue
  have hlook := lookup_merged_of_descending h hs hd kv.1
  have hfirst : t.entries.lookup kv.1 = some kv.2 :=
    (lookup_eq_some_iff (hs t List.mem_cons_self)).mpr hkv
  rw [List.map_cons, overlay_cons, hfirst, Option.some_or, live, if_neg (by rw [htype]; decide)]
    at hlook
  rintro rfl
  cases hlook

/-- What a compaction writes is a layer of values that fit. -/
theorem good_of_merged {old : List Table} {m : List Entry} (h : Merged old m)
    (hg : ∀ t ∈ old, GoodTable t) :
    KeySorted m ∧ ∀ kv ∈ m, Fits kv ∧ kv.2.type ≠ .kTypeDeletion := by
  obtain ⟨out, hmerge, rfl⟩ := h
  refine ⟨keySorted_liveEntries hmerge.ascending, ?_⟩
  intro kv hkv
  obtain ⟨e, he, rfl⟩ := List.mem_map.mp hkv
  obtain ⟨hmem, hlive⟩ := List.mem_filter.mp he
  obtain ⟨⟨l, hl, hel⟩, -⟩ := hmerge.chosen e hmem
  obtain ⟨t, ht, rfl⟩ := List.mem_map.mp hl
  obtain ⟨kv', hkv', hto⟩ := List.mem_map.mp hel
  obtain ⟨rfl, -⟩ := toEntry_eq hto
  exact ⟨(hg t ht).2 _ hkv', by simpa using hlive⟩

theorem values_of_merged {old : List Table} {m : List Entry} (h : Merged old m)
    (hg : ∀ t ∈ old, GoodTable t) : ∀ kv ∈ m, kv.2.type = .kTypeValue := by
  intro kv hkv
  obtain ⟨hfits, hvalue⟩ := (good_of_merged h hg).2 kv hkv
  rcases hfits.2 with ⟨hdel, -⟩ | ⟨hval, -⟩
  · exact absurd hdel hvalue
  · exact hval

/-! ## The stages of `Compact` -/

/-- A reader whose iterator goes through a table. -/
def Searches (r : SSTableReader) (t : Table) : Prop :=
  r.sequence = t.sequence ∧ ∃ bs, Searchable r t.entries bs

theorem searches_of_readerOf {r : SSTableReader} {t : Table} (h : ReaderOf r t) :
    Searches r t := by
  obtain ⟨-, hseq, bs, hreads⟩ := h
  exact ⟨hseq, bs, hreads.searchable⟩

/-- The iterators over some tables stand at their starts. -/
theorem tableIterators_at {readers : List SSTableReader} {ts : List Table}
    (h : List.Forall₂ Searches readers ts) :
    ∃ its, tableIterators readers = .ok its
      ∧ List.Forall₂ (fun c l => KvCursor.At c l l) its (ts.map Table.layer) := by
  induction h with
  | nil => exact ⟨[], rfl, List.Forall₂.nil⟩
  | @cons r t readers ts hr _ ih =>
      obtain ⟨its, hits, hat⟩ := ih
      obtain ⟨hseq, bs, hsearch⟩ := hr
      obtain ⟨it, hit, hat'⟩ := sstableIterator_at hsearch r.sequence
      refine ⟨.sstable it :: its, ?_, ?_⟩
      · simp only [tableIterators, hit, hits, ok_bind]
        rfl
      · refine List.Forall₂.cons ?_ hat
        rw [Table.layer, ← hseq]
        exact hat'

/-- Merging whatever the iterators of some readers go through. -/
theorem mergeTables_of_searches {readers : List SSTableReader} {old : List Table}
    (h : List.Forall₂ Searches readers old) (hgood : ∀ t ∈ old, GoodTable t) :
    Runs (mergeTables readers) (fun file => ∃ m, Merged old m ∧ FileOf file m) := by
  obtain ⟨its, hits, hat⟩ := tableIterators_at h
  obtain ⟨it, out, hnew, hs, hmerge, hlen⟩ := new_streams hat
  have hloop : compactLoop (it.fuel + 1) it none (SSTableBuilder.new blockSize)
      = .ok ((SSTableBuilder.new blockSize).addAll (liveEntries out)) :=
    compactLoop_spec hs (by omega) hmerge.ascending (by simp)
  have hm : Merged old (liveEntries out) := ⟨out, hmerge, rfl⟩
  obtain ⟨hsorted, hfits⟩ := good_of_merged hm hgood
  have hstorable : ∀ kv ∈ liveEntries out, Storable kv := by
    intro kv hkv
    obtain ⟨⟨hk, ht⟩, -⟩ := hfits kv hkv
    exact ⟨hk, ht.imp And.left And.left⟩
  have hbuild := buildTable_spec hstorable hsorted
  rw [storedLayer_of_fits (fun kv hkv => (hfits kv hkv).1)] at hbuild
  simp only [mergeTables, hits, ok_bind, hnew, hloop]
  exact hbuild.mono (fun file hfile => ⟨_, hm, hfile⟩)

/-- **Merging the tables of a snapshot** leaves a file of a compaction of them. -/
theorem mergeTables_spec {readers : List SSTableReader} {old : List Table}
    (h : List.Forall₂ ReaderOf readers old) :
    Runs (mergeTables readers) (fun file => ∃ m, Merged old m ∧ FileOf file m) := by
  exact mergeTables_of_searches (h.imp fun _ _ => searches_of_readerOf) (good_of_forall₂ h)

variable {e : KVEngine} {s : Store}

theorem rep_reserve (h : Rep e s) : Rep e.reserve s.reserve :=
  { h with
    counter := congrArg (· + 1) h.counter
    logLe := Nat.le_succ_of_le h.logLe }

/-- The merged file is rejected when it is empty, and else it is the merged table. -/
theorem writeMerged_cases (e : KVEngine) {file : Bytes} {m : List Entry} (hf : FileOf file m)
    (number : Nat) :
    m = [] ∧ e.writeMerged number file
        = .ok ({ e with dir := upsert (getSstPath number) file e.dir }, none)
      ∨ m ≠ [] ∧ ∃ r, e.writeMerged number file
          = .ok ({ e with dir := upsert (getSstPath number) file e.dir }, some r)
        ∧ ReaderOf r ⟨number, 0, m⟩ := by
  have hlook : (upsert (getSstPath number) file e.dir).lookup (getSstPath number) = some file := by
    rw [lookup_upsert, if_pos rfl]
  rcases open_fileOf hf (getSstPath number) 0 with ⟨hnil, hopen⟩ | ⟨hne, r, bs, hopen, hr⟩
  · refine Or.inl ⟨hnil, ?_⟩
    simp only [KVEngine.writeMerged, hlook, hopen, ok_bind]
    rfl
  · obtain ⟨hname, hseq, hreads⟩ := hr
    refine Or.inr ⟨hne, r, ?_, hname, hseq, bs, hreads⟩
    simp only [KVEngine.writeMerged, hlook, hopen, ok_bind]
    rfl

/-- **Writing the merged file**, and opening it. -/
theorem rep_writeMerged (h : Rep e s) {file : Bytes} {m : List Entry} (hf : FileOf file m)
    (number : Nat) :
    ∃ e' reader, e.writeMerged number file = .ok (e', reader) ∧ Rep e' (s.writeMerged number m)
      ∧ (m = [] ∧ reader = none ∨ m ≠ [] ∧ ∃ r, reader = some r ∧ ReaderOf r ⟨number, 0, m⟩) := by
  have hrep : Rep { e with dir := upsert (getSstPath number) file e.dir }
      (s.writeMerged number m) := { h with dir := h.dir.writeFile hf number }
  rcases writeMerged_cases e hf number with ⟨hnil, hwrite⟩ | ⟨hne, r, hwrite, hr⟩
  · exact ⟨_, none, hwrite, hrep, Or.inl ⟨hnil, rfl⟩⟩
  · exact ⟨_, some r, hwrite, hrep, Or.inr ⟨hne, r, rfl, hr⟩⟩

/-- Readers with a path among some others' are tables with a number among theirs. -/
theorem contains_filename {old : List SSTableReader} {ts : List Table}
    (h : List.Forall₂ ReaderOf old ts) {r : SSTableReader} {t : Table} (hr : ReaderOf r t) :
    (old.map SSTableReader.filename).contains r.filename
      = (ts.map Table.number).contains t.number := by
  induction h with
  | nil => rfl
  | @cons r' t' old ts hr' _ ih =>
      rw [List.map_cons, List.map_cons, List.contains_cons, List.contains_cons, ih, hr.1, hr'.1]
      by_cases hn : t.number = t'.number
      · simp [hn]
      · rw [beq_false_of_ne hn, beq_false_of_ne (fun hc => hn (getSstPath_injective hc))]

/-- The tables that a swap keeps. -/
theorem forall₂_remaining (h : Rep e s) {old : List SSTableReader} {ts : List Table}
    (hold : List.Forall₂ ReaderOf old ts) :
    List.Forall₂ ReaderOf (e.remaining old) (s.remaining ts) := by
  have hfilter : ∀ {readers : List SSTableReader} {us : List Table},
      List.Forall₂ ReaderOf readers us → List.Forall₂ ReaderOf
        (readers.filter (fun sst => !(old.map SSTableReader.filename).contains sst.filename))
        (us.filter (fun u => !(ts.map Table.number).contains u.number)) := by
    intro readers us hrs
    induction hrs with
    | nil => exact List.Forall₂.nil
    | @cons r' u readers us hr' _ ih =>
        rw [List.filter_cons, List.filter_cons, contains_filename hold hr']
        split
        · exact List.Forall₂.cons hr' ih
        · exact ih
  exact hfilter h.tables

/-- **The swap.** -/
theorem rep_swap (h : Rep e s) {old : List SSTableReader} {ts : List Table}
    (hold : List.Forall₂ ReaderOf old ts) {r : SSTableReader} {t : Table} (hr : ReaderOf r t) :
    Rep (e.swap old r) (s.swap ts t) :=
  { h with tables := List.Forall₂.cons hr (forall₂_remaining h hold) }

theorem getSstPath_ne_nil (n : Nat) : getSstPath n ≠ [] := by
  simp [getSstPath, dotSst]

/-- **Deleting one of the merged files.** -/
theorem rep_deleteOld (h : Rep e s) (compactNumber number : Nat) :
    Rep (e.deleteOld (getSstPath compactNumber) (getSstPath number))
      (s.deleteOld compactNumber number) := by
  by_cases hn : number = compactNumber
  · subst hn
    simp only [KVEngine.deleteOld, bne_self_eq_false, Bool.and_false, Bool.false_eq_true, if_false,
      Store.deleteOld, if_true]
    exact h
  · have hpath : (!(getSstPath number).isEmpty && getSstPath number != getSstPath compactNumber)
        = true := by
      have hne : getSstPath number ≠ getSstPath compactNumber :=
        fun hc => hn (getSstPath_injective hc)
      simp [getSstPath_ne_nil, hne]
    simp only [KVEngine.deleteOld, hpath, if_true, Store.deleteOld, if_neg hn]
    exact { h with dir := h.dir.removeFile number }

/-- The deletion loop. -/
def Store.deleteAll (s : Store) (compactNumber : Nat) (numbers : List Nat) : Store :=
  numbers.foldl (fun s number => s.deleteOld compactNumber number) s

theorem rep_deleteAll (compactNumber : Nat) :
    ∀ {old : List SSTableReader} {ts : List Table} {e : KVEngine} {s : Store},
      List.Forall₂ ReaderOf old ts → Rep e s →
      Rep (e.deleteAll (getSstPath compactNumber) (old.map SSTableReader.filename))
        (Store.deleteAll s compactNumber (ts.map Table.number)) := by
  intro old ts e s hold
  induction hold generalizing e s with
  | nil => exact id
  | @cons r t old ts hr _ ih =>
      intro h
      have hone := rep_deleteOld h compactNumber t.number
      rw [← hr.1] at hone
      exact ih hone

/-- What `Compact` makes of a store, once it has merged `m`. -/
def Store.compacted (s : Store) (m : List Entry) : Store :=
  let number := s.counter + 1
  let written := s.reserve.writeMerged number m
  if m = [] then written
  else Store.deleteAll (written.swap s.tables ⟨number, 0, m⟩) number (s.tables.map Table.number)

/-- The tables of an engine's snapshot. -/
theorem snapshot_spec (h : Rep e s) :
    s.tables.length ≤ 1 ∧ e.snapshot = none
      ∨ 1 < s.tables.length ∧ e.snapshot = some e.sstables := by
  have hlen := h.tables.length_eq
  by_cases hle : s.tables.length ≤ 1
  · exact Or.inl ⟨hle, by rw [KVEngine.snapshot, if_pos (hlen ▸ hle)]⟩
  · exact Or.inr ⟨by omega, by rw [KVEngine.snapshot, if_neg (hlen ▸ hle)]⟩

/-- **`Compact`.** -/
theorem rep_compact (h : Rep e s) : Runs e.compact (fun e' =>
    s.tables.length ≤ 1 ∧ Rep e' s
      ∨ 1 < s.tables.length ∧ ∃ m, Merged s.tables m ∧ Rep e' (Store.compacted s m)) := by
  rcases snapshot_spec h with ⟨hle, hsnap⟩ | ⟨hlt, hsnap⟩
  · simp only [KVEngine.compact, hsnap]
    exact Or.inl ⟨hle, h⟩
  · simp only [KVEngine.compact, hsnap]
    refine (mergeTables_spec h.tables).bind ?_
    rintro file ⟨m, hm, hf⟩
    have hnumber : e.reserve.sstCounter = s.counter + 1 := congrArg (· + 1) h.counter
    obtain ⟨e', reader, hrun, hrep, hreader⟩ :=
      rep_writeMerged (rep_reserve h) hf e.reserve.sstCounter
    simp only [hrun, ok_bind]
    rw [hnumber] at hrep hreader
    rcases hreader with ⟨hnil, rfl⟩ | ⟨hne, r, rfl, hr⟩
    · refine Or.inr ⟨hlt, m, hm, ?_⟩
      rw [Store.compacted, if_pos hnil]
      exact hrep
    · refine Or.inr ⟨hlt, m, hm, ?_⟩
      rw [Store.compacted, if_neg hne, hnumber]
      exact rep_deleteAll _ h.tables (rep_swap hrep h.tables hr)

/-! ## Scans -/

/-- What the engine's iterator merges. -/
def scanLayers (s : Store) : List (List IteratorEntry) :=
  s.mem.map (toEntry ⊤) :: s.tables.map Table.layer

/-- **A new iterator** is lawful over a merge of the layers, when no two of them
    hold a key with the same sequence number. -/
theorem newIterator_at (hmem : Models e.skiplist s.mem)
    (htables : List.Forall₂ Searches e.sstables s.tables)
    (hun : Untied IteratorEntry.key IteratorEntry.sequence (scanLayers s)) :
    ∃ it all, e.newIterator = .ok it ∧ KvCursor.At it all all
      ∧ IsMerge IteratorEntry.key IteratorEntry.sequence (scanLayers s) all := by
  obtain ⟨mem, hnew, hmemAt⟩ := skipListIterator_at hmem ⊤ []
  obtain ⟨its, hits, hat⟩ := tableIterators_at htables
  have hdrop : s.mem.dropWhile (fun b => decide (b.1 < [])) = s.mem := by
    rw [List.dropWhile_eq_self_iff]
    simp
  rw [hdrop] at hmemAt
  have hall : List.Forall₂ (fun c l => KvCursor.At c l l)
      (EngineIterator.skipList mem :: its) (scanLayers s) := List.Forall₂.cons hmemAt hat
  obtain ⟨it, all, hrun, hat', hmerge⟩ := new_at hall hun
  refine ⟨it, all, ?_, hat', hmerge⟩
  simp only [KVEngine.newIterator, hnew, hits, ok_bind, hrun]

end KvCompaction
