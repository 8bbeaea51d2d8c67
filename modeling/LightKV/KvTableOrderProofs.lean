import LightKV.KvCompactionProofs

/-! # Tables, file numbers and overlapping compactions

    A list of tables with file numbers, and compactions that took a snapshot of
    it and have not replaced it yet.  `flushed` is what the flushes so far wrote
    last.  `Ordered` says that the table with the largest number that holds a
    key holds what was flushed last, and what the pending compactions must
    satisfy for this to survive their swaps, in whatever order they come.  Each
    event keeps it under its own condition: a flush must not overtake a
    compaction that has no number yet (`Ordered.flush`), and a snapshot must not
    find a key gone that an older one still carries, nor two merged tables that
    disagree (`Ordered.snapshot`). -/

namespace KvTableOrder

open KvBytes KvCompaction KvEngine KvStore KvTable Overlay

/-! ## Holding a key -/

/-- A table holds a key. -/
def Holds (t : Table) (key : Bytes) : Prop := t.entries.lookup key ≠ none

/-- A table is among a snapshot's, by its number. -/
def Among (t : Table) (old : List Table) : Prop := t.number ∈ old.map Table.number

/-- The table of the largest number that holds the key holds `v`. -/
def Newest (ts : List Table) (key : Bytes) (v : Option Bytes) : Prop :=
  (∃ t ∈ ts, ∃ tv, t.entries.lookup key = some tv ∧ visible (some tv) = v
      ∧ ∀ u ∈ ts, Holds u key → u.number ≤ t.number)
    ∨ (∀ t ∈ ts, ¬ Holds t key) ∧ v = none

/-- The entry that a merge of the tables keeps, or drops as a tombstone. -/
def Decides (ts : List Table) (key : Bytes) (tv : TableValue) : Prop :=
  ∃ t ∈ ts, t.entries.lookup key = some tv
    ∧ ∀ u ∈ ts, Holds u key → u.sequence ≤ t.sequence

theorem holds_of_lookup {t : Table} {key : Bytes} {tv : TableValue}
    (h : t.entries.lookup key = some tv) : Holds t key := by
  rw [Holds, h]
  exact Option.some_ne_none tv

theorem lookup_of_holds {t : Table} {key : Bytes} (h : Holds t key) :
    ∃ tv, t.entries.lookup key = some tv := Option.ne_none_iff_exists'.mp h

/-- Some table decides every key that is held at all. -/
theorem exists_decides {ts : List Table} {key : Bytes} (h : ∃ t ∈ ts, Holds t key) :
    ∃ tv, Decides ts key tv := by
  have hmax : ∃ t ∈ ts, Holds t key ∧ ∀ u ∈ ts, Holds u key → u.sequence ≤ t.sequence := by
    induction ts with
    | nil =>
        obtain ⟨t, ht, -⟩ := h
        cases ht
    | cons a ts ih =>
        by_cases hrest : ∃ t ∈ ts, Holds t key
        · obtain ⟨t, ht, hk, hmax⟩ := ih hrest
          by_cases ha : Holds a key ∧ t.sequence < a.sequence
          · refine ⟨a, List.mem_cons_self, ha.1, ?_⟩
            intro u hu hku
            rcases List.mem_cons.mp hu with rfl | hu'
            · exact Nat.le_refl _
            · exact (hmax u hu' hku).trans (Nat.le_of_lt ha.2)
          · refine ⟨t, List.mem_cons_of_mem _ ht, hk, ?_⟩
            intro u hu hku
            rcases List.mem_cons.mp hu with rfl | hu'
            · exact Nat.le_of_not_lt (fun hlt => ha ⟨hku, hlt⟩)
            · exact hmax u hu' hku
        · obtain ⟨t, ht, hk⟩ := h
          have hta : t = a := by
            rcases List.mem_cons.mp ht with heq | ht'
            · exact heq
            · exact absurd ⟨t, ht', hk⟩ hrest
          subst hta
          refine ⟨t, List.mem_cons_self, hk, ?_⟩
          intro u hu hku
          rcases List.mem_cons.mp hu with rfl | hu'
          · exact Nat.le_refl _
          · exact absurd ⟨u, hu', hku⟩ hrest
  obtain ⟨t, ht, hk, hmax⟩ := hmax
  obtain ⟨tv, htv⟩ := lookup_of_holds hk
  exact ⟨tv, t, ht, htv, hmax⟩

/-! ## Pending compactions -/

/-- A compaction between its snapshot and its swap: the snapshot, what had been
    flushed then, and the file number once it is taken. -/
structure Pending where
  old : List Table
  seen : Bytes → Option Bytes
  number : Option Nat

section Invariant

variable (tables : List Table) (counter : Nat) (flushed : Bytes → Option Bytes)

/-- What holds of one pending compaction. -/
structure PendingOk (p : Pending) : Prop where
  oldLe : ∀ t ∈ p.old, t.number ≤ counter
  numberPos : ∀ n, p.number = some n → 0 < n
  numberLe : ∀ n, p.number = some n → n ≤ counter
  numberLt : ∀ n, p.number = some n → ∀ t ∈ p.old, t.number < n
  numberNew : ∀ n, p.number = some n → n ∉ tables.map Table.number
  /-- the merge will hold what had been flushed -/
  decides : ∀ key tv, Decides p.old key tv → visible (some tv) = p.seen key
  absent : ∀ key, (∀ t ∈ p.old, ¬ Holds t key) → p.seen key = none
  /-- what is flushed later has larger numbers -/
  later : ∀ t ∈ tables, ¬ Among t p.old → 0 < t.sequence → ∀ u ∈ p.old, u.number < t.number
  /-- a value that is out of date is hidden already -/
  hidden : ∀ key, p.seen key ≠ none → p.seen key ≠ flushed key →
    ∃ n, p.number = some n ∧ ∃ t ∈ tables, ¬ Among t p.old ∧ Holds t key ∧ n < t.number
  /-- a key that the merge drops is in no older table that the swap keeps -/
  dropped : ∀ key, p.seen key = none → ∀ t ∈ tables, ¬ Among t p.old → Holds t key →
    ∀ u ∈ p.old, u.number < t.number
  /-- and no value of the snapshot's is the newest -/
  covered : ∀ key, p.seen key = none → ∀ t ∈ tables, Among t p.old →
    ∀ tv, t.entries.lookup key = some tv → visible (some tv) ≠ none →
    ∃ u ∈ tables, Holds u key ∧ t.number < u.number

/-- What holds of a pending compaction and one that took its snapshot later. -/
structure PairOk (p q : Pending) : Prop where
  carried : ∀ key, p.seen key ≠ none → q.seen key ≠ none
  among : ∀ t ∈ tables, Among t p.old → Among t q.old

/-- What holds of any two pending compactions. -/
structure CrossOk (p q : Pending) : Prop where
  number : ∀ n, q.number = some n → n ∉ p.old.map Table.number
  dropped : ∀ key, p.seen key = none → q.seen key ≠ none → ∀ n, q.number = some n →
    ∀ u ∈ p.old, u.number < n

/-- **The tables are in the order of what was flushed**, and stay so whatever the
    pending compactions do; `pend i` is call `i`, in the order of the snapshots. -/
structure Ordered (pend : Nat → Option Pending) : Prop where
  nodup : (tables.map Table.number).Nodup
  positive : ∀ t ∈ tables, 0 < t.number
  numberLe : ∀ t ∈ tables, t.number ≤ counter
  sequence : ∀ t ∈ tables, t.sequence = t.number ∨ t.sequence = 0
  newest : ∀ key, Newest tables key (flushed key)
  /-- among the flushed tables the largest number is the last flush -/
  newestFlushed : ∀ key, ∀ t ∈ tables, 0 < t.sequence → ∀ tv, t.entries.lookup key = some tv →
    (∀ u ∈ tables, 0 < u.sequence → Holds u key → u.number ≤ t.number) →
    visible (some tv) = flushed key
  pending : ∀ i p, pend i = some p → PendingOk tables counter flushed p
  pairs : ∀ i j p q, i < j → pend i = some p → pend j = some q → PairOk tables p q
  cross : ∀ i j p q, pend i = some p → pend j = some q → CrossOk p q
  distinct : ∀ i j p q n, i ≠ j → pend i = some p → pend j = some q → p.number = some n →
    q.number ≠ some n

end Invariant

theorem ordered_nil : Ordered [] 0 (fun _ => none) (fun _ => none) where
  nodup := List.nodup_nil
  positive := by simp
  numberLe := by simp
  sequence := by simp
  newest _ := Or.inr ⟨by simp, rfl⟩
  newestFlushed := by simp
  pending _ _ h := by cases h
  pairs _ _ _ _ _ h := by cases h
  cross _ _ _ _ h := by cases h
  distinct _ _ _ _ _ _ h := by cases h

variable {tables : List Table} {counter : Nat} {flushed : Bytes → Option Bytes}
  {pend : Nat → Option Pending}

/-- A number that is not taken yet is in no snapshot. -/
theorem PendingOk.not_among {p : Pending} (h : PendingOk tables counter flushed p) {t : Table}
    (ht : counter < t.number) : ¬ Among t p.old := by
  intro hc
  obtain ⟨u, hu, heq⟩ := List.mem_map.mp hc
  have := h.oldLe u hu
  omega

theorem Ordered.eq_of_number (h : Ordered tables counter flushed pend) {t u : Table}
    (ht : t ∈ tables) (hu : u ∈ tables) (heq : t.number = u.number) : t = u :=
  List.inj_on_of_nodup_map h.nodup ht hu heq

/-! ## A flush -/

/-- What a flush of the layer `es` makes of what was flushed. -/
def flushOver (es : List Entry) (flushed : Bytes → Option Bytes) (key : Bytes) : Option Bytes :=
  match es.lookup key with
  | some tv => visible (some tv)
  | none => flushed key

theorem flushOver_of_none {es : List Entry} {key : Bytes} (h : es.lookup key = none) :
    flushOver es flushed key = flushed key := by
  rw [flushOver, h]

theorem flushOver_of_some {es : List Entry} {key : Bytes} {tv : TableValue}
    (h : es.lookup key = some tv) : flushOver es flushed key = visible (some tv) := by
  rw [flushOver, h]

/-- After a flush the table of the largest number holds what was flushed. -/
theorem Ordered.newest_flush (h : Ordered tables counter flushed pend) (es : List Entry)
    (key : Bytes) :
    Newest (⟨counter + 1, counter + 1, es⟩ :: tables) key (flushOver es flushed key) := by
  cases hes : es.lookup key with
  | some tv =>
      -- the new table has the largest number of all
      refine Or.inl ⟨_, List.mem_cons_self, tv, hes, (flushOver_of_some hes).symm, ?_⟩
      intro u hu _
      rcases List.mem_cons.mp hu with rfl | hu'
      · exact Nat.le_refl _
      · exact Nat.le_succ_of_le (h.numberLe u hu')
  | none =>
      rw [flushOver_of_none hes]
      rcases h.newest key with ⟨t, ht, tv, htv, hv, hmax⟩ | ⟨hnone, hv⟩
      · refine Or.inl ⟨t, List.mem_cons_of_mem _ ht, tv, htv, hv, ?_⟩
        intro u hu hku
        rcases List.mem_cons.mp hu with rfl | hu'
        · exact absurd hes hku
        · exact hmax u hu' hku
      · refine Or.inr ⟨?_, hv⟩
        intro u hu hku
        rcases List.mem_cons.mp hu with rfl | hu'
        · exact hku hes
        · exact hnone u hu' hku

/-- After a flush that does not overtake it, a pending compaction is as it was. -/
theorem PendingOk.flush {p : Pending} (h : PendingOk tables counter flushed p) {es : List Entry}
    (hsafe : p.number = none → ∀ key tv, es.lookup key = some tv → p.seen key ≠ none →
      visible (some tv) = p.seen key) :
    PendingOk (⟨counter + 1, counter + 1, es⟩ :: tables) (counter + 1) (flushOver es flushed)
      p := by
  have hnew : ¬ Among ⟨counter + 1, counter + 1, es⟩ p.old := h.not_among (Nat.lt_succ_self _)
  exact
    { oldLe := fun t ht => Nat.le_succ_of_le (h.oldLe t ht)
      numberPos := h.numberPos
      numberLe := fun n hn => Nat.le_succ_of_le (h.numberLe n hn)
      numberLt := h.numberLt
      numberNew := by
        intro n hn hc
        rcases List.mem_cons.mp hc with heq | hc'
        · have h1 := h.numberLe n hn
          have h2 : n = counter + 1 := heq
          omega
        · exact h.numberNew n hn hc'
      decides := h.decides
      absent := h.absent
      later := by
        intro t ht hnot hpos u hu
        rcases List.mem_cons.mp ht with rfl | ht'
        · exact Nat.lt_succ_of_le (h.oldLe u hu)
        · exact h.later t ht' hnot hpos u hu
      hidden := by
        intro key hseen hne
        cases hes : es.lookup key with
        | some tv =>
            rw [flushOver_of_some hes] at hne
            cases hn : p.number with
            | none => exact absurd (hsafe hn key tv hes hseen).symm hne
            | some n =>
                exact ⟨n, rfl, _, List.mem_cons_self, hnew, holds_of_lookup hes,
                  Nat.lt_succ_of_le (h.numberLe n hn)⟩
        | none =>
            rw [flushOver_of_none hes] at hne
            obtain ⟨n, hn, t, ht, hnot, hk, hlt⟩ := h.hidden key hseen hne
            exact ⟨n, hn, t, List.mem_cons_of_mem _ ht, hnot, hk, hlt⟩
      dropped := by
        intro key hseen t ht hnot hk u hu
        rcases List.mem_cons.mp ht with rfl | ht'
        · exact Nat.lt_succ_of_le (h.oldLe u hu)
        · exact h.dropped key hseen t ht' hnot hk u hu
      covered := by
        intro key hseen t ht ham tv htv hv
        rcases List.mem_cons.mp ht with rfl | ht'
        · exact absurd ham hnew
        · obtain ⟨u, hu, hku, hlt⟩ := h.covered key hseen t ht' ham tv htv hv
          exact ⟨u, List.mem_cons_of_mem _ hu, hku, hlt⟩ }

/-- **A flush keeps the order**, if no key of it is carried with another value by
    a compaction that has not taken its number yet. -/
theorem Ordered.flush (h : Ordered tables counter flushed pend) {es : List Entry}
    (hsafe : ∀ i p, pend i = some p → p.number = none → ∀ key tv, es.lookup key = some tv →
      p.seen key ≠ none → visible (some tv) = p.seen key) :
    Ordered (⟨counter + 1, counter + 1, es⟩ :: tables) (counter + 1) (flushOver es flushed)
      pend := by
  refine
    { nodup := ?_
      positive := ?_
      numberLe := ?_
      sequence := ?_
      newest := h.newest_flush es
      newestFlushed := ?_
      pending := fun i p hp => (h.pending i p hp).flush (hsafe i p hp)
      pairs := ?_
      cross := h.cross
      distinct := h.distinct }
  · refine List.nodup_cons.mpr ⟨?_, h.nodup⟩
    intro hc
    obtain ⟨t, ht, heq⟩ := List.mem_map.mp hc
    have h1 := h.numberLe t ht
    have h2 : t.number = counter + 1 := heq
    omega
  · intro t ht
    rcases List.mem_cons.mp ht with rfl | ht'
    · exact Nat.succ_pos _
    · exact h.positive t ht'
  · intro t ht
    rcases List.mem_cons.mp ht with rfl | ht'
    · exact Nat.le_refl _
    · exact Nat.le_succ_of_le (h.numberLe t ht')
  · intro t ht
    rcases List.mem_cons.mp ht with rfl | ht'
    · exact Or.inl rfl
    · exact h.sequence t ht'
  · intro key t ht hpos tv htv hmax
    rcases List.mem_cons.mp ht with rfl | ht'
    · exact (flushOver_of_some htv).symm
    · cases hes : es.lookup key with
      | some tv' =>
          have h1 := hmax ⟨counter + 1, counter + 1, es⟩ List.mem_cons_self (Nat.succ_pos _)
            (holds_of_lookup hes)
          have h2 := h.numberLe t ht'
          simp only at h1
          omega
      | none =>
          rw [flushOver_of_none hes]
          exact h.newestFlushed key t ht' hpos tv htv
            (fun u hu => hmax u (List.mem_cons_of_mem _ hu))
  · intro i j p q hij hp hq
    have hpair := h.pairs i j p q hij hp hq
    refine ⟨hpair.carried, ?_⟩
    intro t ht ham
    rcases List.mem_cons.mp ht with rfl | ht'
    · exact absurd ham ((h.pending i p hp).not_among (Nat.lt_succ_self _))
    · exact hpair.among t ht' ham

/-! ## A snapshot -/

/-- A merge of all tables would keep what was flushed last, when merged tables
    that no flushed one covers agree. -/
theorem Ordered.visible_of_decides (h : Ordered tables counter flushed pend) {key : Bytes}
    (hties : ∀ t ∈ tables, ∀ u ∈ tables, t.sequence = 0 → u.sequence = 0 → ∀ tv tv',
      t.entries.lookup key = some tv → u.entries.lookup key = some tv' →
      visible (some tv) = visible (some tv')
        ∨ ∃ w ∈ tables, 0 < w.sequence ∧ Holds w key)
    {tv : TableValue} (hd : Decides tables key tv) : visible (some tv) = flushed key := by
  obtain ⟨t, ht, htv, hmax⟩ := hd
  rcases Nat.eq_zero_or_pos t.sequence with hzero | hpos
  · rcases h.newest key with ⟨u, hu, tv', htv', hv, -⟩ | ⟨hnone, -⟩
    · have hu0 : u.sequence = 0 := by
        have := hmax u hu (holds_of_lookup htv')
        omega
      rcases hties t ht u hu hzero hu0 tv tv' htv htv' with heq | ⟨w, hw, hwpos, hkw⟩
      · rw [heq, hv]
      · have := hmax w hw hkw
        omega
    · exact absurd (holds_of_lookup htv) (hnone t ht)
  · refine h.newestFlushed key t ht hpos tv htv ?_
    intro u hu hupos hku
    have h1 := hmax u hu hku
    have h2 := (h.sequence t ht).resolve_right (by omega)
    have h3 := (h.sequence u hu).resolve_right (by omega)
    omega

/-- **A new snapshot** knows every table there is. -/
theorem Ordered.pendingOk_snapshot (h : Ordered tables counter flushed pend)
    (hties : ∀ key, ∀ t ∈ tables, ∀ u ∈ tables, t.sequence = 0 → u.sequence = 0 → ∀ tv tv',
      t.entries.lookup key = some tv → u.entries.lookup key = some tv' →
      visible (some tv) = visible (some tv')
        ∨ ∃ w ∈ tables, 0 < w.sequence ∧ Holds w key) :
    PendingOk tables counter flushed ⟨tables, flushed, none⟩ := by
  have hself : ∀ t ∈ tables, Among t tables := fun t ht => List.mem_map_of_mem ht
  exact
    { oldLe := h.numberLe
      numberPos := fun n hn => by cases hn
      numberLe := fun n hn => by cases hn
      numberLt := fun n hn => by cases hn
      numberNew := fun n hn => by cases hn
      decides := fun key tv hd => h.visible_of_decides (hties key) hd
      absent := by
        intro key hnone
        rcases h.newest key with ⟨t, ht, tv, htv, -, -⟩ | ⟨-, hv⟩
        · exact absurd (holds_of_lookup htv) (hnone t ht)
        · exact hv
      later := fun t ht hnot => absurd (hself t ht) hnot
      hidden := fun key _ hne => absurd rfl hne
      dropped := fun key _ t ht hnot => absurd (hself t ht) hnot
      covered := by
        intro key hseen t ht _ tv htv hv
        rcases h.newest key with ⟨u, hu, tv', htv', hv', hmax⟩ | ⟨hnone, -⟩
        · refine ⟨u, hu, holds_of_lookup htv', ?_⟩
          refine Nat.lt_of_le_of_ne (hmax t ht (holds_of_lookup htv)) ?_
          intro heq
          rw [h.eq_of_number ht hu heq, htv'] at htv
          rw [← Option.some.inj htv, hv'] at hv
          exact hv hseen
        · exact absurd (holds_of_lookup htv) (hnone t ht) }

/-- **A snapshot keeps the order**, if merged tables that no flushed one covers
    agree, and every value that a pending compaction carries still has one. -/
theorem Ordered.snapshot (h : Ordered tables counter flushed pend) {i : Nat}
    (hfresh : ∀ j, i ≤ j → pend j = none)
    (hties : ∀ key, ∀ t ∈ tables, ∀ u ∈ tables, t.sequence = 0 → u.sequence = 0 → ∀ tv tv',
      t.entries.lookup key = some tv → u.entries.lookup key = some tv' →
      visible (some tv) = visible (some tv')
        ∨ ∃ w ∈ tables, 0 < w.sequence ∧ Holds w key)
    (hcarried : ∀ j p, pend j = some p → ∀ key, p.seen key ≠ none → flushed key ≠ none) :
    Ordered tables counter flushed
      (fun j => if j = i then some ⟨tables, flushed, none⟩ else pend j) := by
  have hself : ∀ t ∈ tables, Among t tables := fun t ht => List.mem_map_of_mem ht
  have hcase : ∀ {j : Nat} {p : Pending},
      (if j = i then some (⟨tables, flushed, none⟩ : Pending) else pend j) = some p →
      j = i ∧ p = ⟨tables, flushed, none⟩ ∨ j ≠ i ∧ pend j = some p := by
    intro j p hp
    by_cases hj : j = i
    · rw [if_pos hj] at hp
      exact Or.inl ⟨hj, (Option.some.inj hp).symm⟩
    · rw [if_neg hj] at hp
      exact Or.inr ⟨hj, hp⟩
  have hlt : ∀ {j : Nat} {p : Pending}, pend j = some p → j < i := by
    intro j p hp
    by_contra hc
    rw [hfresh j (Nat.le_of_not_lt hc)] at hp
    cases hp
  refine { h with pending := ?_, pairs := ?_, cross := ?_, distinct := ?_ }
  · intro j p hp
    rcases hcase hp with ⟨-, rfl⟩ | ⟨-, hp'⟩
    · exact h.pendingOk_snapshot hties
    · exact h.pending j p hp'
  -- it is the last of all pending ones
  · intro j k p q hjk hp hq
    rcases hcase hp with ⟨rfl, rfl⟩ | ⟨-, hp'⟩ <;> rcases hcase hq with ⟨rfl, rfl⟩ | ⟨-, hq'⟩
    · exact absurd hjk (Nat.lt_irrefl _)
    · exact absurd (hlt hq') (Nat.lt_asymm hjk)
    · exact ⟨hcarried j p hp', fun t ht _ => hself t ht⟩
    · exact h.pairs j k p q hjk hp' hq'
  · intro j k p q hp hq
    rcases hcase hp with ⟨-, rfl⟩ | ⟨-, hp'⟩ <;> rcases hcase hq with ⟨-, rfl⟩ | ⟨-, hq'⟩
    · exact ⟨(fun n hn => by cases hn), fun key _ _ n hn => by cases hn⟩
    · refine ⟨(h.pending k q hq').numberNew, ?_⟩
      intro key hnone hsome
      exact absurd hnone (hcarried k q hq' key hsome)
    · exact ⟨(fun n hn => by cases hn), fun key _ _ n hn => by cases hn⟩
    · exact h.cross j k p q hp' hq'
  · intro j k p q n hne hp hq hn
    rcases hcase hp with ⟨rfl, rfl⟩ | ⟨-, hp'⟩
    · cases hn
    · rcases hcase hq with ⟨rfl, rfl⟩ | ⟨-, hq'⟩
      · exact fun hc => by cases hc
      · exact h.distinct j k p q n hne hp' hq' hn

/-! ## A number is taken -/

/-- Changing one pending compaction. -/
def setPending (pend : Nat → Option Pending) (i : Nat) (p : Option Pending) (j : Nat) :
    Option Pending := if j = i then p else pend j

section Reserve

variable {i : Nat} {old : List Table} {seen : Bytes → Option Bytes}

/-- A compaction that has taken a number is what it was without it. -/
theorem exists_pending (hi : pend i = some ⟨old, seen, none⟩) {j : Nat} {p : Pending}
    (hp : setPending pend i (some ⟨old, seen, some (counter + 1)⟩) j = some p) :
    ∃ q, pend j = some q ∧ p.old = q.old ∧ p.seen = q.seen
      ∧ (∀ n, q.number = some n → p.number = some n)
      ∧ ∀ n, p.number = some n → q.number = some n ∨ j = i ∧ n = counter + 1 := by
  by_cases hj : j = i
  · subst hj
    rw [setPending, if_pos rfl] at hp
    obtain rfl := Option.some.inj hp
    refine ⟨_, hi, rfl, rfl, ?_, ?_⟩
    · intro n hn
      cases hn
    · intro n hn
      exact Or.inr ⟨rfl, (Option.some.inj hn).symm⟩
  · rw [setPending, if_neg hj] at hp
    exact ⟨p, hp, rfl, rfl, fun n hn => hn, fun n hn => Or.inl hn⟩

/-- What holds of a pending compaction holds when it takes the next number. -/
theorem PendingOk.reserve {p q : Pending} (h : PendingOk tables counter flushed q)
    (htables : ∀ t ∈ tables, t.number ≤ counter) (hold : p.old = q.old) (hseen : p.seen = q.seen)
    (hkeep : ∀ n, q.number = some n → p.number = some n)
    (hnum : ∀ n, p.number = some n → q.number = some n ∨ n = counter + 1) :
    PendingOk tables (counter + 1) flushed p := by
  refine
    { oldLe := fun t ht => Nat.le_succ_of_le (h.oldLe t (hold ▸ ht))
      numberPos := ?_
      numberLe := ?_
      numberLt := ?_
      numberNew := ?_
      decides := hold ▸ hseen ▸ h.decides
      absent := hold ▸ hseen ▸ h.absent
      later := hold ▸ h.later
      hidden := ?_
      dropped := hold ▸ hseen ▸ h.dropped
      covered := hold ▸ hseen ▸ h.covered }
  · intro n hn
    rcases hnum n hn with hq | rfl
    · exact h.numberPos n hq
    · exact Nat.succ_pos _
  · intro n hn
    rcases hnum n hn with hq | rfl
    · exact Nat.le_succ_of_le (h.numberLe n hq)
    · exact Nat.le_refl _
  · intro n hn t ht
    rcases hnum n hn with hq | rfl
    · exact h.numberLt n hq t (hold ▸ ht)
    · exact Nat.lt_succ_of_le (h.oldLe t (hold ▸ ht))
  · intro n hn hc
    rcases hnum n hn with hq | rfl
    · exact h.numberNew n hq hc
    · obtain ⟨t, ht, heq⟩ := List.mem_map.mp hc
      have := htables t ht
      omega
  · intro key hs hne
    rw [hseen] at hs hne
    obtain ⟨n, hn, t, ht, hnot, hrest⟩ := h.hidden key hs hne
    exact ⟨n, hkeep n hn, t, ht, hold ▸ hnot, hrest⟩

/-- **Taking a number keeps the order.** -/
theorem Ordered.reserve (h : Ordered tables counter flushed pend)
    (hi : pend i = some ⟨old, seen, none⟩) :
    Ordered tables (counter + 1) flushed
      (setPending pend i (some ⟨old, seen, some (counter + 1)⟩)) := by
  refine
    { nodup := h.nodup
      positive := h.positive
      numberLe := fun t ht => Nat.le_succ_of_le (h.numberLe t ht)
      sequence := h.sequence
      newest := h.newest
      newestFlushed := h.newestFlushed
      pending := ?_
      pairs := ?_
      cross := ?_
      distinct := ?_ }
  · intro j p hp
    obtain ⟨q, hq, hold, hseen, hkeep, hnum⟩ := exists_pending hi hp
    exact (h.pending j q hq).reserve h.numberLe hold hseen hkeep
      (fun n hn => (hnum n hn).imp id And.right)
  · intro j k p q hjk hp hq
    obtain ⟨p', hp', hold, hseen, -⟩ := exists_pending hi hp
    obtain ⟨q', hq', hold', hseen', -⟩ := exists_pending hi hq
    have hpair := h.pairs j k p' q' hjk hp' hq'
    exact ⟨by rw [hseen, hseen']; exact hpair.carried, by rw [hold, hold']; exact hpair.among⟩
  · intro j k p q hp hq
    obtain ⟨p', hp', hold, hseen, -⟩ := exists_pending hi hp
    obtain ⟨q', hq', -, hseen', -, hnum'⟩ := exists_pending hi hq
    have hcross := h.cross j k p' q' hp' hq'
    have hpok := h.pending j p' hp'
    constructor
    · intro n hn
      rw [hold]
      rcases hnum' n hn with hn' | ⟨-, rfl⟩
      · exact hcross.number n hn'
      · intro hc
        obtain ⟨t, ht, heq⟩ := List.mem_map.mp hc
        have := hpok.oldLe t ht
        omega
    · intro key hnone hsome n hn u hu
      rw [hseen] at hnone
      rw [hseen'] at hsome
      rw [hold] at hu
      rcases hnum' n hn with hn' | ⟨-, rfl⟩
      · exact hcross.dropped key hnone hsome n hn' u hu
      · exact Nat.lt_succ_of_le (hpok.oldLe u hu)
  · intro j k p q n hne hp hq hn hn'
    obtain ⟨p', hp', -, -, -, hnum⟩ := exists_pending hi hp
    obtain ⟨q', hq', -, -, -, hnum'⟩ := exists_pending hi hq
    -- the new number is above all others, and only one compaction takes it
    rcases hnum n hn with h1 | ⟨h1, h1'⟩ <;> rcases hnum' n hn' with h2 | ⟨h2, h2'⟩
    · exact h.distinct j k p' q' n hne hp' hq' h1 h2
    · have := (h.pending j p' hp').numberLe n h1
      omega
    · have := (h.pending k q' hq').numberLe n h2
      omega
    · exact hne (h1.trans h2.symm)

end Reserve

/-! ## A call ends without a swap -/

/-- **A compaction of nothing but tombstones keeps the order.** -/
theorem Ordered.drop (h : Ordered tables counter flushed pend) (i : Nat) :
    Ordered tables counter flushed (setPending pend i none) := by
  have hcase : ∀ {j : Nat} {p : Pending}, setPending pend i none j = some p → pend j = some p := by
    intro j p hp
    by_cases hj : j = i
    · rw [setPending, if_pos hj] at hp
      cases hp
    · rwa [setPending, if_neg hj] at hp
  exact
    { h with
      pending := fun j p hp => h.pending j p (hcase hp)
      pairs := fun j k p q hjk hp hq => h.pairs j k p q hjk (hcase hp) (hcase hq)
      cross := fun j k p q hp hq => h.cross j k p q (hcase hp) (hcase hq)
      distinct := fun j k p q n hne hp hq => h.distinct j k p q n hne (hcase hp) (hcase hq) }

/-! ## A swap -/

/-- The tables that are not among a snapshot's. -/
def kept (tables old : List Table) : List Table :=
  tables.filter (fun u => !(old.map Table.number).contains u.number)

theorem mem_kept {old : List Table} {t : Table} :
    t ∈ kept tables old ↔ t ∈ tables ∧ ¬ Among t old := by
  rw [kept, List.mem_filter, Bool.not_eq_true', ← Bool.not_eq_true, List.contains_iff_mem]
  rfl

section Swap

variable {i n : Nat} {old : List Table} {seen : Bytes → Option Bytes} {m : List Entry}

/-- The merged table holds exactly the keys that had a value. -/
theorem holds_merged (hm : ∀ key, visible (m.lookup key) = seen key)
    (hlive : ∀ key tv, m.lookup key = some tv → visible (some tv) ≠ none) (key : Bytes) :
    Holds ⟨n, 0, m⟩ key ↔ seen key ≠ none := by
  rw [Holds, ← hm key]
  cases hk : m.lookup key with
  | none => simp [visible]
  | some tv => simpa using hlive key tv hk

/-- What holds of the numbers of all that were merged holds of one's. -/
theorem lt_of_among {t : Table} {k : Nat} (ham : Among t old) (h : ∀ u ∈ old, u.number < k) :
    t.number < k := by
  obtain ⟨u, hu, heq⟩ := List.mem_map.mp ham
  exact heq ▸ h u hu

/-- A table after the swap is the merged one, or one that was not merged. -/
theorem mem_swapped {t : Table} : t ∈ (⟨n, 0, m⟩ : Table) :: kept tables old
    ↔ t = ⟨n, 0, m⟩ ∨ t ∈ tables ∧ ¬ Among t old := by
  rw [List.mem_cons, mem_kept]

/-- A key that the merge dropped: nothing that the snapshot covered comes back. -/
theorem Ordered.newest_swap_dropped (h : Ordered tables counter flushed pend)
    (hi : pend i = some ⟨old, seen, some n⟩) {key : Bytes} (hseen : seen key = none)
    (hnot : ¬ Holds ⟨n, 0, m⟩ key) : Newest (⟨n, 0, m⟩ :: kept tables old) key (flushed key) := by
  have hok := h.pending i _ hi
  rcases h.newest key with ⟨t, ht, tv, htv, hv, hmax⟩ | ⟨hnone, hv⟩
  · by_cases ham : Among t old
    -- the newest table is merged, so that it held a tombstone and no older one stays
    · refine Or.inr ⟨?_, ?_⟩
      · intro u hu hku
        rcases mem_swapped.mp hu with rfl | ⟨hut, hnam⟩
        · exact hnot hku
        · have hlt := lt_of_among ham (hok.dropped key hseen u hut hnam hku)
          exact absurd (hmax u hut hku) (Nat.not_le_of_lt hlt)
      · by_contra hne
        obtain ⟨u, hu, hku, hlt⟩ := hok.covered key hseen t ht ham tv htv (hv ▸ hne)
        exact absurd (hmax u hu hku) (Nat.not_le_of_lt hlt)
    · refine Or.inl ⟨t, mem_swapped.mpr (Or.inr ⟨ht, ham⟩), tv, htv, hv, ?_⟩
      intro u hu hku
      rcases mem_swapped.mp hu with rfl | ⟨hut, -⟩
      · exact absurd hku hnot
      · exact hmax u hut hku
  · refine Or.inr ⟨?_, hv⟩
    intro u hu hku
    rcases mem_swapped.mp hu with rfl | ⟨hut, -⟩
    · exact hnot hku
    · exact hnone u hut hku

/-- A newer table holds the key, and hides the merged one. -/
theorem Ordered.newest_swap_hidden (h : Ordered tables counter flushed pend)
    (hi : pend i = some ⟨old, seen, some n⟩) {key : Bytes} {u : Table} (hu : u ∈ tables)
    (hku : Holds u key) (hlt : n < u.number) :
    Newest (⟨n, 0, m⟩ :: kept tables old) key (flushed key) := by
  have hok := h.pending i _ hi
  rcases h.newest key with ⟨t, ht, tv, htv, hv, hmax⟩ | ⟨hnone, -⟩
  · have hnt : n < t.number := Nat.lt_of_lt_of_le hlt (hmax u hu hku)
    have hnam : ¬ Among t old :=
      fun hc => Nat.lt_asymm hnt (lt_of_among hc (hok.numberLt n rfl))
    refine Or.inl ⟨t, mem_swapped.mpr (Or.inr ⟨ht, hnam⟩), tv, htv, hv, ?_⟩
    intro w hw hkw
    rcases mem_swapped.mp hw with rfl | ⟨hwt, -⟩
    · exact Nat.le_of_lt hnt
    · exact hmax w hwt hkw
  · exact absurd hku (hnone u hu)

/-- After a swap the table of the largest number still holds what was flushed. -/
theorem Ordered.newest_swap (h : Ordered tables counter flushed pend)
    (hi : pend i = some ⟨old, seen, some n⟩) (hm : ∀ key, visible (m.lookup key) = seen key)
    (hlive : ∀ key tv, m.lookup key = some tv → visible (some tv) ≠ none) (key : Bytes) :
    Newest (⟨n, 0, m⟩ :: kept tables old) key (flushed key) := by
  by_cases hseen : seen key = none
  · exact h.newest_swap_dropped hi hseen fun hc => (holds_merged hm hlive key).mp hc hseen
  by_cases hhid : ∃ t ∈ tables, ¬ Among t old ∧ Holds t key ∧ n < t.number
  · obtain ⟨u, hu, -, hku, hlt⟩ := hhid
    exact h.newest_swap_hidden hi hu hku hlt
  -- the merged table is the newest, and what it carries is current
  obtain ⟨tv, htv⟩ := lookup_of_holds ((holds_merged hm hlive key).mpr hseen)
  have hcur : seen key = flushed key := by
    by_contra hne
    obtain ⟨n', hn', hex⟩ := (h.pending i _ hi).hidden key hseen hne
    obtain rfl := Option.some.inj hn'
    exact hhid hex
  refine Or.inl ⟨_, List.mem_cons_self, tv, htv, ?_, ?_⟩
  · rw [← hcur, ← hm key]
    exact congrArg visible htv.symm
  · intro u hu hku
    rcases mem_swapped.mp hu with rfl | ⟨hut, hnam⟩
    · exact Nat.le_refl _
    · exact Nat.le_of_not_lt (fun hlt => hhid ⟨u, hut, hnam, hku, hlt⟩)

/-- After a swap the other pending compactions are as they were. -/
theorem Ordered.pending_swap (h : Ordered tables counter flushed pend)
    (hi : pend i = some ⟨old, seen, some n⟩) (hm : ∀ key, visible (m.lookup key) = seen key)
    (hlive : ∀ key tv, m.lookup key = some tv → visible (some tv) ≠ none) {j : Nat} (hij : j ≠ i)
    {q : Pending} (hq : pend j = some q) :
    PendingOk (⟨n, 0, m⟩ :: kept tables old) counter flushed q := by
  have hok := h.pending i _ hi
  have hqok := h.pending j q hq
  have hnew : ¬ Among ⟨n, 0, m⟩ q.old := (h.cross j i q _ hq hi).number n rfl
  have hold : ∀ u, Among u old → u.number < n := fun u hu => lt_of_among hu (hok.numberLt n rfl)
  refine
    { hqok with
      numberNew := ?_
      later := ?_
      hidden := ?_
      dropped := ?_
      covered := ?_ }
  · intro k hk hc
    obtain ⟨t, ht, heq⟩ := List.mem_map.mp hc
    rcases mem_swapped.mp ht with rfl | ⟨htt, -⟩
    · have hnk : n = k := heq
      exact h.distinct i j _ q n (Ne.symm hij) hi hq rfl (hnk ▸ hk)
    · exact hqok.numberNew k hk (heq ▸ List.mem_map_of_mem htt)
  · intro t ht hnot hpos u hu
    rcases mem_swapped.mp ht with rfl | ⟨htt, -⟩
    · exact absurd hpos (Nat.lt_irrefl 0)
    · exact hqok.later t htt hnot hpos u hu
  · intro key hseen hne
    obtain ⟨k, hk, t, ht, hnot, hkt, hlt⟩ := hqok.hidden key hseen hne
    by_cases ham : Among t old
    · -- the hiding table is merged; the merged one hides instead
      have hlive' : seen key ≠ none := by
        rcases Nat.lt_or_gt_of_ne hij with hji | hji
        · exact (h.pairs j i q _ hji hq hi).carried key hseen
        · exact absurd ((h.pairs i j _ q hji hi hq).among t ht ham) hnot
      exact ⟨k, hk, _, List.mem_cons_self, hnew, (holds_merged hm hlive key).mpr hlive',
        hlt.trans (hold t ham)⟩
    · exact ⟨k, hk, t, mem_swapped.mpr (Or.inr ⟨ht, ham⟩), hnot, hkt, hlt⟩
  · intro key hseen t ht hnot hkt u hu
    rcases mem_swapped.mp ht with rfl | ⟨htt, -⟩
    · exact (h.cross j i q _ hq hi).dropped key hseen ((holds_merged hm hlive key).mp hkt) n rfl u hu
    · exact hqok.dropped key hseen t htt hnot hkt u hu
  · intro key hseen t ht ham tv htv hv
    rcases mem_swapped.mp ht with rfl | ⟨htt, hnam⟩
    · exact absurd ham hnew
    · obtain ⟨u, hu, hku, hlt⟩ := hqok.covered key hseen t htt ham tv htv hv
      by_cases hua : Among u old
      · -- the covering table is merged, and what it held has a value
        have hlive' : seen key ≠ none := by
          intro hc
          have hut := lt_of_among hua (hok.dropped key hc t htt hnam (holds_of_lookup htv))
          exact Nat.lt_asymm hlt hut
        exact ⟨_, List.mem_cons_self, (holds_merged hm hlive key).mpr hlive',
          hlt.trans (hold u hua)⟩
      · exact ⟨u, mem_swapped.mpr (Or.inr ⟨hu, hua⟩), hku, hlt⟩

/-- **A swap keeps the order.** -/
theorem Ordered.swap (h : Ordered tables counter flushed pend)
    (hi : pend i = some ⟨old, seen, some n⟩) (hm : ∀ key, visible (m.lookup key) = seen key)
    (hlive : ∀ key tv, m.lookup key = some tv → visible (some tv) ≠ none) :
    Ordered (⟨n, 0, m⟩ :: kept tables old) counter flushed (setPending pend i none) := by
  have hok := h.pending i _ hi
  have hcase : ∀ {j : Nat} {p : Pending}, setPending pend i none j = some p →
      j ≠ i ∧ pend j = some p := by
    intro j p hp
    by_cases hj : j = i
    · rw [setPending, if_pos hj] at hp
      cases hp
    · rw [setPending, if_neg hj] at hp
      exact ⟨hj, hp⟩
  refine
    { nodup := ?_
      positive := ?_
      numberLe := ?_
      sequence := ?_
      newest := h.newest_swap hi hm hlive
      newestFlushed := ?_
      pending := fun j p hp => h.pending_swap hi hm hlive (hcase hp).1 (hcase hp).2
      pairs := ?_
      cross := fun j k p q hp hq => h.cross j k p q (hcase hp).2 (hcase hq).2
      distinct := fun j k p q k' hne hp hq => h.distinct j k p q k' hne (hcase hp).2 (hcase hq).2 }
  · refine List.nodup_cons.mpr ⟨?_, ?_⟩
    · intro hc
      obtain ⟨t, ht, heq⟩ := List.mem_map.mp hc
      exact hok.numberNew n rfl (List.mem_map.mpr ⟨t, (mem_kept.mp ht).1, heq⟩)
    · exact List.Nodup.sublist (List.Sublist.map _ List.filter_sublist) h.nodup
  · intro t ht
    rcases mem_swapped.mp ht with rfl | ⟨htt, -⟩
    · exact hok.numberPos n rfl
    · exact h.positive t htt
  · intro t ht
    rcases mem_swapped.mp ht with rfl | ⟨htt, -⟩
    · exact hok.numberLe n rfl
    · exact h.numberLe t htt
  · intro t ht
    rcases mem_swapped.mp ht with rfl | ⟨htt, -⟩
    · exact Or.inr rfl
    · exact h.sequence t htt
  -- a flushed table that stays is newer than all that are merged
  · intro key t ht hpos tv htv hmax
    rcases mem_swapped.mp ht with rfl | ⟨htt, hnam⟩
    · exact absurd hpos (Nat.lt_irrefl 0)
    · refine h.newestFlushed key t htt hpos tv htv ?_
      intro u hu hupos hku
      by_cases hua : Among u old
      · exact Nat.le_of_lt (lt_of_among hua (hok.later t htt hnam hpos))
      · exact hmax u (mem_swapped.mpr (Or.inr ⟨hu, hua⟩)) hupos hku
  · intro j k p q hjk hp hq
    obtain ⟨-, hp'⟩ := hcase hp
    obtain ⟨-, hq'⟩ := hcase hq
    have hpair := h.pairs j k p q hjk hp' hq'
    refine ⟨hpair.carried, ?_⟩
    intro t ht ham
    rcases mem_swapped.mp ht with rfl | ⟨htt, -⟩
    · exact absurd ham ((h.cross j i p _ hp' hi).number n rfl)
    · exact hpair.among t htt ham

end Swap

end KvTableOrder
