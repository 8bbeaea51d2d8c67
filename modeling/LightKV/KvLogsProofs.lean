import LightKV.KvSessionProofs

/-! # What the logs say

    A restart replays every log on disk.  `Logged s` says what they hold: the
    current log, which is the last, tells only what the memtable says; the
    memtable is in the logs; and where the logs tell of a key they agree with a
    read.  Writes keep this.  A flush removes the current log only, and keeps it
    when the logs that stay behind do not disagree with the memtable
    (`Logged.flush`). -/

namespace KvLogs

open KvBytes KvEngine KvRecovery KvSession KvStore KvTable KvWal Overlay

/-! ## Replaying logs -/

/-- The records of the logs, one log after the other. -/
def recordsOf (logs : List (Nat × Bytes)) : List ParsedLogRecord :=
  logs.flatMap (fun l => recoverFile l.2)

/-- What a replay of the logs leaves. -/
def replayed (logs : List (Nat × Bytes)) : List Entry := replayLayer (recordsOf logs) []

theorem recovered_eq {logs : List (Nat × Bytes)} (hs : KeySorted logs) :
    recovered logs (logs.map Prod.fst) = recordsOf logs := by
  rw [recovered, recordsOf, List.flatMap_map]
  refine List.flatMap_congr ?_
  intro l hl
  rw [(lookup_eq_some_iff hs).mpr hl]
  rfl

/-- The last record of a key decides. -/
theorem lookup_replayLayer (rs : List ParsedLogRecord) (k : Bytes) :
    ∀ (l : List Entry),
      (replayLayer rs l).lookup k = ((replayLayer rs []).lookup k).or (l.lookup k) := by
  induction rs with
  | nil =>
      intro l
      rfl
  | cons r rs ih =>
      intro l
      have hup : ∀ tv, (replayLayer rs (upsert r.key tv l)).lookup k
          = ((replayLayer rs (upsert r.key tv [])).lookup k).or (l.lookup k) := by
        intro tv
        rw [ih (upsert r.key tv l), ih (upsert r.key tv []), lookup_upsert, lookup_upsert,
          Option.or_assoc]
        split
        · rfl
        · rfl
      rw [replayLayer, replayLayer]
      split
      · exact hup _
      · split
        · exact hup _
        · exact ih l

theorem lookup_replayed_append (as bs : List (Nat × Bytes)) (k : Bytes) :
    (replayed (as ++ bs)).lookup k
      = ((replayed bs).lookup k).or ((replayed as).lookup k) := by
  rw [replayed, recordsOf, List.flatMap_append, replayLayer_append, lookup_replayLayer]
  rfl

/-- Opening a log behind all others says nothing new. -/
theorem lookup_replayed_openLog {logs : List (Nat × Bytes)} (hs : KeySorted logs) {n : Nat}
    (hle : ∀ m, (logs.lookup m).isSome → m ≤ n) (k : Bytes) :
    (replayed (openLog n logs)).lookup k = (replayed logs).lookup k := by
  cases hn : logs.lookup n with
  | some log => simp only [openLog, hn]
  | none =>
      simp only [openLog, hn]
      rw [upsert_last hs hle, discard_of_lookup_none hs hn, lookup_replayed_append]
      rfl

/-- What the last log tells is what all of them do. -/
theorem replayed_of_last {logs : List (Nat × Bytes)} (hs : KeySorted logs) {n : Nat}
    (hle : ∀ m, (logs.lookup m).isSome → m ≤ n) {log : Bytes} (hn : logs.lookup n = some log)
    {k : Bytes} {tv : TableValue} (h : (replayed [(n, log)]).lookup k = some tv) :
    (replayed logs).lookup k = some tv := by
  rw [← upsert_of_lookup hs hn, upsert_last hs hle, lookup_replayed_append, h]
  rfl

/-- A log of complete records. -/
def Clean (log : Bytes) : Prop := ∃ rs, (∀ r ∈ rs, RecordFits r) ∧ log = encodeAll rs

theorem clean_nil : Clean [] := ⟨[], by simp, rfl⟩

/-- A record says what a write puts into the memtable. -/
def Writes (r : ParsedLogRecord) (tv : TableValue) : Prop :=
  r.op = .PUT ∧ tv = ⟨.kTypeValue, r.value⟩ ∨ r.op = .ERASE ∧ tv = ⟨.kTypeDeletion, []⟩

/-- Replaying one more record. -/
theorem lookup_replayLayer_concat {r : ParsedLogRecord} {tv : TableValue} (h : Writes r tv)
    (rs : List ParsedLogRecord) (k : Bytes) :
    (replayLayer (rs ++ [r]) []).lookup k
      = if k = r.key then some tv else (replayLayer rs []).lookup k := by
  have hne : OperationType.ERASE ≠ OperationType.PUT := by decide
  rw [replayLayer_append, replayLayer]
  rcases h with ⟨hop, rfl⟩ | ⟨hop, rfl⟩
  · rw [if_pos hop]
    exact lookup_upsert _ _ _ _
  · rw [if_neg (hop ▸ hne), if_pos hop]
    exact lookup_upsert _ _ _ _

/-- Appending a record to a log of complete ones. -/
theorem replayed_append_record {log : Bytes} (hc : Clean log) {r : ParsedLogRecord}
    {tv : TableValue} (h : Writes r tv) (hf : RecordFits r) (n : Nat) (k : Bytes) :
    Clean (log ++ encodeRecord r)
      ∧ (replayed [(n, log ++ encodeRecord r)]).lookup k
        = if k = r.key then some tv else (replayed [(n, log)]).lookup k := by
  obtain ⟨rs, hrs, rfl⟩ := hc
  have hall : ∀ q ∈ rs ++ [r], RecordFits q := by
    intro q hq
    rcases List.mem_append.mp hq with hq' | hq'
    · exact hrs q hq'
    · rw [List.mem_singleton.mp hq']
      exact hf
  have henc : encodeAll rs ++ encodeRecord r = encodeAll (rs ++ [r]) := by
    rw [encodeAll_append, encodeAll_singleton]
  have hone : ∀ qs, (∀ q ∈ qs, RecordFits q) →
      replayed [(n, encodeAll qs)] = replayLayer qs [] := by
    intro qs hqs
    have hrec := recoverFile_encodeAll hqs []
    rw [List.append_nil, recoverFile_nil, List.append_nil] at hrec
    rw [replayed, recordsOf, List.flatMap_singleton, hrec]
  rw [henc]
  refine ⟨⟨rs ++ [r], hall, rfl⟩, ?_⟩
  rw [hone _ hall, hone _ hrs]
  exact lookup_replayLayer_concat h rs k

/-! ## What the logs of a store say -/

/-- The bytes of the current log. -/
def current (s : Store) : Bytes := (s.logs.lookup s.log).getD []

/-- What the logs other than the current one say. -/
def stale (s : Store) : List Entry := replayed (discard s.log s.logs)

/-- **What the logs hold.** -/
structure Logged (s : Store) : Prop where
  sorted : KeySorted s.logs
  clean : ∀ n log, s.logs.lookup n = some log → Clean log
  here : (s.logs.lookup s.log).isSome
  last : ∀ n, (s.logs.lookup n).isSome → n ≤ s.log
  /-- the current log tells only what the memtable says -/
  told : ∀ k tv, (replayed [(s.log, current s)]).lookup k = some tv → s.mem.lookup k = some tv
  /-- the memtable is in the logs -/
  kept : ∀ k tv, s.mem.lookup k = some tv → (replayed s.logs).lookup k = some tv
  /-- what the logs tell of a key is what a read finds -/
  agree : ∀ k tv, (replayed s.logs).lookup k = some tv → visible (some tv) = visible (s.view k)

variable {s : Store}

theorem Logged.split (h : Logged s) : s.logs = discard s.log s.logs ++ [(s.log, current s)] := by
  obtain ⟨log, hlog⟩ := Option.isSome_iff_exists.mp h.here
  have hcur : current s = log := by rw [current, hlog]; rfl
  rw [← upsert_last h.sorted h.last, hcur, upsert_of_lookup h.sorted hlog]

theorem Logged.lookup_replayed (h : Logged s) (k : Bytes) :
    (replayed s.logs).lookup k
      = ((replayed [(s.log, current s)]).lookup k).or ((stale s).lookup k) := by
  conv_lhs => rw [h.split]
  exact lookup_replayed_append _ _ k

/-- What the logs hold after a write: the current one ends with the record. -/
theorem lookup_logs_write (r : ParsedLogRecord) (tv : TableValue) (n : Nat) :
    (s.write r tv).logs.lookup n
      = if n = s.log then some (current s ++ encodeRecord r) else s.logs.lookup n :=
  lookup_upsert _ _ _ _

/-- The logs tell of the new value, and of nothing else that they did not tell of. -/
theorem Logged.replayed_write (h : Logged s) {r : ParsedLogRecord} {tv : TableValue}
    (hw : Writes r tv) (hf : RecordFits r) (hclean : Clean (current s)) (k : Bytes) :
    (replayed (s.write r tv).logs).lookup k
      = if k = r.key then some tv else (replayed s.logs).lookup k := by
  have hlogs : (s.write r tv).logs = upsert s.log (current s ++ encodeRecord r) s.logs := rfl
  rw [hlogs, upsert_last h.sorted h.last, lookup_replayed_append,
    (replayed_append_record hclean hw hf s.log k).2, h.lookup_replayed k]
  split
  · rfl
  · rfl

/-- **A write keeps it.** -/
theorem Logged.write (h : Logged s) {r : ParsedLogRecord} {tv : TableValue} (hw : Writes r tv)
    (hf : RecordFits r) : Logged (s.write r tv) := by
  obtain ⟨log, hlog⟩ := Option.isSome_iff_exists.mp h.here
  have hcur : current s = log := by rw [current, hlog]; rfl
  have hclean : Clean (current s) := hcur ▸ h.clean s.log log hlog
  have hlook := lookup_logs_write (s := s) r tv
  have hcur' : current (s.write r tv) = current s ++ encodeRecord r := by
    show ((s.write r tv).logs.lookup s.log).getD [] = _
    rw [hlook, if_pos rfl]
    rfl
  have hone := fun k => replayed_append_record hclean hw hf s.log k
  have hall := h.replayed_write hw hf hclean
  have hmem : ∀ k, (s.write r tv).mem.lookup k
      = if k = r.key then some tv else s.mem.lookup k := fun k => lookup_upsert _ _ _ _
  refine
    { sorted := keySorted_upsert h.sorted
      clean := ?_
      here := ?_
      last := ?_
      told := ?_
      kept := ?_
      agree := ?_ }
  · intro n b hb
    rw [hlook] at hb
    split at hb
    · obtain rfl := Option.some.inj hb
      exact (hone []).1
    · exact h.clean n b hb
  · show ((s.write r tv).logs.lookup s.log).isSome
    rw [hlook, if_pos rfl]
    rfl
  · intro n hn
    rw [hlook] at hn
    split at hn
    · rename_i heq
      exact Nat.le_of_eq heq
    · exact h.last n hn
  · intro k tv' hk
    rw [hcur'] at hk
    rw [hmem]
    have hk' : (replayed [(s.log, current s ++ encodeRecord r)]).lookup k = some tv' := hk
    rw [(hone k).2] at hk'
    split at hk'
    · rw [if_pos ‹_›, hk']
    · rw [if_neg ‹_›]
      exact h.told k tv' hk'
  · intro k tv' hk
    rw [hmem] at hk
    rw [hall]
    split at hk
    · rw [if_pos ‹_›, hk]
    · rw [if_neg ‹_›]
      exact h.kept k tv' hk
  · intro k tv' hk
    rw [hall] at hk
    rw [view_write]
    split at hk
    · rw [if_pos ‹_›, hk]
    · rw [if_neg ‹_›]
      exact h.agree k tv' hk

/-- A flush removes the current log and opens a new one behind all others. -/
theorem Logged.logs_flush (h : Logged s) (hlog : s.log ≤ s.counter + 1) (hne : s.mem ≠ []) :
    s.flush.logs = discard s.log s.logs ++ [(s.counter + 1 + 1, [])] := by
  have hnew : s.logs.lookup (s.counter + 1 + 1) = none := by
    by_contra hc
    have := h.last _ (Option.isSome_iff_ne_none.mpr hc)
    omega
  have hflush : s.flush.logs = discard s.log (upsert (s.counter + 1 + 1) [] s.logs) := by
    rw [Store.flush, if_neg hne]
    show discard s.log (openLog (s.counter + 1 + 1) s.logs) = _
    rw [openLog, hnew]
  have hsort := keySorted_discard h.sorted s.log
  have hle : ∀ n, ((discard s.log s.logs).lookup n).isSome → n ≤ s.counter + 1 + 1 := by
    intro n hn
    rw [lookup_discard] at hn
    split at hn
    · cases hn
    · have := h.last n hn
      omega
  have hfresh : discard (s.counter + 1 + 1) (discard s.log s.logs) = discard s.log s.logs := by
    refine discard_of_lookup_none hsort ?_
    rw [lookup_discard, hnew, ite_self]
  rw [hflush, ← hfresh, ← upsert_last hsort hle]
  refine eq_of_lookup_eq (keySorted_discard (keySorted_upsert h.sorted) _)
    (keySorted_upsert hsort) ?_
  intro n
  rw [lookup_discard, lookup_upsert, lookup_upsert, lookup_discard]
  by_cases h1 : n = s.log
  · rw [if_pos h1, if_neg (by omega), if_pos h1]
  · rw [if_neg h1, if_neg h1]

/-- The logs after a flush are those that stay behind and the new one, which is empty. -/
theorem Logged.lookup_logs_flush (h : Logged s) (hlog : s.log ≤ s.counter + 1) (hne : s.mem ≠ [])
    {n : Nat} {log : Bytes} (hn : s.flush.logs.lookup n = some log) :
    s.logs.lookup n = some log ∨ n = s.counter + 1 + 1 ∧ log = [] := by
  rw [h.logs_flush hlog hne, Overlay.lookup_append, lookup_discard] at hn
  rcases Option.or_eq_some_iff.mp hn with hn' | ⟨-, hn'⟩
  · split at hn'
    · cases hn'
    · exact Or.inl hn'
  · have hmem' := mem_of_lookup hn'
    rw [List.mem_singleton, Prod.mk.injEq] at hmem'
    exact Or.inr hmem'

/-- The new log is there. -/
theorem Logged.lookup_new_flush (h : Logged s) (hlog : s.log ≤ s.counter + 1) (hne : s.mem ≠ []) :
    s.flush.logs.lookup (s.counter + 1 + 1) = some [] := by
  have hnew : s.logs.lookup (s.counter + 1 + 1) = none := by
    by_contra hc
    have := h.last _ (Option.isSome_iff_ne_none.mpr hc)
    omega
  rw [h.logs_flush hlog hne, Overlay.lookup_append, lookup_discard, hnew, ite_self, Option.none_or,
    List.lookup_cons, beq_self_eq_true]

/-- **A flush keeps it**, if the logs that stay behind do not disagree with the
    memtable. -/
theorem Logged.flush (h : Logged s) (hfit : MemFits s) (hlog : s.log ≤ s.counter + 1)
    (hsafe : ∀ k tv tv', s.mem.lookup k = some tv → (stale s).lookup k = some tv' →
      visible (some tv') = visible (some tv)) : Logged s.flush := by
  by_cases hempty : s.mem = []
  · rw [Store.flush, if_pos hempty]
    exact h
  have hself := h.lookup_new_flush hlog hempty
  have hmem : s.flush.mem = [] := by rw [Store.flush, if_neg hempty]
  have hnum : s.flush.log = s.counter + 1 + 1 := by
    rw [Store.flush, if_neg hempty]
    rfl
  refine
    { sorted := ?_
      clean := ?_
      here := by rw [hnum, hself]; rfl
      last := ?_
      told := ?_
      kept := by rw [hmem]; exact fun k tv hk => by cases hk
      agree := ?_ }
  · rw [Store.flush, if_neg hempty]
    exact keySorted_discard (keySorted_openLog h.sorted) _
  · intro n log hn
    rcases h.lookup_logs_flush hlog hempty hn with hn' | ⟨-, rfl⟩
    · exact h.clean n log hn'
    · exact clean_nil
  · intro n hn
    obtain ⟨log, hn'⟩ := Option.isSome_iff_exists.mp hn
    rw [hnum]
    rcases h.lookup_logs_flush hlog hempty hn' with hn'' | ⟨rfl, -⟩
    · have := h.last n (by rw [hn'']; rfl)
      omega
    · exact Nat.le_refl _
  · intro k tv hk
    rw [current, hnum, hself] at hk
    cases hk
  · intro k tv hk
    have hstale : (stale s).lookup k = some tv := by
      rw [h.logs_flush hlog hempty, lookup_replayed_append] at hk
      exact hk
    rw [view_flush hfit]
    cases hm : s.mem.lookup k with
    | some tv' =>
        have hv : s.view k = some tv' := by
          rw [Store.view, overlay_cons, hm]
          rfl
        rw [hv]
        exact hsafe k tv' tv hm hstale
    | none =>
        -- the current log does not tell of the key, so the logs that stay do
        have hcur : (replayed [(s.log, current s)]).lookup k = none := by
          by_contra hc
          obtain ⟨tv', htv'⟩ := Option.ne_none_iff_exists'.mp hc
          rw [h.told k tv' htv'] at hm
          cases hm
        refine h.agree k tv ?_
        rw [h.lookup_replayed, hcur, Option.none_or, hstale]

/-- Another store with the same memtable and logs, whose reads are the same. -/
theorem Logged.of_view (h : Logged s) {s' : Store} (hmem : s'.mem = s.mem) (hlog : s'.log = s.log)
    (hlogs : s'.logs = s.logs) (hview : ∀ k, visible (s'.view k) = visible (s.view k)) :
    Logged s' := by
  have hcur : current s' = current s := by rw [current, current, hlogs, hlog]
  exact
    { sorted := hlogs ▸ h.sorted
      clean := hlogs ▸ h.clean
      here := by rw [hlogs, hlog]; exact h.here
      last := by rw [hlogs, hlog]; exact h.last
      told := by rw [hlog, hcur, hmem]; exact h.told
      kept := by rw [hlogs, hmem]; exact h.kept
      agree := by
        intro k tv hk
        rw [hview]
        exact h.agree k tv (hlogs ▸ hk) }

end KvLogs
