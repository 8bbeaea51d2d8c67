import LightKV.KvEngineProofs
import LightKV.KvSkipListMapProofs
import LightKV.LowerBoundProofs

/-! # The memtable's iterator over a map

    `SkipListIterator` copies what the skip list holds from its lower bound on,
    and `Seek` halves the copy.  `Lists m sequence least out` says what a map `m`
    has to show from a key on.

    Result: over a skip list that any calls have left, the copy is what the map
    of those calls has from the lower bound on, and whatever a client has called
    before, `Seek` and then `Next` to the end read what it has from the larger of
    bound and target on (`memtable_iterator_exact`). -/

namespace KvMemtableIterator

open KvBytes KvSkipList KvSkipListMap KvIterators KWayMerge Overlay

/-! ## The search of `Seek` -/

/-- `std::lower_bound` over the copied entries. -/
def halved (it : SkipListIterator) (target : Bytes) : Nat :=
  LowerBound.search (fun i => it.entries[i]?.any (fun e => e.key < target)) 0 it.entries.length

/-- **Halving is enough**: over ascending entries it finds where `Seek` goes. -/
theorem halved_eq {it : SkipListIterator} (h : Ascending IteratorEntry.key it.entries)
    (target : Bytes) : halved it target = (it.seek target).index :=
  LowerBound.search_lt_eq_findIdx h target

/-! ## What a map has from a key on -/

/-- Its entries from `least` on, ascending, as an iterator with that sequence
    gives them. -/
structure Lists (m : Bytes → Option TableValue) (sequence : Sequence) (least : Bytes)
    (out : List IteratorEntry) : Prop where
  ascending : Ascending IteratorEntry.key out
  mem : ∀ e, e ∈ out ↔ least ≤ e.key ∧ m e.key = some ⟨e.type, e.value⟩ ∧ e.sequence = sequence

section Map

variable {m : Bytes → Option TableValue} {sequence : Sequence} {least : Bytes}
  {out : List IteratorEntry}

/-- From a larger key on. -/
theorem Lists.dropBelow (h : Lists m sequence least out) (target : Bytes) :
    Lists m sequence (max least target) (dropBelow IteratorEntry.key target out) := by
  refine ⟨h.ascending.dropBelow target, ?_⟩
  intro e
  rw [h.ascending.mem_dropBelow, h.mem, max_le_iff]
  constructor
  · rintro ⟨⟨hleast, hm, hseq⟩, htarget⟩
    exact ⟨⟨hleast, htarget⟩, hm, hseq⟩
  · rintro ⟨⟨hleast, htarget⟩, hm, hseq⟩
    exact ⟨⟨hleast, hm, hseq⟩, htarget⟩

/-- A sorted layer that answers as the map, from a key on. -/
theorem lists_layer {l : List (Bytes × TableValue)} (hs : KeySorted l)
    (hm : ∀ k, l.lookup k = m k) (sequence : Sequence) (least : Bytes) :
    Lists m sequence least ((l.dropWhile (fun b => b.1 < least)).map (toEntry sequence)) := by
  have hasc : Ascending Prod.fst l := hs
  refine ⟨ascending_map_toEntry (hasc.dropBelow least) sequence, ?_⟩
  intro e
  have hmem : ∀ kv, kv ∈ l.dropWhile (fun b => b.1 < least) ↔ kv ∈ l ∧ least ≤ kv.1 :=
    hasc.mem_dropBelow least
  rw [List.mem_map]
  constructor
  · rintro ⟨kv, hkv, rfl⟩
    obtain ⟨hl, hle⟩ := (hmem kv).mp hkv
    refine ⟨hle, ?_, rfl⟩
    rw [← hm]
    exact (lookup_eq_some_iff hs).mpr hl
  · rintro ⟨hle, hlook, hseq⟩
    rw [← hm] at hlook
    refine ⟨(e.key, ⟨e.type, e.value⟩), ?_, ?_⟩
    · exact (hmem _).mpr ⟨(lookup_eq_some_iff hs).mp hlook, hle⟩
    · rw [toEntry, ← hseq]

/-- **`Seek` after any calls**, over a copy of what the map has. -/
theorem seek_lists {it : SkipListIterator} (hat : KvCursor.At it out out)
    (h : Lists m sequence least out) (moves : List Move) (target : Bytes) :
    ∃ it₁ it₂ rest, moves.foldlM KvIterator.move it = .ok it₁
      ∧ KvIterator.seek it₁ target = .ok it₂ ∧ it₂.index = halved it₁ target
      ∧ Streams it₂ rest ∧ Lists m sequence (max least target) rest := by
  obtain ⟨it₁, rest₁, hrun, hat₁⟩ := moves_at moves hat
  obtain ⟨it₂, hseek, hat₂⟩ := KvCursor.seek target hat₁
  refine ⟨it₁, it₂, _, hrun, hseek, ?_, streams_of_at _ hat₂, h.dropBelow target⟩
  -- the copy is the same after the calls, and the search relies on its order only
  obtain ⟨hasc, hcopy, -⟩ := hat₁
  rw [halved_eq (hcopy ▸ hasc), ← Except.ok.inj hseek]

end Map

/-! ## Over a reachable list -/

/-- **The memtable's iterator is exact.** -/
theorem memtable_iterator_exact {maxLevel : Nat} (hmax : 1 ≤ maxLevel) (draws : Nat → Bool)
    (ops : List (Op Bytes TableValue)) :
    ∃ list, ops.foldlM perform (SkipList.empty maxLevel draws) = .ok list
      ∧ ∀ (sequence : Sequence) (lowerBound : Bytes),
          ∃ it, SkipListIterator.new list sequence lowerBound = .ok it
            ∧ Streams it it.entries
            ∧ Lists (ops.foldl update (fun _ => none)) sequence lowerBound it.entries
            ∧ ∀ (moves : List Move) (target : Bytes),
                ∃ it₁ it₂ out, moves.foldlM KvIterator.move it = .ok it₁
                  ∧ KvIterator.seek it₁ target = .ok it₂ ∧ it₂.index = halved it₁ target
                  ∧ Streams it₂ out
                  ∧ Lists (ops.foldl update (fun _ => none)) sequence (max lowerBound target)
                      out := by
  obtain ⟨ts, hs, hcont⟩ := models_empty (K := Bytes) (V := TableValue) hmax draws
  obtain ⟨list, ts', hrun, hs', hm⟩ := foldlM_perform ops hs
    (m := fun _ => none) (fun k => by rw [hcont]; rfl)
  refine ⟨list, hrun, ?_⟩
  intro sequence lowerBound
  obtain ⟨it, hnew, hat⟩ := skipListIterator_at ⟨ts', hs', rfl⟩ sequence lowerBound
  have hlists := lists_layer hs'.keySorted hm sequence lowerBound
  have hcopy : it.entries = _ := hat.2.1
  rw [← hcopy] at hat hlists
  exact ⟨it, hnew, streams_of_at _ hat, hlists, seek_lists hat hlists⟩

/-- A value and a tombstone. -/
theorem memtable_iterator_exact_two :
    ∃ list, [Op.put [3] ⟨.kTypeDeletion, []⟩, .put [1] ⟨.kTypeValue, [10]⟩].foldlM perform
        (SkipList.empty 2 (fun i => i % 3 = 0)) = .ok list
      ∧ ∀ (sequence : Sequence) (lowerBound : Bytes),
          ∃ it, SkipListIterator.new list sequence lowerBound = .ok it
            ∧ Streams it it.entries
            ∧ Lists ([Op.put [3] ⟨.kTypeDeletion, []⟩, .put [1] ⟨.kTypeValue, [10]⟩].foldl update
                (fun _ => none)) sequence lowerBound it.entries
            ∧ ∀ (moves : List Move) (target : Bytes),
                ∃ it₁ it₂ out, moves.foldlM KvIterator.move it = .ok it₁
                  ∧ KvIterator.seek it₁ target = .ok it₂ ∧ it₂.index = halved it₁ target
                  ∧ Streams it₂ out
                  ∧ Lists ([Op.put [3] ⟨.kTypeDeletion, []⟩, .put [1] ⟨.kTypeValue, [10]⟩].foldl
                      update (fun _ => none)) sequence (max lowerBound target) out :=
  memtable_iterator_exact (by decide) _ _

end KvMemtableIterator
