import LightKV.KvScanProofs

/-! # Tables that are not in order

    A swap puts the merged table in front of tables that are newer than it.  The
    merge of a scan goes by sequence numbers and not by the list, so what a scan
    shows is the store with its tables put in order (`scan_recent`), whatever
    point reads find. -/

namespace KvRecency

open KvBytes KvCompaction KvEngine KvIterators KvMerging KvScan KvSession KvStore KvTable
open KvTableIterator KWayMerge Overlay

/-- The store with its tables in another order. -/
def Store.reorder (s : Store) (ts : List Table) : Store := { s with tables := ts }

/-- **`ts` are the store's tables in order**, newest first. -/
structure Recent (s : Store) (ts : List Table) : Prop where
  perm : ts.Perm s.tables
  tidy : Tidy (Store.reorder s ts)

variable {s : Store} {ts : List Table}

theorem scanLayers_perm (h : Recent s ts) :
    (scanLayers s).Perm (scanLayers (Store.reorder s ts)) :=
  (h.perm.symm.map _).cons _

/-- What tables merge to does not depend on their order. -/
theorem merged_of_perm {old us : List Table} {m : List Entry} (h : Merged old m)
    (hp : old.Perm us) : Merged us m := by
  obtain ⟨out, hmerge, rfl⟩ := h
  exact ⟨out, hmerge.of_perm (hp.map _), rfl⟩

/-- **The iterator of a store** goes through what is live in the store put in order. -/
theorem newIterator_recent {e : KVEngine} (h : Rep e s) (hr : Recent s ts) :
    ∃ it all, e.newIterator = .ok it ∧ KvCursor.At it all all
      ∧ IsMerge IteratorEntry.key IteratorEntry.sequence (scanLayers s) all
      ∧ ∀ k v, (∃ x ∈ all, x.key = k ∧ x.type ≠ .kTypeDeletion ∧ x.value = v)
        ↔ visible ((Store.reorder s ts).view k) = some v := by
  obtain ⟨it, all, hnew, hat, hmerge⟩ := newIterator_at h.mem
    (h.tables.imp fun _ _ => searches_of_readerOf)
    ((untied_scanLayers hr.tidy).of_perm (scanLayers_perm hr).symm)
  have hsorted : ∀ t ∈ ts, KeySorted t.entries :=
    fun t ht => (good_of_rep h t (hr.perm.mem_iff.mp ht)).1
  exact ⟨it, all, hnew, hat, hmerge, live_iff_visible hr.tidy h.mem.keySorted hsorted
    (hmerge.of_perm (scanLayers_perm hr))⟩

/-- **A scan of a store** gives the live part of its range in the store put in order. -/
theorem scan_recent {e : KVEngine} (h : Rep e s) (hr : Recent s ts) (startKey endKey : Bytes) :
    ∃ out, scan e startKey endKey = .ok out ∧ KeySorted out
      ∧ ∀ k v, (k, v) ∈ out
        ↔ startKey ≤ k ∧ k < endKey ∧ visible ((Store.reorder s ts).view k) = some v := by
  obtain ⟨it, all, hnew, hat, -, hlive⟩ := newIterator_recent h hr
  exact scan_of_iterator hnew hat hlive startKey endKey

end KvRecency
