import LightKV.KvSkipListProofs
import LightKV.KWayMergeProofs

/-! # Iterators

    `class Iterator` and the one over the memtable.  `Streams it out` says what
    a client that calls `Next` to the end reads; `KvCursor` is what a lawful
    iterator promises on top: it stands somewhere in a fixed ascending list,
    `Next` moves it by one and `Seek` moves it to the first entry at or above a
    key.  Every loop over an iterator is proved once, against these two, and so
    is every run of a client's calls (`moves_at`). -/

namespace KvIterators

open KvBytes KvSkipList KWayMerge Overlay

/-- Sequence numbers; `SIZE_MAX`, the one of the memtable, is `⊤`. -/
abbrev Sequence := WithTop Nat

/-- `IteratorEntry`. -/
structure IteratorEntry where
  key : Bytes := []
  value : Bytes := []
  type : ValueType := .kTypeValue
  sequence : Sequence := 0
  deriving DecidableEq

/-- `class Iterator`.  `bound` is not in the source: it bounds the number of
    entries to come, as fuel for the loops over an iterator. -/
class KvIterator (I : Type) where
  valid : I → Bool
  next : I → Except Fault I
  entry : I → IteratorEntry
  seek : I → Bytes → Except Fault I
  bound : I → Nat

/-- Calling `Next` to the end reads `out`. -/
inductive Streams {I : Type} [KvIterator I] : I → List IteratorEntry → Prop
  | done {it : I} (h : KvIterator.valid it = false) : Streams it []
  | more {it it' : I} {out : List IteratorEntry} (h : KvIterator.valid it = true)
      (hn : KvIterator.next it = .ok it') (hs : Streams it' out) :
      Streams it (KvIterator.entry it :: out)

/-- There is one such list at most. -/
theorem Streams.unique {I : Type} [KvIterator I] {it : I} {out : List IteratorEntry}
    (h : Streams it out) : ∀ {out' : List IteratorEntry}, Streams it out' → out' = out := by
  induction h with
  | @done it hv =>
      intro out' h'
      cases h' with
      | done _ => rfl
      | more hv' _ _ => exact absurd (hv.symm.trans hv') Bool.false_ne_true
  | @more it it₁ out hv hn _ ih =>
      intro out' h'
      cases h' with
      | done hv' => exact absurd (hv'.symm.trans hv) Bool.false_ne_true
      | more _ hn' hs' =>
          obtain rfl := Except.ok.inj (hn.symm.trans hn')
          rw [ih hs']

/-- Calling `Next` reads these entries first. -/
inductive Leads {I : Type} [KvIterator I] : I → List IteratorEntry → Prop
  | last {it : I} (h : KvIterator.valid it = true) : Leads it [KvIterator.entry it]
  | more {it it' : I} {out : List IteratorEntry} (h : KvIterator.valid it = true)
      (hn : KvIterator.next it = .ok it') (hs : Leads it' out) :
      Leads it (KvIterator.entry it :: out)

/-- The iterator stands at the first of them. -/
theorem Leads.head {I : Type} [KvIterator I] {it : I} {x : IteratorEntry}
    {out : List IteratorEntry} (h : Leads it (x :: out)) :
    KvIterator.valid it = true ∧ KvIterator.entry it = x := by
  cases h with
  | last hv => exact ⟨hv, rfl⟩
  | more hv _ _ => exact ⟨hv, rfl⟩

/-- And has the others to come. -/
theorem Leads.tail {I : Type} [KvIterator I] {it : I} {x y : IteratorEntry}
    {out : List IteratorEntry} (h : Leads it (x :: y :: out)) :
    ∃ it', KvIterator.next it = .ok it' ∧ Leads it' (y :: out) := by
  cases h with
  | more _ hn hs => exact ⟨_, hn, hs⟩

/-- When they ascend, it stands above what comes in front of them. -/
theorem Leads.next_ne {I : Type} [KvIterator I] {it : I} {out : List IteratorEntry}
    (h : Leads it out) {x : IteratorEntry} (hasc : Ascending IteratorEntry.key (x :: out)) :
    (KvIterator.entry it).key ≠ x.key := by
  cases h with
  | last _ => exact (hasc.head_lt _ List.mem_cons_self).ne'
  | more _ _ _ => exact (hasc.head_lt _ List.mem_cons_self).ne'

/-- A lawful iterator: `At it all rest` says that `it` goes through `all` and has
    `rest` still to come. -/
class KvCursor (I : Type) [KvIterator I] where
  At : I → List IteratorEntry → List IteratorEntry → Prop
  ascending : ∀ {it all rest}, At it all rest → Ascending IteratorEntry.key all
  valid : ∀ {it all rest}, At it all rest → KvIterator.valid it = !rest.isEmpty
  entry : ∀ {it all e rest}, At it all (e :: rest) → KvIterator.entry it = e
  next : ∀ {it all e rest}, At it all (e :: rest) →
    ∃ it', KvIterator.next it = .ok it' ∧ At it' all rest
  stay : ∀ {it all}, At it all [] → ∃ it', KvIterator.next it = .ok it' ∧ At it' all []
  seek : ∀ {it all rest} (t : Bytes), At it all rest →
    ∃ it', KvIterator.seek it t = .ok it' ∧ At it' all (dropBelow IteratorEntry.key t all)
  suffix : ∀ {it all rest}, At it all rest → rest <:+ all
  bound : ∀ {it all rest}, At it all rest → rest.length ≤ KvIterator.bound it

open KvCursor in
/-- A lawful iterator streams what it has still to come. -/
theorem streams_of_at {I : Type} [KvIterator I] [KvCursor I] :
    ∀ (rest : List IteratorEntry) {it : I} {all : List IteratorEntry},
      At it all rest → Streams it rest := by
  intro rest
  induction rest with
  | nil =>
      intro it all h
      exact Streams.done (valid h)
  | cons e rest ih =>
      intro it all h
      obtain ⟨it', hrun, h'⟩ := next h
      have hs := Streams.more (valid h) hrun (ih h')
      rwa [entry h] at hs

/-! ## A client's calls -/

/-- What a client may call between two reads. -/
inductive Move
  | next
  | seek (target : Bytes)

/-- The iterator after one of these calls. -/
def KvIterator.move {I : Type} [KvIterator I] (it : I) : Move → Except Fault I
  | .next => KvIterator.next it
  | .seek target => KvIterator.seek it target

open KvCursor in
/-- One call leaves the iterator somewhere in the same list. -/
theorem move_at {I : Type} [KvIterator I] [KvCursor I] {it : I}
    {all rest : List IteratorEntry} (h : At it all rest) (move : Move) :
    ∃ it' rest', KvIterator.move it move = .ok it' ∧ At it' all rest' := by
  cases move with
  | next =>
      cases rest with
      | nil =>
          obtain ⟨it', hrun, h'⟩ := stay h
          exact ⟨it', [], hrun, h'⟩
      | cons e rest =>
          obtain ⟨it', hrun, h'⟩ := next h
          exact ⟨it', rest, hrun, h'⟩
  | seek target =>
      obtain ⟨it', hrun, h'⟩ := seek target h
      exact ⟨it', _, hrun, h'⟩

open KvCursor in
/-- **Any run of calls** leaves the iterator somewhere in the same list. -/
theorem moves_at {I : Type} [KvIterator I] [KvCursor I] (moves : List Move) :
    ∀ {it : I} {all rest : List IteratorEntry}, At it all rest →
      ∃ it' rest', moves.foldlM KvIterator.move it = .ok it' ∧ At it' all rest' := by
  induction moves with
  | nil =>
      intro it all rest h
      exact ⟨it, rest, rfl, h⟩
  | cons move moves ih =>
      intro it all rest h
      obtain ⟨it₁, rest₁, hmove, h₁⟩ := move_at h move
      obtain ⟨it₂, rest₂, hrun, h₂⟩ := ih h₁
      refine ⟨it₂, rest₂, ?_, h₂⟩
      rw [List.foldlM_cons, hmove]
      exact hrun

open KvCursor in
/-- **`Seek` after any run of calls** streams the entries at or above its target. -/
theorem seek_after_moves {I : Type} [KvIterator I] [KvCursor I] {it : I}
    {all rest : List IteratorEntry} (h : At it all rest) (moves : List Move) (target : Bytes) :
    ∃ it₁ it₂, moves.foldlM KvIterator.move it = .ok it₁
      ∧ KvIterator.seek it₁ target = .ok it₂
      ∧ Streams it₂ (dropBelow IteratorEntry.key target all) := by
  obtain ⟨it₁, rest₁, hrun, h₁⟩ := moves_at moves h
  obtain ⟨it₂, hseek, h₂⟩ := seek target h₁
  exact ⟨it₁, it₂, hrun, hseek, streams_of_at _ h₂⟩

/-! ## The memtable's iterator -/

/-- `SkipListIterator`. -/
structure SkipListIterator where
  entries : List IteratorEntry
  index : Nat
  sequence : Sequence

/-- An entry of a layer, as an iterator with that sequence gives it. -/
def toEntry (sequence : Sequence) (kv : Bytes × TableValue) : IteratorEntry :=
  ⟨kv.1, kv.2.value, kv.2.type, sequence⟩

/-- The constructor: the snapshot of the list from `lowerBound` on. -/
def SkipListIterator.new (list : SkipList Bytes TableValue) (sequence : Sequence)
    (lowerBound : Bytes) : Except Fault SkipListIterator := do
  let node ← list.findGreaterOrEqual lowerBound
  let kvs ← list.walk list.fresh node
  pure ⟨kvs.map (toEntry sequence), 0, sequence⟩

/-- `Valid`. -/
def SkipListIterator.valid (it : SkipListIterator) : Bool := it.index < it.entries.length

/-- `Next`. -/
def SkipListIterator.next (it : SkipListIterator) : SkipListIterator :=
  if it.valid then { it with index := it.index + 1 } else it

/-- `entry`. -/
def SkipListIterator.entry (it : SkipListIterator) : IteratorEntry :=
  match it.entries[it.index]? with
  | some e => e
  | none => {}

/-- `Seek`: `std::lower_bound` over the snapshot. -/
def SkipListIterator.seek (it : SkipListIterator) (target : Bytes) : SkipListIterator :=
  { it with index := it.entries.findIdx (fun e => !(e.key < target)) }

instance : KvIterator SkipListIterator where
  valid := SkipListIterator.valid
  next it := .ok it.next
  entry := SkipListIterator.entry
  seek it t := .ok (it.seek t)
  bound it := it.entries.length

theorem drop_findIdx (l : List IteratorEntry) (t : Bytes) :
    l.drop (l.findIdx (fun e => !(e.key < t))) = dropBelow IteratorEntry.key t l := by
  induction l with
  | nil => rfl
  | cons e l ih =>
      rw [List.findIdx_cons, dropBelow]
      by_cases h : e.key < t
      · simp only [h, decide_true, Bool.not_true, cond_false, List.drop_succ_cons,
          List.dropWhile_cons_of_pos]
        exact ih
      · simp [h]

instance : KvCursor SkipListIterator where
  At it all rest := Ascending IteratorEntry.key all ∧ it.entries = all ∧ all.drop it.index = rest
  ascending h := h.1
  valid := by
    rintro it all rest ⟨-, rfl, rfl⟩
    show it.valid = _
    rw [SkipListIterator.valid]
    by_cases h : it.index < it.entries.length
    · simp [h]
    · simp [h, Nat.le_of_not_lt h]
  entry := by
    rintro it all e rest ⟨-, rfl, hrest⟩
    show it.entry = e
    have hget : it.entries[it.index]? = some e := by
      rw [← List.head?_drop, hrest]
      rfl
    rw [SkipListIterator.entry, hget]
  next := by
    rintro it all e rest ⟨hasc, rfl, hrest⟩
    have hlt : it.index < it.entries.length := by
      by_contra hc
      rw [List.drop_eq_nil_of_le (Nat.le_of_not_lt hc)] at hrest
      cases hrest
    refine ⟨{ it with index := it.index + 1 }, ?_, hasc, rfl, ?_⟩
    · show Except.ok it.next = _
      rw [SkipListIterator.next, SkipListIterator.valid, if_pos (by simpa using hlt)]
    · show it.entries.drop (it.index + 1) = rest
      rw [← List.tail_drop, hrest]
      rfl
  stay := by
    rintro it all ⟨hasc, rfl, hrest⟩
    have hge : ¬ it.index < it.entries.length := not_lt.mpr (List.drop_eq_nil_iff.mp hrest)
    refine ⟨it, ?_, hasc, rfl, hrest⟩
    -- at its end the iterator does not move
    show Except.ok it.next = _
    rw [SkipListIterator.next, SkipListIterator.valid, if_neg (by simpa using hge)]
  seek := by
    rintro it all rest t ⟨hasc, rfl, -⟩
    exact ⟨it.seek t, rfl, hasc, rfl, drop_findIdx it.entries t⟩
  suffix := by
    rintro it all rest ⟨-, rfl, rfl⟩
    exact List.drop_suffix _ _
  bound := by
    rintro it all rest ⟨-, rfl, rfl⟩
    show _ ≤ it.entries.length
    rw [List.length_drop]
    omega

/-- A sorted layer gives an ascending list of entries. -/
theorem ascending_map_toEntry {l : List (Bytes × TableValue)} (h : KeySorted l)
    (sequence : Sequence) : Ascending IteratorEntry.key (l.map (toEntry sequence)) := by
  rw [Ascending, List.pairwise_map]
  exact h

open KvCursor in
/-- **The iterator over the memtable** goes through its entries from the lower
    bound on. -/
theorem skipListIterator_at {list : SkipList Bytes TableValue} {l : List (Bytes × TableValue)}
    (h : Models list l) (sequence : Sequence) (lowerBound : Bytes) :
    ∃ it, SkipListIterator.new list sequence lowerBound = .ok it
      ∧ At it ((l.dropWhile (fun b => b.1 < lowerBound)).map (toEntry sequence))
          ((l.dropWhile (fun b => b.1 < lowerBound)).map (toEntry sequence)) := by
  have hwalk := models_walk h lowerBound
  obtain ⟨node, hnode, hkvs⟩ := bind_eq_ok.mp hwalk
  refine ⟨⟨(l.dropWhile (fun b => b.1 < lowerBound)).map (toEntry sequence), 0, sequence⟩,
    ?_, ?_, rfl, rfl⟩
  · simp only [SkipListIterator.new, hnode, ok_bind, hkvs]
    rfl
  · have hs : KeySorted (l.dropWhile (fun b => b.1 < lowerBound)) :=
      List.Pairwise.sublist (List.dropWhile_sublist _) h.keySorted
    exact ascending_map_toEntry hs sequence

end KvIterators
