import LightKV.KvIteratorProofs
import Mathlib.Data.List.Forall2

/-! # The merging iterator

    `MergingIterator` keeps one heap item per child that is not at its end, pops
    the least, and advances every child that stands at the popped key.  The
    first part of the file is the code of `iterator.cpp`; the second shows that
    a merging iterator over lawful children streams a merge of what they have
    still to come, and, when no two children hold a key with one sequence
    number, is a lawful iterator itself, so that merges nest. -/

namespace KvMerging

open KvBytes KvIterators KWayMerge

variable {I : Type} [KvIterator I]

/-! ## The code -/

/-- `HeapItem`. -/
structure HeapItem where
  childIndex : Nat
  entry : IteratorEntry

/-- `HeapItem::operator>`. -/
def HeapItem.gt (a b : HeapItem) : Bool :=
  if a.entry.key ≠ b.entry.key then decide (a.entry.key > b.entry.key)
  else decide (a.entry.sequence < b.entry.sequence)

/-- `min_heap_.push`.  `top` is the first item.  The standard leaves open which of
    several equal items leaves first; here it is the one that came first. -/
def heapPush (x : HeapItem) : List HeapItem → List HeapItem
  | [] => [x]
  | y :: h => if y.gt x then x :: y :: h else y :: heapPush x h

/-- `MergingIterator`. -/
structure MergingIterator (I : Type) where
  children : List I
  minHeap : List HeapItem
  valid : Bool
  currentEntry : IteratorEntry

/-- `if (children_[i]->Valid()) min_heap_.push(HeapItem{i, children_[i]->entry()})`. -/
def pushChild (i : Nat) (child : I) (h : List HeapItem) : List HeapItem :=
  if KvIterator.valid child then heapPush ⟨i, KvIterator.entry child⟩ h else h

/-- The loop of the constructor. -/
def primeHeap : Nat → List I → List HeapItem → List HeapItem
  | _, [], h => h
  | i, c :: cs, h => primeHeap (i + 1) cs (pushChild i c h)

/-- Enough turns for every entry the children have still to give. -/
def MergingIterator.fuel (m : MergingIterator I) : Nat :=
  (m.children.map KvIterator.bound).sum + 1

/-- Pop the top of the heap, advance its child, and push the child's next entry:
    the step that `Next` and `FindMin` repeat. -/
def MergingIterator.popAdvance (m : MergingIterator I) : Except Fault (MergingIterator I) :=
  match m.minHeap with
  | [] => pure m
  | top :: h =>
      match m.children[top.childIndex]? with
      | none => .error .outOfBounds
      | some c => do
          let c ← KvIterator.next c
          pure { m with
            children := m.children.set top.childIndex c
            minHeap := pushChild top.childIndex c h }

/-- `while (!min_heap_.empty() && min_heap_.top().entry.key == key)`. -/
def MergingIterator.popKey (key : Bytes) :
    Nat → MergingIterator I → Except Fault (MergingIterator I)
  | 0, _ => .error .noProgress
  | fuel + 1, m =>
      match m.minHeap with
      | [] => pure m
      | top :: _ =>
          if top.entry.key = key then do
            let m ← m.popAdvance
            MergingIterator.popKey key fuel m
          else pure m

/-- `FindMin`. -/
def MergingIterator.findMin (m : MergingIterator I) : Except Fault (MergingIterator I) :=
  match m.minHeap with
  | [] => pure { m with valid := false }
  | top :: _ => do
      let m := { m with currentEntry := top.entry, valid := true }
      let m ← m.popAdvance
      MergingIterator.popKey top.entry.key m.fuel m

/-- The constructor. -/
def MergingIterator.new (children : List I) : Except Fault (MergingIterator I) :=
  MergingIterator.findMin ⟨children, primeHeap 0 children [], false, {}⟩

/-- `Next`. -/
def MergingIterator.next (m : MergingIterator I) : Except Fault (MergingIterator I) :=
  if !m.valid || m.minHeap.isEmpty then pure { m with valid := false }
  else do
    let m ← MergingIterator.popKey m.currentEntry.key m.fuel m
    m.findMin

/-- The loop of `Seek` over the children. -/
def seekChildren (target : Bytes) :
    Nat → List I → List HeapItem → Except Fault (List I × List HeapItem)
  | _, [], h => pure ([], h)
  | i, c :: cs, h => do
      let c ← KvIterator.seek c target
      let (cs, h) ← seekChildren target (i + 1) cs (pushChild i c h)
      pure (c :: cs, h)

/-- `Seek`. -/
def MergingIterator.seek (m : MergingIterator I) (target : Bytes) :
    Except Fault (MergingIterator I) := do
  let (children, h) ← seekChildren target 0 m.children []
  MergingIterator.findMin { m with children := children, minHeap := h }

instance : KvIterator (MergingIterator I) where
  valid := MergingIterator.valid
  next := MergingIterator.next
  entry := MergingIterator.currentEntry
  seek := MergingIterator.seek
  bound := MergingIterator.fuel

/-! ## The heap -/

/-- `operator>` fails on items in heap order. -/
theorem gt_eq_false {a b : HeapItem} : a.gt b = false ↔ a.entry.key < b.entry.key
    ∨ a.entry.key = b.entry.key ∧ b.entry.sequence ≤ a.entry.sequence := by
  unfold HeapItem.gt
  by_cases h : a.entry.key = b.entry.key
  · simp [h]
  · simp only [ne_eq, h, not_false_eq_true, if_true, decide_eq_false_iff_not, false_and, or_false]
    exact ⟨fun hle => lt_of_le_of_ne (not_lt.mp hle) h, fun hlt => not_lt.mpr hlt.le⟩

theorem gt_total {a b : HeapItem} (h : a.gt b = true) : b.gt a = false := by
  refine gt_eq_false.mpr ?_
  by_contra hc
  have hab : a.gt b = false := by
    refine gt_eq_false.mpr ?_
    push Not at hc
    rcases hc.1.lt_or_eq with hlt | heq
    · exact Or.inl hlt
    · exact Or.inr ⟨heq, (hc.2 heq.symm).le⟩
  rw [h] at hab
  cases hab

theorem gt_trans {a b c : HeapItem} (h1 : a.gt b = false) (h2 : b.gt c = false) :
    a.gt c = false := by
  refine gt_eq_false.mpr ?_
  rcases gt_eq_false.mp h1 with h1 | ⟨h1, h1'⟩ <;> rcases gt_eq_false.mp h2 with h2 | ⟨h2, h2'⟩
  · exact Or.inl (h1.trans h2)
  · exact Or.inl (h2 ▸ h1)
  · exact Or.inl (h1 ▸ h2)
  · exact Or.inr ⟨h1.trans h2, h2'.trans h1'⟩

theorem heapPush_perm (x : HeapItem) (h : List HeapItem) : (heapPush x h).Perm (x :: h) := by
  induction h with
  | nil => exact List.Perm.refl _
  | cons y h ih =>
      rw [heapPush]
      split
      · exact List.Perm.refl _
      · exact (ih.cons y).trans (List.Perm.swap _ _ _)

/-- A push keeps the heap in order. -/
theorem heapPush_ordered {x : HeapItem} {h : List HeapItem}
    (ho : h.Pairwise (fun a b => a.gt b = false)) :
    (heapPush x h).Pairwise (fun a b => a.gt b = false) := by
  induction h with
  | nil => exact List.pairwise_singleton _ _
  | cons y h ih =>
      obtain ⟨hy, ho'⟩ := List.pairwise_cons.mp ho
      rw [heapPush]
      by_cases hgt : y.gt x = true
      · rw [if_pos hgt]
        refine List.pairwise_cons.mpr ⟨?_, ho⟩
        intro b hb
        have hxy := gt_total hgt
        rcases List.mem_cons.mp hb with heq | hb'
        · rw [heq]
          exact hxy
        · exact gt_trans hxy (hy b hb')
      · rw [if_neg hgt]
        refine List.pairwise_cons.mpr ⟨?_, ih ho'⟩
        intro b hb
        rcases List.mem_cons.mp ((heapPush_perm x h).mem_iff.mp hb) with heq | hb'
        · rw [heq]
          simpa using hgt
        · exact hy b hb'

/-- The heap holds the head of what each child has still to come. -/
structure HeapOf (h : List HeapItem) (rests : List (List IteratorEntry)) : Prop where
  ordered : h.Pairwise (fun a b => a.gt b = false)
  items : ∀ x, x ∈ h ↔ ∃ r, rests[x.childIndex]? = some (x.entry :: r)
  nodup : (h.map HeapItem.childIndex).Nodup

/-- Push the head of a child's rest, if it has one. -/
def pushRest (i : Nat) (rest : List IteratorEntry) (h : List HeapItem) : List HeapItem :=
  match rest with
  | [] => h
  | e :: _ => heapPush ⟨i, e⟩ h

theorem heapOf_nil : HeapOf [] [] := ⟨List.Pairwise.nil, by simp, List.nodup_nil⟩

/-- Putting one more head into a heap that holds none for that child. -/
theorem heapOf_pushRest {h : List HeapItem} {rests : List (List IteratorEntry)} {i : Nat}
    {rest : List IteratorEntry} (hi : rests[i]? = some rest)
    (ordered : h.Pairwise (fun a b => a.gt b = false))
    (items : ∀ x, x ∈ h ↔ x.childIndex ≠ i ∧ ∃ r, rests[x.childIndex]? = some (x.entry :: r))
    (nodup : (h.map HeapItem.childIndex).Nodup) : HeapOf (pushRest i rest h) rests := by
  cases rest with
  | nil =>
      refine ⟨ordered, ?_, nodup⟩
      intro x
      show x ∈ h ↔ _
      rw [items]
      refine ⟨fun hx => hx.2, fun hx => ⟨?_, hx⟩⟩
      rintro rfl
      obtain ⟨r, hr⟩ := hx
      rw [hi] at hr
      cases Option.some.inj hr
  | cons e rest =>
      refine ⟨heapPush_ordered ordered, ?_, ?_⟩
      · intro x
        show x ∈ heapPush ⟨i, e⟩ h ↔ _
        rw [(heapPush_perm _ h).mem_iff, List.mem_cons, items]
        constructor
        · rintro (rfl | hx)
          · exact ⟨rest, hi⟩
          · exact hx.2
        · rintro ⟨r, hr⟩
          by_cases hxi : x.childIndex = i
          · left
            rw [hxi, hi] at hr
            have he : e = x.entry := (List.cons.inj (Option.some.inj hr)).1
            obtain ⟨j, f⟩ := x
            subst hxi
            subst he
            rfl
          · exact Or.inr ⟨hxi, r, hr⟩
      · show ((heapPush ⟨i, e⟩ h).map HeapItem.childIndex).Nodup
        -- the child had no item in the heap
        have hperm := (heapPush_perm ⟨i, e⟩ h).map HeapItem.childIndex
        rw [List.map_cons] at hperm
        refine hperm.nodup_iff.mpr (List.nodup_cons.mpr ⟨?_, nodup⟩)
        intro hmem
        obtain ⟨y, hy, hyi⟩ := List.mem_map.mp hmem
        exact ((items y).mp hy).1 hyi

/-- A child added behind the others. -/
theorem HeapOf.append {h : List HeapItem} {rests : List (List IteratorEntry)}
    (ho : HeapOf h rests) (rest : List IteratorEntry) :
    HeapOf (pushRest rests.length rest h) (rests ++ [rest]) := by
  refine heapOf_pushRest (by simp) ho.ordered ?_ ho.nodup
  intro x
  rw [ho.items]
  constructor
  · rintro ⟨r, hr⟩
    have hlt : x.childIndex < rests.length := (List.getElem?_eq_some_iff.mp hr).1
    exact ⟨hlt.ne, r, by rw [List.getElem?_append_left hlt]; exact hr⟩
  · rintro ⟨hne, r, hr⟩
    have hlt : x.childIndex < rests.length := by
      have := (List.getElem?_eq_some_iff.mp hr).1
      rw [List.length_append, List.length_singleton] at this
      omega
    exact ⟨r, by rw [List.getElem?_append_left hlt] at hr; exact hr⟩

/-- The top of the heap stands for its child's next entry; popping it and
    pushing the one behind it follows the child. -/
theorem HeapOf.advance {x : HeapItem} {h : List HeapItem} {rests : List (List IteratorEntry)}
    (ho : HeapOf (x :: h) rests) :
    ∃ r, rests[x.childIndex]? = some (x.entry :: r)
      ∧ HeapOf (pushRest x.childIndex r h) (rests.set x.childIndex r) := by
  obtain ⟨r, hr⟩ := (ho.items x).mp List.mem_cons_self
  have hlt : x.childIndex < rests.length := (List.getElem?_eq_some_iff.mp hr).1
  have hnd := List.nodup_cons.mp ho.nodup
  refine ⟨r, hr, heapOf_pushRest (List.getElem?_set_self hlt)
    (List.pairwise_cons.mp ho.ordered).2 ?_ hnd.2⟩
  intro y
  constructor
  · intro hy
    have hne : y.childIndex ≠ x.childIndex := by
      intro heq
      exact hnd.1 (heq ▸ List.mem_map_of_mem hy)
    obtain ⟨r', hr'⟩ := (ho.items y).mp (List.mem_cons_of_mem _ hy)
    exact ⟨hne, r', by rw [List.getElem?_set_ne hne.symm]; exact hr'⟩
  · rintro ⟨hne, r', hr'⟩
    rw [List.getElem?_set_ne hne.symm] at hr'
    rcases List.mem_cons.mp ((ho.items y).mpr ⟨r', hr'⟩) with heq | hy
    · exact absurd (congrArg HeapItem.childIndex heq) hne
    · exact hy

/-- An empty heap: every child is at its end. -/
theorem HeapOf.nil_of_empty {rests : List (List IteratorEntry)} (ho : HeapOf [] rests) :
    ∀ l ∈ rests, l = [] := by
  intro l hl
  cases l with
  | nil => rfl
  | cons e r =>
      obtain ⟨i, hi⟩ := List.mem_iff_getElem?.mp hl
      cases (ho.items ⟨i, e⟩).mpr ⟨r, hi⟩

/-- **The top of the heap** is a least entry, of the highest sequence number
    among those with its key. -/
theorem HeapOf.top {x : HeapItem} {h : List HeapItem} {rests : List (List IteratorEntry)}
    (ho : HeapOf (x :: h) rests) (hasc : ∀ l ∈ rests, Ascending IteratorEntry.key l) :
    ∀ l ∈ rests, ∀ a ∈ l, x.entry.key < a.key
      ∨ x.entry.key = a.key ∧ a.sequence ≤ x.entry.sequence := by
  intro l hl a ha
  obtain ⟨i, hi⟩ := List.mem_iff_getElem?.mp hl
  cases l with
  | nil => cases ha
  | cons e r =>
      have hmem := (ho.items ⟨i, e⟩).mpr ⟨r, hi⟩
      have hhead : x.entry.key < e.key ∨ x.entry.key = e.key ∧ e.sequence ≤ x.entry.sequence := by
        rcases List.mem_cons.mp hmem with heq | hmem'
        · rw [← heq]
          exact Or.inr ⟨rfl, le_refl _⟩
        · exact gt_eq_false.mp ((List.pairwise_cons.mp ho.ordered).1 _ hmem')
      rcases List.mem_cons.mp ha with heq | ha'
      · rw [heq]
        exact hhead
      · have hea := (hasc _ hl).head_lt a ha'
        rcases hhead with hlt | ⟨heq, -⟩
        · exact Or.inl (hlt.trans hea)
        · exact Or.inl (heq ▸ hea)

/-! ## Runs over lawful children -/

section Runs

variable [KvCursor I]

/-- What a child goes through, and what of it is still to come. -/
abbrev Ghost := List IteratorEntry × List IteratorEntry

/-- What the children have still to come. -/
def rests (gs : List Ghost) : List (List IteratorEntry) := gs.map Prod.snd

/-- What the children go through. -/
def alls (gs : List Ghost) : List (List IteratorEntry) := gs.map Prod.fst

/-- Every child is moved behind a key. -/
def passKey (k : Bytes) (gs : List Ghost) : List Ghost :=
  gs.map (fun g => (g.1, dropThrough IteratorEntry.key k g.2))

theorem rests_passKey (k : Bytes) (gs : List Ghost) :
    rests (passKey k gs) = (rests gs).map (dropThrough IteratorEntry.key k) := by
  simp [rests, passKey]

theorem alls_passKey (k : Bytes) (gs : List Ghost) : alls (passKey k gs) = alls gs := by
  simp [alls, passKey]

/-- The children stand where `gs` says, and the heap holds their heads. -/
structure Opened (m : MergingIterator I) (gs : List Ghost) : Prop where
  children : List.Forall₂ (fun c g => KvCursor.At c g.1 g.2) m.children gs
  heap : HeapOf m.minHeap (rests gs)

theorem forall₂_exists {α β : Type} {R : α → β → Prop} {l : List α} {m : List β}
    (h : List.Forall₂ R l m) {i : Nat} {b : β} (hb : m[i]? = some b) :
    ∃ a, l[i]? = some a ∧ R a b := by
  induction h generalizing i with
  | nil => cases hb
  | cons hab _ ih =>
      cases i with
      | zero =>
          obtain rfl : _ = b := Option.some.inj hb
          exact ⟨_, rfl, hab⟩
      | succ i => exact ih hb

theorem forall₂_mem_left {A B : Type} {R : A → B → Prop} {l : List A} {m : List B}
    (h : List.Forall₂ R l m) {a : A} (ha : a ∈ l) : ∃ b ∈ m, R a b := by
  induction h with
  | nil => cases ha
  | cons hab _ ih =>
      rcases List.mem_cons.mp ha with rfl | ha'
      · exact ⟨_, List.mem_cons_self, hab⟩
      · obtain ⟨b, hb, hr⟩ := ih ha'
        exact ⟨b, List.mem_cons_of_mem _ hb, hr⟩

theorem forall₂_mem_right {A B : Type} {R : A → B → Prop} {l : List A} {m : List B}
    (h : List.Forall₂ R l m) {b : B} (hb : b ∈ m) : ∃ a ∈ l, R a b := by
  induction h with
  | nil => cases hb
  | cons hab _ ih =>
      rcases List.mem_cons.mp hb with rfl | hb'
      · exact ⟨_, List.mem_cons_self, hab⟩
      · obtain ⟨a, ha, hr⟩ := ih hb'
        exact ⟨a, List.mem_cons_of_mem _ ha, hr⟩

theorem forall₂_set {α β : Type} {R : α → β → Prop} {l : List α} {m : List β}
    (h : List.Forall₂ R l m) (i : Nat) {a : α} {b : β} (hab : R a b) :
    List.Forall₂ R (l.set i a) (m.set i b) := by
  induction h generalizing i with
  | nil => exact List.Forall₂.nil
  | cons hcd hrest ih =>
      cases i with
      | zero => exact List.Forall₂.cons hab hrest
      | succ i => exact List.Forall₂.cons hcd (ih i)

/-- Replacing an element by one with the same image keeps the images. -/
theorem map_set_of_eq {α β : Type} {f : α → β} {l : List α} {i : Nat} {a b : α}
    (ha : l[i]? = some a) (hf : f b = f a) : (l.set i b).map f = l.map f := by
  rw [List.map_set, hf]
  refine List.ext_getElem? ?_
  intro j
  rw [List.getElem?_set]
  by_cases hij : i = j
  · subst hij
    have hlt : i < (l.map f).length := by
      rw [List.length_map]
      exact (List.getElem?_eq_some_iff.mp ha).1
    rw [if_pos rfl, if_pos hlt, List.getElem?_map, ha]
    rfl
  · rw [if_neg hij]

/-- The entries the children have still to give. -/
def total (gs : List Ghost) : Nat := ((rests gs).map List.length).sum

theorem total_set {gs : List Ghost} {i : Nat} {a r : List IteratorEntry} {e : IteratorEntry}
    (h : gs[i]? = some (a, e :: r)) : total (gs.set i (a, r)) + 1 = total gs := by
  induction gs generalizing i with
  | nil => cases h
  | cons g gs ih =>
      cases i with
      | zero =>
          obtain rfl : g = (a, e :: r) := Option.some.inj h
          simp only [total, rests, List.set_cons_zero, List.map_cons, List.sum_cons,
            List.length_cons]
          omega
      | succ i =>
          have := ih (i := i) h
          simp only [total, rests, List.set_cons_succ, List.map_cons, List.sum_cons] at this ⊢
          omega

theorem total_passKey_le (k : Bytes) (gs : List Ghost) : total (passKey k gs) ≤ total gs := by
  induction gs with
  | nil => exact Nat.le_refl _
  | cons g gs ih =>
      have hg : (dropThrough IteratorEntry.key k g.2).length ≤ g.2.length :=
        (List.dropWhile_sublist _).length_le
      simp only [total, rests, passKey, List.map_cons, List.sum_cons] at ih ⊢
      omega

variable {m : MergingIterator I} {gs : List Ghost}

theorem Opened.ghost (h : Opened m gs) {g : Ghost} (hg : g ∈ gs) :
    Ascending IteratorEntry.key g.1 ∧ Ascending IteratorEntry.key g.2 ∧ g.2 <:+ g.1 := by
  obtain ⟨c, -, hat⟩ := forall₂_mem_right h.children hg
  have hasc := KvCursor.ascending hat
  have hsuf := KvCursor.suffix hat
  exact ⟨hasc, List.Pairwise.sublist hsuf.sublist hasc, hsuf⟩

theorem Opened.ascending (h : Opened m gs) :
    ∀ l ∈ rests gs, Ascending IteratorEntry.key l := by
  intro l hl
  obtain ⟨g, hg, rfl⟩ := List.mem_map.mp hl
  exact (h.ghost hg).2.1

theorem Opened.ascending_alls (h : Opened m gs) :
    ∀ l ∈ alls gs, Ascending IteratorEntry.key l := by
  intro l hl
  obtain ⟨g, hg, rfl⟩ := List.mem_map.mp hl
  exact (h.ghost hg).1

theorem Opened.untied (h : Opened m gs)
    (hun : Untied IteratorEntry.key IteratorEntry.sequence (alls gs)) :
    Untied IteratorEntry.key IteratorEntry.sequence (rests gs) := by
  have hun' := List.pairwise_map.mp hun
  refine List.pairwise_map.mpr (hun'.imp_of_mem ?_)
  intro g g' hg hg' hne a ha b hb
  exact hne a ((h.ghost hg).2.2.subset ha) b ((h.ghost hg').2.2.subset hb)

/-- The fuel suffices. -/
theorem Opened.total_lt (h : Opened m gs) : total gs < m.fuel := by
  have hgen : ∀ {cs : List I} {gs : List Ghost},
      List.Forall₂ (fun c g => KvCursor.At c g.1 g.2) cs gs →
      total gs ≤ (cs.map KvIterator.bound).sum := by
    intro cs gs h
    induction h with
    | nil => exact Nat.le_refl _
    | cons hcg _ ih =>
        have := KvCursor.bound hcg
        simp only [total, rests, List.map_cons, List.sum_cons] at ih ⊢
        omega
  have := hgen h.children
  rw [MergingIterator.fuel]
  omega

/-- A child's next entry is pushed if it has one. -/
theorem pushChild_eq {c : I} {all rest : List IteratorEntry} (h : KvCursor.At c all rest)
    (i : Nat) (hp : List HeapItem) : pushChild i c hp = pushRest i rest hp := by
  rw [pushChild, KvCursor.valid h]
  cases rest with
  | nil => rfl
  | cons e rest =>
      rw [KvCursor.entry h]
      rfl

/-- **One turn**: the top of the heap leaves and its child moves on. -/
theorem popAdvance_spec (h : Opened m gs) {x : HeapItem} {hp : List HeapItem}
    (hx : m.minHeap = x :: hp) :
    ∃ m' a r, m.popAdvance = .ok m' ∧ gs[x.childIndex]? = some (a, x.entry :: r)
      ∧ Opened m' (gs.set x.childIndex (a, r)) ∧ m'.valid = m.valid
      ∧ m'.currentEntry = m.currentEntry := by
  obtain ⟨hch, hheap⟩ := h
  rw [hx] at hheap
  obtain ⟨r, hr, hheap'⟩ := hheap.advance
  obtain ⟨g, hg, hgr⟩ : ∃ g, gs[x.childIndex]? = some g ∧ g.2 = x.entry :: r := by
    rw [rests, List.getElem?_map] at hr
    exact Option.map_eq_some_iff.mp hr
  obtain ⟨a, b⟩ := g
  obtain rfl : b = x.entry :: r := hgr
  obtain ⟨c, hc, hat⟩ := forall₂_exists hch hg
  obtain ⟨c', hrun, hat'⟩ := KvCursor.next hat
  refine ⟨{ m with
      children := m.children.set x.childIndex c'
      minHeap := pushChild x.childIndex c' hp },
    a, r, ?_, hg, ⟨forall₂_set hch x.childIndex hat', ?_⟩, rfl, rfl⟩
  · simp only [MergingIterator.popAdvance, hx, hc, hrun, ok_bind]
    rfl
  · rw [rests, List.map_set, pushChild_eq hat']
    exact hheap'

theorem passKey_set {k : Bytes} {i : Nat} {a r : List IteratorEntry} {e : IteratorEntry}
    (h : gs[i]? = some (a, e :: r)) (hk : e.key = k) :
    passKey k (gs.set i (a, r)) = passKey k gs := by
  refine map_set_of_eq h ?_
  rw [dropThrough_cons_of_eq hk]

/-- Nothing is passed when every child stands behind the key already. -/
theorem passKey_of_lt {k : Bytes} (h : ∀ l ∈ rests gs, ∀ a ∈ l, k < a.key) :
    passKey k gs = gs := by
  have hid : ∀ g ∈ gs, (g.1, dropThrough IteratorEntry.key k g.2) = g := by
    intro g hg
    rw [dropThrough_of_lt (h g.2 (List.mem_map_of_mem hg))]
  rw [passKey]
  exact List.map_congr_left hid |>.trans (List.map_id gs)

/-- **The popping loop** moves every child behind the key. -/
theorem popKey_spec {k : Bytes} :
    ∀ (fuel : Nat) {m : MergingIterator I} {gs : List Ghost}, Opened m gs →
      (∀ l ∈ rests gs, ∀ a ∈ l, k ≤ a.key) → total gs < fuel →
      ∃ m', MergingIterator.popKey k fuel m = .ok m' ∧ Opened m' (passKey k gs)
        ∧ m'.valid = m.valid ∧ m'.currentEntry = m.currentEntry := by
  intro fuel
  induction fuel with
  | zero =>
      intro m gs _ _ hfuel
      omega
  | succ fuel ih =>
      intro m gs h hge hfuel
      cases hx : m.minHeap with
      | nil =>
          refine ⟨m, by rw [MergingIterator.popKey, hx]; rfl, ?_, rfl, rfl⟩
          -- an empty heap: every child is at its end, so there is nothing to pass
          have hempty := (hx ▸ h.heap).nil_of_empty
          rw [passKey_of_lt]
          · exact h
          · intro l hl a ha
            rw [hempty l hl] at ha
            cases ha
      | cons x hp =>
          have htop := (hx ▸ h.heap).top h.ascending
          by_cases hk : x.entry.key = k
          -- the top has the key: one entry less is to come, and the turns that are left suffice
          · obtain ⟨m₁, a, r, hrun, hget, hop, hv, hc⟩ := popAdvance_spec h hx
            have hge₁ : ∀ l ∈ rests (gs.set x.childIndex (a, r)), ∀ b ∈ l, k ≤ b.key := by
              intro l hl b hb
              rw [rests, List.map_set] at hl
              rcases List.mem_or_eq_of_mem_set hl with hl' | heq
              · exact hge l hl' b hb
              · rw [heq] at hb
                refine hge (x.entry :: r) ?_ b (List.mem_cons_of_mem _ hb)
                exact List.mem_map.mpr ⟨_, List.mem_of_getElem? hget, rfl⟩
            have htotal := total_set hget
            obtain ⟨m₂, hrun₂, hop₂, hv₂, hc₂⟩ := ih hop hge₁ (by omega)
            refine ⟨m₂, ?_, passKey_set hget hk ▸ hop₂, hv₂.trans hv, hc₂.trans hc⟩
            simp only [MergingIterator.popKey, hx, if_pos hk, hrun, ok_bind]
            exact hrun₂
          · refine ⟨m, by simp only [MergingIterator.popKey, hx, if_neg hk]; rfl, ?_, rfl, rfl⟩
            -- the top is above the key, and with it every child
            rw [passKey_of_lt]
            · exact h
            · intro l hl b hb
              obtain ⟨r, hr⟩ := ((hx ▸ h.heap).items x).mp List.mem_cons_self
              have hkx : k < x.entry.key := lt_of_le_of_ne
                (hge _ (List.mem_of_getElem? hr) _ List.mem_cons_self) (Ne.symm hk)
              rcases htop l hl b hb with hlt | ⟨heq, -⟩
              · exact hkx.trans hlt
              · exact heq ▸ hkx

omit [KvCursor I] in
theorem findMin_cons {x : HeapItem} {hp : List HeapItem} (hx : m.minHeap = x :: hp) :
    m.findMin = (MergingIterator.popAdvance { m with currentEntry := x.entry, valid := true }
      >>= fun m => MergingIterator.popKey x.entry.key m.fuel m) := by
  unfold MergingIterator.findMin
  split
  · rename_i h
    rw [hx] at h
    cases h
  · rename_i top hp' h
    rw [hx] at h
    obtain ⟨rfl, -⟩ := List.cons.inj h
    rfl

/-- **`FindMin`** either finds every child at its end, or gives a least entry, of
    the highest sequence number among those with its key, and moves every child
    behind that key. -/
theorem findMin_spec (h : Opened m gs) :
    ∃ m', m.findMin = .ok m'
      ∧ ((m'.valid = false ∧ Opened m' gs ∧ ∀ l ∈ rests gs, l = [])
        ∨ ∃ e, m'.valid = true ∧ m'.currentEntry = e ∧ Opened m' (passKey e.key gs)
          ∧ total (passKey e.key gs) < total gs ∧ (∃ l ∈ rests gs, e ∈ l)
          ∧ ∀ l ∈ rests gs, ∀ a ∈ l, e.key < a.key ∨ e.key = a.key ∧ a.sequence ≤ e.sequence) := by
  cases hx : m.minHeap with
  | nil =>
      refine ⟨{ m with valid := false }, by rw [MergingIterator.findMin, hx]; rfl, Or.inl ?_⟩
      exact ⟨rfl, ⟨h.children, h.heap⟩, (hx ▸ h.heap).nil_of_empty⟩
  | cons x hp =>
      have htop := (hx ▸ h.heap).top h.ascending
      have hop₀ : Opened { m with currentEntry := x.entry, valid := true } gs :=
        ⟨h.children, h.heap⟩
      obtain ⟨m₁, a, r, hrun, hget, hop, hv, hc⟩ := popAdvance_spec hop₀ hx
      have hmem : x.entry :: r ∈ rests gs :=
        List.mem_map.mpr ⟨_, List.mem_of_getElem? hget, rfl⟩
      -- the first pop leaves nothing below the popped key behind
      have hge : ∀ l ∈ rests (gs.set x.childIndex (a, r)), ∀ b ∈ l, x.entry.key ≤ b.key := by
        intro l hl b hb
        have hb' : ∃ l ∈ rests gs, b ∈ l := by
          rw [rests, List.map_set] at hl
          rcases List.mem_or_eq_of_mem_set hl with hl' | heq
          · exact ⟨l, hl', hb⟩
          · rw [heq] at hb
            exact ⟨_, hmem, List.mem_cons_of_mem _ hb⟩
        obtain ⟨l', hl', hbl'⟩ := hb'
        rcases htop l' hl' b hbl' with hlt | ⟨heq, -⟩
        · exact hlt.le
        · exact heq.le
      obtain ⟨m₂, hrun₂, hop₂, hv₂, hc₂⟩ := popKey_spec m₁.fuel hop hge hop.total_lt
      rw [passKey_set hget rfl] at hop₂
      have htotal := total_set hget
      have hle := total_passKey_le x.entry.key (gs.set x.childIndex (a, r))
      rw [passKey_set hget rfl] at hle
      refine ⟨m₂, ?_, Or.inr ⟨x.entry, hv₂.trans hv, hc₂.trans hc, hop₂, by omega,
        ⟨_, hmem, List.mem_cons_self⟩, htop⟩⟩
      rw [findMin_cons hx, hrun]
      exact hrun₂

/-- `Next` skips what is left of the current key and finds the next least one. -/
theorem next_eq_findMin (h : Opened m gs) (hv : m.valid = true)
    (hlt : ∀ l ∈ rests gs, ∀ a ∈ l, m.currentEntry.key < a.key) :
    ∃ m₁, m.next = m₁.findMin ∧ Opened m₁ gs := by
  cases hx : m.minHeap with
  | nil =>
      refine ⟨{ m with valid := false }, ?_, ⟨h.children, h.heap⟩⟩
      simp [MergingIterator.next, MergingIterator.findMin, hx]
  | cons x hp =>
      obtain ⟨m₁, hrun, hop, -, -⟩ := popKey_spec m.fuel h (fun l hl a ha => (hlt l hl a ha).le)
        h.total_lt
      rw [passKey_of_lt hlt] at hop
      refine ⟨m₁, ?_, hop⟩
      simp [MergingIterator.next, hv, hx, hrun]

/-- **A merging iterator streams a merge** of what its children have still to
    come, whatever ties there are. -/
theorem findMin_streams :
    ∀ (n : Nat) {m : MergingIterator I} {gs : List Ghost}, total gs < n → Opened m gs →
      ∃ m' out, m.findMin = .ok m' ∧ Streams m' out
        ∧ IsMerge IteratorEntry.key IteratorEntry.sequence (rests gs) out
        ∧ out.length ≤ total gs ∧ out.length ≤ m'.fuel := by
  -- by the entries that are still to come: every turn takes at least one
  intro n
  induction n with
  | zero =>
      intro m gs hn _
      omega
  | succ n ih =>
      intro m gs hn h
      obtain ⟨m', hrun, hres⟩ := findMin_spec h
      rcases hres with ⟨hv, -, hempty⟩ | ⟨e, hv, hc, hop, htotal, hmem, hleast⟩
      · exact ⟨m', [], hrun, Streams.done hv, isMerge_nil hempty, Nat.zero_le _, Nat.zero_le _⟩
      · have hlt : ∀ l ∈ rests (passKey e.key gs), ∀ a ∈ l, e.key < a.key := by
          intro l hl a ha
          rw [rests_passKey] at hl
          obtain ⟨l', hl', rfl⟩ := List.mem_map.mp hl
          exact ((h.ascending l' hl').mem_dropThrough e.key a |>.mp ha).2
        obtain ⟨m₁, hnext, hop₁⟩ := next_eq_findMin hop hv (hc ▸ hlt)
        obtain ⟨m₂, out, hrun₂, hs, hmerge, hlen, -⟩ := ih (by omega) hop₁
        have hstream : Streams m' (e :: out) := by
          have hs' := @Streams.more _ _ m' _ _ hv (hnext.trans hrun₂) hs
          rwa [show KvIterator.entry m' = e from hc] at hs'
        have hfuel := hop.total_lt
        rw [rests_passKey] at hmerge
        refine ⟨m', e :: out, hrun, hstream, isMerge_cons h.ascending hmem ?_ ?_ hmerge, ?_, ?_⟩
        · intro l hl a ha
          rcases hleast l hl a ha with hlt' | ⟨heq, -⟩
          · exact hlt'.le
          · exact heq.le
        -- an entry of the same key has no higher sequence number
        · intro l hl a ha hk
          rcases hleast l hl a ha with hlt' | ⟨-, hle⟩
          · exact absurd hk hlt'.ne'
          · exact hle
        · rw [List.length_cons]
          omega
        · rw [List.length_cons]
          omega

/-! ## The constructor and `Seek` -/

/-- The constructor's loop builds the heap of the children's heads. -/
theorem primeHeap_spec :
    ∀ {cs : List I} {gs : List Ghost},
      List.Forall₂ (fun c g => KvCursor.At c g.1 g.2) cs gs →
      ∀ {done : List (List IteratorEntry)} {h : List HeapItem}, HeapOf h done →
      HeapOf (primeHeap done.length cs h) (done ++ rests gs) := by
  intro cs gs hcs
  induction hcs with
  | nil =>
      intro done h ho
      simpa [rests, primeHeap] using ho
  | @cons c g cs gs hcg _ ih =>
      intro done h ho
      have ho' := ho.append g.2
      rw [← pushChild_eq hcg] at ho'
      have hres := ih ho'
      rw [List.length_append, List.length_singleton, List.append_assoc] at hres
      exact hres

/-- `Seek` moves every child and builds the heap anew. -/
theorem seekChildren_spec (t : Bytes) :
    ∀ {cs : List I} {gs : List Ghost},
      List.Forall₂ (fun c g => KvCursor.At c g.1 g.2) cs gs →
      ∀ {done : List (List IteratorEntry)} {h : List HeapItem}, HeapOf h done →
      ∃ cs' h', seekChildren t done.length cs h = .ok (cs', h')
        ∧ List.Forall₂ (fun c g => KvCursor.At c g.1 g.2) cs'
            (gs.map (fun g => (g.1, dropBelow IteratorEntry.key t g.1)))
        ∧ HeapOf h' (done ++ (alls gs).map (dropBelow IteratorEntry.key t)) := by
  intro cs gs hcs
  induction hcs with
  | nil =>
      intro done h ho
      exact ⟨[], h, rfl, List.Forall₂.nil, by simpa [alls] using ho⟩
  | @cons c g cs gs hcg _ ih =>
      intro done h ho
      obtain ⟨c', hseek, hat⟩ := KvCursor.seek t hcg
      have ho' := ho.append (dropBelow IteratorEntry.key t g.1)
      rw [← pushChild_eq hat] at ho'
      obtain ⟨cs', h', hrun, hcs', hheap⟩ := ih ho'
      rw [List.length_append, List.length_singleton] at hrun
      refine ⟨c' :: cs', h', ?_, List.Forall₂.cons hat hcs', ?_⟩
      · simp only [seekChildren, hseek, ok_bind, hrun]
        rfl
      · rw [List.append_assoc] at hheap
        exact hheap

/-- The ghosts of children that stand at their start. -/
def fresh (ls : List (List IteratorEntry)) : List Ghost := ls.map (fun l => (l, l))

theorem rests_fresh (ls : List (List IteratorEntry)) : rests (fresh ls) = ls := by
  rw [rests, fresh, List.map_map]
  exact List.map_id ls

theorem alls_fresh (ls : List (List IteratorEntry)) : alls (fresh ls) = ls := by
  rw [alls, fresh, List.map_map]
  exact List.map_id ls

theorem opened_new {cs : List I} {ls : List (List IteratorEntry)}
    (h : List.Forall₂ (fun c l => KvCursor.At c l l) cs ls) :
    Opened ⟨cs, primeHeap 0 cs [], false, {}⟩ (fresh ls) := by
  have hcs : List.Forall₂ (fun c g => KvCursor.At c g.1 g.2) cs (fresh ls) :=
    List.forall₂_map_right_iff.mpr h
  exact ⟨hcs, primeHeap_spec hcs heapOf_nil⟩

/-- **A new merging iterator** streams a merge of its children's lists. -/
theorem new_streams {cs : List I} {ls : List (List IteratorEntry)}
    (h : List.Forall₂ (fun c l => KvCursor.At c l l) cs ls) :
    ∃ m out, MergingIterator.new cs = .ok m ∧ Streams m out
      ∧ IsMerge IteratorEntry.key IteratorEntry.sequence ls out ∧ out.length ≤ m.fuel := by
  obtain ⟨m, out, hrun, hs, hmerge, -, hlen⟩ :=
    findMin_streams (total (fresh ls) + 1) (Nat.lt_succ_self _) (opened_new h)
  exact ⟨m, out, hrun, hs, rests_fresh ls ▸ hmerge, hlen⟩

/-! ## A merge without ties is a lawful iterator -/

/-- Where a merging iterator stands: its current entry is taken out of the
    children already. -/
def Current (m : MergingIterator I) (gs : List Ghost) : List IteratorEntry → Prop
  | [] => m.valid = false ∧ ∀ l ∈ rests gs, l = []
  | e :: out => m.valid = true ∧ m.currentEntry = e
      ∧ IsMerge IteratorEntry.key IteratorEntry.sequence (rests gs) out
      ∧ ∀ l ∈ rests gs, ∀ a ∈ l, e.key < a.key

/-- `m` goes through the merge `all` of its children and has `rest` to come. -/
def MergingAt (m : MergingIterator I) (all rest : List IteratorEntry) : Prop :=
  ∃ gs, Opened m gs ∧ Untied IteratorEntry.key IteratorEntry.sequence (alls gs)
    ∧ IsMerge IteratorEntry.key IteratorEntry.sequence (alls gs) all ∧ rest <:+ all
    ∧ Current m gs rest

/-- `FindMin` finds the first entry of the merge. -/
theorem findMin_at (h : Opened m gs)
    (hun : Untied IteratorEntry.key IteratorEntry.sequence (alls gs))
    {all out : List IteratorEntry}
    (hall : IsMerge IteratorEntry.key IteratorEntry.sequence (alls gs) all) (hsuf : out <:+ all)
    (hmerge : IsMerge IteratorEntry.key IteratorEntry.sequence (rests gs) out) :
    ∃ m', m.findMin = .ok m' ∧ MergingAt m' all out := by
  obtain ⟨m', hrun, hres⟩ := findMin_spec h
  refine ⟨m', hrun, ?_⟩
  rcases hres with ⟨hv, hop, hempty⟩ | ⟨e, hv, hc, hop, -, hmem, hleast⟩
  · cases out with
    | nil => exact ⟨gs, hop, hun, hall, hsuf, hv, hempty⟩
    | cons e out =>
        obtain ⟨⟨l, hl, hel⟩, -⟩ := hmerge.chosen e List.mem_cons_self
        rw [hempty l hl] at hel
        cases hel
  · obtain ⟨l, hl, hel⟩ := hmem
    cases out with
    | nil => exact absurd (hmerge.covers l hl e hel) (by simp)
    | cons f out =>
        -- without ties the least entry of the heap is the one of the merge
        obtain ⟨⟨l', hl', hfl'⟩, hmax⟩ := hmerge.chosen f List.mem_cons_self
        have hkey : e.key = f.key := by
          refine le_antisymm ?_ (hmerge.head_le l hl e hel)
          rcases hleast l' hl' f hfl' with hlt | ⟨heq, -⟩
          · exact hlt.le
          · exact heq.le
        have hseq : e.sequence = f.sequence := by
          refine le_antisymm (hmax l hl e hel hkey) ?_
          rcases hleast l' hl' f hfl' with hlt | ⟨-, hle⟩
          · exact absurd hkey hlt.ne
          · exact hle
        obtain rfl : e = f :=
          (h.untied hun).eq_of_key_rank h.ascending hl hl' hel hfl' hkey hseq
        refine ⟨passKey e.key gs, hop, by rw [alls_passKey]; exact hun,
          by rw [alls_passKey]; exact hall, hsuf, hv, hc, ?_, ?_⟩
        · rw [rests_passKey]
          exact hmerge.tail h.ascending
        · intro l₂ hl₂ a ha
          rw [rests_passKey] at hl₂
          obtain ⟨l₃, hl₃, rfl⟩ := List.mem_map.mp hl₂
          exact ((h.ascending l₃ hl₃).mem_dropThrough e.key a |>.mp ha).2

/-- A merge is no longer than what it merges. -/
theorem length_le_total {out : List IteratorEntry}
    (h : IsMerge IteratorEntry.key IteratorEntry.sequence (rests gs) out) :
    out.length ≤ total gs := by
  have hnd : out.Nodup := h.ascending.imp (fun hlt heq => absurd (congrArg _ heq) hlt.ne)
  have hsub : ∀ e ∈ out, e ∈ (rests gs).flatten := by
    intro e he
    obtain ⟨⟨l, hl, hel⟩, -⟩ := h.chosen e he
    exact List.mem_flatten.mpr ⟨l, hl, hel⟩
  have hle := (List.subperm_of_subset hnd hsub).length_le
  rwa [List.length_flatten] at hle

instance : KvCursor (MergingIterator I) where
  At := MergingAt
  ascending := by
    rintro m all rest ⟨gs, -, -, hall, -⟩
    exact hall.ascending
  valid := by
    rintro m all rest ⟨gs, -, -, -, -, hcur⟩
    cases rest with
    | nil => exact hcur.1
    | cons e rest => exact hcur.1
  entry := by
    rintro m all e rest ⟨gs, -, -, -, -, hcur⟩
    exact hcur.2.1
  next := by
    rintro m all e rest ⟨gs, hop, hun, hall, hsuf, hv, hc, hmerge, hlt⟩
    obtain ⟨m₁, hnext, hop₁⟩ := next_eq_findMin hop hv (hc ▸ hlt)
    obtain ⟨m₂, hrun, hat⟩ := findMin_at hop₁ hun hall
      ((List.suffix_cons e rest).trans hsuf) hmerge
    exact ⟨m₂, hnext.trans hrun, hat⟩
  stay := by
    rintro m all ⟨gs, hop, hun, hall, hsuf, hv, hempty⟩
    -- behind the end `Next` only clears `valid_`
    refine ⟨{ m with valid := false }, ?_, gs, ⟨hop.children, hop.heap⟩, hun, hall, hsuf, rfl, hempty⟩
    show m.next = _
    rw [MergingIterator.next, hv]
    rfl
  seek := by
    rintro m all rest t ⟨gs, hop, hun, hall, -⟩
    -- `Seek` forgets the current entry: it moves the children and starts over
    obtain ⟨cs, hp, hrun, hcs, hheap⟩ := seekChildren_spec t hop.children heapOf_nil
    have halls : alls (gs.map (fun g => (g.1, dropBelow IteratorEntry.key t g.1))) = alls gs := by
      simp [alls]
    have hrests : rests (gs.map (fun g => (g.1, dropBelow IteratorEntry.key t g.1)))
        = (alls gs).map (dropBelow IteratorEntry.key t) := by
      simp [alls, rests]
    have hop' : Opened { m with children := cs, minHeap := hp }
        (gs.map (fun g => (g.1, dropBelow IteratorEntry.key t g.1))) := by
      refine ⟨hcs, ?_⟩
      rw [hrests]
      exact hheap
    obtain ⟨m', hfind, hat⟩ := findMin_at hop' (halls ▸ hun) (halls ▸ hall)
      (List.dropWhile_suffix _) (hrests ▸ hall.dropBelow hop.ascending_alls t)
    refine ⟨m', ?_, hat⟩
    show m.seek t = _
    rw [List.length_nil] at hrun
    simp only [MergingIterator.seek, hrun, ok_bind]
    exact hfind
  suffix := by
    rintro m all rest ⟨gs, -, -, -, hsuf, -⟩
    exact hsuf
  bound := by
    rintro m all rest ⟨gs, hop, -, -, -, hcur⟩
    show _ ≤ m.fuel
    cases rest with
    | nil => exact Nat.zero_le _
    | cons e rest =>
        have hle := length_le_total hcur.2.2.1
        have hlt := hop.total_lt
        rw [List.length_cons]
        omega

/-- **A new merging iterator over children without ties** stands at the start of
    the one merge of their lists. -/
theorem new_at {cs : List I} {ls : List (List IteratorEntry)}
    (h : List.Forall₂ (fun c l => KvCursor.At c l l) cs ls)
    (hun : Untied IteratorEntry.key IteratorEntry.sequence ls) :
    ∃ m all, MergingIterator.new cs = .ok m ∧ KvCursor.At m all all
      ∧ IsMerge IteratorEntry.key IteratorEntry.sequence ls all := by
  obtain ⟨-, all, -, -, hmerge, -⟩ := new_streams h
  have hop := opened_new h
  obtain ⟨m, hrun, hat⟩ := findMin_at hop ((alls_fresh ls).symm ▸ hun)
    ((alls_fresh ls).symm ▸ hmerge) List.suffix_rfl ((rests_fresh ls).symm ▸ hmerge)
  exact ⟨m, all, hrun, hat, hmerge⟩

/-- **`MergingIterator` merges**: once constructed, and after `Seek` from wherever
    earlier calls left it, reading to the end gives the children's keys (at or
    above the target), each once and ascending, with the entry of the highest
    sequence. -/
theorem mergingIterator_merges {cs : List I} {ls : List (List IteratorEntry)}
    (h : List.Forall₂ (fun c l => KvCursor.At c l l) cs ls)
    (hun : Untied IteratorEntry.key IteratorEntry.sequence ls) :
    ∃ m out, MergingIterator.new cs = .ok m ∧ Streams m out
      ∧ IsMerge IteratorEntry.key IteratorEntry.sequence ls out
      ∧ ∀ (moves : List Move) (target : Bytes), ∃ m₁ m₂ out',
          moves.foldlM KvIterator.move m = .ok m₁ ∧ m₁.seek target = .ok m₂ ∧ Streams m₂ out'
          ∧ IsMerge IteratorEntry.key IteratorEntry.sequence
              (ls.map (fun l => l.filter (fun e => target ≤ e.key))) out' := by
  obtain ⟨m, all, hnew, hat, hmerge⟩ := new_at h hun
  have hasc : ∀ l ∈ ls, Ascending IteratorEntry.key l := by
    have hop := (opened_new h).ascending_alls
    rwa [alls_fresh] at hop
  refine ⟨m, all, hnew, streams_of_at all hat, hmerge, ?_⟩
  intro moves target
  obtain ⟨m₁, m₂, hrun, hseek, hs⟩ := seek_after_moves hat moves target
  refine ⟨m₁, m₂, _, hrun, hseek, hs, ?_⟩
  have hcut : ls.map (dropBelow IteratorEntry.key target)
      = ls.map (fun l => l.filter (fun e => target ≤ e.key)) :=
    List.map_congr_left (fun l hl => (hasc l hl).dropBelow_eq_filter target)
  rw [← hcut]
  exact hmerge.dropBelow hasc target

end Runs

/-- Two snapshots that share a key, the second one newer. -/
def olderAndNewer : List SkipListIterator :=
  [⟨[⟨[1], [7], .kTypeValue, 1⟩, ⟨[3], [7], .kTypeValue, 1⟩], 0, 1⟩,
    ⟨[⟨[1], [8], .kTypeValue, 2⟩, ⟨[2], [], .kTypeDeletion, 2⟩], 0, 2⟩]

/-- The merge of the two, from a key on after any calls. -/
theorem mergingIterator_merges_olderAndNewer :
    ∃ m out, MergingIterator.new olderAndNewer = .ok m ∧ Streams m out
      ∧ IsMerge IteratorEntry.key IteratorEntry.sequence
          (olderAndNewer.map SkipListIterator.entries) out
      ∧ ∀ (moves : List Move) (target : Bytes), ∃ m₁ m₂ out',
          moves.foldlM KvIterator.move m = .ok m₁ ∧ m₁.seek target = .ok m₂ ∧ Streams m₂ out'
          ∧ IsMerge IteratorEntry.key IteratorEntry.sequence
              ((olderAndNewer.map SkipListIterator.entries).map
                (fun l => l.filter (fun e => target ≤ e.key))) out' := by
  refine mergingIterator_merges ?_ ?_
  · refine List.Forall₂.cons ⟨?_, rfl, rfl⟩ (List.Forall₂.cons ⟨?_, rfl, rfl⟩ List.Forall₂.nil)
    · show List.Pairwise _ _
      decide
    · show List.Pairwise _ _
      decide
  · show List.Pairwise _ _
    decide

/-! ## One child left -/

section Lone

variable {c c' dead : I} {e : IteratorEntry}

/-- Two children, the first of them at its end; the current entry comes from the
    second. -/
def lone (dead c : I) (e : IteratorEntry) : MergingIterator I :=
  ⟨[dead, c], pushChild 1 c [], true, e⟩

/-- `FindMin` takes the second child's entry. -/
theorem findMin_lone (hv : KvIterator.valid c = true) (hn : KvIterator.next c = .ok c')
    (hne : KvIterator.valid c' = true → (KvIterator.entry c').key ≠ (KvIterator.entry c).key)
    (v : Bool) (x : IteratorEntry) :
    MergingIterator.findMin ⟨[dead, c], pushChild 1 c [], v, x⟩
      = .ok (lone dead c' (KvIterator.entry c)) := by
  have hheap : pushChild 1 c [] = [⟨1, KvIterator.entry c⟩] := by
    rw [pushChild, if_pos hv]
    rfl
  have hchild : [dead, c][1]? = some c := rfl
  have hpop : MergingIterator.popAdvance
      ⟨[dead, c], [⟨1, KvIterator.entry c⟩], true, KvIterator.entry c⟩
      = .ok (lone dead c' (KvIterator.entry c)) := by
    simp only [MergingIterator.popAdvance, hchild, hn, ok_bind]
    rfl
  have hstop : MergingIterator.popKey (KvIterator.entry c).key
      (lone dead c' (KvIterator.entry c)).fuel (lone dead c' (KvIterator.entry c))
      = .ok (lone dead c' (KvIterator.entry c)) := by
    by_cases hv' : KvIterator.valid c' = true
    · have hheap' : pushChild 1 c' [] = [⟨1, KvIterator.entry c'⟩] := by
        rw [pushChild, if_pos hv']
        rfl
      simp only [MergingIterator.fuel, MergingIterator.popKey, lone, hheap', if_neg (hne hv')]
      rfl
    · have hheap' : pushChild 1 c' [] = [] := by rw [pushChild, if_neg hv']
      simp only [MergingIterator.fuel, MergingIterator.popKey, lone, hheap']
      rfl
  rw [hheap]
  show (MergingIterator.popAdvance
    ⟨[dead, c], [⟨1, KvIterator.entry c⟩], true, KvIterator.entry c⟩ >>= fun m =>
      MergingIterator.popKey (KvIterator.entry c).key m.fuel m) = _
  rw [hpop, ok_bind, hstop]

/-- The constructor. -/
theorem new_lone (hd : KvIterator.valid dead = false) (hv : KvIterator.valid c = true)
    (hn : KvIterator.next c = .ok c')
    (hne : KvIterator.valid c' = true → (KvIterator.entry c').key ≠ (KvIterator.entry c).key) :
    MergingIterator.new [dead, c] = .ok (lone dead c' (KvIterator.entry c)) := by
  have hnil : pushChild 0 dead [] = [] := by
    rw [pushChild, hd]
    rfl
  have hprime : primeHeap 0 [dead, c] [] = pushChild 1 c [] := by
    simp only [primeHeap, hnil, Nat.zero_add]
  rw [MergingIterator.new, hprime]
  exact findMin_lone hv hn hne false {}

/-- `Seek`. -/
theorem seek_lone {dead' c₁ : I} {t : Bytes} (hsd : KvIterator.seek dead t = .ok dead')
    (hd : KvIterator.valid dead' = false) (hsc : KvIterator.seek c t = .ok c₁)
    (hv : KvIterator.valid c₁ = true) (hn : KvIterator.next c₁ = .ok c')
    (hne : KvIterator.valid c' = true → (KvIterator.entry c').key ≠ (KvIterator.entry c₁).key)
    (e : IteratorEntry) :
    KvIterator.seek (lone dead c e) t = .ok (lone dead' c' (KvIterator.entry c₁)) := by
  have hnil : pushChild 0 dead' [] = [] := by
    rw [pushChild, hd]
    rfl
  have hseek : seekChildren t 0 [dead, c] [] = .ok ([dead', c₁], pushChild 1 c₁ []) := by
    simp only [seekChildren, hsd, hsc, hnil, ok_bind, Nat.zero_add]
    rfl
  have hchildren : (lone dead c e).children = [dead, c] := rfl
  show (lone dead c e).seek t = _
  rw [MergingIterator.seek, hchildren, hseek]
  exact findMin_lone hv hn hne true e

/-- `Next`, when the child stands at another key. -/
theorem next_lone (hv : KvIterator.valid c = true) (hkey : (KvIterator.entry c).key ≠ e.key)
    (hn : KvIterator.next c = .ok c')
    (hne : KvIterator.valid c' = true → (KvIterator.entry c').key ≠ (KvIterator.entry c).key) :
    KvIterator.next (lone dead c e) = .ok (lone dead c' (KvIterator.entry c)) := by
  have hheap : pushChild 1 c [] = [⟨1, KvIterator.entry c⟩] := by
    rw [pushChild, if_pos hv]
    rfl
  -- nothing is drained
  have hpop : MergingIterator.popKey e.key (lone dead c e).fuel (lone dead c e)
      = .ok (lone dead c e) := by
    simp only [MergingIterator.fuel, MergingIterator.popKey, lone, hheap, if_neg hkey]
    rfl
  have hcurrent : (lone dead c e).currentEntry = e := rfl
  show (lone dead c e).next = _
  rw [MergingIterator.next, if_neg (by simp [lone, hheap]), hcurrent, hpop, ok_bind]
  exact findMin_lone hv hn hne true e

/-- **The first entries** of the merge are those of the second child. -/
theorem leads_lone {out : List IteratorEntry} (h : Leads c out) :
    ∀ {e : IteratorEntry}, Ascending IteratorEntry.key (e :: out) →
      Leads (lone dead c e) (e :: out.dropLast) := by
  induction h with
  | @last c hv => exact fun _ => @Leads.last _ _ (lone dead c _) rfl
  | @more c c' out hv hn hs ih =>
      intro e hasc
      have hkey : (KvIterator.entry c).key ≠ e.key := (hasc.head_lt _ List.mem_cons_self).ne'
      have hnext := @next_lone _ _ c c' dead e hv hkey hn (fun _ => hs.next_ne hasc.tail)
      have hdrop : (KvIterator.entry c :: out).dropLast = KvIterator.entry c :: out.dropLast :=
        List.dropLast_cons_of_ne_nil (by rintro rfl; cases hs)
      rw [hdrop]
      exact @Leads.more _ _ (lone dead c e) _ _ rfl hnext (ih hasc.tail)

/-- The constructor, over a child with ascending entries to begin with. -/
theorem leads_new_lone {x : IteratorEntry} {out : List IteratorEntry} (h : Leads c (x :: out))
    (hn : KvIterator.next c = .ok c') (hs : Leads c' out)
    (hasc : Ascending IteratorEntry.key (x :: out)) (hd : KvIterator.valid dead = false) :
    MergingIterator.new [dead, c] = .ok (lone dead c' x)
      ∧ Leads (lone dead c' x) (x :: out.dropLast) := by
  obtain ⟨hv, hx⟩ := h.head
  subst hx
  exact ⟨new_lone hd hv hn (fun _ => hs.next_ne hasc), leads_lone hs hasc⟩

/-- `Seek`, when it brings the child to such entries. -/
theorem leads_seek_lone {dead' c₁ : I} {x : IteratorEntry} {out : List IteratorEntry}
    (h : Leads c₁ (x :: out)) (hne : out ≠ []) (hasc : Ascending IteratorEntry.key (x :: out))
    {t : Bytes} (hsd : KvIterator.seek dead t = .ok dead')
    (hd : KvIterator.valid dead' = false) (hsc : KvIterator.seek c t = .ok c₁)
    (e : IteratorEntry) :
    ∃ c', KvIterator.seek (lone dead c e) t = .ok (lone dead' c' x)
      ∧ Leads (lone dead' c' x) (x :: out.dropLast) := by
  cases h with
  | last _ => exact absurd rfl hne
  | more hv hn hs =>
      exact ⟨_, seek_lone hsd hd hsc hv hn (fun _ => hs.next_ne hasc) e, leads_lone hs hasc⟩

end Lone

end KvMerging
