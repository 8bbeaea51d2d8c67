import Mathlib.Data.List.Lookmap
import Mathlib.Data.List.Sort
import Mathlib.Order.Basic
import Mathlib.Order.Lattice

/-! # Sorted association lists and layers of them

    A finite map is an association list with strictly ascending keys.  A stack
    of such lists, newest first, is read through `overlay`: the first layer
    that holds the key decides.  This is the mathematics of every log-structured
    store; nothing here knows of files or of bytes. -/

namespace Overlay

variable {K V : Type} [LinearOrder K]

/-! ## One layer -/

/-- Keys strictly ascend. -/
def KeySorted (l : List (K × V)) : Prop := l.Pairwise (fun a b => a.1 < b.1)

theorem keySorted_nil : KeySorted ([] : List (K × V)) := List.Pairwise.nil

theorem keySorted_cons {a : K × V} {l : List (K × V)} :
    KeySorted (a :: l) ↔ (∀ b ∈ l, a.1 < b.1) ∧ KeySorted l :=
  List.pairwise_cons

theorem KeySorted.tail {a : K × V} {l : List (K × V)} (h : KeySorted (a :: l)) :
    KeySorted l := (keySorted_cons.mp h).2

/-- A key below every key of a list is not in it. -/
theorem lookup_eq_none_of_lt {k : K} {l : List (K × V)} (h : ∀ b ∈ l, k < b.1) :
    l.lookup k = none := by
  induction l with
  | nil => rfl
  | cons b l ih =>
      have hb : (k == b.1) = false := beq_false_of_ne (h b List.mem_cons_self).ne
      rw [List.lookup_cons, hb]
      exact ih (fun c hc => h c (List.mem_cons_of_mem _ hc))

/-- What a lookup finds is in the list. -/
theorem mem_of_lookup {k : K} {v : V} {l : List (K × V)} (h : l.lookup k = some v) :
    (k, v) ∈ l := by
  induction l with
  | nil => cases h
  | cons b l ih =>
      rw [List.lookup_cons] at h
      cases hb : k == b.1 with
      | true =>
          rw [hb] at h
          have hk : k = b.1 := eq_of_beq hb
          have hv : b.2 = v := Option.some.inj h
          subst hk
          subst hv
          exact List.mem_cons_self
      | false =>
          rw [hb] at h
          exact List.mem_cons_of_mem _ (ih h)

/-- **In a sorted list a lookup finds exactly the members.** -/
theorem lookup_eq_some_iff {k : K} {v : V} {l : List (K × V)} (hs : KeySorted l) :
    l.lookup k = some v ↔ (k, v) ∈ l := by
  refine ⟨mem_of_lookup, ?_⟩
  induction l with
  | nil => intro h; cases h
  | cons b l ih =>
      intro h
      obtain ⟨hlt, hs'⟩ := keySorted_cons.mp hs
      rw [List.lookup_cons]
      rcases List.mem_cons.mp h with heq | hmem
      · subst heq
        simp
      · have hne : (k == b.1) = false := beq_false_of_ne (hlt _ hmem).ne'
        rw [hne]
        exact ih hs' hmem

theorem lookup_eq_none_iff_forall {k : K} {l : List (K × V)} :
    l.lookup k = none ↔ ∀ b ∈ l, b.1 ≠ k := by
  rw [List.lookup_eq_none_iff]
  constructor
  · intro h b hb hk
    have := h b hb
    simp [hk] at this
  · intro h b hb
    exact bne_iff_ne.mpr (fun hk => h b hb hk.symm)

/-- Lists sorted by a key are equal when they have the same members. -/
theorem eq_of_mem_iff {A : Type} {key : A → K} {l l' : List A}
    (hs : l.Pairwise (fun a b => key a < key b)) (hs' : l'.Pairwise (fun a b => key a < key b))
    (h : ∀ a, a ∈ l ↔ a ∈ l') : l = l' := by
  have _ : Std.Irrefl (fun a b : A => key a < key b) := ⟨fun a => lt_irrefl (key a)⟩
  have _ : Std.Antisymm (fun a b : A => key a < key b) :=
    ⟨fun a b hab hba => absurd hab (lt_asymm hba)⟩
  exact hs.eq_of_mem_iff hs' h

/-- **Extensionality.**  Sorted lists with the same lookups are equal. -/
theorem eq_of_lookup_eq {l l' : List (K × V)} (hs : KeySorted l) (hs' : KeySorted l')
    (h : ∀ k, l.lookup k = l'.lookup k) : l = l' := by
  refine eq_of_mem_iff hs hs' ?_
  intro a
  rw [← lookup_eq_some_iff hs, ← lookup_eq_some_iff hs', h]

theorem mem_map_fst_iff {l : List (K × V)} {k : K} :
    k ∈ l.map Prod.fst ↔ (l.lookup k).isSome := by
  rw [← not_iff_not, Bool.not_eq_true, Option.isSome_eq_false_iff, Option.isNone_iff_eq_none,
    lookup_eq_none_iff_forall]
  simp only [List.mem_map, not_exists, not_and, ne_eq]

/-- **A layer's length** is the number of its keys. -/
theorem length_eq_of_keys {l : List (K × V)} (hs : KeySorted l) {ks : List K} (hks : ks.Nodup)
    (h : ∀ k, (l.lookup k).isSome ↔ k ∈ ks) : l.length = ks.length := by
  have hnodup : (l.map Prod.fst).Nodup := List.Pairwise.map Prod.fst (fun _ _ hab => ne_of_lt hab) hs
  have hperm : (l.map Prod.fst).Perm ks :=
    (List.perm_ext_iff_of_nodup hnodup hks).mpr fun k => mem_map_fst_iff.trans (h k)
  rw [← hperm.length_eq, List.length_map]

/-- Layers with the same keys list them alike. -/
theorem keys_eq_of_isSome {W : Type} {l : List (K × V)} {l' : List (K × W)} (hs : KeySorted l)
    (hs' : KeySorted l') (h : ∀ k, (l.lookup k).isSome ↔ (l'.lookup k).isSome) :
    l.map Prod.fst = l'.map Prod.fst := by
  have hasc : (l.map Prod.fst).Pairwise (· < ·) := List.pairwise_map.mpr hs
  have hasc' : (l'.map Prod.fst).Pairwise (· < ·) := List.pairwise_map.mpr hs'
  have hperm : (l.map Prod.fst).Perm (l'.map Prod.fst) := by
    refine (List.perm_ext_iff_of_nodup (hasc.imp ne_of_lt) (hasc'.imp ne_of_lt)).mpr ?_
    intro k
    rw [mem_map_fst_iff, mem_map_fst_iff]
    exact h k
  exact hperm.eq_of_pairwise (fun a b _ _ hab hba => absurd hab (not_lt_of_gt hba)) hasc hasc'

theorem lookup_append (l₁ l₂ : List (K × V)) (k : K) :
    (l₁ ++ l₂).lookup k = (l₁.lookup k).or (l₂.lookup k) := by
  induction l₁ with
  | nil => rfl
  | cons b l ih =>
      rw [List.cons_append, List.lookup_cons, List.lookup_cons]
      cases hb : k == b.1 with
      | true => rfl
      | false => exact ih

/-! ## Writing into a layer -/

/-- Insert a key in order, or replace its value. -/
def upsert (k : K) (v : V) : List (K × V) → List (K × V)
  | [] => [(k, v)]
  | b :: l =>
      if b.1 < k then b :: upsert k v l
      else if b.1 = k then (k, v) :: l
      else (k, v) :: b :: l

theorem upsert_append_of_lt {k : K} {v : V} {l₁ l₂ : List (K × V)}
    (h : ∀ b ∈ l₁, b.1 < k) : upsert k v (l₁ ++ l₂) = l₁ ++ upsert k v l₂ := by
  induction l₁ with
  | nil => rfl
  | cons b l ih =>
      rw [List.cons_append, upsert, if_pos (h b List.mem_cons_self),
        ih (fun c hc => h c (List.mem_cons_of_mem _ hc))]
      rfl

theorem mem_upsert_key {k : K} {v : V} {l : List (K × V)} {b : K × V}
    (h : b ∈ upsert k v l) : b = (k, v) ∨ b ∈ l := by
  induction l with
  | nil => exact Or.inl (List.mem_singleton.mp h)
  | cons c l ih =>
      rw [upsert] at h
      split at h
      · rcases List.mem_cons.mp h with heq | hmem
        · exact Or.inr (heq ▸ List.mem_cons_self)
        · rcases ih hmem with h' | h'
          · exact Or.inl h'
          · exact Or.inr (List.mem_cons_of_mem _ h')
      · split at h
        · rcases List.mem_cons.mp h with heq | hmem
          · exact Or.inl heq
          · exact Or.inr (List.mem_cons_of_mem _ hmem)
        · rcases List.mem_cons.mp h with heq | hmem
          · exact Or.inl heq
          · exact Or.inr hmem

theorem keySorted_upsert {k : K} {v : V} {l : List (K × V)} (hs : KeySorted l) :
    KeySorted (upsert k v l) := by
  induction l with
  | nil => exact keySorted_cons.mpr ⟨by simp, keySorted_nil⟩
  | cons b l ih =>
      obtain ⟨hlt, hs'⟩ := keySorted_cons.mp hs
      rw [upsert]
      by_cases h1 : b.1 < k
      · rw [if_pos h1]
        refine keySorted_cons.mpr ⟨?_, ih hs'⟩
        intro c hc
        rcases mem_upsert_key hc with heq | hmem
        · rw [heq]
          exact h1
        · exact hlt c hmem
      · rw [if_neg h1]
        by_cases h2 : b.1 = k
        · rw [if_pos h2]
          refine keySorted_cons.mpr ⟨?_, hs'⟩
          intro c hc
          rw [← h2]
          exact hlt c hc
        · rw [if_neg h2]
          have hkb : k < b.1 := lt_of_le_of_ne (not_lt.mp h1) (Ne.symm h2)
          refine keySorted_cons.mpr ⟨?_, hs⟩
          intro c hc
          rcases List.mem_cons.mp hc with heq | hmem
          · rw [heq]
            exact hkb
          · exact hkb.trans (hlt c hmem)

/-- **A write is read back, and changes nothing else.** -/
theorem lookup_upsert (k k' : K) (v : V) (l : List (K × V)) :
    (upsert k v l).lookup k' = if k' = k then some v else l.lookup k' := by
  induction l with
  | nil =>
      rw [upsert, List.lookup_cons]
      by_cases h : k' = k
      · rw [if_pos h, beq_iff_eq.mpr h]
      · rw [if_neg h, beq_false_of_ne h]
  | cons b l ih =>
      rw [upsert]
      by_cases h1 : b.1 < k
      · rw [if_pos h1, List.lookup_cons, List.lookup_cons, ih]
        by_cases hb : k' = b.1
        · have hk : k' ≠ k := by
            rw [hb]
            exact h1.ne
          simp only [beq_iff_eq.mpr hb, if_neg hk]
        · rw [beq_false_of_ne hb]
      · rw [if_neg h1]
        by_cases h2 : b.1 = k
        · rw [if_pos h2, List.lookup_cons, List.lookup_cons, h2]
          by_cases h : k' = k
          · rw [if_pos h, beq_iff_eq.mpr h]
          · rw [if_neg h, beq_false_of_ne h]
        · rw [if_neg h2, List.lookup_cons]
          by_cases h : k' = k
          · rw [if_pos h, beq_iff_eq.mpr h]
          · rw [if_neg h, beq_false_of_ne h]

/-- A new key makes a layer longer by one, and a key it has does not. -/
theorem length_upsert {k : K} {v : V} {l : List (K × V)} (hs : KeySorted l) :
    (upsert k v l).length = if (l.lookup k).isSome then l.length else l.length + 1 := by
  have hnodup : (l.map Prod.fst).Nodup := List.Pairwise.map Prod.fst (fun _ _ hab => ne_of_lt hab) hs
  split
  case isTrue hk =>
      refine (length_eq_of_keys (keySorted_upsert hs) hnodup fun k' => ?_).trans (List.length_map _)
      rw [lookup_upsert, mem_map_fst_iff]
      split
      case isTrue heq => exact iff_of_true rfl (heq ▸ hk)
      case isFalse => exact Iff.rfl
  case isFalse hk =>
      have hnew : (k :: l.map Prod.fst).Nodup :=
        List.nodup_cons.mpr ⟨fun hmem => hk (mem_map_fst_iff.mp hmem), hnodup⟩
      refine (length_eq_of_keys (keySorted_upsert hs) hnew fun k' => ?_).trans
        (congrArg Nat.succ (List.length_map _))
      rw [lookup_upsert, List.mem_cons, mem_map_fst_iff]
      split
      case isTrue heq => exact iff_of_true rfl (Or.inl heq)
      case isFalse hne => exact (or_iff_right hne).symm

/-! ## Taking a key out of a layer -/

/-- Remove a key. -/
def discard (k : K) (l : List (K × V)) : List (K × V) := l.filter (fun b => !(b.1 == k))

theorem keySorted_discard {l : List (K × V)} (h : KeySorted l) (k : K) :
    KeySorted (discard k l) := List.Pairwise.sublist List.filter_sublist h

theorem mem_discard {k : K} {l : List (K × V)} {b : K × V} (h : b ∈ discard k l) : b ∈ l :=
  (List.mem_filter.mp h).1

/-- **Removing a key** takes that key away and no other. -/
theorem lookup_discard (l : List (K × V)) (k k' : K) :
    (discard k l).lookup k' = if k' = k then none else l.lookup k' := by
  induction l with
  | nil => simp [discard]
  | cons b l ih =>
      by_cases hb : b.1 = k
      · have hdrop : discard k (b :: l) = discard k l := by simp [discard, hb]
        rw [hdrop, ih, List.lookup_cons]
        by_cases hk : k' = k
        · rw [if_pos hk, if_pos hk]
        · rw [if_neg hk, if_neg hk, beq_false_of_ne (hb ▸ hk)]
      · have hkeep : discard k (b :: l) = b :: discard k l := by simp [discard, hb]
        rw [hkeep, List.lookup_cons, ih, List.lookup_cons]
        by_cases hkb : k' = b.1
        · have hk : k' ≠ k := hkb ▸ hb
          rw [beq_iff_eq.mpr hkb, if_neg hk, if_neg hk]
        · rw [beq_false_of_ne hkb]

/-- Removing what is not there changes nothing. -/
theorem discard_of_lookup_none {k : K} {l : List (K × V)} (hs : KeySorted l)
    (h : l.lookup k = none) : discard k l = l := by
  refine eq_of_lookup_eq (keySorted_discard hs k) hs ?_
  intro k'
  rw [lookup_discard]
  split
  · rename_i hk
    rw [hk, h]
  · rfl

/-- Writing what is there already changes nothing. -/
theorem upsert_of_lookup {k : K} {v : V} {l : List (K × V)} (hs : KeySorted l)
    (h : l.lookup k = some v) : upsert k v l = l := by
  refine eq_of_lookup_eq (keySorted_upsert hs) hs ?_
  intro k'
  rw [lookup_upsert]
  split
  · rename_i hk
    rw [hk, h]
  · rfl

/-- Writing the last key. -/
theorem upsert_last {k : K} {l : List (K × V)} (hs : KeySorted l)
    (h : ∀ k', (l.lookup k').isSome → k' ≤ k) (v : V) :
    upsert k v l = discard k l ++ [(k, v)] := by
  have hlt : ∀ b ∈ discard k l, b.1 < k := by
    intro b hb
    obtain ⟨hbl, hne⟩ := List.mem_filter.mp hb
    have hlook := (lookup_eq_some_iff (k := b.1) (v := b.2) hs).mpr hbl
    refine lt_of_le_of_ne (h b.1 (by rw [hlook]; rfl)) ?_
    simpa using hne
  have hput : upsert k v (discard k l ++ []) = discard k l ++ [(k, v)] := upsert_append_of_lt hlt
  rw [List.append_nil] at hput
  rw [← hput]
  refine eq_of_lookup_eq (keySorted_upsert hs) (keySorted_upsert (keySorted_discard hs k)) ?_
  intro k'
  rw [lookup_upsert, lookup_upsert, lookup_discard]
  split
  · rfl
  · rfl

/-! ## A stack of layers -/

/-- The first layer that holds the key decides. -/
def overlay (ls : List (List (K × V))) (k : K) : Option V :=
  ls.findSome? (fun l => l.lookup k)

@[simp] theorem overlay_nil (k : K) : overlay ([] : List (List (K × V))) k = none := rfl

theorem overlay_cons (l : List (K × V)) (ls : List (List (K × V))) (k : K) :
    overlay (l :: ls) k = (l.lookup k).or (overlay ls k) := by
  unfold overlay
  rw [List.findSome?_cons]
  cases l.lookup k <;> rfl

theorem overlay_append (ls ms : List (List (K × V))) (k : K) :
    overlay (ls ++ ms) k = (overlay ls k).or (overlay ms k) := by
  induction ls with
  | nil => rfl
  | cons l ls ih => rw [List.cons_append, overlay_cons, ih, overlay_cons, Option.or_assoc]

end Overlay
