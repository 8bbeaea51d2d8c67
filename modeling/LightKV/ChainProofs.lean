import Mathlib.Data.List.Basic

/-! # Singly linked chains

    A memory of cells with at most one successor each is a partial function
    `next`.  `Linked next a l` says that following `next` from `a` visits
    exactly the cells of `l`, in order, and then stops.  The lemmas are the
    ones a proof about pointer code needs: a chain is determined by its start,
    survives changes elsewhere, gains one cell by one insertion, and loses one
    by one removal. -/

namespace Chain

variable {α : Type}

/-- Following `next` from `a` visits the cells of `l` and stops. -/
def Linked (next : α → Option α) : α → List α → Prop
  | a, [] => next a = none
  | a, b :: l => next a = some b ∧ Linked next b l

/-- The last cell of `l`, or `a` when there is none. -/
def lastOf (a : α) : List α → α
  | [] => a
  | b :: l => lastOf b l

theorem lastOf_append (a : α) (l₁ l₂ : List α) :
    lastOf a (l₁ ++ l₂) = lastOf (lastOf a l₁) l₂ := by
  induction l₁ generalizing a with
  | nil => rfl
  | cons b l ih => exact ih b

theorem lastOf_mem (a : α) (l : List α) : lastOf a l ∈ a :: l := by
  induction l generalizing a with
  | nil => exact List.mem_cons_self
  | cons b l ih => exact List.mem_cons_of_mem _ (ih b)

/-- The rest of a chain hangs off the last cell of its front. -/
theorem linked_append {next : α → Option α} {a : α} {l₁ l₂ : List α}
    (h : Linked next a (l₁ ++ l₂)) : Linked next (lastOf a l₁) l₂ := by
  induction l₁ generalizing a with
  | nil => exact h
  | cons b l ih => exact ih h.2

theorem linked_head {next : α → Option α} {a : α} {l : List α} (h : Linked next a l) :
    next a = l.head? := by
  cases l with
  | nil => exact h
  | cons b l => exact h.1

/-- The successor of the last cell of the front is the first cell of the
    rest. -/
theorem next_lastOf {next : α → Option α} {a : α} {l₁ l₂ : List α}
    (h : Linked next a (l₁ ++ l₂)) : next (lastOf a l₁) = l₂.head? :=
  linked_head (linked_append h)

/-- A chain only depends on the successors of the cells it visits. -/
theorem linked_congr {next next' : α → Option α} {a : α} {l : List α}
    (hag : ∀ b ∈ a :: l, next' b = next b) (h : Linked next a l) :
    Linked next' a l := by
  induction l generalizing a with
  | nil => exact (hag a List.mem_cons_self).trans h
  | cons b l ih =>
      exact ⟨(hag a List.mem_cons_self).trans h.1,
        ih (fun c hc => hag c (List.mem_cons_of_mem _ hc)) h.2⟩

/-- A cell that leads where another one led starts the same chain. -/
theorem linked_of_next_eq {next next' : α → Option α} {a b : α} {l : List α}
    (hb : next' b = next a) (hag : ∀ c ∈ l, next' c = next c) (h : Linked next a l) :
    Linked next' b l := by
  cases l with
  | nil => exact hb.trans h
  | cons c l => exact ⟨hb.trans h.1, linked_congr hag h.2⟩

/-- **Relinking.**  What hangs off the last cell of the front may be exchanged. -/
theorem linked_relink {next next' : α → Option α} {a : α} {l₁ l₂ l : List α}
    (h : Linked next a (l₁ ++ l₂)) (hnd : (a :: l₁).Nodup)
    (hrest : Linked next' (lastOf a l₁) l)
    (hag : ∀ b ∈ a :: l₁, b ≠ lastOf a l₁ → next' b = next b) :
    Linked next' a (l₁ ++ l) := by
  induction l₁ generalizing a with
  | nil => exact hrest
  | cons b l₁ ih =>
      obtain ⟨ha, hnd'⟩ := List.nodup_cons.mp hnd
      have hab : a ≠ lastOf b l₁ := by
        intro hEq
        exact ha (hEq ▸ lastOf_mem b l₁)
      refine ⟨(hag a List.mem_cons_self hab).trans h.1, ?_⟩
      refine ih h.2 hnd' hrest ?_
      intro c hc hne
      exact hag c (List.mem_cons_of_mem _ hc) hne

/-- The cells behind the front are none of its own. -/
theorem ne_lastOf_of_nodup {a b : α} {l₁ l₂ : List α} (hnd : (a :: (l₁ ++ l₂)).Nodup)
    (hb : b ∈ l₂) : b ≠ lastOf a l₁ := by
  rintro rfl
  rw [← List.cons_append] at hnd
  exact (List.nodup_append.mp hnd).2.2 _ (lastOf_mem a l₁) _ hb rfl

/-- **Insertion.**  Pointing the last cell of the front at a new cell, and the
    new cell at the rest, puts the new cell between the two. -/
theorem linked_insert {next next' : α → Option α} {a n : α} {l₁ l₂ : List α}
    (h : Linked next a (l₁ ++ l₂)) (hnd : (a :: (l₁ ++ l₂)).Nodup)
    (hp : next' (lastOf a l₁) = some n)
    (hn : next' n = next (lastOf a l₁))
    (hag : ∀ b ∈ a :: (l₁ ++ l₂), b ≠ lastOf a l₁ → next' b = next b) :
    Linked next' a (l₁ ++ n :: l₂) := by
  have hbehind : ∀ b ∈ l₂, next' b = next b := by
    intro b hb
    exact hag b (List.mem_cons_of_mem _ (List.mem_append_right _ hb)) (ne_lastOf_of_nodup hnd hb)
  rw [← List.cons_append] at hnd hag
  refine linked_relink h (List.nodup_append.mp hnd).1 ⟨hp, ?_⟩ ?_
  · exact linked_of_next_eq hn hbehind (linked_append h)
  · intro b hb hne
    exact hag b (List.mem_append_left _ hb) hne

/-- **Removal.**  Pointing the last cell of the front at what comes behind a
    cell takes that cell out of the chain. -/
theorem linked_remove {next next' : α → Option α} {a n : α} {l₁ l₂ : List α}
    (h : Linked next a (l₁ ++ n :: l₂)) (hnd : (a :: (l₁ ++ l₂)).Nodup)
    (hp : next' (lastOf a l₁) = next n)
    (hag : ∀ b ∈ a :: (l₁ ++ l₂), b ≠ lastOf a l₁ → next' b = next b) :
    Linked next' a (l₁ ++ l₂) := by
  have hbehind : ∀ b ∈ l₂, next' b = next b := by
    intro b hb
    exact hag b (List.mem_cons_of_mem _ (List.mem_append_right _ hb)) (ne_lastOf_of_nodup hnd hb)
  rw [← List.cons_append] at hnd hag
  -- the cell that goes comes right behind the front
  refine linked_relink h (List.nodup_append.mp hnd).1 ?_ ?_
  · exact linked_of_next_eq hp hbehind (linked_append h).2
  · intro b hb hne
    exact hag b (List.mem_append_left _ hb) hne

/-- The cells of a list that satisfy a test, seen from the last one of them:
    a front that ends there, and a rest. -/
theorem exists_split_lastOf_filter {β : Type} (p : β → Bool) (f : β → α) (a : α) (l : List β) :
    ∃ l₁ l₂, l = l₁ ++ l₂ ∧ lastOf a (l₁.map f) = lastOf a ((l.filter p).map f) := by
  induction l generalizing a with
  | nil => exact ⟨[], [], rfl, rfl⟩
  | cons b l ih =>
      by_cases hb : p b = true
      · obtain ⟨l₁, l₂, hl, hlast⟩ := ih (f b)
        refine ⟨b :: l₁, l₂, by rw [hl]; rfl, ?_⟩
        rw [List.filter_cons_of_pos hb]
        exact hlast
      · rw [List.filter_cons_of_neg hb]
        cases hf : l.filter p with
        | nil => exact ⟨[], b :: l, rfl, rfl⟩
        | cons c r =>
            obtain ⟨l₁, l₂, hl, hlast⟩ := ih (f b)
            refine ⟨b :: l₁, l₂, by rw [hl]; rfl, ?_⟩
            rw [hf] at hlast
            exact hlast

end Chain
