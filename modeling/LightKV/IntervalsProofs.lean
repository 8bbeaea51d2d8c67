import Mathlib.Data.List.Pairwise
import Mathlib.Order.MinMax

/-! # Lists of intervals

    A `Span` is an interval of a linear order that is not empty, given by its two
    ends.  Spans are apart when there is something between them.  A list of spans
    that stand in order and apart is determined by what it covers
    (`eq_of_covers_iff`): two ways of merging the same spans give the same list. -/

namespace Intervals

variable {α : Type} [LinearOrder α]

/-- An interval with both its ends. -/
@[ext]
structure Span (α : Type) [LinearOrder α] where
  first : α
  last : α
  le : first ≤ last

/-- A point is in a span. -/
def Span.Holds (s : Span α) (c : α) : Prop := s.first ≤ c ∧ c ≤ s.last

/-- A point is in one of some spans. -/
def Covers (spans : List (Span α)) (c : α) : Prop := ∃ s ∈ spans, s.Holds c

/-- One span ends before another begins, with a point between them. -/
def Apart (a b : Span α) : Prop := ∃ c, a.last < c ∧ c < b.first

theorem Span.holds_first (s : Span α) : s.Holds s.first := ⟨le_rfl, s.le⟩

theorem Span.holds_last (s : Span α) : s.Holds s.last := ⟨s.le, le_rfl⟩

theorem covers_cons {s : Span α} {spans : List (Span α)} {c : α} :
    Covers (s :: spans) c ↔ s.Holds c ∨ Covers spans c := by
  simp only [Covers, List.mem_cons, exists_eq_or_imp]

theorem Apart.lt {a b : Span α} (h : Apart a b) : a.last < b.first := by
  obtain ⟨c, hac, hcb⟩ := h
  exact hac.trans hcb

variable {a b : Span α} {as bs : List (Span α)} {c : α}

/-- What the spans behind a span cover lies behind it. -/
theorem last_lt_of_covers (has : ∀ s ∈ as, Apart a s) (h : Covers as c) : a.last < c := by
  obtain ⟨s, hs, hc⟩ := h
  exact (has s hs).lt.trans_le hc.1

/-- Nothing is covered before the first span. -/
theorem first_le_of_covers (has : ∀ s ∈ as, Apart a s) (h : Covers (a :: as) c) :
    a.first ≤ c := by
  rcases covers_cons.mp h with h | h
  · exact h.1
  · exact a.le.trans (last_lt_of_covers has h).le

/-- **What stands behind the first span** is what is covered behind its last point. -/
theorem covers_tail_iff (has : ∀ s ∈ as, Apart a s) :
    Covers as c ↔ Covers (a :: as) c ∧ a.last < c := by
  constructor
  · intro h
    exact ⟨covers_cons.mpr (Or.inr h), last_lt_of_covers has h⟩
  · rintro ⟨h, hlt⟩
    rcases covers_cons.mp h with h | h
    · exact absurd h.2 hlt.not_ge
    · exact h

/-- **The first span ends** where the covered points have a gap. -/
theorem last_le_of_covers_imp (hpair : (a :: as).Pairwise Apart) (hfirst : a.first = b.first)
    (h : ∀ c, b.Holds c → Covers (a :: as) c) : b.last ≤ a.last := by
  by_contra hlt
  rw [not_le] at hlt
  have has := (List.pairwise_cons.mp hpair).1
  cases as with
  | nil =>
      rcases covers_cons.mp (h b.last b.holds_last) with hc | ⟨s, hs, -⟩
      · exact absurd hc.2 hlt.not_ge
      · exact absurd hs List.not_mem_nil
  | cons s as =>
      -- a point of `b` in the gap behind `a`
      obtain ⟨g, hag, hgs⟩ := has s List.mem_cons_self
      have hbehind : a.last < min g b.last := lt_min hag hlt
      have hin : b.Holds (min g b.last) :=
        ⟨hfirst ▸ a.le.trans hbehind.le, min_le_right _ _⟩
      have hcov : Covers (s :: as) (min g b.last) :=
        (covers_tail_iff has).mpr ⟨h _ hin, hbehind⟩
      have hs := first_le_of_covers (List.pairwise_cons.mp (List.pairwise_cons.mp hpair).2).1 hcov
      exact absurd (hs.trans (min_le_left _ _)) hgs.not_ge

/-- **Spans in order and apart** are determined by what they cover. -/
theorem eq_of_covers_iff (has : as.Pairwise Apart) (hbs : bs.Pairwise Apart)
    (h : ∀ c, Covers as c ↔ Covers bs c) : as = bs := by
  induction as generalizing bs with
  | nil =>
      cases bs with
      | nil => rfl
      | cons b bs =>
          obtain ⟨s, hs, -⟩ := (h b.first).mpr ⟨b, List.mem_cons_self, b.holds_first⟩
          exact absurd hs List.not_mem_nil
  | cons a as ih =>
      cases bs with
      | nil =>
          obtain ⟨s, hs, -⟩ := (h a.first).mp ⟨a, List.mem_cons_self, a.holds_first⟩
          exact absurd hs List.not_mem_nil
      | cons b bs =>
          obtain ⟨ha, has'⟩ := List.pairwise_cons.mp has
          obtain ⟨hb, hbs'⟩ := List.pairwise_cons.mp hbs
          have hfirst : a.first = b.first := le_antisymm
            (first_le_of_covers ha ((h _).mpr (covers_cons.mpr (Or.inl b.holds_first))))
            (first_le_of_covers hb ((h _).mp (covers_cons.mpr (Or.inl a.holds_first))))
          have hlast : a.last = b.last := le_antisymm
            (last_le_of_covers_imp hbs hfirst.symm
              (fun c hc => (h c).mp (covers_cons.mpr (Or.inl hc))))
            (last_le_of_covers_imp has hfirst
              (fun c hc => (h c).mpr (covers_cons.mpr (Or.inl hc))))
          obtain rfl : a = b := Span.ext hfirst hlast
          rw [ih has' hbs' (fun c => by rw [covers_tail_iff ha, covers_tail_iff hb, h])]

end Intervals
