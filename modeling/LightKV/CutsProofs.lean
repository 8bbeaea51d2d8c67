import Mathlib.Data.List.Count
import Mathlib.Data.List.Nodup
import Mathlib.Data.List.Range
import Mathlib.Order.MinMax

/-! # Cutting an order into parts

    Ascending cuts divide a linear order into parts: the first has no lower bound, the
    last no upper one, and every other one goes from its cut up to the next.  Every
    point is in exactly one part (`countP_within`). -/

namespace Cutting

variable {α : Type} [LinearOrder α]

/-- **Cuts** between a number of parts; the one below part `i` is `cut i`. -/
structure Cuts (α : Type) [LinearOrder α] where
  parts : Nat
  pos : 0 < parts
  cut : Nat → α
  ascending : ∀ i, 1 ≤ i → i + 1 < parts → cut i < cut (i + 1)

/-- A point is in a part. -/
def Cuts.Within (c : Cuts α) (i : Nat) (x : α) : Prop :=
  (i = 0 ∨ c.cut i ≤ x) ∧ (i + 1 = c.parts ∨ x < c.cut (i + 1))

instance instDecidableWithin (c : Cuts α) (i : Nat) (x : α) : Decidable (c.Within i x) :=
  inferInstanceAs (Decidable (_ ∧ _))

variable (c : Cuts α)

/-- A later cut is a higher one. -/
theorem Cuts.cut_lt {i j : Nat} (hi : 1 ≤ i) (hij : i < j) (hj : j < c.parts) :
    c.cut i < c.cut j := by
  induction j with
  | zero => exact absurd hij (Nat.not_lt_zero _)
  | succ j ih =>
      rcases Nat.lt_or_eq_of_le (Nat.le_of_lt_succ hij) with hlt | rfl
      · exact (ih hlt (Nat.lt_of_succ_lt hj)).trans (c.ascending j (hi.trans hlt.le) hj)
      · exact c.ascending i hi hj

theorem Cuts.cut_le {i j : Nat} (hi : 1 ≤ i) (hij : i ≤ j) (hj : j < c.parts) :
    c.cut i ≤ c.cut j := by
  rcases Nat.lt_or_eq_of_le hij with hlt | rfl
  · exact (c.cut_lt hi hlt hj).le
  · exact le_rfl

/-- A point of one part is in no later one. -/
theorem Cuts.not_within_of_lt {i j : Nat} {x : α} (hij : i < j) (hj : j < c.parts)
    (hi : c.Within i x) : ¬ c.Within j x := by
  rintro ⟨hlow | hlow, -⟩
  · omega
  · rcases hi.2 with hlast | hup
    · omega
    · exact absurd (hup.trans_le (c.cut_le (Nat.le_add_left 1 i) hij hj)) hlow.not_gt

/-- Some part below a cut that a point has not reached has the point. -/
theorem Cuts.exists_within_of_lt {k : Nat} {x : α} (hk : k < c.parts)
    (hup : k + 1 = c.parts ∨ x < c.cut (k + 1)) : ∃ i, i ≤ k ∧ c.Within i x := by
  induction k with
  | zero => exact ⟨0, le_rfl, Or.inl rfl, hup⟩
  | succ k ih =>
      rcases lt_or_ge x (c.cut (k + 1)) with hlt | hge
      · obtain ⟨i, hi, hin⟩ := ih (Nat.lt_of_succ_lt hk) (Or.inr hlt)
        exact ⟨i, Nat.le_succ_of_le hi, hin⟩
      · exact ⟨k + 1, le_rfl, Or.inr hge, hup⟩

/-- **Every point is in one part.** -/
theorem Cuts.exists_within (x : α) :
    ∃ i, i < c.parts ∧ c.Within i x ∧ ∀ j, j < c.parts → c.Within j x → j = i := by
  have hpos := c.pos
  obtain ⟨i, hi, hin⟩ := c.exists_within_of_lt (k := c.parts - 1) (x := x) (by omega)
    (Or.inl (by omega))
  refine ⟨i, by omega, hin, ?_⟩
  intro j hj hjn
  rcases Nat.lt_trichotomy i j with hlt | rfl | hgt
  · exact absurd hjn (c.not_within_of_lt hlt hj hin)
  · rfl
  · exact absurd hin (c.not_within_of_lt hgt (by omega) hjn)

/-- **Every point is counted once.** -/
theorem Cuts.countP_within (x : α) :
    (List.range c.parts).countP (fun i => c.Within i x) = 1 := by
  obtain ⟨i, hi, hin, honly⟩ := c.exists_within x
  have hcongr : (List.range c.parts).countP (fun j => c.Within j x)
      = (List.range c.parts).count i := by
    refine List.countP_congr ?_
    intro j hj
    rw [decide_eq_true_iff, beq_iff_eq]
    constructor
    · exact honly j (List.mem_range.mp hj)
    · rintro rfl
      exact hin
  rw [hcongr]
  exact List.count_eq_one_of_mem List.nodup_range (List.mem_range.mpr hi)

end Cutting
