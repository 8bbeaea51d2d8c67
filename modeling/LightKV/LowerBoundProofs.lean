import Mathlib.Data.List.Basic
import Mathlib.Order.MinMax

/-! # Lower bounds by halving

    A window of positions is halved until it is empty; what the test says of its
    middle decides which half is kept.  When the test holds up to some position
    and fails from there on, the search ends at that position
    (`search_eq_of_split`), so over a list it finds the first element that fails
    the test (`search_eq_findIdx`), as a walk from the front would. -/

namespace LowerBound

variable {α : Type}

/-- `std::lower_bound` over the `len` positions from `first` on. -/
def search (below : Nat → Bool) (first len : Nat) : Nat :=
  if len = 0 then first
  else if below (first + len / 2) then
    search below (first + len / 2 + 1) (len - len / 2 - 1)
  else search below first (len / 2)
termination_by len

/-- **The search ends where the test changes.** -/
theorem search_eq_of_split {below : Nat → Bool} {p : Nat} :
    ∀ (first len : Nat), first ≤ p → p ≤ first + len →
      (∀ i, first ≤ i → i < p → below i = true) →
      (∀ i, p ≤ i → i < first + len → below i = false) →
      search below first len = p := by
  intro first len
  induction first, len using search.induct below with
  | case1 first =>
      intro hfirst hp _ _
      rw [search, if_pos rfl]
      omega
  | case2 first len hlen hbelow ih =>
      intro hfirst hp hlow hhigh
      -- the middle lies in front of `p`
      have hmid : first + len / 2 < p := by
        by_contra hc
        have hfalse := hhigh (first + len / 2) (Nat.le_of_not_lt hc) (by omega)
        rw [hbelow] at hfalse
        cases hfalse
      rw [search, if_neg hlen, if_pos hbelow]
      refine ih hmid (by omega) ?_ ?_
      · intro i hi hip
        exact hlow i (by omega) hip
      · intro i hi hil
        exact hhigh i hi (by omega)
  | case3 first len hlen hbelow ih =>
      intro hfirst hp hlow hhigh
      have hmid : p ≤ first + len / 2 := by
        by_contra hc
        exact hbelow (hlow (first + len / 2) (by omega) (Nat.lt_of_not_le hc))
      rw [search, if_neg hlen, if_neg hbelow]
      refine ih hfirst hmid hlow ?_
      intro i hi hil
      exact hhigh i hi (by omega)

/-- **In a list whose later elements pass only if the earlier ones do**, the
    search finds the first that fails. -/
theorem search_eq_findIdx {q : α → Bool} {l : List α}
    (h : l.Pairwise (fun a b => q b = true → q a = true)) :
    search (fun i => l[i]?.any q) 0 l.length = l.findIdx (fun a => !q a) := by
  refine search_eq_of_split 0 l.length (Nat.zero_le _) ?_ ?_ ?_
  · rw [Nat.zero_add]
    exact List.findIdx_le_length
  · intro i _ hi
    have hlt : i < l.length := Nat.lt_of_lt_of_le hi List.findIdx_le_length
    have hpass := List.not_of_lt_findIdx hi
    rw [List.getElem?_eq_getElem hlt]
    simpa using hpass
  · intro i hi hlen
    rw [Nat.zero_add] at hlen
    have hfirst := Nat.lt_of_le_of_lt hi hlen
    have hat : q l[l.findIdx (fun a => !q a)] = false := by
      simpa using List.findIdx_getElem (p := fun a => !q a) (w := hfirst)
    have hfail : q l[i] = false := by
      rcases Nat.eq_or_lt_of_le hi with heq | hlt
      · subst heq
        exact hat
      · -- a later element that passes would have the first failing one pass
        have hback := List.pairwise_iff_getElem.mp h _ i hfirst hlen hlt
        by_contra hc
        simp [hback (by simpa using hc)] at hat
    rw [List.getElem?_eq_getElem hlen]
    exact hfail

/-- **Over ascending keys** it finds the first element at or above a key. -/
theorem search_lt_eq_findIdx {K : Type} [LinearOrder K] {key : α → K} {l : List α}
    (h : l.Pairwise (fun a b => key a < key b)) (t : K) :
    search (fun i => l[i]?.any (fun a => key a < t)) 0 l.length
      = l.findIdx (fun a => !decide (key a < t)) := by
  refine search_eq_findIdx (h.imp ?_)
  intro a b hab hb
  exact decide_eq_true (hab.trans (of_decide_eq_true hb))

end LowerBound
