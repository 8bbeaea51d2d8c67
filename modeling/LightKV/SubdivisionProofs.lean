import Mathlib.Algebra.BigOperators.Group.List.Basic
import Mathlib.Tactic.Ring

/-! # Subdividing with a stack

    A `Subdivision` says which things are small and into which parts the others are
    divided, and gives every thing a weight that its parts together do not reach.  A
    loop with a stack keeps the small things and puts the parts of the others back.
    It ends, with the leaves of what was on its stack (`run_spec`), and whatever the
    parts share out the leaves share out (`Additive`). -/

namespace Subdividing

variable {α : Type}

/-- **A way to subdivide** things. -/
structure Subdivision (α : Type) where
  Good : α → Prop
  Small : α → Prop
  parts : α → List α
  weight : α → Nat
  good_parts : ∀ {a}, Good a → ¬ Small a → ∀ b ∈ parts a, Good b
  weight_pos : ∀ a, 0 < weight a
  lighter : ∀ {a}, Good a → ¬ Small a → ((parts a).map weight).sum < weight a

/-- The small things that dividing again and again comes to. -/
inductive Subdivision.Leaf (s : Subdivision α) : α → α → Prop
  | small {a : α} : s.Small a → Leaf s a a
  | part {a b c : α} : ¬ s.Small a → b ∈ s.parts a → Leaf s b c → Leaf s a c

/-- A measure that the parts of a thing share out. -/
def Subdivision.Additive (s : Subdivision α) (m : α → Nat) : Prop :=
  ∀ a, s.Good a → ¬ s.Small a → ((s.parts a).map m).sum = m a

variable {s : Subdivision α}

/-- A leaf is small, and a leaf of a good thing is good. -/
theorem Subdivision.Leaf.good_small {a b : α} (h : s.Leaf a b) (ha : s.Good a) :
    s.Good b ∧ s.Small b := by
  induction h with
  | small hsmall => exact ⟨ha, hsmall⟩
  | part hlarge hb _ ih => exact ih (s.good_parts ha hlarge _ hb)

theorem Subdivision.leaf_iff_of_small {a b : α} (h : s.Small a) : s.Leaf a b ↔ b = a := by
  constructor
  · intro hl
    cases hl with
    | small _ => rfl
    | part hlarge _ _ => exact absurd h hlarge
  · rintro rfl
    exact .small h

theorem Subdivision.leaf_iff_of_large {a c : α} (h : ¬ s.Small a) :
    s.Leaf a c ↔ ∃ b ∈ s.parts a, s.Leaf b c := by
  constructor
  · intro hl
    cases hl with
    | small hsmall => exact absurd hsmall h
    | part _ hb hl => exact ⟨_, hb, hl⟩
  · rintro ⟨b, hb, hl⟩
    exact .part h hb hl

/-! ## The loop -/

/-- The loop: a thing is kept when it is small, and else its parts go on the stack.
    Without fuel it is not done. -/
def Subdivision.run (s : Subdivision α) [DecidablePred s.Small] :
    Nat → List α → List α → Option (List α)
  | 0, _, _ => none
  | _ + 1, [], kept => some kept
  | fuel + 1, a :: stack, kept =>
      if s.Small a then s.run fuel stack (kept ++ [a]) else s.run fuel (s.parts a ++ stack) kept

/-- What the loop leaves of a stack. -/
structure Subdivision.Leaves (s : Subdivision α) (stack out : List α) : Prop where
  mem_iff : ∀ b, b ∈ out ↔ ∃ a ∈ stack, s.Leaf a b
  sum_eq : ∀ m, s.Additive m → (out.map m).sum = (stack.map m).sum

theorem Subdivision.Leaves.nil : s.Leaves [] [] :=
  ⟨fun _ => by simp, fun _ _ => rfl⟩

/-- A small thing is its own leaf. -/
theorem Subdivision.Leaves.cons {a : α} {stack out : List α} (h : s.Leaves stack out)
    (ha : s.Small a) : s.Leaves (a :: stack) (a :: out) := by
  constructor
  · intro b
    rw [List.mem_cons, h.mem_iff]
    simp only [List.mem_cons, exists_eq_or_imp, leaf_iff_of_small ha]
  · intro m hm
    rw [List.map_cons, List.map_cons, List.sum_cons, List.sum_cons, h.sum_eq m hm]

/-- The leaves of the parts are those of the thing they are parts of. -/
theorem Subdivision.Leaves.of_parts {a : α} {stack out : List α}
    (h : s.Leaves (s.parts a ++ stack) out) (hgood : s.Good a) (ha : ¬ s.Small a) :
    s.Leaves (a :: stack) out := by
  constructor
  · intro b
    rw [h.mem_iff]
    simp only [List.mem_cons, List.mem_append, or_and_right, exists_or, exists_eq_left,
      leaf_iff_of_large ha]
  · intro m hm
    rw [h.sum_eq m hm, List.map_append, List.sum_append, hm a hgood ha, List.map_cons,
      List.sum_cons]

/-- **The loop ends** with the leaves of its stack, as soon as it has more fuel than
    the stack weighs. -/
theorem Subdivision.run_spec (s : Subdivision α) [DecidablePred s.Small] {stack : List α}
    (hgood : ∀ a ∈ stack, s.Good a) :
    ∃ out, s.Leaves stack out ∧ ∀ fuel, (stack.map s.weight).sum < fuel → ∀ kept,
      s.run fuel stack kept = some (kept ++ out) := by
  -- by the weight of the stack: what is divided weighs more than its parts
  induction hn : (stack.map s.weight).sum using Nat.strong_induction_on generalizing stack with
  | _ n ih =>
      cases stack with
      | nil =>
          refine ⟨[], .nil, ?_⟩
          intro fuel hfuel kept
          obtain ⟨fuel, rfl⟩ := Nat.exists_eq_succ_of_ne_zero (Nat.ne_zero_of_lt hfuel)
          rw [run, List.append_nil]
      | cons a stack =>
          obtain ⟨ha, hstack⟩ := List.forall_mem_cons.mp hgood
          have hpos := s.weight_pos a
          rw [List.map_cons, List.sum_cons] at hn
          by_cases hsmall : s.Small a
          · obtain ⟨out, hout, hrun⟩ := ih (stack.map s.weight).sum (by omega) hstack rfl
            refine ⟨a :: out, hout.cons hsmall, ?_⟩
            intro fuel hfuel kept
            obtain ⟨fuel, rfl⟩ := Nat.exists_eq_succ_of_ne_zero (Nat.ne_zero_of_lt hfuel)
            rw [run, if_pos hsmall, hrun fuel (by omega), List.append_assoc, List.singleton_append]
          · have hless := s.lighter ha hsmall
            have hsum : ((s.parts a ++ stack).map s.weight).sum
                = ((s.parts a).map s.weight).sum + (stack.map s.weight).sum := by
              rw [List.map_append, List.sum_append]
            obtain ⟨out, hout, hrun⟩ := ih ((s.parts a ++ stack).map s.weight).sum (by omega)
              (List.forall_mem_append.mpr ⟨s.good_parts ha hsmall, hstack⟩) rfl
            refine ⟨out, hout.of_parts ha hsmall, ?_⟩
            intro fuel hfuel kept
            obtain ⟨fuel, rfl⟩ := Nat.exists_eq_succ_of_ne_zero (Nat.ne_zero_of_lt hfuel)
            rw [run, if_neg hsmall, hrun fuel (by omega)]

/-! ## What the leaves share out -/

theorem countP_eq_sum (p : α → Bool) (xs : List α) :
    xs.countP p = (xs.map (fun a => if p a then 1 else 0)).sum := by
  induction xs with
  | nil => rfl
  | cons x xs ih => rw [List.countP_cons, List.map_cons, List.sum_cons, ih, Nat.add_comm]

/-- **Where one part in every division** has a property, as the whole does, one leaf
    has it. -/
theorem Subdivision.Leaves.countP_eq {stack out : List α} (h : s.Leaves stack out)
    {p : α → Bool}
    (hp : ∀ a, s.Good a → ¬ s.Small a → (s.parts a).countP p = if p a then 1 else 0) :
    out.countP p = stack.countP p := by
  rw [countP_eq_sum, countP_eq_sum]
  refine h.sum_eq _ ?_
  intro a ha hlarge
  rw [← countP_eq_sum]
  exact hp a ha hlarge

end Subdividing
