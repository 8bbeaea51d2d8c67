import Mathlib.Data.Nat.Digits.Lemmas

/-! # Positional notation, most significant digit first

    The number a list of digits stands for, and why fixed-width numerals sort
    as the numbers do: among digit lists of one length, the smaller number has
    the lexicographically smaller list, whatever increasing alphabet the digits
    are written in (`map_lt_map_iff`).  The first digits of a numeral stand for
    a quotient of its number (`value_take`). -/

namespace Positional

/-- The number the digits `l` stand for in base `b`. -/
def value (b : Nat) : List Nat → Nat
  | [] => 0
  | d :: l => d * b ^ l.length + value b l

theorem value_append (b : Nat) (l m : List Nat) :
    value b (l ++ m) = value b l * b ^ m.length + value b m := by
  induction l with
  | nil => simp [value]
  | cons d l ih =>
      rw [List.cons_append, value, ih, value, List.length_append, Nat.pow_add, Nat.add_mul,
        Nat.mul_assoc, Nat.add_assoc]

/-- A numeral of `n` digits is below `b ^ n`. -/
theorem value_lt {b : Nat} {l : List Nat} (h : ∀ d ∈ l, d < b) : value b l < b ^ l.length := by
  induction l with
  | nil => simp [value]
  | cons d l ih =>
      have hd := h d List.mem_cons_self
      have hl := ih (fun x hx => h x (List.mem_cons_of_mem _ hx))
      have hle : (d + 1) * b ^ l.length ≤ b * b ^ l.length := Nat.mul_le_mul_right _ hd
      rw [value, List.length_cons, Nat.pow_succ']
      rw [Nat.add_mul, Nat.one_mul] at hle
      omega

/-- Mathlib's digits stand least significant first. -/
theorem value_reverse (b : Nat) (l : List Nat) : value b l.reverse = Nat.ofDigits b l := by
  induction l with
  | nil => rfl
  | cons d l ih =>
      rw [List.reverse_cons, value_append, ih, Nat.ofDigits_cons]
      simp [value]
      ring

/-- Leading zeros do not count. -/
theorem value_replicate_zero_append (b n : Nat) (l : List Nat) :
    value b (List.replicate n 0 ++ l) = value b l := by
  have hz : value b (List.replicate n 0) = 0 := by
    induction n with
    | zero => rfl
    | succ n ih => rw [List.replicate_succ, value, ih, Nat.zero_mul]
  rw [value_append, hz, Nat.zero_mul, Nat.zero_add]

/-- **Numerals of one length sort as their numbers.** -/
theorem map_lt_map_of_value_lt {α : Type} [LinearOrder α] {b : Nat} {f : Nat → α}
    (hf : ∀ x y, x < b → y < b → x < y → f x < f y) :
    ∀ {l m : List Nat}, l.length = m.length → (∀ d ∈ l, d < b) → (∀ d ∈ m, d < b) →
      value b l < value b m → l.map f < m.map f := by
  intro l
  induction l with
  | nil =>
      intro m hlen _ _ hlt
      rw [List.length_nil] at hlen
      obtain rfl := List.length_eq_zero_iff.mp hlen.symm
      exact absurd hlt (Nat.lt_irrefl _)
  | cons d l ih =>
      intro m hlen hl hm hlt
      cases m with
      | nil => cases hlen
      | cons e m =>
          have hlen' : l.length = m.length := Nat.succ.inj hlen
          have hl' := fun x hx => hl x (List.mem_cons_of_mem _ hx)
          have hm' := fun x hx => hm x (List.mem_cons_of_mem _ hx)
          rw [value, value, hlen'] at hlt
          rw [List.map_cons, List.map_cons, List.cons_lt_cons_iff]
          rcases lt_trichotomy d e with hde | hde | hde
          · exact Or.inl (hf d e (hl d List.mem_cons_self) (hm e List.mem_cons_self) hde)
          · subst hde
            exact Or.inr ⟨rfl, ih hlen' hl' hm' (by omega)⟩
          · -- a larger leading digit outweighs all that follows
            have hv := value_lt hm'
            have hle : (e + 1) * b ^ m.length ≤ d * b ^ m.length := Nat.mul_le_mul_right _ hde
            rw [Nat.add_mul, Nat.one_mul] at hle
            omega

/-- **Numerals of one length are ordered as their numbers.** -/
theorem map_lt_map_iff {α : Type} [LinearOrder α] {b : Nat} (hb : 1 < b) {f : Nat → α}
    (hf : ∀ x y, x < b → y < b → x < y → f x < f y) {l m : List Nat} (hlen : l.length = m.length)
    (hl : ∀ d ∈ l, d < b) (hm : ∀ d ∈ m, d < b) : l.map f < m.map f ↔ value b l < value b m := by
  refine ⟨?_, map_lt_map_of_value_lt hf hlen hl hm⟩
  intro hlt
  rcases lt_trichotomy (value b l) (value b m) with h | h | h
  · exact h
  · rw [← List.reverse_reverse l, ← List.reverse_reverse m, value_reverse, value_reverse] at h
    have heq := Nat.ofDigits_inj_of_len_eq hb (by rw [List.length_reverse, List.length_reverse, hlen])
      (fun d hd => hl d (List.mem_reverse.mp hd)) (fun d hd => hm d (List.mem_reverse.mp hd)) h
    rw [List.reverse_inj.mp heq] at hlt
    exact absurd hlt (lt_irrefl _)
  · exact absurd hlt (map_lt_map_of_value_lt hf hlen.symm hm hl h).asymm

/-- **The first digits of a numeral** stand for its number without the last ones. -/
theorem value_take {b : Nat} {l : List Nat} (hl : ∀ d ∈ l, d < b) (k : Nat) :
    value b (l.take k) = value b l / b ^ (l.length - k) := by
  have hlow := value_lt (fun d hd => hl d (List.mem_of_mem_drop hd) : ∀ d ∈ l.drop k, d < b)
  have hsplit : value b l
      = value b (l.take k) * b ^ (l.drop k).length + value b (l.drop k) := by
    rw [← value_append, List.take_append_drop]
  rw [← List.length_drop, hsplit, Nat.mul_comm, Nat.mul_add_div (Nat.zero_lt_of_lt hlow),
    Nat.div_eq_of_lt hlow, Nat.add_zero]

end Positional
