import Mathlib.Data.Nat.Basic
import Mathlib.Tactic.Ring

/-! # Spread bits

    `spread n a` moves bit `k` of `a` to position `3 * k`, for the low `n` bits.
    Spreading is strictly monotone, and three spread numbers fit between each
    other: shifted by two, by one and not at all they have no bit in common, so
    that their bitwise or is their sum (`or_spread`), and each is every third bit
    of it (`testBit_interleaved`).  Every number interleaves three others, and only
    those (`interleaved_inj`, `exists_interleaved`).  `gather` puts bits together
    again. -/

namespace BitSpread

/-- The low `n` bits of `a`, with two zeros between any two of them. -/
def spread : Nat → Nat → Nat
  | 0, _ => 0
  | n + 1, a => 8 * spread n (a / 2) + a % 2

/-- Only one bit in three is used. -/
theorem seven_mul_spread_lt (n a : Nat) : 7 * spread n a < 8 ^ n := by
  induction n generalizing a with
  | zero => exact Nat.one_pos
  | succ n ih =>
      have hhalf := ih (a / 2)
      rw [spread, Nat.pow_succ]
      omega

/-- **Spreading is strictly monotone.** -/
theorem spread_lt_spread {n a b : Nat} (hab : a < b) (hb : b < 2 ^ n) :
    spread n a < spread n b := by
  induction n generalizing a b with
  | zero => omega
  | succ n ih =>
      rw [Nat.pow_succ] at hb
      rw [spread, spread]
      rcases Nat.lt_or_ge (a / 2) (b / 2) with hlt | hge
      · -- the halves decide
        have := ih hlt (by omega)
        omega
      · have heq : a / 2 = b / 2 := by omega
        rw [heq]
        omega

theorem spread_le_spread {n a b : Nat} (hab : a ≤ b) (hb : b < 2 ^ n) :
    spread n a ≤ spread n b := by
  rcases Nat.lt_or_eq_of_le hab with hlt | heq
  · exact (spread_lt_spread hlt hb).le
  · rw [heq]

/-- The top bit goes to the top. -/
theorem spread_succ_top (n a : Nat) :
    spread (n + 1) a = 8 ^ n * (a / 2 ^ n % 2) + spread n (a % 2 ^ n) := by
  induction n generalizing a with
  | zero => simp [spread]
  | succ n ih =>
      have hdiv : a / 2 / 2 ^ n = a / 2 ^ (n + 1) := by rw [Nat.div_div_eq_div_mul, Nat.pow_succ']
      have hmod : a % 2 ^ (n + 1) / 2 = a / 2 % 2 ^ n := by
        rw [Nat.pow_succ', Nat.mod_mul_right_div_self]
      have hlow : a % 2 ^ (n + 1) % 2 = a % 2 := Nat.mod_mod_of_dvd a (Dvd.intro_left _ rfl)
      rw [spread, ih, hdiv, spread, hmod, hlow, Nat.pow_succ 8]
      ring

/-- Bits below a multiple of a power of two stay apart from it. -/
theorem or_two_pow_mul_add {i p q : Nat} (hp : p < 2 ^ i) (hq : q < 2 ^ i) (a b : Nat) :
    (2 ^ i * a + p) ||| (2 ^ i * b + q) = 2 ^ i * (a ||| b) + (p ||| q) := by
  refine Nat.eq_of_testBit_eq ?_
  intro j
  rw [Nat.testBit_or, Nat.testBit_two_pow_mul_add a hp, Nat.testBit_two_pow_mul_add b hq,
    Nat.testBit_two_pow_mul_add _ (Nat.or_lt_two_pow hp hq)]
  by_cases hj : j < i
  · simp [hj]
  · simp [hj]

/-- **Three spread numbers interleave.** -/
theorem or_spread (n x y z : Nat) :
    4 * spread n x ||| 2 * spread n y ||| spread n z
      = 4 * spread n x + 2 * spread n y + spread n z := by
  induction n generalizing x y z with
  | zero => simp only [spread, Nat.mul_zero, Nat.or_self, Nat.add_zero]
  | succ n ih =>
      have hx : 4 * spread (n + 1) x = 2 ^ 3 * (4 * spread n (x / 2)) + 4 * (x % 2) := by
        rw [spread]
        ring
      have hy : 2 * spread (n + 1) y = 2 ^ 3 * (2 * spread n (y / 2)) + 2 * (y % 2) := by
        rw [spread]
        ring
      have hz : spread (n + 1) z = 2 ^ 3 * spread n (z / 2) + z % 2 := rfl
      -- the three lowest bits
      have hlow : 4 * (x % 2) ||| 2 * (y % 2) ||| z % 2 = 4 * (x % 2) + 2 * (y % 2) + z % 2 := by
        rcases Nat.mod_two_eq_zero_or_one x with h | h <;> rw [h] <;>
        rcases Nat.mod_two_eq_zero_or_one y with h | h <;> rw [h] <;>
        rcases Nat.mod_two_eq_zero_or_one z with h | h <;> rw [h] <;> rfl
      have hxlt : 4 * (x % 2) < 2 ^ 3 := by omega
      have hylt : 2 * (y % 2) < 2 ^ 3 := by omega
      have hzlt : z % 2 < 2 ^ 3 := by omega
      rw [hx, hy, hz, or_two_pow_mul_add hxlt hylt,
        or_two_pow_mul_add (Nat.or_lt_two_pow hxlt hylt) hzlt, ih, hlow]
      ring

/-- **Every third bit** of three interleaved numbers is a bit of one of them. -/
theorem testBit_interleaved (n x y z i : Nat) :
    (4 * spread n x + 2 * spread n y + spread n z).testBit (3 * i) = (decide (i < n) && z.testBit i)
      ∧ (4 * spread n x + 2 * spread n y + spread n z).testBit (3 * i + 1)
        = (decide (i < n) && y.testBit i)
      ∧ (4 * spread n x + 2 * spread n y + spread n z).testBit (3 * i + 2)
        = (decide (i < n) && x.testBit i) := by
  induction n generalizing x y z i with
  | zero => simp [spread]
  | succ n ih =>
      have hsplit : 4 * spread (n + 1) x + 2 * spread (n + 1) y + spread (n + 1) z
          = 2 ^ 3 * (4 * spread n (x / 2) + 2 * spread n (y / 2) + spread n (z / 2))
            + (4 * (x % 2) + 2 * (y % 2) + z % 2) := by
        rw [spread, spread, spread]
        ring
      have hlow : 4 * (x % 2) + 2 * (y % 2) + z % 2 < 2 ^ 3 := by omega
      rw [hsplit, Nat.testBit_two_pow_mul_add _ hlow, Nat.testBit_two_pow_mul_add _ hlow,
        Nat.testBit_two_pow_mul_add _ hlow]
      cases i with
      | zero =>
          -- the three lowest bits
          rw [if_pos (by decide), if_pos (by decide), if_pos (by decide)]
          simp only [Nat.testBit_zero, Nat.mul_zero, Nat.zero_add, Nat.zero_lt_succ, decide_true,
            Bool.true_and]
          rcases Nat.mod_two_eq_zero_or_one x with hx | hx <;> rw [hx] <;>
          rcases Nat.mod_two_eq_zero_or_one y with hy | hy <;> rw [hy] <;>
          rcases Nat.mod_two_eq_zero_or_one z with hz | hz <;> rw [hz] <;> decide
      | succ i =>
          have hbits := ih (x / 2) (y / 2) (z / 2) i
          have h0 : 3 * (i + 1) - 3 = 3 * i := by omega
          have h1 : 3 * (i + 1) + 1 - 3 = 3 * i + 1 := by omega
          have h2 : 3 * (i + 1) + 2 - 3 = 3 * i + 2 := by omega
          rw [if_neg (by omega), if_neg (by omega), if_neg (by omega), h0, h1, h2,
            hbits.1, hbits.2.1, hbits.2.2]
          simp only [Nat.testBit_div_two, Nat.succ_lt_succ_iff, and_self]

theorem spread_zero (n : Nat) : spread n 0 = 0 := by
  induction n with
  | zero => rfl
  | succ n ih => rw [spread, Nat.zero_div, ih]

/-- **The bits of a spread number**: those of the number, at every third place. -/
theorem testBit_spread (n a i : Nat) :
    (spread n a).testBit (3 * i) = (decide (i < n) && a.testBit i)
      ∧ (spread n a).testBit (3 * i + 1) = false ∧ (spread n a).testBit (3 * i + 2) = false := by
  have hbits := testBit_interleaved n 0 0 a i
  rw [spread_zero, Nat.mul_zero, Nat.add_zero, Nat.zero_add] at hbits
  simpa only [Nat.zero_testBit, Bool.and_false] using hbits

/-- **Interleaved numbers** can be told apart. -/
theorem interleaved_inj {n x y z x' y' z' : Nat} (hx : x < 2 ^ n) (hy : y < 2 ^ n)
    (hz : z < 2 ^ n) (hx' : x' < 2 ^ n) (hy' : y' < 2 ^ n) (hz' : z' < 2 ^ n)
    (h : 4 * spread n x + 2 * spread n y + spread n z
      = 4 * spread n x' + 2 * spread n y' + spread n z') : x = x' ∧ y = y' ∧ z = z' := by
  -- two numbers of `n` bits that have these in common
  have hsame {a b : Nat} (ha : a < 2 ^ n) (hb : b < 2 ^ n)
      (hab : ∀ i, (decide (i < n) && a.testBit i) = (decide (i < n) && b.testBit i)) : a = b := by
    refine Nat.eq_of_testBit_eq ?_
    intro i
    by_cases hi : i < n
    · simpa [hi] using hab i
    · have hpow : 2 ^ n ≤ 2 ^ i := Nat.pow_le_pow_right Nat.two_pos (Nat.not_lt.mp hi)
      rw [Nat.testBit_lt_two_pow (ha.trans_le hpow), Nat.testBit_lt_two_pow (hb.trans_le hpow)]
  have hbits (i : Nat) := testBit_interleaved n x y z i
  have hbits' (i : Nat) := testBit_interleaved n x' y' z' i
  rw [h] at hbits
  exact ⟨hsame hx hx' (fun i => (hbits i).2.2.symm.trans (hbits' i).2.2),
    hsame hy hy' (fun i => (hbits i).2.1.symm.trans (hbits' i).2.1),
    hsame hz hz' (fun i => (hbits i).1.symm.trans (hbits' i).1)⟩

/-- **Spreading splits**: the bits from place `k` on are spread from place `3 * k` on. -/
theorem spread_split (n k a : Nat) :
    spread (n + k) a = 8 ^ k * spread n (a / 2 ^ k) + spread k a := by
  induction k generalizing a with
  | zero => simp [spread]
  | succ k ih =>
      have hdiv : a / 2 / 2 ^ k = a / 2 ^ (k + 1) := by rw [Nat.div_div_eq_div_mul, Nat.pow_succ']
      rw [← Nat.add_assoc, spread, ih, hdiv, spread, Nat.pow_succ 8]
      ring

/-- Interleaved numbers split with the numbers. -/
theorem interleaved_split (n k x y z : Nat) :
    4 * spread (n + k) x + 2 * spread (n + k) y + spread (n + k) z
      = (4 * spread k x + 2 * spread k y + spread k z)
        + 8 ^ k * (4 * spread n (x / 2 ^ k) + 2 * spread n (y / 2 ^ k) + spread n (z / 2 ^ k)) := by
  rw [spread_split, spread_split, spread_split]
  ring

/-- Three interleaved numbers of `k` bits are one of `3 * k` bits. -/
theorem interleaved_lt (k x y z : Nat) : 4 * spread k x + 2 * spread k y + spread k z < 8 ^ k := by
  have h1 := seven_mul_spread_lt k x
  have h2 := seven_mul_spread_lt k y
  have h3 := seven_mul_spread_lt k z
  omega

/-- Interleaved numbers without their low bits are the numbers without theirs,
    interleaved. -/
theorem interleaved_div (n k x y z : Nat) :
    (4 * spread (n + k) x + 2 * spread (n + k) y + spread (n + k) z) / 8 ^ k
      = 4 * spread n (x / 2 ^ k) + 2 * spread n (y / 2 ^ k) + spread n (z / 2 ^ k) := by
  rw [interleaved_split, Nat.add_mul_div_left _ _ (Nat.pow_pos (by decide)),
    Nat.div_eq_of_lt (interleaved_lt k x y z), Nat.zero_add]

/-- A number whose low bits are all zero. -/
theorem spread_of_dvd {k a : Nat} (h : 2 ^ k ∣ a) : spread k a = 0 := by
  induction k generalizing a with
  | zero => rfl
  | succ k ih =>
      obtain ⟨c, rfl⟩ := h
      have heven : 2 ^ (k + 1) * c = 2 * (2 ^ k * c) := by rw [Nat.pow_succ', Nat.mul_assoc]
      rw [spread, heven, Nat.mul_div_cancel_left _ Nat.two_pos, Nat.mul_mod_right,
        ih (Nat.dvd_mul_right _ _)]

/-- A number whose low bits are all one. -/
theorem spread_of_dvd_succ {k a : Nat} (h : 2 ^ k ∣ a + 1) : 7 * spread k a + 1 = 8 ^ k := by
  induction k generalizing a with
  | zero => rfl
  | succ k ih =>
      obtain ⟨c, hc⟩ := h
      have heven : 2 ^ (k + 1) * c = 2 * (2 ^ k * c) := by rw [Nat.pow_succ', Nat.mul_assoc]
      have hhalf := ih (a := a / 2) ⟨c, by omega⟩
      rw [spread, Nat.pow_succ]
      omega

/-- **Every number** of `3 * n` bits interleaves three of `n`. -/
theorem exists_interleaved {n c : Nat} (hc : c < 8 ^ n) :
    ∃ x y z, x < 2 ^ n ∧ y < 2 ^ n ∧ z < 2 ^ n
      ∧ 4 * spread n x + 2 * spread n y + spread n z = c := by
  induction n generalizing c with
  | zero =>
      obtain rfl : c = 0 := by omega
      exact ⟨0, 0, 0, Nat.one_pos, Nat.one_pos, Nat.one_pos, rfl⟩
  | succ n ih =>
      rw [Nat.pow_succ] at hc
      obtain ⟨x, y, z, hx, hy, hz, hxyz⟩ := ih (c := c / 8) (by omega)
      refine ⟨2 * x + c / 4 % 2, 2 * y + c / 2 % 2, 2 * z + c % 2, by omega, by omega, by omega, ?_⟩
      -- the lowest bit of each is taken off again
      have hstep (a b : Nat) : spread (n + 1) (2 * a + b % 2) = 8 * spread n a + b % 2 := by
        have hhalf : (2 * a + b % 2) / 2 = a := by omega
        have hlow : (2 * a + b % 2) % 2 = b % 2 := by omega
        rw [spread, hhalf, hlow]
      rw [hstep, hstep, hstep]
      omega

/-- The number of `n` bits given one by one. -/
def gather (p : Nat → Bool) : Nat → Nat
  | 0 => 0
  | n + 1 => gather p n ||| (p n).toNat <<< n

theorem testBit_gather (p : Nat → Bool) (n i : Nat) :
    (gather p n).testBit i = (decide (i < n) && p i) := by
  induction n with
  | zero => simp [gather]
  | succ n ih =>
      rw [gather, Nat.testBit_or, ih, Nat.testBit_shiftLeft]
      rcases Nat.lt_trichotomy i n with hlt | rfl | hgt
      · have hge : ¬ i ≥ n := Nat.not_le.mpr hlt
        simp [hlt, hge, Nat.lt_succ_of_lt hlt]
      · cases hp : p i <;> simp
      · obtain ⟨d, rfl⟩ := Nat.exists_eq_add_of_lt hgt
        have hbit : (p n).toNat.testBit (n + d + 1 - n) = false := by
          rw [Nat.add_assoc, Nat.add_sub_cancel_left, Nat.testBit_succ]
          cases p n <;> simp
        have h1 : ¬ n + d + 1 < n := by omega
        have h2 : ¬ n + d + 1 < n + 1 := by omega
        simp [hbit, h1, h2]

/-- **Gathering the bits of a number** gives it back, if it has no more of them. -/
theorem gather_testBit {p : Nat → Bool} {n a : Nat} (ha : a < 2 ^ n)
    (hp : ∀ i, i < n → p i = a.testBit i) : gather p n = a := by
  refine Nat.eq_of_testBit_eq ?_
  intro i
  rw [testBit_gather]
  by_cases hi : i < n
  · simp [hi, hp i hi]
  · have hhigh : a.testBit i = false :=
      Nat.testBit_lt_two_pow (ha.trans_le (Nat.pow_le_pow_right Nat.two_pos (Nat.not_lt.mp hi)))
    simp [hi, hhigh]

end BitSpread
