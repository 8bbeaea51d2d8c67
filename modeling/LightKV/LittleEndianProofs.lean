import Mathlib.Data.List.Basic
import Mathlib.Tactic.Ring

/-! # Little-endian byte strings

    Fixed-width little-endian encodings of natural numbers as lists of bytes,
    and the decoding of any byte list.  Writing and reading back a width-`w`
    field reduces modulo `256 ^ w`; reading and writing back a field of the
    right width changes nothing.  Strings of one length, most significant byte
    first, stand in the order of their numbers (`lt_iff_leNat_reverse`). -/

namespace LittleEndian

/-- The `w` low bytes of `n`, least significant first. -/
def leBytes : Nat → Nat → List UInt8
  | 0, _ => []
  | w + 1, n => UInt8.ofNat n :: leBytes w (n / 256)

/-- The number a little-endian byte list stands for. -/
def leNat : List UInt8 → Nat
  | [] => 0
  | b :: bs => b.toNat + 256 * leNat bs

@[simp] theorem length_leBytes (w n : Nat) : (leBytes w n).length = w := by
  induction w generalizing n with
  | zero => rfl
  | succ w ih => simp [leBytes, ih]

/-- Reading back a width-`w` field gives the number modulo `256 ^ w`. -/
theorem leNat_leBytes (w n : Nat) : leNat (leBytes w n) = n % 256 ^ w := by
  induction w generalizing n with
  | zero => simp [leBytes, leNat, Nat.mod_one]
  | succ w ih =>
      rw [leBytes, leNat, ih, Nat.pow_succ']
      have hb : (UInt8.ofNat n).toNat = n % 256 := by simp
      rw [hb, Nat.mod_mul]

/-- A number that fits the field survives the round trip. -/
theorem leNat_leBytes_of_lt {w n : Nat} (h : n < 256 ^ w) :
    leNat (leBytes w n) = n := by
  rw [leNat_leBytes, Nat.mod_eq_of_lt h]

/-- Writing back what was read from a field gives the field. -/
theorem leBytes_leNat (bs : List UInt8) : leBytes bs.length (leNat bs) = bs := by
  induction bs with
  | nil => rfl
  | cons b bs ih =>
      have hlt : b.toNat < 256 := b.toNat_lt
      rw [List.length_cons, leBytes, leNat]
      have hdiv : (b.toNat + 256 * leNat bs) / 256 = leNat bs := by omega
      rw [hdiv, ih]
      congr 1
      apply UInt8.toNat_inj.mp
      simp only [UInt8.toNat_ofNat']
      omega

/-- A byte list of length `w` stands for a number below `256 ^ w`. -/
theorem leNat_lt (bs : List UInt8) : leNat bs < 256 ^ bs.length := by
  induction bs with
  | nil => simp [leNat]
  | cons b bs ih =>
      have hlt : b.toNat < 256 := b.toNat_lt
      rw [leNat, List.length_cons, Nat.pow_succ']
      omega

/-- A byte at the most significant end. -/
theorem leNat_append_singleton (bs : List UInt8) (b : UInt8) :
    leNat (bs ++ [b]) = leNat bs + 256 ^ bs.length * b.toNat := by
  induction bs with
  | nil => simp [leNat]
  | cons c bs ih =>
      rw [List.cons_append, leNat, leNat, ih, List.length_cons, Nat.pow_succ']
      ring

/-- **Big-endian strings stand in the order of their numbers.** -/
theorem lt_iff_leNat_reverse :
    ∀ {as bs : List UInt8}, as.length = bs.length →
      (as < bs ↔ leNat as.reverse < leNat bs.reverse) := by
  intro as
  induction as with
  | nil =>
      intro bs hlen
      rw [List.length_eq_zero_iff.mp hlen.symm]
      simp
  | cons a as ih =>
      intro bs hlen
      obtain ⟨b, bs, rfl⟩ := List.exists_cons_of_length_eq_add_one hlen.symm
      have hrest : as.length = bs.length := Nat.succ.inj hlen
      rw [List.cons_lt_cons_iff, ih hrest, List.reverse_cons, List.reverse_cons,
        leNat_append_singleton, leNat_append_singleton, List.length_reverse, List.length_reverse,
        hrest, UInt8.lt_iff_toNat_lt, ← UInt8.toNat_inj]
      -- the rest of either string stays below one unit of its first byte
      have has : leNat as.reverse < 256 ^ bs.length := by
        have hlt := leNat_lt as.reverse
        rwa [List.length_reverse, hrest] at hlt
      have hbs : leNat bs.reverse < 256 ^ bs.length := by
        have hlt := leNat_lt bs.reverse
        rwa [List.length_reverse] at hlt
      constructor
      · rintro (hab | ⟨hab, hlt⟩)
        · have hunit : 256 ^ bs.length * (a.toNat + 1) ≤ 256 ^ bs.length * b.toNat :=
            Nat.mul_le_mul_left _ hab
          rw [Nat.mul_add, Nat.mul_one] at hunit
          omega
        · rw [hab]
          exact Nat.add_lt_add_right hlt _
      · intro hlt
        rcases Nat.lt_trichotomy a.toNat b.toNat with hab | hab | hab
        · exact Or.inl hab
        · rw [hab] at hlt
          exact Or.inr ⟨hab, Nat.lt_of_add_lt_add_right hlt⟩
        · have hunit : 256 ^ bs.length * (b.toNat + 1) ≤ 256 ^ bs.length * a.toNat :=
            Nat.mul_le_mul_left _ hab
          rw [Nat.mul_add, Nat.mul_one] at hunit
          omega

end LittleEndian
