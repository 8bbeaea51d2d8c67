import LightKV.LittleEndianProofs

/-! # Reflected 32-bit cyclic redundancy checks

    A register is shifted one bit at a time, low bit first, and a byte goes
    through a table of the shifts of all bytes, which is what becomes of its bits
    one after the other (`serial_eq_run`).  Shifts are linear and, when the top
    bit of the polynomial is set, injective.

    Two consequences: a run over some bytes differs from one over as many zeros
    exactly when it does so from the zero register (`run_eq_run_zeros`), and two
    messages that differ inside at most four consecutive bytes have different
    registers (`run_burst`). -/

namespace Crc

open LittleEndian

/-- One bit of a run: the polynomial is added when a one falls out. -/
def shift (poly crc : UInt32) : UInt32 := (crc >>> 1) ^^^ (poly &&& (-(crc &&& 1)))

/-- So many bits. -/
def shifts (poly : UInt32) : Nat → UInt32 → UInt32
  | 0, crc => crc
  | n + 1, crc => shifts poly n (shift poly crc)

/-- One byte, by way of the table. -/
def update (poly crc : UInt32) (b : UInt8) : UInt32 :=
  (crc >>> 8) ^^^ shifts poly 8 ((crc ^^^ b.toUInt32) &&& 0xFF).toUInt8.toUInt32

/-- A run over some bytes. -/
def run (poly : UInt32) (data : List UInt8) (crc : UInt32) : UInt32 :=
  data.foldl (update poly) crc

variable {poly : UInt32}

/-! ## Shifts are linear -/

/-- The bit that falls out next. -/
def lowBit (crc : UInt32) : Bool := crc.toNat.testBit 0

theorem lowBit_xor (a b : UInt32) : lowBit (a ^^^ b) = (lowBit a ^^ lowBit b) := by
  rw [lowBit, UInt32.toNat_xor, Nat.testBit_xor]
  rfl

theorem and_one (crc : UInt32) : crc &&& 1 = if lowBit crc then 1 else 0 := by
  refine UInt32.toNat_inj.mp ?_
  have hmod : (crc &&& 1).toNat = crc.toNat % 2 := by
    rw [UInt32.toNat_and]
    exact Nat.and_one_is_mod _
  rw [hmod, lowBit, Nat.testBit_zero]
  by_cases h : crc.toNat % 2 = 1
  · simp [h]
  · rw [decide_eq_false h, Nat.mod_two_ne_one.mp h]
    rfl

theorem shift_eq (crc : UInt32) :
    shift poly crc = (crc >>> 1) ^^^ (if lowBit crc then poly else 0) := by
  rw [shift, and_one]
  cases lowBit crc with
  | false => simp
  | true => simp [UInt32.and_neg_one]

/-- **A shift is linear.** -/
theorem shift_xor (a b : UInt32) : shift poly (a ^^^ b) = shift poly a ^^^ shift poly b := by
  rw [shift_eq, shift_eq, shift_eq, lowBit_xor, UInt32.shiftRight_xor]
  -- the polynomial comes in twice, once or not at all
  cases lowBit a <;> cases lowBit b <;> simp only [Bool.xor_false, Bool.xor_true,
    Bool.not_true, Bool.not_false, Bool.false_eq_true, if_false, if_true, UInt32.xor_zero]
  · ac_rfl
  · ac_rfl
  · rw [show a >>> 1 ^^^ poly ^^^ (b >>> 1 ^^^ poly) = a >>> 1 ^^^ b >>> 1 ^^^ (poly ^^^ poly) by
      ac_rfl, UInt32.xor_self, UInt32.xor_zero]

theorem shifts_xor (n : Nat) (a b : UInt32) :
    shifts poly n (a ^^^ b) = shifts poly n a ^^^ shifts poly n b := by
  induction n generalizing a b with
  | zero => rfl
  | succ n ih => rw [shifts, shift_xor, ih, shifts, shifts]

theorem shifts_add (m n : Nat) (crc : UInt32) :
    shifts poly (m + n) crc = shifts poly m (shifts poly n crc) := by
  induction n generalizing crc with
  | zero => rfl
  | succ n ih => exact ih (shift poly crc)

/-- The last bit of a run, taken off behind the others. -/
theorem shifts_succ (n : Nat) (crc : UInt32) :
    shifts poly (n + 1) crc = shift poly (shifts poly n crc) := by
  rw [Nat.add_comm, shifts_add]
  rfl

/-! ## Shifts are injective -/

/-- A register whose low bit is clear is twice its half. -/
theorem toNat_of_lowBit {crc : UInt32} (h : lowBit crc = false) :
    crc.toNat = 2 * (crc >>> 1).toNat := by
  have hbit : crc.toNat % 2 = 0 := by
    rw [lowBit, Nat.testBit_zero] at h
    have := of_decide_eq_false h
    omega
  have hhalf : (crc >>> 1).toNat = crc.toNat / 2 := by
    rw [UInt32.toNat_shiftRight]
    exact Nat.shiftRight_eq_div_pow _ _
  omega

theorem eq_zero_of_shift_eq_zero (hp : 2 ^ 31 ≤ poly.toNat) {crc : UInt32}
    (h : shift poly crc = 0) : crc = 0 := by
  rw [shift_eq] at h
  have hhalf : (crc >>> 1).toNat = crc.toNat / 2 := by
    rw [UInt32.toNat_shiftRight]
    exact Nat.shiftRight_eq_div_pow _ _
  cases hl : lowBit crc with
  | true =>
      -- the top bit of the result comes from the polynomial alone
      rw [hl, if_pos rfl] at h
      have heq := congrArg UInt32.toNat (UInt32.xor_eq_zero_iff.mp h)
      have hlt := crc.toNat_lt
      omega
  | false =>
      rw [hl] at h
      have heq := congrArg UInt32.toNat (UInt32.xor_eq_zero_iff.mp h)
      have hdouble := toNat_of_lowBit hl
      refine UInt32.toNat_inj.mp ?_
      simp only [Bool.false_eq_true, if_false, UInt32.toNat_zero] at heq ⊢
      omega

theorem eq_zero_of_shifts_eq_zero (hp : 2 ^ 31 ≤ poly.toNat) {n : Nat} {crc : UInt32}
    (h : shifts poly n crc = 0) : crc = 0 := by
  induction n generalizing crc with
  | zero => exact h
  | succ n ih => exact eq_zero_of_shift_eq_zero hp (ih h)

/-- **Shifts lose nothing.** -/
theorem shifts_injective (hp : 2 ^ 31 ≤ poly.toNat) {n : Nat} {a b : UInt32}
    (h : shifts poly n a = shifts poly n b) : a = b := by
  refine UInt32.xor_eq_zero_iff.mp (eq_zero_of_shifts_eq_zero hp (n := n) ?_)
  rw [shifts_xor, h, UInt32.xor_self]

/-! ## A byte at a time -/

/-- Shifting out zeros divides. -/
theorem shifts_two_pow_mul {n m : Nat} (h : 2 ^ n * m < 2 ^ 32) :
    shifts poly n (UInt32.ofNat (2 ^ n * m)) = UInt32.ofNat m := by
  induction n with
  | zero => rw [shifts, Nat.pow_zero, Nat.one_mul]
  | succ n ih =>
      have hdouble : 2 ^ (n + 1) * m = 2 * (2 ^ n * m) := by
        rw [Nat.pow_succ]
        ring
      rw [hdouble] at h ⊢
      have hlow : lowBit (UInt32.ofNat (2 * (2 ^ n * m))) = false := by
        rw [lowBit, UInt32.toNat_ofNat_of_lt' h, Nat.testBit_zero]
        exact decide_eq_false (by omega)
      have hhalf : UInt32.ofNat (2 * (2 ^ n * m)) >>> 1 = UInt32.ofNat (2 ^ n * m) := by
        refine UInt32.toNat_inj.mp ?_
        have hdiv := toNat_of_lowBit hlow
        rw [UInt32.toNat_ofNat_of_lt' h] at hdiv
        rw [UInt32.toNat_ofNat_of_lt' (show 2 ^ n * m < 2 ^ 32 by omega)]
        omega
      rw [shifts, shift_eq, hlow, hhalf]
      simp only [Bool.false_eq_true, if_false, UInt32.xor_zero]
      exact ih (by omega)

/-- A number is its low bits and the rest, without carries. -/
theorem ofNat_add_eq_xor {n r m : Nat} (hr : r < 2 ^ n) (h : r + 2 ^ n * m < 2 ^ 32) :
    UInt32.ofNat (r + 2 ^ n * m) = UInt32.ofNat r ^^^ UInt32.ofNat (2 ^ n * m) := by
  refine UInt32.toNat_inj.mp ?_
  rw [UInt32.toNat_xor, UInt32.toNat_ofNat_of_lt' h,
    UInt32.toNat_ofNat_of_lt' (show r < 2 ^ 32 by omega),
    UInt32.toNat_ofNat_of_lt' (show 2 ^ n * m < 2 ^ 32 by omega)]
  refine Nat.eq_of_testBit_eq ?_
  intro i
  rw [Nat.testBit_xor, Nat.add_comm r, Nat.testBit_two_pow_mul_add m hr, Nat.testBit_two_pow_mul]
  by_cases hi : i < n
  · rw [if_pos hi, decide_eq_false (Nat.not_le_of_lt hi), Bool.false_and, Bool.xor_false]
  · have hle : n ≤ i := Nat.le_of_not_lt hi
    have hpow : 2 ^ n ≤ 2 ^ i := Nat.pow_le_pow_right (by decide) hle
    rw [if_neg hi, Nat.testBit_lt_two_pow (hr.trans_le hpow), decide_eq_true hle, Bool.true_and,
      Bool.false_xor]

theorem toUInt32_eq_ofNat (b : UInt8) : b.toUInt32 = UInt32.ofNat b.toNat := by
  refine UInt32.toNat_inj.mp ?_
  have hlt : b.toNat < 2 ^ 32 := b.toNat_lt.trans_le (by decide)
  rw [UInt8.toNat_toUInt32, UInt32.toNat_ofNat_of_lt' hlt]

/-- **The table is right**: a byte is added to the register and shifted through. -/
theorem update_eq (crc : UInt32) (b : UInt8) :
    update poly crc b = shifts poly 8 (crc ^^^ b.toUInt32) := by
  obtain ⟨x, hx⟩ : ∃ x, x = crc ^^^ b.toUInt32 := ⟨_, rfl⟩
  have hlt := x.toNat_lt
  have hlow : x.toNat % 256 < 2 ^ 32 := by omega
  have hrest : x.toNat / 256 < 2 ^ 32 := by omega
  have hsplit : x = UInt32.ofNat (x.toNat % 256) ^^^ UInt32.ofNat (2 ^ 8 * (x.toNat / 256)) := by
    have hsum := @ofNat_add_eq_xor 8 (x.toNat % 256) (x.toNat / 256)
      (Nat.mod_lt x.toNat (by decide)) (by omega)
    rw [show 2 ^ 8 = 256 by decide] at hsum ⊢
    rw [Nat.mod_add_div, UInt32.ofNat_toNat] at hsum
    exact hsum
  have hbyte : (x &&& 0xFF).toUInt8.toUInt32 = UInt32.ofNat (x.toNat % 256) := by
    refine UInt32.toNat_inj.mp ?_
    rw [UInt32.toNat_ofNat_of_lt' hlow, UInt8.toNat_toUInt32, UInt32.toNat_toUInt8,
      UInt32.toNat_and, show (0xFF : UInt32).toNat = 2 ^ 8 - 1 from rfl, Nat.and_two_pow_sub_one_eq_mod]
    omega
  have hhigh : crc >>> 8 = UInt32.ofNat (x.toNat / 256) := by
    have hb : b.toUInt32 >>> 8 = 0 := by
      refine UInt32.toNat_inj.mp ?_
      have hlow := b.toNat_lt
      rw [UInt32.toNat_shiftRight, UInt8.toNat_toUInt32]
      show b.toNat >>> 8 = 0
      rw [Nat.shiftRight_eq_div_pow]
      omega
    have hxc : x >>> 8 = crc >>> 8 := by
      rw [hx, UInt32.shiftRight_xor, hb, UInt32.xor_zero]
    rw [← hxc]
    refine UInt32.toNat_inj.mp ?_
    rw [UInt32.toNat_ofNat_of_lt' hrest, UInt32.toNat_shiftRight]
    exact Nat.shiftRight_eq_div_pow _ _
  rw [update, ← hx, hbyte, hhigh]
  conv_rhs => rw [hsplit]
  rw [shifts_xor, shifts_two_pow_mul (by omega), UInt32.xor_comm]

theorem run_cons (b : UInt8) (data : List UInt8) (crc : UInt32) :
    run poly (b :: data) crc = run poly data (shifts poly 8 (crc ^^^ b.toUInt32)) := by
  rw [run, List.foldl_cons, update_eq]
  rfl

theorem run_append (a b : List UInt8) (crc : UInt32) :
    run poly (a ++ b) crc = run poly b (run poly a crc) := List.foldl_append

/-- **Runs are affine** in the register they start from. -/
theorem run_eq (data : List UInt8) (crc : UInt32) :
    run poly data crc = run poly data 0 ^^^ shifts poly (8 * data.length) crc := by
  induction data generalizing crc with
  | nil => exact UInt32.zero_xor.symm
  | cons b data ih =>
      rw [run_cons, run_cons, ih, ih (shifts poly 8 (0 ^^^ b.toUInt32)), UInt32.zero_xor,
        shifts_xor, shifts_xor, List.length_cons, Nat.mul_add, Nat.mul_one, shifts_add]
      ac_rfl

theorem run_zeros (n : Nat) (crc : UInt32) :
    run poly (List.replicate n 0) crc = shifts poly (8 * n) crc := by
  induction n generalizing crc with
  | zero => rfl
  | succ n ih =>
      rw [List.replicate_succ, run_cons, ih, Nat.mul_add, Nat.mul_one, shifts_add]
      simp

/-- **Bytes lost and read as zeros** go unnoticed exactly when their own run from
    the zero register ends in zero. -/
theorem run_eq_run_zeros (data : List UInt8) (crc : UInt32) :
    run poly data crc = run poly (List.replicate data.length 0) crc ↔ run poly data 0 = 0 := by
  rw [run_eq, run_zeros]
  constructor
  · intro h
    have hself := congrArg (fun x => x ^^^ shifts poly (8 * data.length) crc) h
    simpa [UInt32.xor_assoc] using hself
  · intro h
    rw [h, UInt32.zero_xor]

/-! ## One bit at a time -/

/-- One bit of a message: it meets the bit that falls out of the register, and
    the polynomial is added when the two differ. -/
def bitStep (poly crc : UInt32) (bit : Bool) : UInt32 :=
  if lowBit crc ^^ bit then (crc >>> 1) ^^^ poly else crc >>> 1

/-- The bits of a byte, lowest first. -/
def byteBits (b : UInt8) : List Bool := (List.range 8).map b.toNat.testBit

/-- A run over the bits of some bytes, without a table. -/
def serial (poly : UInt32) (data : List UInt8) (crc : UInt32) : UInt32 :=
  (data.flatMap byteBits).foldl (bitStep poly) crc

/-- A bit of a message may as well be added to the register first. -/
theorem bitStep_eq (crc : UInt32) (bit : Bool) :
    bitStep poly crc bit = shift poly (crc ^^^ UInt32.ofNat bit.toNat) := by
  have hlow : lowBit (crc ^^^ UInt32.ofNat bit.toNat) = (lowBit crc ^^ bit) := by
    rw [lowBit_xor]
    cases bit <;> rfl
  have hhalf : UInt32.ofNat bit.toNat >>> 1 = 0 := by cases bit <;> rfl
  rw [bitStep, shift_eq, hlow, UInt32.shiftRight_xor, hhalf, UInt32.xor_zero]
  cases lowBit crc ^^ bit with
  | false => exact UInt32.xor_zero.symm
  | true => rfl

/-- **The low bits of a number**, one after the other, are that number added and
    shifted through. -/
theorem foldl_bitStep {v : Nat} (hv : v < 2 ^ 32) (crc : UInt32) {n : Nat} (hn : n ≤ 32) :
    ((List.range n).map v.testBit).foldl (bitStep poly) crc
      = shifts poly n (crc ^^^ UInt32.ofNat (v % 2 ^ n)) := by
  induction n with
  | zero =>
      rw [Nat.pow_zero, Nat.mod_one]
      exact UInt32.xor_zero.symm
  | succ n ih =>
      have hbits : v % 2 ^ (n + 1) = v % 2 ^ n + 2 ^ n * (v.testBit n).toNat := by
        rw [Nat.toNat_testBit, Nat.mod_pow_succ]
      have hle : v % 2 ^ (n + 1) ≤ v := Nat.mod_le _ _
      have hlow : v % 2 ^ n < 2 ^ n := Nat.mod_lt _ (Nat.two_pow_pos n)
      have hmove : shifts poly n (UInt32.ofNat (2 ^ n * (v.testBit n).toNat))
          = UInt32.ofNat (v.testBit n).toNat := shifts_two_pow_mul (by omega)
      rw [List.range_succ, List.map_append, List.foldl_append, ih (by omega), List.map_singleton,
        List.foldl_cons, List.foldl_nil, bitStep_eq, shifts_succ, ← hmove, ← shifts_xor, hbits,
        ofNat_add_eq_xor hlow (by omega), UInt32.xor_assoc]

/-- **The table stands for the bits.** -/
theorem serial_eq_run (data : List UInt8) (crc : UInt32) :
    serial poly data crc = run poly data crc := by
  induction data generalizing crc with
  | nil => rfl
  | cons b data ih =>
      have hb := b.toNat_lt
      have hbyte : (byteBits b).foldl (bitStep poly) crc = shifts poly 8 (crc ^^^ b.toUInt32) := by
        rw [byteBits, foldl_bitStep (hb.trans_le (by decide)) crc (by decide), Nat.mod_eq_of_lt hb,
          ← toUInt32_eq_ofNat]
      rw [run_cons, ← ih, serial, List.flatMap_cons, List.foldl_append, hbyte]
      rfl

/-! ## Short differences -/

/-- Up to four bytes go into the register at once. -/
theorem run_short {data : List UInt8} (h : data.length ≤ 4) (crc : UInt32) :
    run poly data crc
      = shifts poly (8 * data.length) (crc ^^^ UInt32.ofNat (leNat data)) := by
  induction data generalizing crc with
  | nil => exact UInt32.xor_zero.symm
  | cons b data ih =>
      rw [List.length_cons] at h
      have hrest : leNat data < 256 ^ 3 :=
        (leNat_lt data).trans_le (Nat.pow_le_pow_right (by decide) (by omega))
      have hb := b.toNat_lt
      have hpow : 256 ^ 3 = 2 ^ 24 := by decide
      -- the later bytes reach the low end when the first one is shifted out
      have hlater : shifts poly 8 (UInt32.ofNat (256 * leNat data)) = UInt32.ofNat (leNat data) :=
        shifts_two_pow_mul (n := 8) (by omega)
      have hword : UInt32.ofNat (b.toNat + 256 * leNat data)
          = UInt32.ofNat b.toNat ^^^ UInt32.ofNat (256 * leNat data) :=
        @ofNat_add_eq_xor 8 b.toNat (leNat data) hb (by omega)
      rw [run_cons, ih (by omega), leNat, hword, ← toUInt32_eq_ofNat, ← hlater, ← shifts_xor, List.length_cons, Nat.mul_add, Nat.mul_one, shifts_add,
        UInt32.xor_assoc]

/-- **A burst is seen**: two messages that differ inside at most four consecutive
    bytes leave different registers. -/
theorem run_burst (hp : 2 ^ 31 ≤ poly.toNat) {pre w w' post : List UInt8} {crc : UInt32}
    (hlen : w'.length = w.length) (hshort : w.length ≤ 4)
    (h : run poly (pre ++ (w' ++ post)) crc = run poly (pre ++ (w ++ post)) crc) : w' = w := by
  rw [run_append, run_append, run_append, run_append, run_eq post, run_eq post (run poly w _)] at h
  have hwindow : run poly w' (run poly pre crc) = run poly w (run poly pre crc) :=
    shifts_injective hp ((UInt32.xor_right_inj _).mp h)
  rw [run_short (hlen ▸ hshort), run_short hshort, hlen] at hwindow
  have hword := (UInt32.xor_right_inj _).mp (shifts_injective hp hwindow)
  have hpow : ∀ {v : List UInt8}, v.length ≤ 4 → leNat v < 2 ^ 32 := by
    intro v hv
    exact (leNat_lt v).trans_le (Nat.pow_le_pow_right (by decide : 0 < 256) hv)
  have hnat := congrArg UInt32.toNat hword
  rw [UInt32.toNat_ofNat_of_lt' (hpow (hlen ▸ hshort)), UInt32.toNat_ofNat_of_lt' (hpow hshort)]
    at hnat
  rw [← leBytes_leNat w', ← leBytes_leNat w, hnat, hlen]

end Crc
