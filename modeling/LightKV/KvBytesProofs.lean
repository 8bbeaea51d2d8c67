import LightKV.ExecutionProofs
import LightKV.LittleEndianProofs
import Mathlib.Data.List.Lex
import Mathlib.Order.WithBot

/-! # Byte strings and slices

    `std::string` is a list of bytes here, ordered byte by byte as
    `std::char_traits<char>` and `memcmp` order it.  A `Slice` is a pointer and
    a length: the bytes from the pointer to the end of the buffer it points
    into, and the number of them it claims.  Reading past that buffer is a
    `Fault`, never a value. -/

namespace KvBytes

open Execution LittleEndian

/-- The ways an operation of the store can go wrong outside its own error
    handling. -/
inductive Fault
  /-- a null or dangling pointer is followed -/
  | nullPointer
  /-- a read outside the buffer it was meant for -/
  | outOfBounds
  /-- a table file of `2 ^ 62` bytes or more, which no disk holds -/
  | fileTooLarge
  /-- a `std::string` of `2 ^ 62` bytes or more: it is longer than `max_size()` -/
  | badAlloc
  /-- an integer division by zero -/
  | divisionByZero
  /-- a loop of the model ran out of fuel -/
  | noProgress
  deriving DecidableEq, Repr

/-- `std::string`. -/
abbrev Bytes := List UInt8

/-- Bytes compare as `unsigned char`. -/
instance instLinearOrderByte : LinearOrder UInt8 where
  le_refl := UInt8.le_refl
  le_trans _ _ _ := UInt8.le_trans
  lt_iff_le_not_ge a b := by
    rw [UInt8.lt_iff_toNat_lt, UInt8.le_iff_toNat_le, UInt8.le_iff_toNat_le]
    omega
  le_antisymm _ _ := UInt8.le_antisymm
  le_total := UInt8.le_total
  toDecidableLE := inferInstance
  toDecidableEq := inferInstance
  toDecidableLT := inferInstance

/-- Strings compare lexicographically, decided the way core decides it. -/
instance instLinearOrderBytes : LinearOrder Bytes :=
  { (inferInstance : LinearOrder (List UInt8)) with
    compare := fun a b => compareOfLessAndEq a b
    toDecidableEq := inferInstance
    toDecidableLT := List.decidableLT
    compare_eq_compareOfLessAndEq := fun _ _ => rfl }

/-- Strings are equal when their equality is decided so, as for any key. -/
instance instBEqBytes : BEq Bytes := instBEqOfDecidableEq

/-! ## `Except` runs -/

/-- A bind that succeeds has both halves succeed. -/
theorem bind_eq_ok {α β : Type} {x : Except Fault α} {f : α → Except Fault β} {b : β} :
    (x >>= f) = .ok b ↔ ∃ a, x = .ok a ∧ f a = .ok b := by
  cases x with
  | error e => simp [bind, Except.bind]
  | ok a => simp [bind, Except.bind]

@[simp] theorem ok_bind {α β : Type} (a : α) (f : α → Except Fault β) :
    ((Except.ok a : Except Fault α) >>= f) = f a := rfl

@[simp] theorem error_bind {α β : Type} (e : Fault) (f : α → Except Fault β) :
    ((Except.error e : Except Fault α) >>= f) = .error e := rfl

/-- **A run that ends well**: in a value with `P`, or because a file would have
    grown too large.  No other fault is possible. -/
abbrev Runs {α : Type} (x : Except Fault α) (P : α → Prop) : Prop :=
  Ends (fun f => f = .fileTooLarge) x P

/-! ## Slices -/

/-- `n` bytes copied from the front of a buffer. -/
def readBytes (mem : Bytes) (n : Nat) : Except Fault Bytes :=
  if n ≤ mem.length then .ok (mem.take n) else .error .outOfBounds

theorem readBytes_append (a b : Bytes) : readBytes (a ++ b) a.length = .ok a := by
  simp [readBytes]

theorem readBytes_of_length {a b : Bytes} {n : Nat} (h : a.length = n) :
    readBytes (a ++ b) n = .ok a := by
  subst h
  exact readBytes_append a b

theorem eq_take_of_readBytes {mem b : Bytes} {n : Nat} (h : readBytes mem n = .ok b) :
    b = mem.take n := by
  rw [readBytes] at h
  split at h
  · exact (Except.ok.inj h).symm
  · cases h

/-- `Slice`: a pointer into a buffer and a length. -/
structure Slice where
  data : Bytes
  size : Nat

/-- `Slice(const std::string&)`. -/
def Slice.ofString (s : Bytes) : Slice := ⟨s, s.length⟩

/-- `std::memcmp` over the common length: the sign of the first difference. -/
def memcmp : Bytes → Bytes → Int
  | a :: as, b :: bs => if a = b then memcmp as bs else (a.toNat : Int) - b.toNat
  | _, _ => 0

/-- `Slice::compare`. -/
def Slice.compare (a b : Slice) : Except Fault Int := do
  let minLen := if a.size < b.size then a.size else b.size
  let x ← readBytes a.data minLen
  let y ← readBytes b.data minLen
  let r := memcmp x y
  if r = 0 then
    if a.size < b.size then pure (-1)
    else if a.size > b.size then pure 1
    else pure 0
  else pure r

/-- `Slice::to_string`. -/
def Slice.toString (s : Slice) : Except Fault Bytes := readBytes s.data s.size

/-- What `Slice::compare` answers on two whole strings.  Its three answers are
    the three cases of the order on strings. -/
def sliceOrder (a b : Bytes) : Int :=
  let minLen := if a.length < b.length then a.length else b.length
  let r := memcmp (a.take minLen) (b.take minLen)
  if r = 0 then
    if a.length < b.length then -1
    else if a.length > b.length then 1
    else 0
  else r

/-- Comparing slices that lie inside their buffers never faults. -/
theorem compare_of_take {m n : Bytes} {i j : Nat} (hi : i ≤ m.length) (hj : j ≤ n.length) :
    Slice.compare ⟨m, i⟩ ⟨n, j⟩ = .ok (sliceOrder (m.take i) (n.take j)) := by
  have hmi : (m.take i).length = i := by simp [hi]
  have hnj : (n.take j).length = j := by simp [hj]
  simp only [Slice.compare, sliceOrder, hmi, hnj]
  by_cases hlt : i < j
  · have h1 : readBytes m i = .ok (m.take i) := by rw [readBytes, if_pos hi]
    have h2 : readBytes n i = .ok (n.take i) := by rw [readBytes, if_pos (by omega)]
    simp only [if_pos hlt, h1, h2, ok_bind, List.take_take, Nat.min_self,
      Nat.min_eq_left (Nat.le_of_lt hlt)]
    split <;> rfl
  · have h1 : readBytes m j = .ok (m.take j) := by rw [readBytes, if_pos (by omega)]
    have h2 : readBytes n j = .ok (n.take j) := by rw [readBytes, if_pos hj]
    simp only [if_neg hlt, h1, h2, ok_bind, List.take_take, Nat.min_self,
      Nat.min_eq_left (Nat.le_of_not_lt hlt)]
    split <;> [skip; rfl]
    split <;> rfl

theorem sliceOrder_cons (a b : UInt8) (as bs : Bytes) :
    sliceOrder (a :: as) (b :: bs)
      = if a = b then sliceOrder as bs else (a.toNat : Int) - b.toNat := by
  have hmin : (if as.length < bs.length then as.length + 1 else bs.length + 1)
      = (if as.length < bs.length then as.length else bs.length) + 1 := by
    split <;> rfl
  unfold sliceOrder
  simp only [List.length_cons, Nat.add_lt_add_iff_right, gt_iff_lt, hmin,
    List.take_succ_cons, memcmp]
  by_cases hab : a = b
  · simp only [if_pos hab]
  · have hne : (a.toNat : Int) - b.toNat ≠ 0 := by
      intro h0
      apply hab
      apply UInt8.toNat_inj.mp
      omega
    simp only [if_neg hab, if_neg hne]

theorem sliceOrder_nil_left (b : Bytes) : sliceOrder [] b = if b = [] then 0 else -1 := by
  cases b with
  | nil => rfl
  | cons b bs => simp [sliceOrder, memcmp]

theorem sliceOrder_nil_right (a : Bytes) : sliceOrder a [] = if a = [] then 0 else 1 := by
  cases a with
  | nil => rfl
  | cons a as => simp [sliceOrder, memcmp]

/-- **`Slice::compare` is negative exactly on smaller strings.** -/
theorem sliceOrder_lt_zero {a b : Bytes} : sliceOrder a b < 0 ↔ a < b := by
  induction a generalizing b with
  | nil =>
      rw [sliceOrder_nil_left]
      cases b with
      | nil => simp
      | cons b bs => simp [List.nil_lt_cons]
  | cons a as ih =>
      cases b with
      | nil =>
          rw [sliceOrder_nil_right]
          simp
      | cons b bs =>
          rw [sliceOrder_cons, List.cons_lt_cons_iff]
          by_cases hab : a = b
          · rw [if_pos hab, ih]
            simp [hab]
          · rw [if_neg hab, UInt8.lt_iff_toNat_lt]
            simp only [hab, false_and, or_false]
            omega

/-- **`Slice::compare` is zero exactly on equal strings.** -/
theorem sliceOrder_eq_zero {a b : Bytes} : sliceOrder a b = 0 ↔ a = b := by
  induction a generalizing b with
  | nil =>
      rw [sliceOrder_nil_left]
      cases b with
      | nil => simp
      | cons b bs => simp
  | cons a as ih =>
      cases b with
      | nil =>
          rw [sliceOrder_nil_right]
          simp
      | cons b bs =>
          rw [sliceOrder_cons, List.cons_eq_cons]
          by_cases hab : a = b
          · rw [if_pos hab, ih]
            simp [hab]
          · rw [if_neg hab]
            have hne : a.toNat ≠ b.toNat := fun h => hab (UInt8.toNat_inj.mp h)
            simp only [hab, false_and, iff_false]
            omega

/-- **`Slice::compare` is positive exactly on larger strings.** -/
theorem sliceOrder_pos {a b : Bytes} : 0 < sliceOrder a b ↔ b < a := by
  have hlt : sliceOrder a b < 0 ↔ a < b := sliceOrder_lt_zero
  have heq : sliceOrder a b = 0 ↔ a = b := sliceOrder_eq_zero
  constructor
  · intro h
    rcases lt_trichotomy a b with hab | hab | hab
    · have := hlt.mpr hab
      omega
    · have := heq.mpr hab
      omega
    · exact hab
  · intro h
    have h1 : ¬ sliceOrder a b < 0 := fun hc => absurd (hlt.mp hc) (not_lt.mpr h.le)
    have h2 : ¬ sliceOrder a b = 0 := fun hc => absurd (heq.mp hc) h.ne'
    omega

/-- A comparison that finds two keys equal has read the first in full. -/
theorem take_of_compare_eq_zero {m : Bytes} {i : Nat} {key : Bytes}
    (h : Slice.compare ⟨m, i⟩ (.ofString key) = .ok 0) : m.take i = key := by
  have hle : i ≤ m.length := by
    by_contra hlong
    rw [Slice.compare] at h
    obtain ⟨x, hx, h⟩ := bind_eq_ok.mp h
    obtain ⟨y, -, h⟩ := bind_eq_ok.mp h
    replace hx : readBytes m (if i < key.length then i else key.length) = .ok x := hx
    replace h : (if memcmp x y = 0 then
        if i < key.length then pure (-1) else if i > key.length then pure 1 else pure 0
      else pure (memcmp x y) : Except Fault Int) = .ok 0 := h
    have hzero : memcmp x y = 0 := by
      by_contra hne
      rw [if_neg hne] at h
      exact hne (Except.ok.inj h)
    rw [if_pos hzero] at h
    rcases Nat.lt_trichotomy i key.length with hlt | heq | hgt
    · rw [if_pos hlt] at h
      cases h
    · -- the keys have one length, and that many bytes were read
      rw [if_neg heq.not_lt, ← heq, readBytes, if_neg hlong] at hx
      cases hx
    · rw [if_neg hgt.not_gt, if_pos hgt] at h
      cases h
  have hcmp := compare_of_take hle (Nat.le_refl key.length)
  rw [List.take_length] at hcmp
  rw [Slice.ofString, hcmp] at h
  exact sliceOrder_eq_zero.mp (Except.ok.inj h)

/-- **Strings that start with as many bytes** are ordered by these first. -/
theorem append_lt_append_iff {a b : Bytes} (hlen : a.length = b.length) (c d : Bytes) :
    a ++ c < b ++ d ↔ a < b ∨ a = b ∧ c < d := by
  induction a generalizing b with
  | nil =>
      obtain rfl := List.length_eq_zero_iff.mp hlen.symm
      simp
  | cons x a ih =>
      obtain ⟨y, b, rfl⟩ := List.exists_cons_of_length_eq_add_one hlen.symm
      rw [List.cons_append, List.cons_append, List.cons_lt_cons_iff, List.cons_lt_cons_iff,
        ih (Nat.succ.inj hlen), List.cons_eq_cons]
      tauto

/-! ## The enumerations of `slice.h` and `types.h` -/

/-- `enum class ValueType : uint8_t`; a byte read from a file may be any. -/
structure ValueType where
  raw : UInt8
  deriving DecidableEq, Repr

/-- A tombstone. -/
def ValueType.kTypeDeletion : ValueType := ⟨0x0⟩

/-- A value written by `put`. -/
def ValueType.kTypeValue : ValueType := ⟨0x1⟩

/-- `TableValue`. -/
structure TableValue where
  type : ValueType := .kTypeValue
  value : Bytes := []
  deriving DecidableEq, Repr

end KvBytes
