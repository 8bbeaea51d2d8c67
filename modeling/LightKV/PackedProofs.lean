import LightKV.LittleEndianProofs
import Mathlib.Logic.Equiv.Defs

/-! # Packed layouts

    A `Layout` stores the values of a type as byte strings of one length, each
    string of that length being one value's.  Words, lowest byte first, have
    layouts, and so have the fields of a packed structure in a row (`prod`).  An
    array is its elements in a row: reading as many of them as were written gives
    them back (`ofArray_array`), and writing what was read gives the bytes it was
    read from (`array_ofArray`). -/

namespace Packed

open LittleEndian

variable {α β : Type}

/-- **A layout**: the values of a type are the byte strings of one length. -/
structure Layout (α : Type) where
  width : Nat
  bytes : α → List UInt8
  ofBytes : List UInt8 → α
  length_bytes : ∀ a, (bytes a).length = width
  ofBytes_bytes : ∀ a, ofBytes (bytes a) = a
  bytes_ofBytes : ∀ bs, bs.length = width → bytes (ofBytes bs) = bs

attribute [simp] Layout.length_bytes Layout.ofBytes_bytes

/-! ## Words -/

/-- A word of `w` bytes, the lowest byte first. -/
def word (w : Nat) (toNat : α → Nat) (ofNat : Nat → α) (lt : ∀ a, toNat a < 256 ^ w)
    (ofNat_toNat : ∀ a, ofNat (toNat a) = a)
    (toNat_ofNat : ∀ n, n < 256 ^ w → toNat (ofNat n) = n) : Layout α where
  width := w
  bytes a := leBytes w (toNat a)
  ofBytes bs := ofNat (leNat bs)
  length_bytes a := length_leBytes w (toNat a)
  ofBytes_bytes a := by rw [leNat_leBytes_of_lt (lt a), ofNat_toNat]
  bytes_ofBytes bs h := by
    subst h
    rw [toNat_ofNat _ (leNat_lt bs), leBytes_leNat]

/-- `uint8_t`. -/
def uint8 : Layout UInt8 :=
  word 1 UInt8.toNat UInt8.ofNat UInt8.toNat_lt (fun _ => UInt8.ofNat_toNat)
    (fun _ h => UInt8.toNat_ofNat_of_lt' h)

/-- A byte is its own layout. -/
theorem uint8_bytes (b : UInt8) : uint8.bytes b = [b] := by
  show [UInt8.ofNat b.toNat] = [b]
  rw [UInt8.ofNat_toNat]

/-- `uint16_t`. -/
def uint16 : Layout UInt16 :=
  word 2 UInt16.toNat UInt16.ofNat UInt16.toNat_lt (fun _ => UInt16.ofNat_toNat)
    (fun _ h => UInt16.toNat_ofNat_of_lt' h)

/-- `uint64_t`. -/
def uint64 : Layout UInt64 :=
  word 8 UInt64.toNat UInt64.ofNat UInt64.toNat_lt (fun _ => UInt64.ofNat_toNat)
    (fun _ h => UInt64.toNat_ofNat_of_lt' h)

/-- `int16_t`, in two's complement. -/
def int16 : Layout Int16 :=
  word 2 (fun a => a.toUInt16.toNat) (fun n => (UInt16.ofNat n).toInt16)
    (fun a => a.toUInt16.toNat_lt) (fun a => by rw [UInt16.ofNat_toNat, Int16.toInt16_toUInt16])
    (fun _ h => UInt16.toNat_ofNat_of_lt' h)

/-- `int32_t`, in two's complement. -/
def int32 : Layout Int32 :=
  word 4 (fun a => a.toUInt32.toNat) (fun n => (UInt32.ofNat n).toInt32)
    (fun a => a.toUInt32.toNat_lt) (fun a => by rw [UInt32.ofNat_toNat, Int32.toInt32_toUInt32])
    (fun _ h => UInt32.toNat_ofNat_of_lt' h)

/-! ## Structures -/

/-- Two fields in a row, with no gap between them. -/
def Layout.prod (l : Layout α) (m : Layout β) : Layout (α × β) where
  width := l.width + m.width
  bytes p := l.bytes p.1 ++ m.bytes p.2
  ofBytes bs := (l.ofBytes (bs.take l.width), m.ofBytes (bs.drop l.width))
  length_bytes p := by rw [List.length_append, l.length_bytes, m.length_bytes]
  ofBytes_bytes p := by
    rw [List.take_left' (l.length_bytes _), List.drop_left' (l.length_bytes _), l.ofBytes_bytes,
      m.ofBytes_bytes]
  bytes_ofBytes bs h := by
    rw [l.bytes_ofBytes _ (by rw [List.length_take]; omega),
      m.bytes_ofBytes _ (by rw [List.length_drop]; omega), List.take_append_drop]

/-- A structure has the layout of its fields. -/
def Layout.map (l : Layout α) (e : α ≃ β) : Layout β where
  width := l.width
  bytes b := l.bytes (e.symm b)
  ofBytes bs := e (l.ofBytes bs)
  length_bytes b := l.length_bytes _
  ofBytes_bytes b := by rw [l.ofBytes_bytes, e.apply_symm_apply]
  bytes_ofBytes bs h := by rw [e.symm_apply_apply, l.bytes_ofBytes bs h]

@[simp] theorem Layout.bytes_prod (l : Layout α) (m : Layout β) (a : α) (b : β) :
    (l.prod m).bytes (a, b) = l.bytes a ++ m.bytes b := rfl

@[simp] theorem Layout.bytes_map (l : Layout α) (e : α ≃ β) (b : β) :
    (l.map e).bytes b = l.bytes (e.symm b) := rfl

/-- Values of different bytes differ, and conversely. -/
theorem Layout.bytes_inj (l : Layout α) {a b : α} : l.bytes a = l.bytes b ↔ a = b := by
  constructor
  · intro h
    rw [← l.ofBytes_bytes a, h, l.ofBytes_bytes]
  · exact congrArg l.bytes

/-! ## Arrays -/

/-- The elements of an array in a row. -/
def Layout.array (l : Layout α) (xs : List α) : List UInt8 := xs.flatMap l.bytes

/-- The first `n` elements in some bytes. -/
def Layout.ofArray (l : Layout α) : Nat → List UInt8 → List α
  | 0, _ => []
  | n + 1, bs => l.ofBytes (bs.take l.width) :: l.ofArray n (bs.drop l.width)

variable (l : Layout α)

theorem Layout.array_cons (x : α) (xs : List α) : l.array (x :: xs) = l.bytes x ++ l.array xs :=
  List.flatMap_cons

@[simp] theorem Layout.length_array (xs : List α) :
    (l.array xs).length = xs.length * l.width := by
  induction xs with
  | nil => rw [array, List.flatMap_nil, List.length_nil, List.length_nil, Nat.zero_mul]
  | cons x xs ih =>
      rw [l.array_cons, List.length_append, l.length_bytes, ih, List.length_cons, Nat.succ_mul,
        Nat.add_comm]

@[simp] theorem Layout.length_ofArray (n : Nat) (bs : List UInt8) :
    (l.ofArray n bs).length = n := by
  induction n generalizing bs with
  | zero => rfl
  | succ n ih => rw [ofArray, List.length_cons, ih]

theorem Layout.array_take (n : Nat) (xs : List α) :
    l.array (xs.take n) = (l.array xs).take (n * l.width) := by
  induction xs generalizing n with
  | nil => rw [List.take_nil, array, List.flatMap_nil, List.take_nil]
  | cons x xs ih =>
      cases n with
      | zero => rw [Nat.zero_mul, List.take_zero, List.take_zero, array, List.flatMap_nil]
      | succ n =>
          rw [List.take_succ_cons, l.array_cons, l.array_cons, ih, Nat.succ_mul, Nat.add_comm,
            ← l.length_bytes x, List.take_length_add_append]

/-- **Reading an array** gives back what was written, whatever stands behind it. -/
theorem Layout.ofArray_array (xs : List α) (rest : List UInt8) :
    l.ofArray xs.length (l.array xs ++ rest) = xs := by
  induction xs with
  | nil => rfl
  | cons x xs ih =>
      rw [l.array_cons, List.append_assoc, List.length_cons, ofArray,
        List.take_left' (l.length_bytes x), List.drop_left' (l.length_bytes x), l.ofBytes_bytes, ih]

/-- **Writing an array** that was read gives the bytes it was read from. -/
theorem Layout.array_ofArray (n : Nat) {bs : List UInt8} (h : n * l.width ≤ bs.length) :
    l.array (l.ofArray n bs) = bs.take (n * l.width) := by
  induction n generalizing bs with
  | zero => rw [Nat.zero_mul, List.take_zero, ofArray, array, List.flatMap_nil]
  | succ n ih =>
      rw [Nat.succ_mul] at h ⊢
      have hfirst : (bs.take l.width).length = l.width := by
        rw [List.length_take]
        omega
      have hrest : n * l.width ≤ (bs.drop l.width).length := by
        rw [List.length_drop]
        omega
      rw [ofArray, l.array_cons, l.bytes_ofBytes _ hfirst, ih hrest, Nat.add_comm, List.take_add]

end Packed
