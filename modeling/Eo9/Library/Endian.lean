import Mathlib.Data.Nat.Basic
import Mathlib.Tactic.Ring

/-!
# Little-endian integers

The value of a byte list with the least significant byte first, and the bytes
of a value.
-/

namespace Eo9.Library

/-- The value of little-endian bytes. -/
def leValue : List UInt8 → Nat
  | [] => 0
  | b :: rest => b.toNat + 256 * leValue rest

/-- The `width` little-endian bytes of a value. -/
def leBytes : Nat → Nat → List UInt8
  | 0, _ => []
  | width + 1, n => UInt8.ofNat n :: leBytes width (n / 256)

theorem leValue_lt (bytes : List UInt8) : leValue bytes < 256 ^ bytes.length := by
  induction bytes with
  | nil => simp [leValue]
  | cons b rest ih =>
    have hb := b.toNat_lt
    simp only [leValue, List.length_cons, pow_succ]
    omega

@[simp] theorem length_leBytes (width n : Nat) : (leBytes width n).length = width := by
  induction width generalizing n with
  | zero => rfl
  | succ width ih => simp [leBytes, ih]

/-- A value that fits is read back from its bytes. -/
theorem leValue_leBytes (width n : Nat) (h : n < 256 ^ width) :
    leValue (leBytes width n) = n := by
  induction width generalizing n with
  | zero =>
    simp only [pow_zero, Nat.lt_one_iff] at h
    simp [leBytes, leValue, h]
  | succ width ih =>
    have hrest : n / 256 < 256 ^ width := by
      rw [pow_succ] at h
      omega
    simp only [leBytes, leValue, ih _ hrest, UInt8.toNat_ofNat']
    omega

/-- Bytes are determined by their length and their value. -/
theorem leBytes_leValue (bytes : List UInt8) :
    leBytes bytes.length (leValue bytes) = bytes := by
  induction bytes with
  | nil => rfl
  | cons b rest ih =>
    have hb := b.toNat_lt
    have hhead : UInt8.ofNat (b.toNat + 256 * leValue rest) = b := by
      apply UInt8.toNat_inj.mp
      rw [UInt8.toNat_ofNat']
      omega
    have hrest : (b.toNat + 256 * leValue rest) / 256 = leValue rest := by omega
    simp only [List.length_cons, leValue, leBytes, hhead, hrest, ih]

/-!
## Big-endian integers

The value of a byte list with the most significant byte first, and the bytes of a value.
-/

def bigEndianValue (bytes : List UInt8) : ℕ := leValue bytes.reverse

/-- The `width` big-endian bytes of a value. -/
def bigEndian (width n : ℕ) : List UInt8 := (leBytes width n).reverse

@[simp] theorem length_bigEndian (width n : ℕ) : (bigEndian width n).length = width := by
  rw [bigEndian, List.length_reverse, length_leBytes]

theorem bigEndianValue_lt (bytes : List UInt8) : bigEndianValue bytes < 256 ^ bytes.length := by
  rw [bigEndianValue, ← List.length_reverse]
  exact leValue_lt _

/-- A value that fits is read back from its bytes. -/
theorem bigEndianValue_bigEndian {width n : ℕ} (h : n < 256 ^ width) :
    bigEndianValue (bigEndian width n) = n := by
  rw [bigEndianValue, bigEndian, List.reverse_reverse, leValue_leBytes width n h]

/-- Bytes are determined by their length and their value. -/
theorem bigEndian_bigEndianValue {bytes : List UInt8} {width : ℕ} (h : bytes.length = width) :
    bigEndian width (bigEndianValue bytes) = bytes := by
  rw [bigEndian, bigEndianValue, ← h, ← List.length_reverse, leBytes_leValue, List.reverse_reverse]

end Eo9.Library
