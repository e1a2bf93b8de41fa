import Eo9.Library.Action
import Eo9.Library.Bytes

/-!
# Block devices

The device trait of `device.rs` and its in-memory implementations. A lawful
device shows the bytes it holds: reads are exact, a write that fails may have
applied a prefix of its data, and a flush changes no byte.
-/

namespace Eo9.Eofs

open Eo9.Library

inductive DeviceError where
  | outOfRange
  | io
  | ioNamed (what : String)
  deriving DecidableEq

/-- A flat, byte-addressed block device. -/
class BlockDevice (D : Type) where
  size : D → Nat
  readAt : D → Nat → Nat → Except DeviceError (List UInt8)
  writeAt : Nat → List UInt8 → D → Except DeviceError Unit × D
  flush : D → Except DeviceError Unit × D

/-- The contract of the device trait, in terms of the bytes a device holds. -/
class LawfulDevice (D : Type) [BlockDevice D] where
  /-- The bytes on the device. -/
  byte : D → Nat → UInt8
  size_lt : ∀ d : D, BlockDevice.size d < 2 ^ 64
  readAt_eq : ∀ (d : D) (offset len : Nat), offset + len ≤ BlockDevice.size d →
    BlockDevice.readAt d offset len = .ok (slice (byte d) offset len)
  size_writeAt : ∀ (d : D) (offset : Nat) (data : List UInt8),
    BlockDevice.size (BlockDevice.writeAt offset data d).2 = BlockDevice.size d
  /-- A write applies a prefix of its data, and all of it when it succeeds. -/
  writeAt_prefix : ∀ (d : D) (offset : Nat) (data : List UInt8), ∃ n,
    byte (BlockDevice.writeAt offset data d).2 = overwrite (byte d) offset (data.take n) ∧
    ((BlockDevice.writeAt offset data d).1 = .ok () → data.length ≤ n)
  size_flush : ∀ d : D, BlockDevice.size (BlockDevice.flush d).2 = BlockDevice.size d
  byte_flush : ∀ d : D, byte (BlockDevice.flush d).2 = byte d

/-- A device that is at present not failing: a write in range and a flush
succeed, and leave it so. -/
class ReliableDevice (D : Type) [BlockDevice D] : Prop where
  writeAt_ok : ∀ (d : D) (offset : Nat) (data : List UInt8),
    offset + data.length ≤ BlockDevice.size d → (BlockDevice.writeAt offset data d).1 = .ok ()
  flush_ok : ∀ d : D, (BlockDevice.flush d).1 = .ok ()

/-- Whether `offset .. offset + len` lies inside a device of `size` bytes. -/
def checkRange (size offset len : Nat) : Except DeviceError Unit :=
  if 2 ^ 64 ≤ offset + len then .error .outOfRange
  else if size < offset + len then .error .outOfRange
  else .ok ()

/-- A memory-backed device. -/
structure MemDevice where
  size : Nat
  byte : Nat → UInt8
  size_lt : size < 2 ^ 64

namespace MemDevice

/-- A zero-filled device. -/
def new (size : UInt64) : MemDevice where
  size := size.toNat
  byte _ := 0
  size_lt := size.toNat_lt

def readAt (d : MemDevice) (offset len : Nat) : Except DeviceError (List UInt8) := do
  checkRange d.size offset len
  .ok (slice d.byte offset len)

def writeAt (offset : Nat) (data : List UInt8) (d : MemDevice) :
    Except DeviceError Unit × MemDevice :=
  match checkRange d.size offset data.length with
  | .error e => (.error e, d)
  | .ok () => (.ok (), { d with byte := overwrite d.byte offset data })

instance : BlockDevice MemDevice where
  size := size
  readAt := readAt
  writeAt := writeAt
  flush d := (.ok (), d)

theorem checkRange_ok {d : MemDevice} {offset len : Nat} (h : offset + len ≤ d.size) :
    checkRange d.size offset len = .ok () := by
  have := d.size_lt
  simp only [checkRange, if_neg (show ¬ 2 ^ 64 ≤ offset + len by omega),
    if_neg (show ¬ d.size < offset + len by omega)]

instance : LawfulDevice MemDevice where
  byte := byte
  size_lt := size_lt
  readAt_eq d offset len h := by
    simp only [BlockDevice.readAt, readAt, checkRange_ok h]
    rfl
  size_writeAt d offset data := by
    simp only [BlockDevice.writeAt, writeAt, BlockDevice.size]
    split <;> rfl
  writeAt_prefix d offset data := by
    simp only [BlockDevice.writeAt, writeAt]
    split
    · exact ⟨0, by simp, by simp⟩
    · exact ⟨data.length, by simp, fun _ => le_rfl⟩
  size_flush _ := rfl
  byte_flush _ := rfl

instance : ReliableDevice MemDevice where
  writeAt_ok d offset data h := by
    simp only [BlockDevice.writeAt, writeAt, checkRange_ok h]
  flush_ok _ := rfl

end MemDevice

end Eo9.Eofs
