import Eo9.Library.Endian
import Eo9.Library.Outcome

/-!
# Bulk-Only Transport wire formats

The Command Block Wrapper and the Command Status Wrapper (`bot.rs`).
-/

namespace Eo9.Msd

open Eo9.Library

abbrev Bytes := List UInt8

def CBW_LEN : Nat := 31

def CSW_LEN : Nat := 13

/-- `USBC`. -/
def CBW_SIGNATURE : Bytes := [0x55, 0x53, 0x42, 0x43]

/-- `USBS`. -/
def CSW_SIGNATURE : Bytes := [0x55, 0x53, 0x42, 0x53]

def CSW_PASSED : UInt8 := 0

def CSW_FAILED : UInt8 := 1

def CSW_PHASE_ERROR : UInt8 := 2

def MAX_CDB_LEN : Nat := 16

inductive Direction where
  | in_
  | out

def Direction.flags : Direction → UInt8
  | .in_ => 0x80
  | .out => 0x00

section Cbw

variable {ε : Type}

/-- The bytes of a wrapper around a command block of at most 16 bytes. -/
def cbwBytes (tag transferLength : Nat) (direction : Direction) (lun : UInt8) (cdb : Bytes) :
    Bytes :=
  CBW_SIGNATURE ++ leBytes 4 tag ++ leBytes 4 transferLength ++
    [direction.flags, lun &&& 0x0f, UInt8.ofNat cdb.length] ++
    cdb ++ List.replicate (MAX_CDB_LEN - cdb.length) 0

def encodeCbw (tag transferLength : Nat) (direction : Direction) (lun : UInt8) (cdb : Bytes) :
    Outcome ε Bytes :=
  if 1 ≤ cdb.length ∧ cdb.length ≤ MAX_CDB_LEN then
    .ok (cbwBytes tag transferLength direction lun cdb)
  else Outcome.panic "CBW command block must be 1..=16 bytes"

theorem encodeCbw_ok {tag transferLength : Nat} {direction : Direction} {lun : UInt8}
    {cdb : Bytes} (h : 1 ≤ cdb.length ∧ cdb.length ≤ MAX_CDB_LEN) :
    (encodeCbw tag transferLength direction lun cdb : Outcome ε Bytes) =
      .ok (cbwBytes tag transferLength direction lun cdb) := if_pos h

/-- The tag field, which both wrappers have behind their signature. -/
def tagBytes (bytes : Bytes) : Bytes := (bytes.drop 4).take 4

/-- The tag that a wrapper carries. -/
def tagOf (bytes : Bytes) : Nat := leValue (tagBytes bytes)

theorem tagBytes_cbwBytes {tag transferLength : Nat} {direction : Direction} {lun : UInt8}
    {cdb : Bytes} :
    tagBytes (cbwBytes tag transferLength direction lun cdb) = leBytes 4 tag := by
  simp only [tagBytes, cbwBytes, List.append_assoc]
  rw [List.drop_left' (show CBW_SIGNATURE.length = 4 from rfl),
    List.take_left' (length_leBytes 4 tag)]

theorem tagOf_cbwBytes {tag transferLength : Nat} {direction : Direction} {lun : UInt8}
    {cdb : Bytes} (h : tag < 2 ^ 32) :
    tagOf (cbwBytes tag transferLength direction lun cdb) = tag := by
  rw [tagOf, tagBytes_cbwBytes, leValue_leBytes 4 tag (by omega)]

end Cbw

/-- A decoded status wrapper. -/
structure Csw where
  tag : Nat
  residue : Nat
  status : UInt8

inductive CswError where
  | length (n : Nat)
  | signature
  | tag (expected got : Nat)
  | status (status : UInt8)

/-- Decodes and checks a status wrapper against the tag of the command's wrapper. -/
def decodeCsw (bytes : Bytes) (expectedTag : Nat) : Except CswError Csw :=
  if bytes.length ≠ CSW_LEN then .error (.length bytes.length)
  else if bytes.take 4 ≠ CSW_SIGNATURE then .error .signature
  else if tagOf bytes ≠ expectedTag then .error (.tag expectedTag (tagOf bytes))
  else if CSW_PHASE_ERROR < bytes.getD 12 0 then .error (.status (bytes.getD 12 0))
  else .ok ⟨tagOf bytes, leValue ((bytes.drop 8).take 4), bytes.getD 12 0⟩

/-- What a status wrapper that decodes carries. -/
theorem decodeCsw_eq_ok {bytes : Bytes} {tag : Nat} {csw : Csw}
    (h : decodeCsw bytes tag = .ok csw) : tagOf bytes = tag ∧ csw.status ≤ CSW_PHASE_ERROR := by
  unfold decodeCsw at h
  split at h
  · exact absurd h nofun
  split at h
  · exact absurd h nofun
  split at h
  · exact absurd h nofun
  rename_i htag
  split at h
  · exact absurd h nofun
  rename_i hstatus
  obtain rfl := Except.ok.inj h
  exact ⟨not_not.mp htag, UInt8.not_lt.mp hstatus⟩

/-!
## The SCSI command set

The command blocks and the decoders of what a device answers (`scsi.rs`).
-/

def OP_TEST_UNIT_READY : UInt8 := 0x00

def OP_REQUEST_SENSE : UInt8 := 0x03

def OP_INQUIRY : UInt8 := 0x12

def OP_READ_CAPACITY_10 : UInt8 := 0x25

def OP_READ_10 : UInt8 := 0x28

def OP_WRITE_10 : UInt8 := 0x2a

def INQUIRY_LEN : UInt8 := 36

def SENSE_LEN : UInt8 := 18

def READ_CAPACITY_LEN : Nat := 8

namespace Scsi

def inquiry (allocation : UInt8) : Bytes := [OP_INQUIRY, 0, 0, 0, allocation, 0]

def testUnitReady : Bytes := [OP_TEST_UNIT_READY, 0, 0, 0, 0, 0]

def requestSense (allocation : UInt8) : Bytes := [OP_REQUEST_SENSE, 0, 0, 0, allocation, 0]

def readCapacity10 : Bytes := OP_READ_CAPACITY_10 :: List.replicate 9 0

/-- The big-endian bytes of a value. -/
def beBytes (width n : Nat) : Bytes := (leBytes width n).reverse

def rw10 (op : UInt8) (lba : UInt32) (blocks : UInt16) : Bytes :=
  [op, 0] ++ beBytes 4 lba.toNat ++ [0] ++ beBytes 2 blocks.toNat ++ [0]

def read10 (lba : UInt32) (blocks : UInt16) : Bytes := rw10 OP_READ_10 lba blocks

def write10 (lba : UInt32) (blocks : UInt16) : Bytes := rw10 OP_WRITE_10 lba blocks

@[simp] theorem length_rw10 (op : UInt8) (lba : UInt32) (blocks : UInt16) :
    (rw10 op lba blocks).length = 10 := by
  simp [rw10, beBytes]

end Scsi

structure Inquiry where
  deviceType : UInt8
  removable : Bool
  vendor : Bytes
  product : Bytes
  revision : Bytes

def Inquiry.parse (bytes : Bytes) : Option Inquiry :=
  if bytes.length < INQUIRY_LEN.toNat then none
  else
    some {
      deviceType := bytes.getD 0 0 &&& 0x1f
      removable := bytes.getD 1 0 &&& 0x80 != 0
      vendor := (bytes.drop 8).take 8
      product := (bytes.drop 16).take 16
      revision := (bytes.drop 32).take 4 }

structure Capacity where
  lastLba : Nat
  blockSize : Nat

def Capacity.parse (bytes : Bytes) : Option Capacity :=
  if bytes.length < READ_CAPACITY_LEN then none
  else some ⟨leValue (bytes.take 4).reverse, leValue ((bytes.drop 4).take 4).reverse⟩

structure Sense where
  key : UInt8
  asc : UInt8
  ascq : UInt8

/-- Fixed-format sense data; other formats and truncated data give none. -/
def Sense.parse (bytes : Bytes) : Option Sense := do
  let responseCode := (← bytes.head?) &&& 0x7f
  if responseCode != 0x70 && responseCode != 0x71 then none
  else
    let key ← bytes[2]?
    let asc ← bytes[12]?
    let ascq ← bytes[13]?
    some ⟨key &&& 0x0f, asc, ascq⟩

end Eo9.Msd
