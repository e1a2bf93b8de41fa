import Eo9.Library.Bytes
import Eo9.Library.Endian

/-!
# Descriptors of an OHCI controller

Endpoint descriptors, transfer descriptors and the layout of the arena that the driver shares with
the controller (`schedule.rs`). All of them are little-endian 32-bit words.
-/

namespace Eo9.Ohci

open Eo9.Library

abbrev Bytes := List UInt8

abbrev Word := UInt32

inductive ConditionCode where
  | noError
  | crc
  | bitStuffing
  | dataToggleMismatch
  | stall
  | deviceNotResponding
  | pidCheckFailure
  | unexpectedPid
  | dataOverrun
  | dataUnderrun
  | bufferOverrun
  | bufferUnderrun
  | notAccessed
  | reserved (bits : ℕ)
  deriving DecidableEq

def ConditionCode.fromBits (code : ℕ) : ConditionCode :=
  match code % 16 with
  | 0x0 => .noError
  | 0x1 => .crc
  | 0x2 => .bitStuffing
  | 0x3 => .dataToggleMismatch
  | 0x4 => .stall
  | 0x5 => .deviceNotResponding
  | 0x6 => .pidCheckFailure
  | 0x7 => .unexpectedPid
  | 0x8 => .dataOverrun
  | 0x9 => .dataUnderrun
  | 0xc => .bufferOverrun
  | 0xd => .bufferUnderrun
  | 0xe => .notAccessed
  | 0xf => .notAccessed
  | other => .reserved other

def conditionBits : ConditionCode → Word
  | .noError => 0x0
  | .crc => 0x1
  | .bitStuffing => 0x2
  | .dataToggleMismatch => 0x3
  | .stall => 0x4
  | .deviceNotResponding => 0x5
  | .pidCheckFailure => 0x6
  | .unexpectedPid => 0x7
  | .dataOverrun => 0x8
  | .dataUnderrun => 0x9
  | .bufferOverrun => 0xc
  | .bufferUnderrun => 0xd
  | .notAccessed => 0xf
  | .reserved bits => UInt32.ofNat (bits % 16)

def encodeDwords (dwords : List Word) : Bytes := dwords.flatMap fun w => leBytes 4 w.toNat

/-- The word `slot` of a descriptor. -/
def decodeDword (bytes : Bytes) (slot : ℕ) : Word := UInt32.ofNat (leValue (sub bytes (4 * slot) 4))

/-- A pointer without the bits that are not part of it. -/
def pointer (w : Word) : Word := w &&& ~~~0xf

def flag (b : Bool) (shift : Word) : Word := b.toUInt32 <<< shift

def hasFlag (w shift : Word) : Bool := w &&& flag true shift ≠ 0

inductive EdDirection where
  | fromTd
  | out
  | «in»

structure EndpointDescriptor where
  functionAddress : UInt8 := 0
  endpointNumber : UInt8 := 0
  direction : EdDirection := .fromTd
  lowSpeed : Bool := false
  skip : Bool := false
  isochronous : Bool := false
  maxPacketSize : UInt16 := 0
  tail : Word := 0
  head : Word := 0
  halted : Bool := false
  toggleCarry : Bool := false
  next : Word := 0

namespace EndpointDescriptor

def encode (ed : EndpointDescriptor) : Bytes :=
  let direction : Word :=
    match ed.direction with
    | .fromTd => 0
    | .out => 1
    | .in => 2
  let dword0 : Word :=
    (ed.functionAddress &&& 0x7f).toUInt32 ||| (ed.endpointNumber &&& 0xf).toUInt32 <<< 7 |||
      direction <<< 11 ||| flag ed.lowSpeed 13 ||| flag ed.skip 14 ||| flag ed.isochronous 15 |||
      (ed.maxPacketSize &&& 0x7ff).toUInt32 <<< 16
  let head := pointer ed.head ||| flag ed.halted 0 ||| flag ed.toggleCarry 1
  encodeDwords [dword0, pointer ed.tail, head, pointer ed.next]

def decode (bytes : Bytes) : EndpointDescriptor :=
  let dword0 := decodeDword bytes 0
  let head := decodeDword bytes 2
  { functionAddress := (dword0 &&& 0x7f).toUInt8
    endpointNumber := (dword0 >>> 7 &&& 0xf).toUInt8
    direction :=
      if dword0 >>> 11 &&& 3 = 1 then .out
      else if dword0 >>> 11 &&& 3 = 2 then .in
      else .fromTd
    lowSpeed := hasFlag dword0 13
    skip := hasFlag dword0 14
    isochronous := hasFlag dword0 15
    maxPacketSize := (dword0 >>> 16 &&& 0x7ff).toUInt16
    tail := decodeDword bytes 1
    head := pointer head
    halted := hasFlag head 0
    toggleCarry := hasFlag head 1
    next := decodeDword bytes 3 }

end EndpointDescriptor

inductive TdPid where
  | setup
  | out
  | «in»

inductive TdToggle where
  | fromEd
  | data0
  | data1

/-- No interrupt for this descriptor. -/
def DI_NONE : UInt8 := 7

def DI_IMMEDIATE : UInt8 := 0

structure TransferDescriptor where
  bufferRounding : Bool := false
  pid : TdPid := .setup
  delayInterrupt : UInt8 := 0
  dataToggle : TdToggle := .fromEd
  errorCount : UInt8 := 0
  conditionCode : ConditionCode := .notAccessed
  currentBuffer : Word := 0
  next : Word := 0
  bufferEnd : Word := 0

namespace TransferDescriptor

/-- A fresh descriptor; a buffer is its first address and its length. -/
def new (pid : TdPid) (toggle : TdToggle) (buffer : Option (Word × Word)) : TransferDescriptor :=
  { bufferRounding := true
    pid := pid
    delayInterrupt := DI_NONE
    dataToggle := toggle
    conditionCode := .notAccessed
    currentBuffer := (buffer.map fun (start, _) => start).getD 0
    bufferEnd := (buffer.map fun (start, len) => start + len - 1).getD 0 }

def encode (td : TransferDescriptor) : Bytes :=
  let pid : Word :=
    match td.pid with
    | .setup => 0
    | .out => 1
    | .in => 2
  let toggle : Word :=
    match td.dataToggle with
    | .fromEd => 0
    | .data0 => 2
    | .data1 => 3
  let dword0 : Word :=
    flag td.bufferRounding 18 ||| pid <<< 19 ||| (td.delayInterrupt &&& 7).toUInt32 <<< 21 |||
      toggle <<< 24 ||| (td.errorCount &&& 3).toUInt32 <<< 26 |||
      conditionBits td.conditionCode <<< 28
  encodeDwords [dword0, td.currentBuffer, pointer td.next, td.bufferEnd]

def decode (bytes : Bytes) : TransferDescriptor :=
  let dword0 := decodeDword bytes 0
  { bufferRounding := hasFlag dword0 18
    pid :=
      if dword0 >>> 19 &&& 3 = 1 then .out
      else if dword0 >>> 19 &&& 3 = 2 then .in
      else .setup
    delayInterrupt := (dword0 >>> 21 &&& 7).toUInt8
    dataToggle :=
      if dword0 >>> 24 &&& 3 = 2 then .data0
      else if dword0 >>> 24 &&& 3 = 3 then .data1
      else .fromEd
    errorCount := (dword0 >>> 26 &&& 3).toUInt8
    conditionCode := .fromBits (dword0 >>> 28).toNat
    currentBuffer := decodeDword bytes 1
    next := decodeDword bytes 2
    bufferEnd := decodeDword bytes 3 }

/-- How many bytes of the buffer were filled. -/
def bytesTransferred (td : TransferDescriptor) (bufferStart bufferLen : Word) : ℕ :=
  if td.currentBuffer = 0 then bufferLen.toNat else td.currentBuffer.toNat - bufferStart.toNat

end TransferDescriptor

def HCCA : ℕ := 0
def HCCA_SIZE : ℕ := 256
def INTERRUPT_TABLE : ℕ := 0
def INTERRUPT_TABLE_ENTRIES : ℕ := 32
def DONE_HEAD : ℕ := 0x84
def CONTROL_ED : ℕ := 0x100
def INTERRUPT_ED : ℕ := 0x110
def TD_POOL : ℕ := 0x120
def TD_SLOTS : ℕ := 10
def BULK_IN_ED : ℕ := 0x1c0
def BULK_OUT_ED : ℕ := 0x1d0
def CONTROL_BUFFER : ℕ := 0x200
def CONTROL_BUFFER_LEN : ℕ := 0x200
def SETUP_BUFFER : ℕ := 0x400
def INTERRUPT_BUFFER : ℕ := 0x440
def INTERRUPT_BUFFER_LEN : ℕ := 0x40
def BULK_BUFFER : ℕ := 0x1000
def BULK_BUFFER_LEN : ℕ := 0x2000

/-- The length of the arena. -/
def SIZE : ℕ := 0x3000

def interruptTableEntry (index : ℕ) : ℕ := INTERRUPT_TABLE + 4 * (index % INTERRUPT_TABLE_ENTRIES)

def tdSlot (slot : ℕ) : ℕ := TD_POOL + 16 * (slot % TD_SLOTS)

/-- The walk of a done queue never goes on behind this many descriptors. -/
def DONE_QUEUE_LIMIT : ℕ := TD_SLOTS + 2

/-- Walk a retired done queue; the number of descriptors on it, or none if the chain is longer
than the limit. -/
def walkDoneQueue {m : Type → Type} [Monad m] (readTd : Word → m TransferDescriptor) :
    (limit : ℕ) → (current : Word) → m (Option ℕ)
  | 0, current => pure (if current = 0 then some 0 else none)
  | limit + 1, current =>
    if current = 0 then pure (some 0)
    else do
      let td ← readTd current
      let walked ← walkDoneQueue readTd limit (pointer td.next)
      pure (walked.map (· + 1))

end Eo9.Ohci
