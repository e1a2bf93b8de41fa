import Eo9.Ohci.Schedule

/-!
# Enumeration of a USB device

Setup packets (`setup.rs`), the descriptors that a device answers with (`descriptor.rs`), and the
machine that says what an enumeration does next (`enumerate.rs`).
-/

namespace Eo9.Ohci

open Eo9.Library

structure SetupPacket where
  requestType : UInt8
  request : UInt8
  value : UInt16
  index : UInt16
  length : UInt16

namespace SetupPacket

def encode (s : SetupPacket) : Bytes :=
  [s.requestType, s.request] ++ leBytes 2 s.value.toNat ++ leBytes 2 s.index.toNat ++
    leBytes 2 s.length.toNat

/-- The data stage goes to the host. -/
def isIn (s : SetupPacket) : Bool := s.requestType &&& 0x80 ≠ 0

end SetupPacket

def STANDARD_OUT_DEVICE : UInt8 := 0x00
def STANDARD_IN_DEVICE : UInt8 := 0x80
def GET_DESCRIPTOR : UInt8 := 6
def SET_ADDRESS : UInt8 := 5
def DEVICE : UInt8 := 1
def CONFIGURATION : UInt8 := 2

def setAddress (address : UInt8) : SetupPacket :=
  ⟨STANDARD_OUT_DEVICE, SET_ADDRESS, address.toUInt16, 0, 0⟩

def getDescriptor (descriptor index : UInt8) (length : UInt16) : SetupPacket :=
  ⟨STANDARD_IN_DEVICE, GET_DESCRIPTOR, descriptor.toUInt16 <<< 8 ||| index.toUInt16, 0, length⟩

/-- The byte at an index that the parsers have checked. -/
def byteAt (bytes : Bytes) (i : ℕ) : UInt8 := bytes[i]?.getD 0

def halfAt (bytes : Bytes) (i : ℕ) : UInt16 := UInt16.ofNat (leValue (sub bytes i 2))

structure DeviceDescriptor where
  usbVersion : UInt16
  deviceClass : UInt8
  subclass : UInt8
  protocol : UInt8
  maxPacketSizeEp0 : UInt8
  vendorId : UInt16
  productId : UInt16
  deviceVersion : UInt16
  manufacturerIndex : UInt8
  productIndex : UInt8
  serialIndex : UInt8
  numConfigurations : UInt8

namespace DeviceDescriptor

def parse (bytes : Bytes) : Option DeviceDescriptor :=
  if bytes.length < 18 ∨ byteAt bytes 0 < 18 ∨ byteAt bytes 1 ≠ DEVICE then none
  else some {
    usbVersion := halfAt bytes 2
    deviceClass := byteAt bytes 4
    subclass := byteAt bytes 5
    protocol := byteAt bytes 6
    maxPacketSizeEp0 := byteAt bytes 7
    vendorId := halfAt bytes 8
    productId := halfAt bytes 10
    deviceVersion := halfAt bytes 12
    manufacturerIndex := byteAt bytes 14
    productIndex := byteAt bytes 15
    serialIndex := byteAt bytes 16
    numConfigurations := byteAt bytes 17 }

def maxPacketSizeFromHead (head : Bytes) : Option UInt8 :=
  if head.length < 8 ∨ byteAt head 1 ≠ DEVICE then none else some (byteAt head 7)

end DeviceDescriptor

/-- `wTotalLength` of a configuration descriptor that parses. -/
def totalLength (bytes : Bytes) : Option UInt16 :=
  if bytes.length < 9 ∨ byteAt bytes 0 < 9 ∨ byteAt bytes 1 ≠ CONFIGURATION then none
  else some (halfAt bytes 2)

def RESET_RECOVERY_MS : ℕ := 10
def ADDRESS_SETTLE_MS : ℕ := 2
def MAX_CONFIG_BYTES : ℕ := 256

inductive Step where
  | resetPort
  | waitMs (ms : ℕ)
  | control (address maxPacket : UInt8) (setup : SetupPacket)
  | done

inductive Event where
  | portResetComplete
  | waited
  | controlDone (data : Bytes)

inductive EnumerationError where
  | malformedDescriptor
  | configurationTooLarge
  | protocolMismatch

inductive State where
  | resetIssued
  | resetRecovery
  | descriptorHead
  | setAddress
  | addressSettle
  | deviceDescriptor
  | configurationHead
  | configurationFull (total : UInt16)
  | done
  deriving DecidableEq

/-- The configuration is kept as far as it came. -/
structure Enumeration where
  address : UInt8
  state : State
  maxPacketEp0 : UInt8
  device : Bytes
  config : Bytes

structure Enumerated where
  address : UInt8
  maxPacketEp0 : UInt8
  device : DeviceDescriptor

namespace Enumeration

def new (address : UInt8) : Enumeration := ⟨address, .resetIssued, 8, List.replicate 18 0, []⟩

def nextAction (e : Enumeration) : Step :=
  match e.state with
  | .resetIssued => .resetPort
  | .resetRecovery => .waitMs RESET_RECOVERY_MS
  | .descriptorHead => .control 0 8 (getDescriptor DEVICE 0 8)
  | .setAddress => .control 0 e.maxPacketEp0 (Ohci.setAddress e.address)
  | .addressSettle => .waitMs ADDRESS_SETTLE_MS
  | .deviceDescriptor => .control e.address e.maxPacketEp0 (getDescriptor DEVICE 0 18)
  | .configurationHead => .control e.address e.maxPacketEp0 (getDescriptor CONFIGURATION 0 9)
  | .configurationFull total =>
    .control e.address e.maxPacketEp0 (getDescriptor CONFIGURATION 0 total)
  | .done => .done

def event (e : Enumeration) (event : Event) : Outcome EnumerationError Enumeration :=
  match e.state, event with
  | .resetIssued, .portResetComplete => .ok { e with state := .resetRecovery }
  | .resetRecovery, .waited => .ok { e with state := .descriptorHead }
  | .descriptorHead, .controlDone data =>
    match DeviceDescriptor.maxPacketSizeFromHead data with
    | none => Outcome.fail .malformedDescriptor
    | some size => .ok { e with maxPacketEp0 := size, state := .setAddress }
  | .setAddress, .controlDone _ => .ok { e with state := .addressSettle }
  | .addressSettle, .waited => .ok { e with state := .deviceDescriptor }
  | .deviceDescriptor, .controlDone data =>
    if (DeviceDescriptor.parse data).isNone then Outcome.fail .malformedDescriptor
    else do
      let head ← rangeOf data 0 18
      pure { e with device := head, state := .configurationHead }
  | .configurationHead, .controlDone data =>
    match totalLength data with
    | none => Outcome.fail .malformedDescriptor
    | some total =>
      if MAX_CONFIG_BYTES < total.toNat then Outcome.fail .configurationTooLarge
      else .ok { e with state := .configurationFull total }
  | .configurationFull _, .controlDone data => do
      let config ← rangeOf data 0 (min data.length MAX_CONFIG_BYTES)
      pure { e with config := config, state := .done }
  | _, _ => Outcome.fail .protocolMismatch

def result (e : Enumeration) : Option Enumerated :=
  if e.state ≠ .done then none
  else (DeviceDescriptor.parse e.device).map fun device => ⟨e.address, e.maxPacketEp0, device⟩

end Enumeration

end Eo9.Ohci
